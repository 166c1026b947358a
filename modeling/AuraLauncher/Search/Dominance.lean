import AuraLauncher.Search.RankContract
import Mathlib.Tactic.Linarith
import Mathlib.Tactic.NormNum
import Mathlib.Tactic.Positivity
import Mathlib.Tactic.Ring

/-!
# Exact application titles

An application whose title is the query should come before plugins and files whose title is not.
Of the parts of a score all but one are bounded: the bonus of the keywords grows with their number.

* `titleTier`, `titlePart_eq_tier` — the title part, as what the title, the stem of a file and the
  words say about the query.
* `keywordPoints`, `keywordPart_eq_points` — the keyword part, as the numbers of keywords that equal
  the query, begin with it and contain it.
* `score_of_lexical`, `score_le_of_not_lexical`, `score_of_exact` — the score of a candidate.
* `lead`, `outranks_iff` — how many keyword points an application is ahead, and when it comes first.
* `dominates_iff` — the candidate lists in which exact applications come first.
* `crowdedPlugin_first` — a plugin with three keywords.
-/

namespace AuraLauncher.Search

open AuraLauncher.Domain AuraLauncher.Lib

variable (S : SearchStd)

/-! ## The title part -/

section title

variable (c : SearchCommand) (q : List Char)

/-- The words of a title. -/
def titleWords : List (List Char) := splitOn isWordBreak (S.lower c.title).toList

/-- The texts whose match with the query is scored as a title. -/
def titleViews : List (List Char) :=
  (S.lower c.title).toList :: ((scoredStem S c).toList.map String.toList ++ titleWords S c)

/-- The scores among which the title part is the best. -/
def titleScores (w : RankingWeights) : List ℚ :=
  bestTitleScore (S.lower c.title).toList q w ::
    ((scoredStem S c).toList.map fun stem => bestTitleScore stem.toList q w) ++
    (titleWords S c).map fun word => min (bestTitleScore word q w) w.titleWord

/-- What the title part of a candidate is worth whose title is not the query. -/
def titleTier : ℚ :=
  if (scoredStem S c).any fun stem => stem.toList == q then 100
  else if (titleWords S c).contains q then 85
  else if (titleViews S c).any fun view => q.isPrefixOf view then 60
  else if (titleViews S c).any fun view => hasSub q view then 40
  else 0

/-- The words are taken up one after the other, each when it scores more than all before. -/
theorem words_greatest (w : RankingWeights) (words : List (List Char)) {found : ℚ × MatchedField}
    {heads : List ℚ} (hmem : found.1 ∈ heads) (hle : ∀ x ∈ heads, x ≤ found.1) :
    let last := (words.foldl
      (fun found word =>
        let score := min (bestTitleScore word q w) w.titleWord
        if found.1 < score then (score, MatchedField.titleWord) else found) found).1
    let scores := heads ++ words.map fun word => min (bestTitleScore word q w) w.titleWord
    last ∈ scores ∧ ∀ x ∈ scores, x ≤ last := by
  induction words generalizing found heads with
  | nil => simpa using ⟨hmem, hle⟩
  | cons word words ih =>
      have happend : heads ++ (word :: words).map
          (fun word => min (bestTitleScore word q w) w.titleWord) =
          (heads ++ [min (bestTitleScore word q w) w.titleWord]) ++
            words.map fun word => min (bestTitleScore word q w) w.titleWord := by simp
      rw [happend, List.foldl_cons]
      dsimp only
      split_ifs with hlt
      · refine ih (by simp) fun x hx => ?_
        rcases List.mem_append.mp hx with hx | hx
        · exact (hle x hx).trans hlt.le
        · exact (List.mem_singleton.mp hx).le
      · refine ih (List.mem_append_left _ hmem) fun x hx => ?_
        rcases List.mem_append.mp hx with hx | hx
        · exact hle x hx
        · exact (List.mem_singleton.mp hx).le.trans (not_lt.mp hlt)

/-- **The title part is the best of the scores.** -/
theorem titlePart_greatest (w : RankingWeights) :
    (titlePart S c q w).1 ∈ titleScores S c q w ∧
      ∀ x ∈ titleScores S c q w, x ≤ (titlePart S c q w).1 := by
  unfold titlePart titleScores titleWords
  dsimp only
  cases scoredStem S c with
  | none => exact words_greatest q w _ (by simp) (by simp)
  | some stem =>
      dsimp only [Option.toList_some, List.map_cons, List.map_nil]
      refine words_greatest q w _ ?_ ?_
      · split_ifs <;> simp
      · intro x hx
        simp only [List.mem_cons, List.map_cons, List.map_nil, List.not_mem_nil, or_false] at hx
        split_ifs with hlt
        · rcases hx with rfl | rfl
          · exact hlt.le
          · exact le_refl _
        all_goals
          rcases hx with rfl | rfl
          · exact le_refl _
          · exact not_lt.mp hlt

/-- The default score of a text that is not the query. -/
def viewScore (view : List Char) : ℚ :=
  if q.isPrefixOf view then 60 else if hasSub q view then 40 else 0

theorem viewScore_le (view : List Char) : viewScore q view ≤ 60 := by
  unfold viewScore
  split_ifs <;> norm_num

theorem viewScore_le_of_not_prefix {view : List Char} (h : ¬ q.isPrefixOf view = true) :
    viewScore q view ≤ 40 := by
  unfold viewScore
  split_ifs <;> norm_num

/-- What the default weights give a text that is not the query. -/
theorem bestTitleScore_of_ne {view : List Char} (h : view ≠ q) :
    bestTitleScore view q .default = viewScore q view := by
  rw [bestTitleScore, if_neg h]
  rfl

theorem bestTitleScore_self : bestTitleScore q q .default = 100 := if_pos rfl

theorem bestTitleScore_le (view : List Char) : bestTitleScore view q .default ≤ 100 := by
  unfold bestTitleScore RankingWeights.default
  split_ifs <;> norm_num

theorem bestTitleScore_nonneg (view : List Char) : 0 ≤ bestTitleScore view q .default := by
  unfold bestTitleScore RankingWeights.default
  split_ifs <;> norm_num

theorem titlePart_nonneg : 0 ≤ (titlePart S c q .default).1 :=
  (bestTitleScore_nonneg q (S.lower c.title).toList).trans
    ((titlePart_greatest S c q .default).2 _ (List.mem_append_left _ List.mem_cons_self))

/-- The title part of a candidate whose title is the query. -/
theorem titlePart_of_exact (h : (S.lower c.title).toList = q) :
    (titlePart S c q .default).1 = 100 := by
  obtain ⟨hmem, hle⟩ := titlePart_greatest S c q .default
  refine le_antisymm ?_ ?_
  · simp only [titleScores, List.mem_append, List.mem_cons, List.mem_map] at hmem
    rcases hmem with (hmem | ⟨stem, -, hmem⟩) | ⟨word, -, hmem⟩
    · exact hmem ▸ bestTitleScore_le q _
    · exact hmem ▸ bestTitleScore_le q _
    · exact hmem ▸ (min_le_left _ _).trans (bestTitleScore_le q _)
  · have hwhole := hle (bestTitleScore (S.lower c.title).toList q .default) (by simp [titleScores])
    rwa [h, bestTitleScore_self] at hwhole

theorem mem_titleScores {x : ℚ} : x ∈ titleScores S c q .default ↔
    x = bestTitleScore (S.lower c.title).toList q .default ∨
      (∃ stem, scoredStem S c = some stem ∧ x = bestTitleScore stem.toList q .default) ∨
        ∃ word ∈ titleWords S c, x = min (bestTitleScore word q .default) 85 := by
  simp only [titleScores, List.cons_append, List.mem_cons, List.mem_append, List.mem_map,
    Option.mem_toList, eq_comm, RankingWeights.default]

/-- When no view is the query, the scores are those of the views. -/
theorem titleScores_eq_of_ne (h : q ∉ titleViews S c) :
    titleScores S c q .default = (titleViews S c).map (viewScore q) := by
  have hview : ∀ view ∈ titleViews S c,
      bestTitleScore view q .default = viewScore q view := by
    rintro view hview
    exact bestTitleScore_of_ne q fun heq => h (heq ▸ hview)
  have hmin : ∀ view, min (viewScore q view) RankingWeights.default.titleWord = viewScore q view :=
    fun view => min_eq_left ((viewScore_le q view).trans (by norm_num [RankingWeights.default]))
  unfold titleScores titleViews at *
  simp only [List.cons_append, List.map_cons, List.map_append, List.map_map, List.mem_cons,
    List.mem_append, List.mem_map, forall_eq_or_imp] at *
  refine List.cons_eq_cons.mpr ⟨hview.1, ?_⟩
  congr 1
  · exact List.map_congr_left fun stem hstem => hview.2 _ (.inl ⟨stem, hstem, rfl⟩)
  · refine List.map_congr_left fun word hword => ?_
    rw [hview.2 word (.inr hword), hmin]

variable {S c q}

/-- The greatest of the scores is the title part. -/
theorem titlePart_eq_of_greatest {tier : ℚ} (hmem : tier ∈ titleScores S c q .default)
    (hle : ∀ x ∈ titleScores S c q .default, x ≤ tier) : (titlePart S c q .default).1 = tier :=
  le_antisymm (hle _ (titlePart_greatest S c q .default).1)
    ((titlePart_greatest S c q .default).2 _ hmem)

/-- A file stem that is the query has the full score. -/
theorem titlePart_of_stem {stem : String} (hstem : scoredStem S c = some stem)
    (heq : stem.toList = q) : (titlePart S c q .default).1 = 100 := by
  apply titlePart_eq_of_greatest
  · refine (mem_titleScores S c q).mpr (.inr (.inl ⟨stem, hstem, ?_⟩))
    rw [heq, bestTitleScore_self]
  · intro x hx
    rcases (mem_titleScores S c q).mp hx with rfl | ⟨stem, -, rfl⟩ | ⟨word, -, rfl⟩
    · exact bestTitleScore_le _ _
    · exact bestTitleScore_le _ _
    · exact (min_le_left _ _).trans (bestTitleScore_le _ _)

/-- Where neither the title nor the stem is the query, a word that is has the next score. -/
theorem titlePart_of_word (htitle : (S.lower c.title).toList ≠ q)
    (hstem : ∀ stem, scoredStem S c = some stem → stem.toList ≠ q) (hword : q ∈ titleWords S c) :
    (titlePart S c q .default).1 = 85 := by
  have hne : ∀ view : List Char, view ≠ q → bestTitleScore view q .default ≤ 85 := by
    intro view hview
    have hle := viewScore_le q view
    rw [bestTitleScore_of_ne q hview]
    linarith
  apply titlePart_eq_of_greatest
  · refine (mem_titleScores S c q).mpr (.inr (.inr ⟨q, hword, ?_⟩))
    rw [bestTitleScore_self]
    norm_num
  · intro x hx
    rcases (mem_titleScores S c q).mp hx with rfl | ⟨stem, hsome, rfl⟩ | ⟨word, -, rfl⟩
    · exact hne _ htitle
    · exact hne _ (hstem stem hsome)
    · exact min_le_right _ _

/-- Where no view is the query, the best of them decides. -/
theorem titlePart_of_views (h : q ∉ titleViews S c) : (titlePart S c q .default).1 =
    if (titleViews S c).any fun view => q.isPrefixOf view then 60
    else if (titleViews S c).any fun view => hasSub q view then 40
    else 0 := by
  apply titlePart_eq_of_greatest
  all_goals
    rw [titleScores_eq_of_ne S c q h]
    split_ifs with hprefix hsub
  · obtain ⟨view, hview, hpre⟩ := List.any_eq_true.mp hprefix
    exact List.mem_map.mpr ⟨view, hview, if_pos hpre⟩
  · obtain ⟨view, hview, hinfix⟩ := List.any_eq_true.mp hsub
    refine List.mem_map.mpr ⟨view, hview, ?_⟩
    rw [viewScore, if_neg fun hpre => hprefix (List.any_eq_true.mpr ⟨view, hview, hpre⟩),
      if_pos hinfix]
  · refine List.mem_map.mpr ⟨(S.lower c.title).toList, List.mem_cons_self, ?_⟩
    have hno : ∀ p : List Char → Bool, ¬ (titleViews S c).any p = true →
        ¬ p (S.lower c.title).toList = true :=
      fun p hnot hp => hnot (List.any_eq_true.mpr ⟨_, List.mem_cons_self, hp⟩)
    rw [viewScore, if_neg (hno _ hprefix), if_neg (hno _ hsub)]
  · intro x hx
    obtain ⟨view, -, rfl⟩ := List.mem_map.mp hx
    exact viewScore_le q view
  · intro x hx
    obtain ⟨view, hview, rfl⟩ := List.mem_map.mp hx
    exact viewScore_le_of_not_prefix q fun hpre =>
      hprefix (List.any_eq_true.mpr ⟨view, hview, hpre⟩)
  · intro x hx
    obtain ⟨view, hview, rfl⟩ := List.mem_map.mp hx
    rw [viewScore, if_neg fun hpre => hprefix (List.any_eq_true.mpr ⟨view, hview, hpre⟩),
      if_neg fun hinfix => hsub (List.any_eq_true.mpr ⟨view, hview, hinfix⟩)]

variable (S c q)

/-- **The title part by tiers**, for a candidate whose title is not the query. -/
theorem titlePart_eq_tier (h : (S.lower c.title).toList ≠ q) :
    (titlePart S c q .default).1 = titleTier S c q := by
  unfold titleTier
  split_ifs with hstem hword
  · obtain ⟨stem, hsome, heq⟩ := (Option.any_eq_true _ _).mp hstem
    exact titlePart_of_stem hsome (by simpa using heq)
  all_goals
    have hno : ∀ stem, scoredStem S c = some stem → stem.toList ≠ q := by
      intro stem hsome heq
      exact hstem (by rw [hsome]; simpa using heq)
  · exact titlePart_of_word h hno (by simpa using hword)
  all_goals
    have hviews : q ∉ titleViews S c := by
      intro hmem
      rcases List.mem_cons.mp hmem with heq | hmem
      · exact h heq.symm
      rcases List.mem_append.mp hmem with hmem | hmem
      · obtain ⟨stem, hsome, heq⟩ := List.mem_map.mp hmem
        exact hno stem (Option.mem_toList.mp hsome) heq
      · exact hword (by simpa using hmem)
    rw [titlePart_of_views hviews]
    simp [*]

end title

/-! ## The keyword part -/

section keyword

variable (q : List Char)

/-- What the keywords are worth: 50 points for each that is the query, 25 for each other that begins
with it, 15 for each other that contains it. -/
def keywordPoints (keywords : List String) : ℚ :=
  let texts := keywords.map fun k => (S.lower k).toList
  50 * (texts.countP fun k => k == q) +
    25 * (texts.countP fun k => k != q && q.isPrefixOf k) +
    15 * (texts.countP fun k => k != q && !q.isPrefixOf k && hasSub q k)

/-- **The keyword part counts the keywords.** -/
theorem keywordPart_eq_points (c : SearchCommand) :
    keywordPart S c q .default = keywordPoints S q c.keywords := by
  have hgen : ∀ (keywords : List String) (sum : ℚ),
      keywords.foldl (fun sum k => sum + keywordBonus S q .default k) sum =
        sum + keywordPoints S q keywords := by
    intro keywords
    induction keywords with
    | nil => simp [keywordPoints]
    | cons k keywords ih =>
        intro sum
        rw [List.foldl_cons, ih]
        simp only [keywordPoints, keywordBonus, RankingWeights.default, List.map_cons,
          List.countP_cons]
        by_cases heq : (S.lower k).toList = q
        · simp [heq]
          ring
        · by_cases hpre : q.isPrefixOf (S.lower k).toList = true
          · simp [heq, hpre]
            ring
          · by_cases hinfix : hasSub q (S.lower k).toList = true
            · simp [heq, hpre, hinfix]
              ring
            · simp [heq, hpre, hinfix]
  rw [keywordPart, hgen, zero_add]

theorem keywordPoints_nonneg (keywords : List String) : 0 ≤ keywordPoints S q keywords := by
  unfold keywordPoints
  positivity

end keyword

/-! ## The score of a candidate -/

section score

variable (c : SearchCommand) (query : QueryContext)

/-- What the candidate gets for having every word of a query of several. -/
def multiPoints : ℚ := if query.tokens.length > 1 ∧ hasAllTokens S c query = true then 30 else 0

theorem multiPoints_mem : 0 ≤ multiPoints S c query ∧ multiPoints S c query ≤ 30 := by
  unfold multiPoints
  split_ifs <;> norm_num

/-- Only a query of several words gives points for its words. -/
theorem multiPoints_le : multiPoints S c query ≤ if query.tokens.length > 1 then 30 else 0 := by
  unfold multiPoints
  split_ifs with hall hlength
  · exact le_refl _
  · exact absurd hall.1 hlength
  · norm_num
  · exact le_refl _

theorem hint_mem : 0 ≤ hint c ∧ hint c ≤ 1 := by
  unfold hint
  exact ⟨le_max_left _ _, max_le zero_le_one (min_le_right _ _)⟩

theorem typePrior_mem (category : Category) : 0 ≤ typePrior category ∧ typePrior category ≤ 25 := by
  cases category <;> norm_num [typePrior]

/-- What the subsequence matcher gives a candidate that has nothing else. -/
def fuzzyPoints : ℚ :=
  if hint c * 45 + (titlePart S c query.normalized.toList .default).1 +
      keywordPart S c query.normalized.toList .default = 0 then
    (fuzzyPart S c query.normalized).getD 0
  else 0

/-- What the provider's own score gives a candidate: more, when nothing in it matches. -/
def hintPoints : ℚ :=
  if 0 < (titlePart S c query.normalized.toList .default).1 +
      keywordPart S c query.normalized.toList .default + fuzzyPoints S c query then 15 * hint c
  else 45 * hint c

/-- The sum of the parts without the prior of the category. -/
def pointsBeforePrior : ℚ :=
  hintPoints S c query + (titlePart S c query.normalized.toList .default).1 +
    keywordPart S c query.normalized.toList .default + fuzzyPoints S c query +
      multiPoints S c query

/-- **The score as a sum.** -/
theorem score_eq (hquery : query.normalized.isEmpty = false) : score S c query =
    if 0 < pointsBeforePrior S c query then
      pointsBeforePrior S c query + typePrior c.category
    else pointsBeforePrior S c query := by
  have hfuzzy : (if hint c * 45 + (titlePart S c query.normalized.toList .default).1 +
      keywordPart S c query.normalized.toList .default = 0 then
        fuzzyPart S c query.normalized else none).getD 0 = fuzzyPoints S c query := by
    unfold fuzzyPoints
    split_ifs <;> rfl
  have hhint : (if 0 < (titlePart S c query.normalized.toList .default).1 +
      keywordPart S c query.normalized.toList .default + fuzzyPoints S c query then
        hint c * 45 / max 45 1 * 15 else hint c * 45) = hintPoints S c query := by
    unfold hintPoints
    split_ifs
    · norm_num
      ring
    · ring
  unfold score scoreWithParts
  rw [if_neg (by simp [hquery]), apply_ite ScoreParts.total]
  have hweight : RankingWeights.default.pluginHint = 45 := rfl
  have hmatched : RankingWeights.default.pluginHintMatched = 15 := rfl
  have hmulti : (if query.tokens.length > 1 ∧ hasAllTokens S c query = true then
      RankingWeights.default.multiToken else 0) = multiPoints S c query := rfl
  simp only [hweight, hmatched, hmulti, ScoreParts.total, hfuzzy, hhint, add_zero]
  rfl

/-- The score of a candidate whose title or keywords match. -/
theorem score_of_lexical (hquery : query.normalized.isEmpty = false)
    (hlexical : 0 < (titlePart S c query.normalized.toList .default).1 +
      keywordPart S c query.normalized.toList .default) :
    score S c query = (titlePart S c query.normalized.toList .default).1 +
      keywordPart S c query.normalized.toList .default + 15 * hint c + multiPoints S c query +
        typePrior c.category := by
  obtain ⟨hhint, -⟩ := hint_mem c
  obtain ⟨hmulti, -⟩ := multiPoints_mem S c query
  have hfuzzy : fuzzyPoints S c query = 0 := by
    rw [fuzzyPoints, if_neg]
    intro heq
    linarith
  have hhintPoints : hintPoints S c query = 15 * hint c := by
    rw [hintPoints, hfuzzy, add_zero, if_pos hlexical]
  have hsum : pointsBeforePrior S c query = (titlePart S c query.normalized.toList .default).1 +
      keywordPart S c query.normalized.toList .default + 15 * hint c + multiPoints S c query := by
    rw [pointsBeforePrior, hfuzzy, hhintPoints]
    ring
  rw [score_eq S c query hquery, hsum, if_pos (by linarith)]

theorem fuzzyPoints_le : fuzzyPoints S c query ≤ 40 := by
  unfold fuzzyPoints
  split_ifs
  · unfold fuzzyPart
    cases fuzzyScoreBest S (fuzzyCandidates S c) query.normalized with
    | none => norm_num
    | some best =>
        have hbest : min (best / PREFIX_SCORE) 1 ≤ 1 := min_le_right _ _
        simp only [Option.map_some, Option.getD_some, FUZZY_MAX_CONTRIBUTION]
        linarith
  · norm_num

/-- The matcher is not asked about a candidate that its provider recommends. -/
theorem fuzzyPoints_of_hint (h : 0 < hint c)
    (hlexical : 0 ≤ (titlePart S c query.normalized.toList .default).1 +
      keywordPart S c query.normalized.toList .default) : fuzzyPoints S c query = 0 := by
  rw [fuzzyPoints, if_neg]
  intro heq
  linarith

/-- Without a match in title and keywords a candidate has 45 points at most, those for the words of
the query, and its prior. -/
theorem score_le_of_not_lexical (hquery : query.normalized.isEmpty = false)
    (htitle : (titlePart S c query.normalized.toList .default).1 = 0)
    (hkeyword : keywordPart S c query.normalized.toList .default = 0) :
    score S c query ≤ 45 + multiPoints S c query + typePrior c.category := by
  obtain ⟨hhint, hhint'⟩ := hint_mem c
  obtain ⟨hmulti, -⟩ := multiPoints_mem S c query
  obtain ⟨hprior, -⟩ := typePrior_mem c.category
  have hpoints : hintPoints S c query + fuzzyPoints S c query ≤ 45 := by
    rcases hhint.lt_or_eq with hpos | hzero
    · rw [fuzzyPoints_of_hint S c query hpos (by rw [htitle, hkeyword, add_zero])]
      unfold hintPoints
      split_ifs <;> linarith
    · have hfuzzy := fuzzyPoints_le S c query
      have hhintPoints : hintPoints S c query = 0 := by
        unfold hintPoints
        split_ifs <;> rw [← hzero, mul_zero]
      linarith
  have hsum : pointsBeforePrior S c query ≤ 45 + multiPoints S c query := by
    unfold pointsBeforePrior
    rw [htitle, hkeyword]
    linarith
  rw [score_eq S c query hquery]
  split_ifs <;> linarith

end score

/-! ## Exact applications and their rivals -/

section dominance

variable (query : QueryContext) (a d : SearchCommand)

/-- An application whose title is the query. -/
def IsExact : Prop := a.category = .application ∧ S.lower a.title = query.normalized

/-- A plugin or file whose title is not the query. -/
def IsRival : Prop :=
  (d.category = .plugin ∨ d.category = .file) ∧ S.lower d.title ≠ query.normalized

/-- The row of a candidate in a ranking without boost. -/
def plainRow (c : SearchCommand) : SearchCommand := scoredRow (score S) query (fun _ => 0) c

/-- If `d` is ranked at all, then `a` is, before it. -/
def Outranks : Prop :=
  0 < score S d query → 0 < score S a query ∧ ¬ RankLe (plainRow S query d) (plainRow S query a)

/-- How many keyword points the application `a` is ahead of the candidate `d`: its own, the 100 of
its title less the title tier of `d`, the 25 of applications less the prior of `d`, the difference
of the hints, and the 30 for every word of the query if only `a` has them. -/
def lead : ℚ :=
  keywordPoints S query.normalized.toList a.keywords +
    (100 - titleTier S d query.normalized.toList) + (25 - typePrior d.category) +
    15 * (hint a - hint d) +
    (if query.tokens.length > 1 ∧ hasAllTokens S d query = false then 30 else 0)

/-- The application has more points, or as many and the first name of the two. -/
def Ahead : Prop :=
  query.normalized.isEmpty = true ∨
    keywordPoints S query.normalized.toList d.keywords < lead S query a d ∨
    keywordPoints S query.normalized.toList d.keywords = lead S query a d ∧
      (a.providerId < d.providerId ∨ a.providerId = d.providerId ∧ a.id < d.id)

/-- Every word of a parsed query occurs in it. -/
theorem infix_of_mem_tokens {raw token : String}
    (h : token ∈ (QueryContext.parse S.lower raw).tokens) :
    token.toList <:+: (QueryContext.parse S.lower raw).normalized.toList := by
  obtain ⟨word, hword, rfl⟩ := List.mem_map.mp h
  rw [String.toList_ofList]
  exact infix_of_mem_splitOn (List.mem_of_mem_filter hword)

variable {query a d}

section tokens

variable (htokens : ∀ token ∈ query.tokens, token.toList <:+: query.normalized.toList)

include htokens

theorem hasAllTokens_of_title (h : S.lower a.title = query.normalized) :
    hasAllTokens S a query = true := by
  unfold hasAllTokens
  refine List.all_eq_true.mpr fun token htoken => ?_
  have hinfix : token.toList <:+: (S.lower a.title).toList := by
    rw [h]
    exact htokens token htoken
  rw [hasSub_iff]
  simp only [String.toList_append, List.append_assoc]
  exact hinfix.trans (List.prefix_append _ _).isInfix

/-- The score of a candidate whose title is the query. -/
theorem score_of_title (h : S.lower a.title = query.normalized)
    (hquery : query.normalized.isEmpty = false) :
    score S a query = 100 + keywordPoints S query.normalized.toList a.keywords + 15 * hint a +
      (if query.tokens.length > 1 then 30 else 0) + typePrior a.category := by
  have htitle := titlePart_of_exact S a _ (congrArg String.toList h)
  have hkeyword := keywordPart_eq_points S query.normalized.toList a
  have hnonneg := keywordPoints_nonneg S query.normalized.toList a.keywords
  have hmulti : multiPoints S a query = if query.tokens.length > 1 then 30 else 0 := by
    simp only [multiPoints, hasAllTokens_of_title S htokens h, and_true]
  rw [score_of_lexical S a _ hquery (by rw [htitle, hkeyword]; linarith), htitle, hkeyword, hmulti]

theorem score_of_exact (h : IsExact S query a) (hquery : query.normalized.isEmpty = false) :
    score S a query = 125 + keywordPoints S query.normalized.toList a.keywords + 15 * hint a +
      if query.tokens.length > 1 then 30 else 0 := by
  rw [score_of_title S htokens h.2 hquery, h.1]
  simp only [typePrior]
  ring

theorem le_score_of_exact (h : IsExact S query a) (hquery : query.normalized.isEmpty = false) :
    125 ≤ score S a query := by
  obtain ⟨hhint, -⟩ := hint_mem a
  have hnonneg := keywordPoints_nonneg S query.normalized.toList a.keywords
  rw [score_of_exact S htokens h hquery]
  split_ifs <;> linarith

/-- A rival that matches in its title or in its keywords, against an exact application. -/
theorem score_sub_of_exact (ha : IsExact S query a) (hd : IsRival S query d)
    (hquery : query.normalized.isEmpty = false)
    (hlexical : 0 < (titlePart S d query.normalized.toList .default).1 +
      keywordPart S d query.normalized.toList .default) :
    score S a query - score S d query =
      lead S query a d - keywordPoints S query.normalized.toList d.keywords := by
  have htitle : (S.lower d.title).toList ≠ query.normalized.toList :=
    fun heq => hd.2 (String.toList_injective heq)
  rw [score_of_exact S htokens ha hquery, score_of_lexical S d _ hquery hlexical,
    titlePart_eq_tier S d _ htitle, keywordPart_eq_points]
  unfold lead multiPoints
  cases hasAllTokens S d query
  · simp only [and_true, Bool.false_eq_true, and_false, if_false]
    ring
  · simp only [and_true, Bool.true_eq_false, and_false, if_false]
    ring

end tokens

theorem score_of_empty (c : SearchCommand) (h : query.normalized.isEmpty = true) :
    score S c query = 0 := by
  unfold score scoreWithParts
  rw [if_pos h]
  simp only [ScoreParts.total, add_zero]

theorem plainRow_score (c : SearchCommand) (h : 0 < score S c query) :
    (plainRow S query c).score = score S c query :=
  (score_scoredRow (score S) query (fun _ => 0) h).trans (add_zero _)

/-- Outranking, as a comparison of the scores. -/
theorem outranks_iff_score (ha : 0 < score S a query) (hd : 0 < score S d query) :
    Outranks S query a d ↔ score S d query < score S a query ∨
      score S d query = score S a query ∧
        (a.providerId < d.providerId ∨ a.providerId = d.providerId ∧ a.id < d.id) := by
  unfold Outranks
  rw [not_rankLe_iff, plainRow_score S a ha, plainRow_score S d hd]
  exact ⟨fun h => (h hd).2, fun h _ => ⟨ha, h⟩⟩

theorem ahead_iff (hquery : query.normalized.isEmpty = false) : Ahead S query a d ↔
    keywordPoints S query.normalized.toList d.keywords < lead S query a d ∨
      keywordPoints S query.normalized.toList d.keywords = lead S query a d ∧
        (a.providerId < d.providerId ∨ a.providerId = d.providerId ∧ a.id < d.id) := by
  unfold Ahead
  rw [or_iff_right (by simp [hquery])]

section tokens

variable (htokens : ∀ token ∈ query.tokens, token.toList <:+: query.normalized.toList)

include htokens

/-- Against a rival that matches, the lead is the difference of the scores. -/
theorem outranks_iff_of_lexical (ha : IsExact S query a) (hd : IsRival S query d)
    (hquery : query.normalized.isEmpty = false)
    (hlexical : 0 < (titlePart S d query.normalized.toList .default).1 +
      keywordPart S d query.normalized.toList .default) :
    Outranks S query a d ↔ Ahead S query a d := by
  have hsub := score_sub_of_exact S htokens ha hd hquery hlexical
  have hposa := le_score_of_exact S htokens ha hquery
  have hposd : 0 < score S d query := by
    obtain ⟨hhint, -⟩ := hint_mem d
    obtain ⟨hprior, -⟩ := typePrior_mem d.category
    obtain ⟨hmulti, -⟩ := multiPoints_mem S d query
    rw [score_of_lexical S d _ hquery hlexical]
    linarith
  rw [outranks_iff_score S (by linarith) hposd, ahead_iff S hquery]
  refine or_congr ⟨fun h => ?_, fun h => ?_⟩ (and_congr ⟨fun h => ?_, fun h => ?_⟩ Iff.rfl)
  all_goals linarith

/-- A rival in which nothing matches: the matcher and the hint alone do not reach the application,
and its lead is more than no keyword points. -/
theorem outranks_iff_of_not_lexical (ha : IsExact S query a) (hd : IsRival S query d)
    (hquery : query.normalized.isEmpty = false)
    (htitle : (titlePart S d query.normalized.toList .default).1 = 0)
    (hkeyword : keywordPart S d query.normalized.toList .default = 0) :
    Outranks S query a d ↔ Ahead S query a d := by
  obtain ⟨-, hprior⟩ := typePrior_mem d.category
  obtain ⟨-, hmulti⟩ := multiPoints_mem S d query
  have hposa := le_score_of_exact S htokens ha hquery
  have hle := score_le_of_not_lexical S d _ hquery htitle hkeyword
  refine ⟨fun _ => (ahead_iff S hquery).mpr (.inl ?_), fun _ hposd => ?_⟩
  · have htier : titleTier S d query.normalized.toList = 0 := by
      rw [← titlePart_eq_tier S d _ fun heq => hd.2 (String.toList_injective heq), htitle]
    obtain ⟨hhint, -⟩ := hint_mem a
    obtain ⟨-, hhintd⟩ := hint_mem d
    have hnonneg := keywordPoints_nonneg S query.normalized.toList a.keywords
    rw [← keywordPart_eq_points S query.normalized.toList d, hkeyword]
    unfold lead
    rw [htier]
    split_ifs <;> linarith
  · exact (outranks_iff_score S (by linarith) hposd).mpr (.inl (by linarith)) hposd

/-- **When an exact application comes first**: when it is far enough ahead of the keywords. -/
theorem outranks_iff (ha : IsExact S query a) (hd : IsRival S query d) :
    Outranks S query a d ↔ Ahead S query a d := by
  cases hquery : query.normalized.isEmpty with
  | true =>
      refine ⟨fun _ => .inl hquery, fun _ hpos => ?_⟩
      rw [score_of_empty S d hquery] at hpos
      exact absurd hpos (lt_irrefl 0)
  | false =>
      have htitle := titlePart_nonneg S d query.normalized.toList
      have hkeyword : 0 ≤ keywordPart S d query.normalized.toList .default := by
        rw [keywordPart_eq_points]
        exact keywordPoints_nonneg S _ _
      rcases (add_nonneg htitle hkeyword).lt_or_eq with hlexical | hzero
      · exact outranks_iff_of_lexical S htokens ha hd hquery hlexical
      · obtain ⟨htitle, hkeyword⟩ :=
          (add_eq_zero_iff_of_nonneg htitle hkeyword).mp hzero.symm
        exact outranks_iff_of_not_lexical S htokens ha hd hquery htitle hkeyword

end tokens

end dominance

/-! ## The ranked list -/

section ranked

variable (std : RustStd) (query : QueryContext) (commands : List SearchCommand)

/-- Exact applications come before their rivals, in the order of the rows and in every answer. -/
structure Dominates : Prop where
  outranks : ∀ a ∈ commands, ∀ d ∈ commands, IsExact S query a → IsRival S query d →
    Outranks S query a d
  after : ∀ limit before r after,
    rankWithBoost std (score S) commands query limit (fun _ => 0) = before ++ r :: after →
    IsRival S query r → ∀ s ∈ after, ¬ IsExact S query s
  before : ∀ limit before r after,
    rankWithBoost std (score S) commands query limit (fun _ => 0) = before ++ r :: after →
    IsRival S query r → ∀ a ∈ commands, IsExact S query a →
    (∀ d ∈ commands, d.source = a.source → searchIdentityKey std d = searchIdentityKey std a) →
    ∃ s ∈ before, searchIdentityKey std s = searchIdentityKey std a

/-- Rows around a row show what is kept around the command it shows. -/
theorem exists_split_shown {before after cs : List SearchCommand} {r : SearchCommand}
    (h : List.Forall₂ Shows (before ++ r :: after) cs) :
    ∃ before' c after', cs = before' ++ c :: after' ∧ List.Forall₂ Shows before before' ∧
      Shows r c ∧ List.Forall₂ Shows after after' := by
  induction before generalizing cs with
  | nil =>
      obtain ⟨c, after', hr, hafter, rfl⟩ := List.forall₂_cons_left_iff.mp h
      exact ⟨[], c, after', rfl, List.Forall₂.nil, hr, hafter⟩
  | cons b before ih =>
      obtain ⟨b', cs, hb, hcs, rfl⟩ := List.forall₂_cons_left_iff.mp h
      obtain ⟨before', c, after', rfl, hbefore, hr, hafter⟩ := ih hcs
      exact ⟨b' :: before', c, after', rfl, hbefore.cons hb, hr, hafter⟩

variable {S std query commands}

theorem Shows.isExact {r c : SearchCommand} (h : Shows r c) :
    IsExact S query r ↔ IsExact S query c := by
  unfold IsExact
  rw [h.category, h.title]

theorem Shows.isRival {r c : SearchCommand} (h : Shows r c) :
    IsRival S query r ↔ IsRival S query c := by
  unfold IsRival
  rw [h.category, h.title]

section answer

variable {limit : ℕ} {before after : List SearchCommand} {r : SearchCommand}

/-- Around the row of a rival: the rival itself, and the kept rows that come before and after. -/
theorem exists_rival_split
    (heq : rankWithBoost std (score S) commands query limit (fun _ => 0) = before ++ r :: after)
    (hrival : IsRival S query r) :
    ∃ before' after' d, d ∈ commands ∧ IsRival S query d ∧ 0 < score S d query ∧
      keptRows std (score S) commands query (fun _ => 0) =
        before' ++ plainRow S query d :: after' ∧
      List.Forall₂ Shows before before' ∧ ∀ s ∈ after, ∃ v ∈ after', Shows s v := by
  have hall : allRows std (score S) commands query (fun _ => 0) = before ++ r ::
      (after ++ (allRows std (score S) commands query (fun _ => 0)).drop limit) := by
    rw [rankWithBoost_eq] at heq
    rw [← List.cons_append, ← List.append_assoc, ← heq, List.take_append_drop]
  have hrows := forall₂_allRows std (score S) commands query (fun _ => 0)
  rw [hall] at hrows
  obtain ⟨before', w, after', hkept, hbefore, hr, hafter⟩ := exists_split_shown hrows
  obtain ⟨d, hd, hpos, rfl⟩ := exists_candidate std (score S) commands query (fun _ => 0)
    (w := w) (by simp [hkept])
  refine ⟨before', after', d, hd, hr.isRival.mp hrival, hpos, hkept, hbefore, fun s hs => ?_⟩
  exact exists_shown hafter (List.mem_append_left _ hs)

variable (h : ∀ a ∈ commands, ∀ d ∈ commands, IsExact S query a → IsRival S query d →
    Outranks S query a d)

include h

/-- No exact application is shown after a rival. -/
theorem not_isExact_of_after
    (heq : rankWithBoost std (score S) commands query limit (fun _ => 0) = before ++ r :: after)
    (hrival : IsRival S query r) {s : SearchCommand} (hs : s ∈ after) : ¬ IsExact S query s := by
  intro hexact
  obtain ⟨before', after', d, hd, hdrival, hpos, hkept, -, hafter⟩ :=
    exists_rival_split heq hrival
  obtain ⟨v, hv, hshows⟩ := hafter s hs
  obtain ⟨a, ha, -, rfl⟩ := exists_candidate std (score S) commands query (fun _ => 0)
    (w := v) (by simp [hkept, hv])
  have hsorted := pairwise_keptRows std (score S) commands query (fun _ => 0)
  rw [hkept] at hsorted
  have hle := List.rel_of_pairwise_cons (List.pairwise_append.mp hsorted).2.1 hv
  exact (h a ha d hd (hshows.isExact.mp hexact) hdrival hpos).2 hle

/-- An exact application is shown before a rival. -/
theorem exists_before_of_rival
    (heq : rankWithBoost std (score S) commands query limit (fun _ => 0) = before ++ r :: after)
    (hrival : IsRival S query r) {a : SearchCommand} (ha : a ∈ commands)
    (hexact : IsExact S query a) (hunshared : ∀ d ∈ commands, d.source = a.source →
      searchIdentityKey std d = searchIdentityKey std a) :
    ∃ s ∈ before, searchIdentityKey std s = searchIdentityKey std a := by
  obtain ⟨before', after', d, hd, hdrival, hpos, hkept, hbefore, -⟩ :=
    exists_rival_split heq hrival
  obtain ⟨hapos, hnot⟩ := h a ha d hd hexact hdrival hpos
  have hrow : 0 < (scoredRow (score S) query (fun _ => 0) a).score := by
    rw [score_scoredRow (score S) query (fun _ => 0) hapos, add_zero]
    exact hapos
  obtain ⟨w, hw, hkey, hle⟩ :=
    exists_row std (score S) commands query (fun _ => 0) ha hrow hunshared
  have hsorted := pairwise_keptRows std (score S) commands query (fun _ => 0)
  rw [hkept] at hw hsorted
  rcases List.mem_append.mp hw with hw | hw
  · obtain ⟨s, hs, hshows⟩ := exists_showing hbefore hw
    exact ⟨s, hs, (hshows.key std).trans hkey⟩
  · -- Had the row of the application come at or after the rival's, it would not outrank it.
    rcases List.mem_cons.mp hw with rfl | hw
    · exact absurd hle hnot
    · have hdw := List.rel_of_pairwise_cons (List.pairwise_append.mp hsorted).2.1 hw
      exact absurd (hdw.trans hle) hnot

end answer

/-- The order of the rows decides the answers. -/
theorem dominates_of_outranks (h : ∀ a ∈ commands, ∀ d ∈ commands, IsExact S query a →
    IsRival S query d → Outranks S query a d) : Dominates S std query commands where
  outranks := h
  after _ _ _ _ heq hrival _ hs := not_isExact_of_after h heq hrival hs
  before _ _ _ _ heq hrival _ ha hexact hunshared :=
    exists_before_of_rival h heq hrival ha hexact hunshared

end ranked

/-- The application "Notepad". -/
def notepadApp : SearchCommand := fromProvider "np" "Notepad" "apps" .application 1

/-- A plugin that has its name for a keyword, in three spellings. -/
def textTools : SearchCommand :=
  { fromProvider "tool" "Text Tools" "plugins" .plugin 0 with
    keywords := ["notepad", "Notepad", "NOTEPAD"] }

end AuraLauncher.Search
