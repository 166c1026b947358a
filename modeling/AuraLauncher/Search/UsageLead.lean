import AuraLauncher.Search.Core
import AuraLauncher.Search.Dominance

/-!
# Usage and exact titles

`launcher-core/src/lib.rs`, `usage_boost`, says of itself that it is enough to reorder candidates
within a match class and never enough to beat an exact match. It adds 42 points at most. A title
that is the query has 100, and a title in which the query is a word has 85; keywords add to both.

* `usageBoost_le`, `usageBoost_congr`, `usageBoost_single` — the boost: at most 42 points, for a
  provider and an id, and reached.
* `Above` — a candidate that ranks above another.
* `usageLead` — how many points a candidate whose title is the query is ahead of one whose title is
  not.
* `Unmoved` — usage does not lift the one above the other, in the rows or in an answer.
* `unmoved_iff` — it does not when the lead is more than 42, and in some cases of no interest.
* `usedDesktop_first` — an application in whose title the query is the first word.
-/

namespace AuraLauncher.Search

open AuraLauncher.Domain AuraLauncher.Lib

/-! ## The boost -/

theorem usageBoost_nonneg (usage : List UsageEntry) (now : ℕ) (c : SearchCommand) :
    0 ≤ usageBoost usage now c := by
  unfold usageBoost
  cases usage.reverse.find? fun e => e.providerId == c.providerId && e.commandId == c.id with
  | none => exact le_refl 0
  | some e =>
      dsimp only
      split_ifs <;> positivity

/-- **Usage adds 42 points at most.** -/
theorem usageBoost_le (usage : List UsageEntry) (now : ℕ) (c : SearchCommand) :
    usageBoost usage now c ≤ 42 := by
  unfold usageBoost
  cases usage.reverse.find? fun e => e.providerId == c.providerId && e.commandId == c.id with
  | none => norm_num
  | some e =>
      have huses : ((min e.uses 10 : ℕ) : ℚ) ≤ 10 := by exact_mod_cast min_le_right e.uses 10
      dsimp only
      split_ifs <;> linarith

/-- Usage is recorded for a provider and an id. -/
theorem usageBoost_congr (usage : List UsageEntry) (now : ℕ) {a d : SearchCommand}
    (h : a.source = d.source) : usageBoost usage now a = usageBoost usage now d := by
  obtain ⟨hprovider, hid⟩ := Prod.mk.inj h
  unfold usageBoost
  rw [hprovider, hid]

/-- A command that was used ten times, and is used now. -/
def wornOut (d : SearchCommand) (now : ℕ) : List UsageEntry := [⟨d.id, d.providerId, 10, now⟩]

theorem usageBoost_single (d : SearchCommand) (now : ℕ) :
    usageBoost (wornOut d now) now d = 42 := by
  simp [usageBoost, wornOut]
  norm_num

theorem usageBoost_other {a d : SearchCommand} (h : a.source ≠ d.source) (now : ℕ) :
    usageBoost (wornOut d now) now a = 0 := by
  have hne : ¬ (d.providerId = a.providerId ∧ d.id = a.id) :=
    fun heq => h (Prod.ext heq.1.symm heq.2.symm)
  simp [usageBoost, wornOut, hne]

/-! ## The lead -/

section lead

variable (S : SearchStd) (query : QueryContext) (a d : SearchCommand)

/-- The first of the two in the order of the names. -/
def Before : Prop := a.providerId < d.providerId ∨ a.providerId = d.providerId ∧ a.id < d.id

/-- The candidate `d` matches, and its row comes before that of `a`. -/
def Above (boost : SearchCommand → ℚ) : Prop :=
  0 < (scoredRow (score S) query boost d).score ∧
    ¬ RankLe (scoredRow (score S) query boost a) (scoredRow (score S) query boost d)

instance (boost : SearchCommand → ℚ) : Decidable (Above S query a d boost) :=
  inferInstanceAs (Decidable (_ ∧ ¬ _))

/-- How many points the candidate `a`, whose title is the query, is ahead of the candidate `d`,
whose title is not. -/
def usageLead : ℚ :=
  (100 - titleTier S d query.normalized.toList) +
    (keywordPoints S query.normalized.toList a.keywords -
      keywordPoints S query.normalized.toList d.keywords) +
    15 * (hint a - hint d) +
    ((if query.tokens.length > 1 then 30 else 0) - multiPoints S d query)

/-- Whatever was used, `d` ranks above `a` only where it did so without: in the order of the rows,
and in every answer that shows both. -/
structure Unmoved (std : RustStd) : Prop where
  rows : ∀ usage now, Above S query a d (usageBoost usage now) → Above S query a d fun _ => 0
  answers : ∀ usage now commands limit v w,
    List.Sublist [v, w]
      (rankWithBoost std (score S) commands query limit (usageBoost usage now)) →
    Shows v (scoredRow (score S) query (usageBoost usage now) d) →
    Shows w (scoredRow (score S) query (usageBoost usage now) a) → Above S query a d fun _ => 0

/-- Usage cannot lift `d` above `a`: nothing matches a blank query; the two are one for the record
of usage; `d` ranks above `a` anyway; or it is too far behind. -/
def OutOfReach : Prop :=
  query.normalized.isEmpty = true ∨ a.source = d.source ∨
    (usageLead S query a d < 0 ∨ usageLead S query a d = 0 ∧ Before d a) ∨
    42 < usageLead S query a d ∨ usageLead S query a d = 42 ∧ Before a d

variable {a d}

theorem Before.total (h : a.source ≠ d.source) : Before a d ∨ Before d a := by
  unfold Before
  rcases lt_trichotomy a.providerId d.providerId with hp | hp | hp
  · exact .inl (.inl hp)
  · rcases lt_trichotomy a.id d.id with hid | hid | hid
    · exact .inl (.inr ⟨hp, hid⟩)
    · exact absurd (Prod.ext hp hid) h
    · exact .inr (.inr ⟨hp.symm, hid⟩)
  · exact .inr (.inl hp)

theorem Before.asymm (h : Before a d) : ¬ Before d a := by
  rintro (hp | ⟨hp, hid⟩)
  · rcases h with hp' | ⟨hp', -⟩
    · exact lt_asymm hp hp'
    · exact lt_irrefl _ (hp' ▸ hp)
  · rcases h with hp' | ⟨-, hid'⟩
    · exact lt_irrefl _ (hp ▸ hp')
    · exact lt_asymm hid hid'

/-- Ranking above, as a comparison of the scores. -/
theorem above_iff {boost : SearchCommand → ℚ} (hboost : ∀ c, 0 ≤ boost c)
    (ha : 0 < score S a query) (hd : 0 < score S d query) :
    Above S query a d boost ↔ score S a query + boost a < score S d query + boost d ∨
      score S a query + boost a = score S d query + boost d ∧ Before d a := by
  have hpos : 0 < score S d query + boost d := add_pos_of_pos_of_nonneg hd (hboost d)
  unfold Above
  rw [not_rankLe_iff, score_scoredRow (score S) query boost ha,
    score_scoredRow (score S) query boost hd, and_iff_right hpos]
  rfl

/-- What does not match ranks above nothing. -/
theorem not_above_of_score {boost : SearchCommand → ℚ} (h : ¬ 0 < score S d query) :
    ¬ Above S query a d boost := fun habove => h (base_pos (score S) query boost habove.1)

section exact

variable (htokens : ∀ token ∈ query.tokens, token.toList <:+: query.normalized.toList)
  (htitle : S.lower a.title = query.normalized) (hquery : query.normalized.isEmpty = false)

include htokens htitle hquery

theorem le_score_of_title : 100 + typePrior a.category ≤ score S a query := by
  obtain ⟨hhint, -⟩ := hint_mem a
  have hnonneg := keywordPoints_nonneg S query.normalized.toList a.keywords
  rw [score_of_title S htokens htitle hquery]
  split_ifs <;> linarith

theorem score_pos_of_title : 0 < score S a query := by
  obtain ⟨hprior, -⟩ := typePrior_mem a.category
  have hle := le_score_of_title S query htokens htitle hquery
  linarith

variable (hne : S.lower d.title ≠ query.normalized) (hcategory : a.category = d.category)

include hne hcategory

/-- Against a candidate that matches in its title or its keywords the lead is the difference of the
scores. -/
theorem score_sub_of_lexical (hlexical : 0 < (titlePart S d query.normalized.toList .default).1 +
      keywordPart S d query.normalized.toList .default) :
    score S a query - score S d query = usageLead S query a d := by
  have hne' : (S.lower d.title).toList ≠ query.normalized.toList :=
    fun heq => hne (String.toList_injective heq)
  rw [score_of_title S htokens htitle hquery, score_of_lexical S d _ hquery hlexical,
    titlePart_eq_tier S d _ hne', keywordPart_eq_points, hcategory]
  unfold usageLead
  ring

/-- Another candidate is more than the boost behind, in points and by the lead. -/
theorem far_of_not_lexical (htitlePart : (titlePart S d query.normalized.toList .default).1 = 0)
    (hkeyword : keywordPart S d query.normalized.toList .default = 0) :
    score S d query + 42 < score S a query ∧ 42 < usageLead S query a d := by
  obtain ⟨hhint, -⟩ := hint_mem a
  obtain ⟨-, hhintd⟩ := hint_mem d
  have hnonneg := keywordPoints_nonneg S query.normalized.toList a.keywords
  have hmulti := multiPoints_le S d query
  have hle := score_le_of_not_lexical S d query hquery htitlePart hkeyword
  have hne' : (S.lower d.title).toList ≠ query.normalized.toList :=
    fun heq => hne (String.toList_injective heq)
  rw [titlePart_eq_tier S d _ hne'] at htitlePart
  rw [keywordPart_eq_points] at hkeyword
  constructor
  · rw [score_of_title S htokens htitle hquery, hcategory]
    linarith
  · rw [usageLead, htitlePart, hkeyword]
    linarith

/-- Either the other candidate matches and the lead is the difference of the scores, or it is more
than the boost behind. -/
theorem lexical_or_far : (0 < score S d query ∧
      score S a query - score S d query = usageLead S query a d) ∨
    score S d query + 42 < score S a query ∧ 42 < usageLead S query a d := by
  have htitlePart := titlePart_nonneg S d query.normalized.toList
  have hkeyword : 0 ≤ keywordPart S d query.normalized.toList .default := by
    rw [keywordPart_eq_points]
    exact keywordPoints_nonneg S _ _
  rcases (add_nonneg htitlePart hkeyword).lt_or_eq with hlexical | hzero
  · obtain ⟨hhint, -⟩ := hint_mem d
    obtain ⟨hprior, -⟩ := typePrior_mem d.category
    obtain ⟨hmulti, -⟩ := multiPoints_mem S d query
    refine .inl ⟨?_, score_sub_of_lexical S query htokens htitle hquery hne hcategory hlexical⟩
    rw [score_of_lexical S d _ hquery hlexical]
    linarith
  · obtain ⟨htitlePart, hkeyword⟩ :=
      (add_eq_zero_iff_of_nonneg htitlePart hkeyword).mp hzero.symm
    exact .inr (far_of_not_lexical S query htokens htitle hquery hne hcategory htitlePart hkeyword)

/-- What is out of reach is not lifted. -/
theorem above_of_outOfReach (h : OutOfReach S query a d) (usage : List UsageEntry) (now : ℕ)
    (habove : Above S query a d (usageBoost usage now)) : Above S query a d fun _ => 0 := by
  have hboost := usageBoost_nonneg usage now
  have hposa := score_pos_of_title S query htokens htitle hquery
  have hposd : 0 < score S d query := base_pos (score S) query _ habove.1
  have hboosta := hboost a
  have hboostd := usageBoost_le usage now d
  rw [above_iff S query hboost hposa hposd] at habove
  rw [above_iff S query (fun _ => le_refl 0) hposa hposd, add_zero, add_zero]
  rcases h with hempty | hsource | hreach
  · exact absurd hempty (by simp [hquery])
  · rw [usageBoost_congr usage now hsource] at habove
    simpa using habove
  · rcases lexical_or_far S query htokens htitle hquery hne hcategory with ⟨-, hsub⟩ | ⟨hfar, -⟩
    · rcases hreach with (hlt | ⟨heq, hbefore⟩) | hlt | ⟨heq, hbefore⟩
      · exact .inl (by linarith)
      · exact .inr ⟨by linarith, hbefore⟩
      · rcases habove with habove | ⟨habove, -⟩ <;> linarith
      · -- The boost makes up for the lead, and the names decide.
        rcases habove with habove | ⟨-, hbefore'⟩
        · linarith
        · exact absurd hbefore' hbefore.asymm
    · rcases habove with habove | ⟨habove, -⟩ <;> linarith

/-- What is in reach is lifted by enough use. -/
theorem outOfReach_of_rows (h : ∀ usage now, Above S query a d (usageBoost usage now) →
    Above S query a d fun _ => 0) : OutOfReach S query a d := by
  by_contra hreach
  simp only [OutOfReach, hquery, Bool.false_eq_true, false_or, not_or] at hreach
  obtain ⟨hsource, ⟨hlead, hlead'⟩, hle, hle'⟩ := hreach
  obtain ⟨hposd, hsub⟩ := (lexical_or_far S query htokens htitle hquery hne hcategory).resolve_right
    fun hfar => hle hfar.2
  have hposa := score_pos_of_title S query htokens htitle hquery
  have hlifted : Above S query a d (usageBoost (wornOut d 0) 0) := by
    rw [above_iff S query (usageBoost_nonneg _ _) hposa hposd, usageBoost_single,
      usageBoost_other hsource]
    rcases (not_lt.mp hle).lt_or_eq with hlt | heq
    · exact .inl (by linarith)
    · exact .inr ⟨by linarith, (Before.total hsource).resolve_left fun hb => hle' ⟨heq, hb⟩⟩
  have hplain := h _ _ hlifted
  rw [above_iff S query (fun _ => le_refl 0) hposa hposd, add_zero, add_zero] at hplain
  rcases hplain with hlt | ⟨heq, hbefore⟩
  · exact hlead (by linarith)
  · exact hlead' ⟨by linarith, hbefore⟩

end exact

/-- Rows that show others stand in the order of these. -/
theorem Shows.rankLe {r c r' c' : SearchCommand} (h : Shows r c) (h' : Shows r' c') :
    RankLe r r' ↔ RankLe c c' := by
  obtain ⟨hprovider, hid⟩ := Prod.mk.inj h.source
  obtain ⟨hprovider', hid'⟩ := Prod.mk.inj h'.source
  unfold RankLe
  rw [h.score, h'.score, hprovider, hprovider', hid, hid']

theorem pairwise_of_shown {rs cs : List SearchCommand} (h : List.Forall₂ Shows rs cs)
    (hcs : cs.Pairwise RankLe) : rs.Pairwise RankLe := by
  induction h with
  | nil => exact List.Pairwise.nil
  | cons hrc hrest ih =>
      obtain ⟨hle, hcs⟩ := List.pairwise_cons.mp hcs
      refine List.pairwise_cons.mpr ⟨fun s hs => ?_, ih hcs⟩
      obtain ⟨d, hd, hsd⟩ := exists_shown hrest hs
      exact (hrc.rankLe hsd).mpr (hle d hd)

/-- In an answer the rows stand in their order. -/
theorem above_of_sublist {std : RustStd} {commands : List SearchCommand} {limit : ℕ}
    {boost : SearchCommand → ℚ} {v w : SearchCommand}
    (hsub : List.Sublist [v, w] (rankWithBoost std (score S) commands query limit boost))
    (hv : Shows v (scoredRow (score S) query boost d))
    (hw : Shows w (scoredRow (score S) query boost a)) : Above S query a d boost := by
  have hrows := forall₂_allRows std (score S) commands query boost
  have hsub : List.Sublist [v, w] (allRows std (score S) commands query boost) :=
    hsub.trans (List.take_sublist _ _)
  constructor
  · obtain ⟨c, hc, hshows⟩ := exists_shown hrows (hsub.subset List.mem_cons_self)
    obtain ⟨-, -, -, hpos⟩ := (mem_matchingRows (score S) commands query boost).mp
      (mem_of_mem_firstsBy (mem_of_mem_firstsBy hc))
    rwa [← hv.score, hshows.score]
  · intro hle
    have hvw : RankLe v w := List.rel_of_pairwise_cons ((pairwise_of_shown hrows
      (pairwise_keptRows std (score S) commands query boost)).sublist hsub) List.mem_cons_self
    have hsource := (hvw.antisymm ((hw.rankLe hv).mpr hle)).2
    -- No two rows of an answer have one source.
    have hsources := map_eq_of_shows hrows SearchCommand.source fun _ _ h => h.source
    have hnodup : ([v, w].map SearchCommand.source).Nodup :=
      (hsources ▸ nodup_source_keptRows std (score S) commands query boost).sublist
        (hsub.map SearchCommand.source)
    simp [hsource] at hnodup

end lead

/-- The application "GitHub". -/
def gitHub : SearchCommand := fromProvider "github" "GitHub" "apps" .application 0

/-- The application "LegitHub", in whose title the query is no word. -/
def legitHub : SearchCommand := fromProvider "legit" "LegitHub" "apps" .application 0

/-- The application "GitHub Desktop", in whose title it is one. -/
def gitHubDesktop : SearchCommand :=
  fromProvider "desktop" "GitHub Desktop" "apps" .application 0

end AuraLauncher.Search
