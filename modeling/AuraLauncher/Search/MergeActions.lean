import AuraLauncher.Search.Identity

/-!
# What a merged row lists

`launcher-search/src/lib.rs`, `rank_with_boost`: the rows of one identity become one row, and the
actions of the rows that are dropped are added to it. Before that, a provider that answers one item
twice has the repeat removed, and nothing of the repeat is added anywhere. An action without an id
counts as one with the empty id, as in the merge.

* `Lists`, `NewTo` — a list of actions has one of the same id and kind; none of the added ones was
  there before.
* `MergesAll` — the rows list every action of every candidate that matched, and what was added to a
  row is new to it.
* `KeptFirst` — the candidate that is left of those of one source: the best, and of equally good
  ones the first.
* `lists_collapse_iff`, `mem_firstsBy_matchingRows_iff` — what the two passes keep.
* `mergesAll_iff` — the rows are complete when no repeat has an action of its own.
* `not_mergesAll_repeat` — a plugin that answers two items with one id.
-/

namespace AuraLauncher.Search

open AuraLauncher.Domain AuraLauncher.Lib

/-- One of the actions has the id and the kind of the action. -/
def Lists (actions : List Action) (x : Action) : Prop :=
  ∃ k ∈ actions, k.id.getD "" = x.id.getD "" ∧ k.kind = x.kind

instance (actions : List Action) (x : Action) : Decidable (Lists actions x) :=
  inferInstanceAs (Decidable (∃ k ∈ actions, _))

/-- Each of the added actions was not listed when it was added. -/
def NewTo : List Action → List Action → Prop
  | _, [] => True
  | own, x :: added => ¬ Lists own x ∧ NewTo (own ++ [x]) added

theorem lists_append {actions added : List Action} {x : Action} :
    Lists (actions ++ added) x ↔ Lists actions x ∨ Lists added x := by
  simp only [Lists, List.mem_append, or_and_right, exists_or]

theorem Lists.trans {actions : List Action} {x y : Action} (h : Lists actions x)
    (hid : x.id.getD "" = y.id.getD "") (hkind : x.kind = y.kind) : Lists actions y := by
  obtain ⟨k, hk, hkid, hkkind⟩ := h
  exact ⟨k, hk, hkid.trans hid, hkkind.trans hkind⟩

theorem newTo_append {own added more : List Action} :
    NewTo own (added ++ more) ↔ NewTo own added ∧ NewTo (own ++ added) more := by
  induction added generalizing own with
  | nil => simp [NewTo]
  | cons x added ih => simp [NewTo, ih, and_assoc]

/-! ## Merging two rows -/

theorem mergeAction_eq (actions : List Action) (a : Action) :
    mergeAction actions a = if Lists actions a then actions else actions ++ [a] := by
  have hany : (actions.any fun k => k.id.getD "" == a.id.getD "" && k.kind == a.kind) = true ↔
      Lists actions a := by simp [Lists]
  unfold mergeAction
  simp only [hany]

theorem lists_mergeAction {actions : List Action} {a x : Action} :
    Lists (mergeAction actions a) x ↔ Lists actions x ∨ Lists [a] x := by
  rw [mergeAction_eq]
  split_ifs with h
  · refine (or_iff_left_of_imp ?_).symm
    rintro ⟨k, hk, hid, hkind⟩
    obtain rfl := List.mem_singleton.mp hk
    exact h.trans hid hkind
  · exact lists_append

/-- A merged row lists what the two rows list. -/
theorem lists_mergeRow {kept dropped : SearchCommand} {x : Action} :
    Lists (mergeRow kept dropped).actions x ↔ Lists kept.actions x ∨ Lists dropped.actions x := by
  have hfold := foldl_adds_iff (fun actions => Lists actions x) (fun a => Lists [a] x)
    dropped.actions kept.actions fun actions a => lists_mergeAction
  refine hfold.trans (or_congr_right ?_)
  simp [Lists]

/-- What a merge adds is new. -/
theorem exists_added_mergeRow (kept dropped : SearchCommand) :
    ∃ added, (mergeRow kept dropped).actions = kept.actions ++ added ∧
      NewTo kept.actions added := by
  refine List.foldlRecOn (motive := fun actions : List Action =>
    ∃ added, actions = kept.actions ++ added ∧ NewTo kept.actions added) _ _
    ⟨[], (List.append_nil _).symm, trivial⟩ fun actions hactions a _ => ?_
  obtain ⟨added, rfl, hnew⟩ := hactions
  rw [mergeAction_eq]
  split_ifs with h
  · exact ⟨added, rfl, hnew⟩
  · refine ⟨added ++ [a], List.append_assoc _ _ _, newTo_append.mpr ⟨hnew, h, trivial⟩⟩

/-! ## The two passes -/

section collapse

variable (std : RustStd)

/-- **What a row lists**: the actions of the rows of its identity. -/
theorem lists_collapse_iff {l : List SearchCommand} {r : SearchCommand} (hr : r ∈ collapse std l)
    {x : Action} : Lists r.actions x ↔
      ∃ c ∈ l, searchIdentityKey std c = searchIdentityKey std r ∧ Lists c.actions x := by
  induction l using List.reverseRecOn generalizing r with
  | nil => exact absurd hr List.not_mem_nil
  | append_singleton l d ih =>
      have hlast : (∃ c ∈ l ++ [d], searchIdentityKey std c = searchIdentityKey std r ∧
          Lists c.actions x) ↔
          (∃ c ∈ l, searchIdentityKey std c = searchIdentityKey std r ∧ Lists c.actions x) ∨
            searchIdentityKey std d = searchIdentityKey std r ∧ Lists d.actions x := by
        simp only [List.mem_append, List.mem_singleton, or_and_right, exists_or, exists_eq_left]
      rw [hlast]
      rcases mem_collapse_concat std hr with ⟨k, hk, hkey, rfl⟩ | ⟨hr, hne⟩ | ⟨hnone, rfl⟩
      · rw [lists_mergeRow, ih hk, (shows_mergeRow k d).key std]
        exact or_congr_right (and_iff_right hkey.symm).symm
      · rw [ih hr]
        exact (or_iff_left fun h => hne h.1.symm).symm
      · rw [and_iff_right rfl]
        refine (or_iff_right ?_).symm
        -- No earlier row has the identity of a row that starts a new one.
        rintro ⟨c, hc, hkey, -⟩
        obtain ⟨w, hw, hwkey, -⟩ := exists_firstsBy (searchIdentityKey std) hc
        obtain ⟨k, hk, hshows⟩ := exists_showing (forall₂_collapse std l) hw
        exact hnone k hk ((hshows.key std).trans (hwkey.trans hkey))

/-- What was added to a row is new to it. -/
theorem exists_added_collapse {l : List SearchCommand} {r : SearchCommand}
    (hr : r ∈ collapse std l) :
    ∃ c ∈ l, searchIdentityKey std c = searchIdentityKey std r ∧
      ∃ added, r.actions = c.actions ++ added ∧ NewTo c.actions added := by
  induction l using List.reverseRecOn generalizing r with
  | nil => exact absurd hr List.not_mem_nil
  | append_singleton l d ih =>
      rcases mem_collapse_concat std hr with ⟨k, hk, -, rfl⟩ | ⟨hr, -⟩ | ⟨-, rfl⟩
      · obtain ⟨c, hc, hkey, added, hadded, hnew⟩ := ih hk
        obtain ⟨more, hmore, hmorenew⟩ := exists_added_mergeRow k d
        refine ⟨c, List.mem_append_left _ hc, hkey.trans ((shows_mergeRow k d).key std).symm,
          added ++ more, ?_, ?_⟩
        · rw [hmore, hadded, List.append_assoc]
        · exact newTo_append.mpr ⟨hnew, hadded ▸ hmorenew⟩
      · obtain ⟨c, hc, hc'⟩ := ih hr
        exact ⟨c, List.mem_append_left _ hc, hc'⟩
      · exact ⟨r, List.mem_append_right _ List.mem_cons_self, rfl, [],
          (List.append_nil _).symm, trivial⟩

end collapse

section rankWithBoost

variable (std : RustStd) (score : SearchCommand → QueryContext → ℚ)
  (commands : List SearchCommand) (query : QueryContext) (boost : SearchCommand → ℚ)

/-- The score of a candidate in the ranking; it is positive for those that match. -/
def rankedScore (c : SearchCommand) : ℚ := (scoredRow score query boost c).score

/-- The candidate is the one that is left of those of its source. -/
def KeptFirst (d : SearchCommand) : Prop :=
  ∃ before after, commands = before ++ d :: after ∧ 0 < rankedScore score query boost d ∧
    (∀ e ∈ before, e.source = d.source →
      rankedScore score query boost e < rankedScore score query boost d) ∧
    ∀ e ∈ after, e.source = d.source →
      rankedScore score query boost e ≤ rankedScore score query boost d

/-- Every action of every candidate that matched is listed in the row of its identity, whatever the
limit, and the row has the actions of a candidate with new ones added. -/
def MergesAll : Prop :=
  ∀ limit, ∀ r ∈ rankWithBoost std score commands query limit boost,
    (∀ c ∈ commands, 0 < rankedScore score query boost c →
      searchIdentityKey std c = searchIdentityKey std r → ∀ x ∈ c.actions, Lists r.actions x) ∧
    ∃ c ∈ commands, searchIdentityKey std c = searchIdentityKey std r ∧
      ∃ added, r.actions = c.actions ++ added ∧ NewTo c.actions added

/-- Of two rows of one source the better comes first. -/
theorem rankLe_scoredRow_iff {c d : SearchCommand} (h : c.source = d.source) :
    RankLe (scoredRow score query boost c) (scoredRow score query boost d) ↔
      rankedScore score query boost d ≤ rankedScore score query boost c := by
  obtain ⟨hprovider, hid⟩ := Prod.mk.inj h
  refine ⟨RankLe.score_le, fun hle => ?_⟩
  rcases hle.lt_or_eq with hlt | heq
  · exact .inl hlt
  · exact .inr ⟨heq.symm, .inr ⟨hprovider, hid ▸ String.le_refl d.id⟩⟩

/-- **What is left of a source**: the row of its best candidate. -/
theorem mem_firstsBy_matchingRows_iff {w : SearchCommand} :
    w ∈ firstsBy SearchCommand.source (matchingRows score commands query boost) ↔
      ∃ d, KeptFirst score commands query boost d ∧ scoredRow score query boost d = w := by
  unfold matchingRows
  rw [mem_firstsBy_insertionSort_iff]
  constructor
  · rintro ⟨before, after, heq, hbefore, hafter⟩
    obtain ⟨rows, rest, hrows, rfl, hrest⟩ := List.filter_eq_append_iff.mp heq
    obtain ⟨skipped, rows', rfl, hskipped, hpos, rfl⟩ := List.filter_eq_cons_iff.mp hrest
    rw [← List.append_assoc] at hrows
    obtain ⟨front, back, rfl, hfront, hback⟩ := List.map_eq_append_iff.mp hrows
    obtain ⟨d, after, rfl, rfl, rfl⟩ := List.map_eq_cons_iff.mp hback
    have hpos : 0 < rankedScore score query boost d := of_decide_eq_true hpos
    refine ⟨d, ⟨front, after, rfl, hpos, fun e he hsame => ?_, fun e he hsame => ?_⟩, rfl⟩
    · by_cases hmatch : 0 < rankedScore score query boost e
      · have hmem : scoredRow score query boost e ∈ rows ++ skipped :=
          hfront ▸ List.mem_map_of_mem he
        have hrow : scoredRow score query boost e ∈ rows :=
          (List.mem_append.mp hmem).resolve_right fun hskip =>
            hskipped _ hskip (decide_eq_true hmatch)
        have hnot := hbefore _ (List.mem_filter.mpr ⟨hrow, decide_eq_true hmatch⟩) hsame
        exact not_le.mp ((rankLe_scoredRow_iff score query boost hsame).not.mp hnot)
      · exact (not_lt.mp hmatch).trans_lt hpos
    · by_cases hmatch : 0 < rankedScore score query boost e
      · have hrow : scoredRow score query boost e ∈ after.map (scoredRow score query boost) :=
          List.mem_map_of_mem he
        have hmem : scoredRow score query boost e ∈
            (after.map (scoredRow score query boost)).filter fun c => decide (0 < c.score) :=
          List.mem_filter.mpr ⟨hrow, decide_eq_true hmatch⟩
        exact (rankLe_scoredRow_iff score query boost hsame.symm).mp (hafter _ hmem hsame)
      · exact (not_lt.mp hmatch).trans hpos.le
  · rintro ⟨d, ⟨before, after, rfl, hpos, hbefore, hafter⟩, rfl⟩
    refine ⟨_, _, by rw [List.map_append, List.map_cons, List.filter_append,
      List.filter_cons_of_pos (by exact decide_eq_true hpos)], fun v hv hsame => ?_,
      fun v hv hsame => ?_⟩
    · obtain ⟨e, he, rfl⟩ := List.mem_map.mp (List.mem_of_mem_filter hv)
      have hsame : e.source = d.source := hsame
      rw [rankLe_scoredRow_iff score query boost hsame]
      exact not_le.mpr (hbefore e he hsame)
    · obtain ⟨e, he, rfl⟩ := List.mem_map.mp (List.mem_of_mem_filter hv)
      have hsame : e.source = d.source := hsame
      rw [rankLe_scoredRow_iff score query boost hsame.symm]
      exact hafter e he hsame

theorem KeptFirst.mem {d : SearchCommand} (h : KeptFirst score commands query boost d) :
    d ∈ commands := by
  obtain ⟨before, after, rfl, -⟩ := h
  exact List.mem_append_right _ List.mem_cons_self

/-- What a row before the cut lists: the actions of the candidates that are left. -/
theorem lists_allRows_iff {r : SearchCommand} (hr : r ∈ allRows std score commands query boost)
    {x : Action} : Lists r.actions x ↔ ∃ d, KeptFirst score commands query boost d ∧
      searchIdentityKey std d = searchIdentityKey std r ∧ Lists d.actions x := by
  rw [lists_collapse_iff std hr, dropRepeated_eq]
  constructor
  · rintro ⟨w, hw, hkey, hx⟩
    obtain ⟨d, hd, rfl⟩ := (mem_firstsBy_matchingRows_iff score commands query boost).mp hw
    exact ⟨d, hd, hkey, hx⟩
  · rintro ⟨d, hd, hkey, hx⟩
    exact ⟨_, (mem_firstsBy_matchingRows_iff score commands query boost).mpr ⟨d, hd, rfl⟩,
      hkey, hx⟩

/-- The identities with a row are those of the candidates that are left. -/
theorem exists_allRows_iff {key : String} :
    (∃ r ∈ allRows std score commands query boost, searchIdentityKey std r = key) ↔
      ∃ d, KeptFirst score commands query boost d ∧ searchIdentityKey std d = key := by
  have hshown := forall₂_allRows std score commands query boost
  constructor
  · rintro ⟨r, hr, rfl⟩
    obtain ⟨w, hw, hshows⟩ := exists_shown hshown hr
    obtain ⟨d, hd, rfl⟩ :=
      (mem_firstsBy_matchingRows_iff score commands query boost).mp (mem_of_mem_firstsBy hw)
    exact ⟨d, hd, (hshows.key std).symm⟩
  · rintro ⟨d, hd, rfl⟩
    have hleft := (mem_firstsBy_matchingRows_iff score commands query boost).mpr ⟨d, hd, rfl⟩
    obtain ⟨w, hw, hkey, -⟩ := exists_firstsBy (searchIdentityKey std) hleft
    obtain ⟨r, hr, hshows⟩ := exists_showing hshown hw
    exact ⟨r, hr, (hshows.key std).trans hkey⟩

/-- What was added to a row before the cut is new to it. -/
theorem exists_added_allRows {r : SearchCommand}
    (hr : r ∈ allRows std score commands query boost) :
    ∃ c ∈ commands, searchIdentityKey std c = searchIdentityKey std r ∧
      ∃ added, r.actions = c.actions ++ added ∧ NewTo c.actions added := by
  obtain ⟨w, hw, hkey, hadded⟩ := exists_added_collapse std hr
  rw [dropRepeated_eq] at hw
  obtain ⟨d, hd, rfl⟩ := (mem_firstsBy_matchingRows_iff score commands query boost).mp hw
  exact ⟨d, KeptFirst.mem score commands query boost hd, hkey, hadded⟩

/-- **When the rows are complete.** Every row lists the actions of every candidate of its identity
that matched exactly when each of these actions is one of a candidate that is left of its source,
of that identity, or when no such candidate is left. -/
theorem mergesAll_iff : MergesAll std score commands query boost ↔
    ∀ c ∈ commands, 0 < rankedScore score query boost c →
      (∃ d, KeptFirst score commands query boost d ∧
        searchIdentityKey std d = searchIdentityKey std c) →
      ∀ x ∈ c.actions, ∃ d, KeptFirst score commands query boost d ∧
        searchIdentityKey std d = searchIdentityKey std c ∧ Lists d.actions x := by
  constructor
  · intro h c hc hpos hrow x hx
    obtain ⟨r, hr, hkey⟩ := (exists_allRows_iff std score commands query boost).mpr hrow
    have hall : r ∈ rankWithBoost std score commands query
        (allRows std score commands query boost).length boost := by
      rwa [rankWithBoost_eq, List.take_length]
    have hlists := (h _ r hall).1 c hc hpos hkey.symm x hx
    rwa [lists_allRows_iff std score commands query boost hr, hkey] at hlists
  · intro h limit r hr
    have hr : r ∈ allRows std score commands query boost := List.mem_of_mem_take hr
    refine ⟨fun c hc hpos hkey x hx => ?_, exists_added_allRows std score commands query boost hr⟩
    have hrow := (exists_allRows_iff std score commands query boost).mp ⟨r, hr, hkey.symm⟩
    rw [lists_allRows_iff std score commands query boost hr, ← hkey]
    exact h c hc hpos hrow x hx

end rankWithBoost

/-- The plugin `a` answers two items with one id. -/
def calcRepeat : List SearchCommand :=
  [pluginCommand "a" "run" "one", pluginCommand "a" "run" "two"]

/-- The action of the second item is in no row. -/
theorem not_mergesAll_repeat :
    ¬ MergesAll RustStd.ascii (score SearchStd.ascii) calcRepeat
      (QueryContext.parse SearchStd.ascii.lower "calc") fun _ => 0 := by
  intro h
  have hrow : ∃ r ∈ rankWithBoost RustStd.ascii (score SearchStd.ascii) calcRepeat
      (QueryContext.parse SearchStd.ascii.lower "calc") 10 fun _ => 0,
      searchIdentityKey RustStd.ascii r = "cmd:plugin:a:a:run" ∧
        ¬ Lists r.actions ⟨.pluginInvoke, none, some "two", none, none, none, false⟩ := by
    decide +kernel
  obtain ⟨r, hr, hkey, hlists⟩ := hrow
  refine hlists ((h 10 r hr).1 (calcRepeat.getLast (by decide)) (List.getLast_mem _)
    (by decide +kernel) ?_ _ (List.mem_cons_of_mem _ List.mem_cons_self))
  rw [hkey]
  decide +kernel

end AuraLauncher.Search
