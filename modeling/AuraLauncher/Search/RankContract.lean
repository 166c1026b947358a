import AuraLauncher.Lib.Firsts
import AuraLauncher.Search.Score
import Mathlib.Algebra.Order.Field.Rat
import Mathlib.Data.String.Basic

/-!
# What a ranked list is

`rank_with_boost` sorts, drops the rows whose provider and id came before, and collapses the rows of
one identity into the first of them. This file says what its answer is, whatever the lexical score.

* `RankLe` — a total preorder; rows that tie in it have the same score, provider and id.
* `dropRepeated_eq`, `forall₂_collapse` — both passes keep the first row of each key; the second
  also changes the subtitle and the actions of the rows it keeps.
* `exists_row` — the row that stands for a candidate.
* `rankWithBoost_contract` — the answer: sorted, without repetition, within the limit, made of
  candidates that matched, and complete when it is shorter than the limit.
-/

namespace AuraLauncher.Search

open AuraLauncher.Domain AuraLauncher.Lib

/-! ## The order -/

theorem RankLe.refl (a : SearchCommand) : RankLe a a :=
  .inr ⟨rfl, .inr ⟨rfl, String.le_refl a.id⟩⟩

theorem RankLe.score_le {a b : SearchCommand} (h : RankLe a b) : b.score ≤ a.score := by
  rcases h with h | ⟨h, -⟩
  · exact h.le
  · exact h.ge

theorem RankLe.trans {a b c : SearchCommand} (hab : RankLe a b) (hbc : RankLe b c) :
    RankLe a c := by
  rcases hab with hab | ⟨hscore, hab⟩
  · exact .inl (hbc.score_le.trans_lt hab)
  · rcases hbc with hbc | ⟨hscore', hbc⟩
    · exact .inl (hscore ▸ hbc)
    · refine .inr ⟨hscore.trans hscore', ?_⟩
      rcases hab with hab | ⟨hprovider, hab⟩
      · rcases hbc with hbc | ⟨hprovider', -⟩
        · exact .inl (lt_trans hab hbc)
        · exact .inl (hprovider' ▸ hab)
      · rcases hbc with hbc | ⟨hprovider', hbc⟩
        · exact .inl (hprovider ▸ hbc)
        · exact .inr ⟨hprovider.trans hprovider', String.le_trans hab hbc⟩

theorem RankLe.total (a b : SearchCommand) : RankLe a b ∨ RankLe b a := by
  rcases lt_trichotomy b.score a.score with h | h | h
  · exact .inl (.inl h)
  · rcases lt_trichotomy a.providerId b.providerId with hp | hp | hp
    · exact .inl (.inr ⟨h.symm, .inl hp⟩)
    · rcases String.le_total a.id b.id with hid | hid
      · exact .inl (.inr ⟨h.symm, .inr ⟨hp, hid⟩⟩)
      · exact .inr (.inr ⟨h, .inr ⟨hp.symm, hid⟩⟩)
    · exact .inr (.inr ⟨h, .inl hp⟩)
  · exact .inr (.inl h)

instance : Std.Total RankLe := ⟨RankLe.total⟩

instance : IsTrans SearchCommand RankLe := ⟨fun _ _ _ => RankLe.trans⟩

/-- What a provider calls a command: its own name, and the id. -/
def SearchCommand.source (c : SearchCommand) : String × String := (c.providerId, c.id)

/-- Rows that tie in the order have one score and one source. -/
theorem RankLe.antisymm {a b : SearchCommand} (hab : RankLe a b) (hba : RankLe b a) :
    a.score = b.score ∧ a.source = b.source := by
  have hscore : a.score = b.score := le_antisymm hba.score_le hab.score_le
  refine ⟨hscore, ?_⟩
  obtain ⟨-, hab⟩ := hab.resolve_left (by simp [hscore])
  obtain ⟨-, hba⟩ := hba.resolve_left (by simp [hscore])
  rcases hab with hab | ⟨hp, hab⟩
  · rcases hba with hba | ⟨hp, -⟩
    · exact absurd hba (lt_asymm hab)
    · exact absurd hab (hp ▸ lt_irrefl _)
  · rcases hba with hba | ⟨-, hba⟩
    · exact absurd hba (hp ▸ lt_irrefl _)
    · exact Prod.ext hp (String.le_antisymm hab hba)

/-- When a row does not come before another, and not beside it. -/
theorem not_rankLe_iff {a b : SearchCommand} : ¬ RankLe b a ↔
    b.score < a.score ∨ b.score = a.score ∧
      (a.providerId < b.providerId ∨ a.providerId = b.providerId ∧ a.id < b.id) := by
  unfold RankLe
  rcases lt_trichotomy a.score b.score with h | h | h
  · simp [h, h.not_gt, h.ne']
  · rcases lt_trichotomy a.providerId b.providerId with hp | hp | hp
    · simp [h, hp, lt_asymm hp, hp.ne']
    · simp [h, hp]
    · simp [h, hp, lt_asymm hp, hp.ne']
  · simp [h, h.not_gt, h.ne]

/-! ## The two passes -/

theorem dropRepeated_eq (l : List SearchCommand) :
    dropRepeated l = firstsBy SearchCommand.source l := by
  unfold dropRepeated firstsBy
  congr 1
  funext kept c
  have hkey : ∀ k : SearchCommand, (k.providerId == c.providerId && k.id == c.id) =
      decide (k.source = c.source) := by
    intro k
    rw [Bool.eq_iff_iff]
    simp [SearchCommand.source]
  simp only [hkey]

/-- A row that shows another's fields, but for the subtitle and the actions. -/
def Shows (r c : SearchCommand) : Prop :=
  r = { c with subtitle := r.subtitle, actions := r.actions }

theorem Shows.refl (c : SearchCommand) : Shows c c := rfl

theorem Shows.trans {r s c : SearchCommand} (hrs : Shows r s) (hsc : Shows s c) : Shows r c := by
  unfold Shows at *
  rw [hsc] at hrs
  exact hrs

theorem shows_mergeRow (kept dropped : SearchCommand) : Shows (mergeRow kept dropped) kept := rfl

section Shows

variable {r c : SearchCommand}

theorem Shows.score (h : Shows r c) : r.score = c.score := by
  unfold Shows at h
  rw [h]

theorem Shows.source (h : Shows r c) : r.source = c.source := by
  unfold Shows at h
  rw [h]
  rfl

theorem Shows.category (h : Shows r c) : r.category = c.category := by
  unfold Shows at h
  rw [h]

theorem Shows.title (h : Shows r c) : r.title = c.title := by
  unfold Shows at h
  rw [h]

theorem Shows.key (std : RustStd) (h : Shows r c) :
    searchIdentityKey std r = searchIdentityKey std c := by
  unfold Shows at h
  rw [h]
  rfl

end Shows

/-- What rows show, lists of rows show. -/
theorem map_eq_of_shows {β : Type} {rs cs : List SearchCommand} (h : List.Forall₂ Shows rs cs)
    (f : SearchCommand → β) (hf : ∀ r c, Shows r c → f r = f c) : rs.map f = cs.map f := by
  have heq : List.Forall₂ Eq (rs.map f) (cs.map f) := by
    rw [List.forall₂_map_left_iff, List.forall₂_map_right_iff]
    exact h.imp hf
  rwa [List.forall₂_eq_eq_eq] at heq

/-- Every row shows a kept one. -/
theorem exists_shown {rs cs : List SearchCommand} (h : List.Forall₂ Shows rs cs)
    {r : SearchCommand} (hr : r ∈ rs) : ∃ c ∈ cs, Shows r c := by
  induction h with
  | nil => exact absurd hr List.not_mem_nil
  | cons hrc h ih =>
      rcases List.mem_cons.mp hr with rfl | hr
      · exact ⟨_, List.mem_cons_self, hrc⟩
      · obtain ⟨c, hc, hshows⟩ := ih hr
        exact ⟨c, List.mem_cons_of_mem _ hc, hshows⟩

/-- Every kept row is shown. -/
theorem exists_showing {rs cs : List SearchCommand} (h : List.Forall₂ Shows rs cs)
    {c : SearchCommand} (hc : c ∈ cs) : ∃ r ∈ rs, Shows r c := by
  induction h with
  | nil => exact absurd hc List.not_mem_nil
  | cons hrc h ih =>
      rcases List.mem_cons.mp hc with rfl | hc
      · exact ⟨_, List.mem_cons_self, hrc⟩
      · obtain ⟨r, hr, hshows⟩ := ih hc
        exact ⟨r, List.mem_cons_of_mem _ hr, hshows⟩

theorem mem_mergeRow_actions {kept dropped : SearchCommand} {a : Action}
    (h : a ∈ (mergeRow kept dropped).actions) : a ∈ kept.actions ∨ a ∈ dropped.actions := by
  refine List.foldlRecOn (motive := fun actions : List Action =>
    ∀ a ∈ actions, a ∈ kept.actions ∨ a ∈ dropped.actions) _ _ (fun a ha => .inl ha)
    (fun actions hactions b hb a ha => ?_) a h
  unfold mergeAction at ha
  split_ifs at ha
  · exact hactions a ha
  · rcases List.mem_append.mp ha with ha | ha
    · exact hactions a ha
    · exact .inr (List.mem_singleton.mp ha ▸ hb)

section collapse

variable (std : RustStd)

theorem collapse_concat (l : List SearchCommand) (c : SearchCommand) :
    collapse std (l ++ [c]) =
      if ∃ k ∈ collapse std l, searchIdentityKey std k = searchIdentityKey std c then
        (collapse std l).map fun k =>
          if searchIdentityKey std k = searchIdentityKey std c then mergeRow k c else k
      else collapse std l ++ [c] := by
  unfold collapse
  rw [List.foldl_append]
  simp only [List.foldl_cons, List.foldl_nil, List.any_eq_true, beq_iff_eq]

/-- A row after one more candidate: a row of its identity takes it in, other rows stay, and it is a
row of its own if there is none of its identity. -/
theorem mem_collapse_concat {l : List SearchCommand} {c r : SearchCommand}
    (h : r ∈ collapse std (l ++ [c])) :
    (∃ k ∈ collapse std l, searchIdentityKey std k = searchIdentityKey std c ∧ mergeRow k c = r) ∨
      (r ∈ collapse std l ∧ searchIdentityKey std r ≠ searchIdentityKey std c) ∨
        (∀ k ∈ collapse std l, searchIdentityKey std k ≠ searchIdentityKey std c) ∧ r = c := by
  rw [collapse_concat] at h
  split_ifs at h with hseen
  · obtain ⟨k, hk, hrow⟩ := List.mem_map.mp h
    split_ifs at hrow with hkey
    · exact .inl ⟨k, hk, hkey, hrow⟩
    · subst hrow
      exact .inr (.inl ⟨hk, hkey⟩)
  · have hnone : ∀ k ∈ collapse std l, searchIdentityKey std k ≠ searchIdentityKey std c :=
      fun k hk hkey => hseen ⟨k, hk, hkey⟩
    rcases List.mem_append.mp h with hr | hr
    · exact .inr (.inl ⟨hr, hnone r hr⟩)
    · exact .inr (.inr ⟨hnone, List.mem_singleton.mp hr⟩)

/-- **Collapsing** keeps the first row of each identity and changes only its subtitle and its
actions. -/
theorem forall₂_collapse (l : List SearchCommand) :
    List.Forall₂ Shows (collapse std l) (firstsBy (searchIdentityKey std) l) := by
  induction l using List.reverseRecOn with
  | nil => exact List.Forall₂.nil
  | append_singleton l c ih =>
      have hkeys : (∃ k ∈ collapse std l, searchIdentityKey std k = searchIdentityKey std c) ↔
          ∃ k ∈ firstsBy (searchIdentityKey std) l,
            searchIdentityKey std k = searchIdentityKey std c := by
        have hmap : (collapse std l).map (searchIdentityKey std) =
            (firstsBy (searchIdentityKey std) l).map (searchIdentityKey std) :=
          map_eq_of_shows ih _ fun r k h => h.key std
        have hmem : searchIdentityKey std c ∈ (collapse std l).map (searchIdentityKey std) ↔
            searchIdentityKey std c ∈
              (firstsBy (searchIdentityKey std) l).map (searchIdentityKey std) := by rw [hmap]
        simpa only [List.mem_map] using hmem
      rw [collapse_concat, firstsBy_concat]
      split_ifs with h h' h'
      · refine List.forall₂_map_left_iff.mpr (ih.imp fun r k hrk => ?_)
        split_ifs
        · exact (shows_mergeRow r c).trans hrk
        · exact hrk
      · exact absurd (hkeys.mp h) h'
      · exact absurd (hkeys.mpr h') h
      · exact List.rel_append ih (List.Forall₂.cons (Shows.refl c) List.Forall₂.nil)

/-- An action of a row is one of a candidate that the row was collapsed from. -/
theorem exists_of_mem_actions {l : List SearchCommand} {r : SearchCommand} (hr : r ∈ collapse std l)
    {a : Action} (ha : a ∈ r.actions) :
    ∃ c ∈ l, searchIdentityKey std c = searchIdentityKey std r ∧ a ∈ c.actions := by
  induction l using List.reverseRecOn generalizing r with
  | nil => exact absurd hr List.not_mem_nil
  | append_singleton l d ih =>
      rcases mem_collapse_concat std hr with ⟨k, hk, hkey, rfl⟩ | ⟨hr, -⟩ | ⟨-, rfl⟩
      · rcases mem_mergeRow_actions ha with ha | ha
        · obtain ⟨c, hc, hc'⟩ := ih hk ha
          exact ⟨c, List.mem_append_left _ hc, hc'⟩
        · exact ⟨d, List.mem_append_right _ List.mem_cons_self, hkey.symm, ha⟩
      · obtain ⟨c, hc, hc'⟩ := ih hr ha
        exact ⟨c, List.mem_append_left _ hc, hc'⟩
      · exact ⟨r, List.mem_append_right _ List.mem_cons_self, rfl, ha⟩

end collapse

/-! ## The answer -/

section rankWithBoost

variable (std : RustStd) (score : SearchCommand → QueryContext → ℚ)
  (commands : List SearchCommand) (query : QueryContext) (limit : ℕ) (boost : SearchCommand → ℚ)

/-- The row that a candidate becomes: its score is the base score, boosted when it matched. -/
def scoredRow (c : SearchCommand) : SearchCommand :=
  { c with score := if 0 < score c query then score c query + boost c else 0 }

/-- The rows of the candidates that matched, best first. -/
def matchingRows : List SearchCommand :=
  ((commands.map (scoredRow score query boost)).filter fun c =>
    decide (0 < c.score)).insertionSort RankLe

/-- The rows before the cut at the limit. -/
def allRows : List SearchCommand :=
  collapse std (dropRepeated (matchingRows score commands query boost))

/-- The candidates that the rows show. -/
def keptRows : List SearchCommand :=
  firstsBy (searchIdentityKey std)
    (firstsBy SearchCommand.source (matchingRows score commands query boost))

theorem rankWithBoost_eq : rankWithBoost std score commands query limit boost =
    (allRows std score commands query boost).take limit := rfl

theorem mem_matchingRows {w : SearchCommand} : w ∈ matchingRows score commands query boost ↔
    ∃ c ∈ commands, scoredRow score query boost c = w ∧ 0 < w.score := by
  unfold matchingRows
  rw [List.mem_insertionSort, List.mem_filter, List.mem_map, decide_eq_true_eq]
  constructor
  · rintro ⟨⟨c, hc, rfl⟩, hpos⟩
    exact ⟨c, hc, rfl, hpos⟩
  · rintro ⟨c, hc, rfl, hpos⟩
    exact ⟨⟨c, hc, rfl⟩, hpos⟩

/-- Only a candidate with a positive base score gets a row with a positive score. -/
theorem base_pos {c : SearchCommand} (h : 0 < (scoredRow score query boost c).score) :
    0 < score c query := by
  by_contra hbase
  simp [scoredRow, hbase] at h

theorem score_scoredRow {c : SearchCommand} (h : 0 < score c query) :
    (scoredRow score query boost c).score = score c query + boost c := if_pos h

theorem pairwise_matchingRows : (matchingRows score commands query boost).Pairwise RankLe :=
  List.pairwise_insertionSort RankLe _

theorem forall₂_allRows : List.Forall₂ Shows (allRows std score commands query boost)
    (keptRows std score commands query boost) := by
  unfold allRows keptRows
  rw [dropRepeated_eq]
  exact forall₂_collapse std _

theorem pairwise_keptRows : (keptRows std score commands query boost).Pairwise RankLe :=
  (pairwise_matchingRows score commands query boost).sublist
    ((firstsBy_sublist _).trans (firstsBy_sublist _))

theorem nodup_source_keptRows :
    ((keptRows std score commands query boost).map SearchCommand.source).Nodup :=
  (nodup_map_firstsBy _).sublist ((firstsBy_sublist _).map SearchCommand.source)

theorem nodup_key_keptRows :
    ((keptRows std score commands query boost).map (searchIdentityKey std)).Nodup :=
  nodup_map_firstsBy _

/-- A kept row is that of a candidate with a positive base score. -/
theorem exists_candidate {w : SearchCommand}
    (h : w ∈ keptRows std score commands query boost) :
    ∃ c ∈ commands, 0 < score c query ∧ w = scoredRow score query boost c := by
  have hw : w ∈ matchingRows score commands query boost :=
    mem_of_mem_firstsBy (mem_of_mem_firstsBy h)
  obtain ⟨c, hc, rfl, hpos⟩ := (mem_matchingRows score commands query boost).mp hw
  exact ⟨c, hc, base_pos score query boost hpos, rfl⟩

/-- **The row of a candidate.** A candidate whose source stands for one identity only has a kept
row of its identity, which comes no later in the order. -/
theorem exists_row {c : SearchCommand} (hc : c ∈ commands)
    (hpos : 0 < (scoredRow score query boost c).score)
    (hunshared : ∀ d ∈ commands, d.source = c.source →
      searchIdentityKey std d = searchIdentityKey std c) :
    ∃ w ∈ keptRows std score commands query boost,
      searchIdentityKey std w = searchIdentityKey std c ∧
        RankLe w (scoredRow score query boost c) := by
  have hsorted := pairwise_matchingRows score commands query boost
  have hmem : scoredRow score query boost c ∈ matchingRows score commands query boost :=
    (mem_matchingRows score commands query boost).mpr ⟨c, hc, rfl, hpos⟩
  obtain ⟨v, hv, hsource, hvc⟩ :=
    exists_firstsBy_rel SearchCommand.source RankLe.refl hsorted hmem
  obtain ⟨w, hw, hkey, hwv⟩ :=
    exists_firstsBy_rel (searchIdentityKey std) RankLe.refl
      (hsorted.sublist (firstsBy_sublist _)) hv
  obtain ⟨d, hd, rfl, -⟩ :=
    (mem_matchingRows score commands query boost).mp (mem_of_mem_firstsBy hv)
  refine ⟨w, hw, ?_, hwv.trans hvc⟩
  calc searchIdentityKey std w = searchIdentityKey std (scoredRow score query boost d) := hkey
    _ = searchIdentityKey std d := rfl
    _ = searchIdentityKey std c := hunshared d hd hsource

/-- **The contract of the ranking.** -/
theorem rankWithBoost_contract (hboost : ∀ c, 0 ≤ boost c) :
    let rows := rankWithBoost std score commands query limit boost
    rows.Pairwise (fun r s => s.score ≤ r.score) ∧
      (rows.map (searchIdentityKey std)).Nodup ∧
      (rows.map fun r => (r.providerId, r.id)).Nodup ∧
      rows.length ≤ limit ∧
      (∀ r ∈ rows, ∃ c ∈ commands, 0 < score c query ∧
        Shows r { c with score := score c query + boost c }) ∧
      (rows.length < limit → ∀ c ∈ commands, 0 < score c query →
        (∀ d ∈ commands, (d.providerId, d.id) = (c.providerId, c.id) →
          searchIdentityKey std d = searchIdentityKey std c) →
        ∃ r ∈ rows, searchIdentityKey std r = searchIdentityKey std c ∧
          score c query + boost c ≤ r.score) := by
  intro rows
  have hrows := forall₂_allRows std score commands query boost
  have htake : List.Sublist rows (allRows std score commands query boost) := List.take_sublist _ _
  refine ⟨?_, ?_, ?_, List.length_take_le _ _, ?_, ?_⟩
  · have hscores : (allRows std score commands query boost).map SearchCommand.score =
        (keptRows std score commands query boost).map SearchCommand.score :=
      map_eq_of_shows hrows _ fun _ _ h => h.score
    have hsorted : ((allRows std score commands query boost).map SearchCommand.score).Pairwise
        (fun x y => y ≤ x) := by
      rw [hscores, List.pairwise_map]
      exact (pairwise_keptRows std score commands query boost).imp RankLe.score_le
    exact (List.pairwise_map.mp hsorted).sublist htake
  · have hkeys := map_eq_of_shows hrows (searchIdentityKey std) fun _ _ h => h.key std
    exact (hkeys ▸ nodup_key_keptRows std score commands query boost).sublist (htake.map _)
  · have hsources := map_eq_of_shows hrows SearchCommand.source fun _ _ h => h.source
    exact (hsources ▸ nodup_source_keptRows std score commands query boost).sublist (htake.map _)
  · intro r hr
    obtain ⟨w, hw, hshows⟩ := exists_shown hrows (htake.subset hr)
    obtain ⟨c, hc, hpos, rfl⟩ := exists_candidate std score commands query boost hw
    refine ⟨c, hc, hpos, ?_⟩
    unfold scoredRow at hshows
    rwa [if_pos hpos] at hshows
  · intro hshort c hc hpos hunshared
    have hlength : ((allRows std score commands query boost).take limit).length < limit := hshort
    rw [List.length_take] at hlength
    have hfits : (allRows std score commands query boost).length ≤ limit := by omega
    have hall : rows = allRows std score commands query boost := List.take_of_length_le hfits
    have hrow : 0 < (scoredRow score query boost c).score := by
      rw [score_scoredRow score query boost hpos]
      exact add_pos_of_pos_of_nonneg hpos (hboost c)
    obtain ⟨w, hw, hkey, hle⟩ := exists_row std score commands query boost hc hrow hunshared
    obtain ⟨r, hr, hshows⟩ := exists_showing hrows hw
    refine ⟨r, hall ▸ hr, (hshows.key std).trans hkey, ?_⟩
    rw [hshows.score, ← score_scoredRow score query boost hpos]
    exact hle.score_le

end rankWithBoost

/-- The application "Notepad", and the file that an index finds at its target. -/
def notepadCommands : List SearchCommand :=
  [{ fromProvider "f1" "notepad.exe" "files" .file 0 with target := some "C:/Windows/NOTEPAD.EXE" },
    { fromProvider "np" "Notepad" "apps" .application 0 with
      target := some "C:\\Windows\\notepad.exe" }]

/-- Both are one row, with the higher of their scores. -/
theorem rankWithBoost_contract_notepad :
    let rows := rankWithBoost RustStd.ascii (score SearchStd.ascii) notepadCommands
      (QueryContext.parse SearchStd.ascii.lower "notepad") 10 fun _ => 3
    rows.length = 1 ∧ (rows.map (searchIdentityKey RustStd.ascii)).Nodup ∧
      ∃ r ∈ rows, searchIdentityKey RustStd.ascii r = "path:c:\\windows\\notepad.exe" ∧
        128 ≤ r.score := by
  intro rows
  obtain ⟨-, hkeys, -, -, -, hcomplete⟩ := rankWithBoost_contract RustStd.ascii
    (score SearchStd.ascii) notepadCommands (QueryContext.parse SearchStd.ascii.lower "notepad") 10
    (fun _ => 3) (fun _ => by decide)
  have hlength : rows.length = 1 := by decide +kernel
  refine ⟨hlength, hkeys, ?_⟩
  obtain ⟨r, hr, hkey, hscore⟩ := hcomplete (by rw [hlength]; decide)
    (notepadCommands.getLast (by decide)) (List.getLast_mem _) (by decide +kernel)
    (by decide +kernel)
  exact ⟨r, hr, hkey.trans (by decide +kernel), le_trans (by decide +kernel) hscore⟩

end AuraLauncher.Search
