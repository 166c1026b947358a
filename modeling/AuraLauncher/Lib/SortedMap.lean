import Mathlib.Data.List.Dedup
import Mathlib.Data.List.Induction
import Mathlib.Data.List.Nodup
import Mathlib.Order.Lattice
import Mathlib.Tactic.Common

/-!
# Maps in key order

A `SortedMap key` is a map whose iteration is in the order of its keys: the list of its rows, with
strictly increasing keys as a field. An insertion takes the place of the row with its key, so the
last of several rows with one key remains.

* `SortedMap.insert`, `SortedMap.mem_insert` — the insertion, and the rows it leaves.
* `SortedMap.find?`, `SortedMap.find?_insert` — the row under a key.
* `SortedMap.rows_insert_eq` — any strictly sorted list with the rows of an insertion is it.
* `SortedMap.insertAll` — several insertions in turn, with the keys they leave
  (`mem_keys_insertAll`), their number (`length_insertAll_empty`) and what is under a key
  (`find?_insertAll`).
-/

namespace AuraLauncher.Lib

universe u v

/-- The rows of a map in the order of their keys. -/
structure SortedMap {ρ : Type u} {κ : Type v} [LinearOrder κ] (key : ρ → κ) where
  /-- The rows, the smallest key first. -/
  rows : List ρ
  /-- The keys are strictly increasing. -/
  sorted : rows.Pairwise fun r r' => key r < key r'

namespace SortedMap

variable {ρ : Type u} {κ : Type v} [LinearOrder κ] {key : ρ → κ}

/-- The map without rows. -/
def empty : SortedMap key := ⟨[], List.Pairwise.nil⟩

/-- A row is put at its place in the order, over the row that has its key. -/
def insertRow (key : ρ → κ) (r : ρ) : List ρ → List ρ
  | [] => [r]
  | r' :: rows =>
      if key r < key r' then r :: r' :: rows
      else if key r = key r' then r :: rows
      else r' :: insertRow key r rows

theorem mem_insertRow {r r' : ρ} {rows : List ρ}
    (h : rows.Pairwise fun r r' => key r < key r') :
    r' ∈ insertRow key r rows ↔ r' = r ∨ r' ∈ rows ∧ key r' ≠ key r := by
  induction rows with
  | nil => simp [insertRow]
  | cons s rows ih =>
      obtain ⟨hs, hrows⟩ := List.pairwise_cons.mp h
      unfold insertRow
      split_ifs with hlt heq
      · have hne : ∀ t ∈ s :: rows, key t ≠ key r := by
          intro t ht
          rcases List.mem_cons.mp ht with rfl | ht
          · exact hlt.ne'
          · exact (hlt.trans (hs t ht)).ne'
        rw [List.mem_cons]
        exact or_congr_right (iff_self_and.mpr fun ht => hne r' ht)
      · have hne : ∀ t ∈ rows, key t ≠ key r := fun t ht => heq ▸ (hs t ht).ne'
        rw [List.mem_cons, List.mem_cons]
        constructor
        · rintro (rfl | ht)
          · exact .inl rfl
          · exact .inr ⟨.inr ht, hne r' ht⟩
        · rintro (rfl | ⟨rfl | ht, hk⟩)
          · exact .inl rfl
          · exact absurd heq.symm hk
          · exact .inr ht
      · rw [List.mem_cons, List.mem_cons, ih hrows]
        constructor
        · rintro (rfl | rfl | ⟨ht, hk⟩)
          · exact .inr ⟨.inl rfl, fun hk => heq hk.symm⟩
          · exact .inl rfl
          · exact .inr ⟨.inr ht, hk⟩
        · rintro (rfl | ⟨rfl | ht, hk⟩)
          · exact .inr (.inl rfl)
          · exact .inl rfl
          · exact .inr (.inr ⟨ht, hk⟩)

theorem insertRow_sorted {r : ρ} {rows : List ρ}
    (h : rows.Pairwise fun r r' => key r < key r') :
    (insertRow key r rows).Pairwise fun r r' => key r < key r' := by
  induction rows with
  | nil => exact List.pairwise_singleton _ _
  | cons s rows ih =>
      obtain ⟨hs, hrows⟩ := List.pairwise_cons.mp h
      unfold insertRow
      split_ifs with hlt heq
      · refine List.pairwise_cons.mpr ⟨fun t ht => ?_, h⟩
        rcases List.mem_cons.mp ht with rfl | ht
        · exact hlt
        · exact hlt.trans (hs t ht)
      · exact List.pairwise_cons.mpr ⟨fun t ht => heq ▸ hs t ht, hrows⟩
      · refine List.pairwise_cons.mpr ⟨fun t ht => ?_, ih hrows⟩
        rcases (mem_insertRow hrows).mp ht with rfl | ⟨ht, -⟩
        · exact lt_of_le_of_ne (not_lt.mp hlt) (Ne.symm heq)
        · exact hs t ht

/-- The map with a row more, or with a row replaced. -/
def insert (m : SortedMap key) (r : ρ) : SortedMap key where
  rows := insertRow key r m.rows
  sorted := insertRow_sorted m.sorted

theorem mem_insert {m : SortedMap key} {r r' : ρ} :
    r' ∈ (m.insert r).rows ↔ r' = r ∨ r' ∈ m.rows ∧ key r' ≠ key r :=
  mem_insertRow m.sorted

/-- No two rows have one key. -/
theorem nodup_keys (m : SortedMap key) : (m.rows.map key).Nodup :=
  List.pairwise_map.mpr (m.sorted.imp fun h => h.ne)

/-- The row under a key. -/
def find? (m : SortedMap key) (k : κ) : Option ρ := m.rows.find? fun r => decide (key r = k)

theorem find?_eq_some_iff {m : SortedMap key} {k : κ} {r : ρ} :
    m.find? k = some r ↔ r ∈ m.rows ∧ key r = k := by
  constructor
  · intro h
    exact ⟨List.mem_of_find?_eq_some h, by simpa using List.find?_some h⟩
  · rintro ⟨hr, rfl⟩
    cases h : m.find? (key r) with
    | none =>
        have hnone := List.find?_eq_none.mp h r hr
        simp at hnone
    | some s =>
        have hs : key s = key r := by simpa using List.find?_some h
        rw [List.inj_on_of_nodup_map m.nodup_keys (List.mem_of_find?_eq_some h) hr hs]

/-- Under its key an insertion is found, under any other key what was there before. -/
theorem find?_insert {m : SortedMap key} {r : ρ} {k : κ} :
    (m.insert r).find? k = if key r = k then some r else m.find? k := by
  split_ifs with hk
  · exact find?_eq_some_iff.mpr ⟨mem_insert.mpr (.inl rfl), hk⟩
  · refine Option.ext fun s => ?_
    rw [find?_eq_some_iff, find?_eq_some_iff, mem_insert]
    constructor
    · rintro ⟨rfl | ⟨hs, -⟩, hsk⟩
      · exact absurd hsk hk
      · exact ⟨hs, hsk⟩
    · rintro ⟨hs, hsk⟩
      exact ⟨.inr ⟨hs, fun h => hk (h.symm.trans hsk)⟩, hsk⟩

/-- An insertion is known by its rows: the strictly sorted list of the new row and of those with
other keys. -/
theorem rows_insert_eq {m : SortedMap key} {r : ρ} {rows : List ρ}
    (hsorted : rows.Pairwise fun r r' => key r < key r')
    (hmem : ∀ r', r' ∈ rows ↔ r' = r ∨ r' ∈ m.rows ∧ key r' ≠ key r) :
    rows = (m.insert r).rows := by
  have hne : ∀ {l : List ρ}, l.Pairwise (fun r r' => key r < key r') → l.Nodup := by
    intro l h
    refine h.imp fun hlt => ?_
    rintro rfl
    exact lt_irrefl _ hlt
  have hperm : rows.Perm (m.insert r).rows := by
    rw [List.perm_ext_iff_of_nodup (hne hsorted) (hne (m.insert r).sorted)]
    exact fun r' => (hmem r').trans mem_insert.symm
  exact hperm.eq_of_pairwise
    (fun a b _ _ hab hba => absurd (hab.trans hba) (lt_irrefl _)) hsorted (m.insert r).sorted

/-- Several insertions, in turn. -/
def insertAll (m : SortedMap key) (rs : List ρ) : SortedMap key := rs.foldl insert m

/-- An insertion adds its key. -/
theorem mem_keys_insert {m : SortedMap key} {r : ρ} {k : κ} :
    k ∈ (m.insert r).rows.map key ↔ k ∈ m.rows.map key ∨ k = key r := by
  simp only [List.mem_map, mem_insert]
  constructor
  · rintro ⟨r', rfl | ⟨hr', -⟩, rfl⟩
    · exact .inr rfl
    · exact .inl ⟨r', hr', rfl⟩
  · rintro (⟨r', hr', rfl⟩ | rfl)
    · by_cases hk : key r' = key r
      · exact ⟨r, .inl rfl, hk.symm⟩
      · exact ⟨r', .inr ⟨hr', hk⟩, rfl⟩
    · exact ⟨r, .inl rfl, rfl⟩

/-- Insertions add their keys. -/
theorem mem_keys_insertAll {m : SortedMap key} {rs : List ρ} {k : κ} :
    k ∈ (m.insertAll rs).rows.map key ↔ k ∈ m.rows.map key ∨ k ∈ rs.map key := by
  induction rs generalizing m with
  | nil => simp [insertAll]
  | cons r rs ih =>
      change k ∈ ((m.insert r).insertAll rs).rows.map key ↔ _
      rw [ih, mem_keys_insert, List.map_cons, List.mem_cons, or_assoc]

/-- Every row was there or was inserted. -/
theorem mem_of_mem_insertAll {m : SortedMap key} {rs : List ρ} {r : ρ}
    (h : r ∈ (m.insertAll rs).rows) : r ∈ m.rows ∨ r ∈ rs := by
  induction rs generalizing m with
  | nil => exact .inl h
  | cons s rs ih =>
      have h' : r ∈ ((m.insert s).insertAll rs).rows := h
      rcases ih h' with hr | hr
      · rcases mem_insert.mp hr with rfl | ⟨hr, -⟩
        · exact .inr List.mem_cons_self
        · exact .inl hr
      · exact .inr (List.mem_cons_of_mem s hr)

/-- Under a key is what was inserted under it last, or what was there before. -/
theorem find?_insertAll {m : SortedMap key} {rs : List ρ} {k : κ} :
    (m.insertAll rs).find? k =
      (rs.reverse.find? fun r => decide (key r = k)).or (m.find? k) := by
  induction rs using List.reverseRecOn with
  | nil => rfl
  | append_singleton rs r ih =>
      have hlast : m.insertAll (rs ++ [r]) = (m.insertAll rs).insert r := by
        simp [insertAll, List.foldl_append]
      rw [hlast, find?_insert, ih, List.reverse_append, List.reverse_singleton,
        List.singleton_append, List.find?_cons]
      by_cases hk : key r = k <;> simp [hk]

/-- A map has a row for each key that was inserted. -/
theorem length_insertAll_empty (rs : List ρ) :
    ((empty : SortedMap key).insertAll rs).rows.length = (rs.map key).dedup.length := by
  have hperm : (((empty : SortedMap key).insertAll rs).rows.map key).Perm (rs.map key).dedup := by
    rw [List.perm_ext_iff_of_nodup (nodup_keys _) (List.nodup_dedup _)]
    intro k
    rw [mem_keys_insertAll, List.mem_dedup]
    simp [empty]
  rw [← hperm.length_eq, List.length_map]

end SortedMap

end AuraLauncher.Lib
