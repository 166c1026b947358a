import Mathlib.Data.List.Nodup
import Mathlib.Data.List.Sort
import Mathlib.Tactic.Common

/-!
# Scans in order

`SELECT … ORDER BY`: a stable insertion sort of the rows. What the statements that change the rows
do to a sorted scan:

* `insertionSort_concat` — a row that no row exceeds, appended, comes last.
* `filter_insertionSort` — the rows that a deletion leaves keep their order.
* `map_insertionSort_idxOf` — rows that are numbered by their place in a list come in its order.
-/

namespace AuraLauncher.Lib

universe u v

variable {α : Type u} {r : α → α → Prop} [DecidableRel r]

/-! ## Appending -/

theorem orderedInsert_concat {a b : α} {l : List α} (h : r b a) :
    (l ++ [a]).orderedInsert r b = l.orderedInsert r b ++ [a] := by
  induction l with
  | nil => simp [h]
  | cons c l ih =>
      rw [List.cons_append, List.orderedInsert_cons, List.orderedInsert_cons]
      split_ifs
      · rfl
      · rw [ih, List.cons_append]

/-- What is appended comes last when nothing exceeds it. -/
theorem insertionSort_concat {a : α} {l : List α} (h : ∀ b ∈ l, r b a) :
    (l ++ [a]).insertionSort r = l.insertionSort r ++ [a] := by
  induction l with
  | nil => rfl
  | cons b l ih =>
      rw [List.cons_append, List.insertionSort_cons, List.insertionSort_cons,
        ih fun c hc => h c (List.mem_cons_of_mem b hc),
        orderedInsert_concat (h b List.mem_cons_self)]

/-! ## Deleting -/

/-- Before what it precedes, an element is inserted at the front. -/
theorem orderedInsert_of_forall {a : α} {l : List α} (h : ∀ b ∈ l, r a b) :
    l.orderedInsert r a = a :: l := by
  cases l with
  | nil => rfl
  | cons b l => exact List.orderedInsert_cons_of_le r l (h b List.mem_cons_self)

section filter

variable [IsTrans α r] {p : α → Bool}

theorem filter_orderedInsert {a : α} {l : List α} (hl : l.Pairwise r) :
    (l.orderedInsert r a).filter p =
      if p a then (l.filter p).orderedInsert r a else l.filter p := by
  induction l with
  | nil => by_cases hp : p a <;> simp [hp]
  | cons b l ih =>
      obtain ⟨hb, hl⟩ := List.pairwise_cons.mp hl
      by_cases hab : r a b
      · -- everything that is kept comes after `a`
        have hafter : ∀ c ∈ (b :: l).filter p, r a c := by
          intro c hc
          rcases List.mem_cons.mp (List.mem_of_mem_filter hc) with rfl | hc
          · exact hab
          · exact IsTrans.trans a b c hab (hb c hc)
        rw [List.orderedInsert_cons_of_le r l hab, List.filter_cons,
          orderedInsert_of_forall hafter]
      · rw [List.orderedInsert_of_not_le r l hab, List.filter_cons, ih hl, List.filter_cons]
        by_cases hpb : p b
        · rw [if_pos hpb, if_pos hpb, List.orderedInsert_of_not_le r _ hab]
          split_ifs <;> rfl
        · rw [if_neg hpb, if_neg hpb]

/-- What is kept of a sorted list is sorted the same way by itself. -/
theorem filter_insertionSort [Std.Total r] (l : List α) :
    (l.insertionSort r).filter p = (l.filter p).insertionSort r := by
  induction l with
  | nil => rfl
  | cons a l ih =>
      rw [List.insertionSort_cons, filter_orderedInsert (List.pairwise_insertionSort r l), ih,
        List.filter_cons]
      split_ifs <;> rfl

end filter

/-! ## Numbering -/

/-- Rows that are numbered by the place of their keys in a list come in its order. -/
theorem map_insertionSort_idxOf {κ : Type v} [DecidableEq κ] {key : α → κ} {number : α → ℤ}
    {rows : List α} {keys : List κ} (hperm : keys.Perm (rows.map key)) (hnodup : keys.Nodup)
    (hnumber : ∀ r ∈ rows, number r = keys.idxOf (key r)) :
    (rows.insertionSort fun a b => number a ≤ number b).map key = keys := by
  have hmap : (rows.insertionSort fun a b => number a ≤ number b).map key =
      (rows.map key).insertionSort fun a b => keys.idxOf a ≤ keys.idxOf b := by
    refine List.map_insertionSort _ _ key rows fun a ha b hb => ?_
    rw [hnumber a ha, hnumber b hb, Int.ofNat_le]
  have hsorted : keys.Pairwise fun a b => keys.idxOf a ≤ keys.idxOf b := by
    refine List.pairwise_iff_getElem.mpr fun i j hi hj hij => ?_
    rw [hnodup.idxOf_getElem i hi, hnodup.idxOf_getElem j hj]
    exact hij.le
  rw [hmap]
  refine List.Perm.eq_of_pairwise ?_ (List.pairwise_insertionSort _ _) hsorted
    ((List.perm_insertionSort _ _).trans hperm.symm)
  intro a b _ hb hab hba
  exact ((List.idxOf_inj hb).mp (le_antisymm hba hab)).symm

end AuraLauncher.Lib
