import Mathlib.Data.List.Basic
import Mathlib.Tactic.Common

/-!
# Merging a list by a key

A loop that keeps one element of each key: the first of a key is pushed, and every later one is
absorbed by it, in its place. An element without a key is pushed as it is.

* `mergeBy key absorb` — the loop.
* `withKey_mergeBy` — of each key there is what its elements make, absorbed one after the other.
* `length_mergeBy_le` — no more elements come out than went in.
-/

namespace AuraLauncher.Lib

universe u v

variable {α : Type u} {κ : Type v} [DecidableEq κ] (key : α → Option κ) (absorb : α → α → α)

/-- The element is absorbed by the first one of its key, or pushed. -/
def mergeInto (e : α) : List α → List α
  | [] => [e]
  | o :: out => if key o = key e then absorb o e :: out else o :: mergeInto e out

/-- One round of the loop. -/
def mergeStep (out : List α) (e : α) : List α :=
  if key e = none then out ++ [e] else mergeInto key absorb e out

/-- One element of each key. -/
def mergeBy (l : List α) : List α := l.foldl (mergeStep key absorb) []

/-- The first element, which absorbs the others in their order. -/
def absorbAll : List α → List α
  | [] => []
  | first :: rest => [rest.foldl absorb first]

/-- The elements of one key. -/
def withKey (k : κ) (l : List α) : List α := l.filter fun e => key e = some k

section withKey

variable {key} {k : κ} {e : α} {l : List α}

theorem mem_withKey : e ∈ withKey key k l ↔ e ∈ l ∧ key e = some k := by
  simp [withKey]

theorem withKey_cons : withKey key k (e :: l) =
    if key e = some k then e :: withKey key k l else withKey key k l := by
  simp [withKey, List.filter_cons]

theorem withKey_append (l l' : List α) :
    withKey key k (l ++ l') = withKey key k l ++ withKey key k l' := List.filter_append l l'

end withKey

variable {key absorb}

/-- Merging leaves the elements of the other keys alone. -/
theorem withKey_mergeInto_of_ne (hkey : ∀ o e, key o = key e → key (absorb o e) = key e) {k : κ}
    {e : α} (h : key e ≠ some k) (out : List α) :
    withKey key k (mergeInto key absorb e out) = withKey key k out := by
  induction out with
  | nil => rw [mergeInto, withKey_cons, if_neg h]
  | cons o out ih =>
      rw [mergeInto]
      split_ifs with ho
      · rw [withKey_cons, withKey_cons, hkey o e ho, ho, if_neg h, if_neg h]
      · rw [withKey_cons, withKey_cons, ih]

/-- Of its own key, the first element absorbs what is merged. -/
theorem withKey_mergeInto (hkey : ∀ o e, key o = key e → key (absorb o e) = key e) {k : κ} {e : α}
    (h : key e = some k) (out : List α) :
    withKey key k (mergeInto key absorb e out) =
      match withKey key k out with
      | [] => [e]
      | o :: rest => absorb o e :: rest := by
  induction out with
  | nil => rw [mergeInto, withKey_cons, if_pos h]; rfl
  | cons o out ih =>
      rw [mergeInto]
      split_ifs with ho
      · rw [withKey_cons, withKey_cons, hkey o e ho, ho, if_pos h, if_pos h]
      · have ho' : key o ≠ some k := fun heq => ho (heq.trans h.symm)
        rw [withKey_cons, withKey_cons, if_neg ho', if_neg ho', ih]

theorem withKey_mergeStep_of_ne (hkey : ∀ o e, key o = key e → key (absorb o e) = key e) {k : κ}
    {e : α} (h : key e ≠ some k) (out : List α) :
    withKey key k (mergeStep key absorb out e) = withKey key k out := by
  unfold mergeStep
  split_ifs with hnone
  · rw [withKey_append, withKey_cons, if_neg h]
    exact List.append_nil _
  · exact withKey_mergeInto_of_ne hkey h out

theorem withKey_mergeStep (hkey : ∀ o e, key o = key e → key (absorb o e) = key e) {k : κ} {e : α}
    (h : key e = some k) (out : List α) :
    withKey key k (mergeStep key absorb out e) =
      match withKey key k out with
      | [] => [e]
      | o :: rest => absorb o e :: rest := by
  rw [mergeStep, if_neg (by rw [h]; exact Option.some_ne_none k)]
  exact withKey_mergeInto hkey h out

/-- Once a key has an element, this absorbs all that come. -/
theorem withKey_foldl (hkey : ∀ o e, key o = key e → key (absorb o e) = key e) {k : κ} {o : α}
    {l out : List α} (hout : withKey key k out = [o]) :
    withKey key k (l.foldl (mergeStep key absorb) out) = [(withKey key k l).foldl absorb o] := by
  induction l generalizing out o with
  | nil => exact hout
  | cons e l ih =>
      rw [List.foldl_cons, withKey_cons]
      split_ifs with h
      · rw [List.foldl_cons]
        refine ih ?_
        rw [withKey_mergeStep hkey h, hout]
      · exact ih ((withKey_mergeStep_of_ne hkey h out).trans hout)

/-- **What is kept of a key**: nothing if it has no elements, and otherwise the first of them, which
has absorbed the others in their order. -/
theorem withKey_mergeBy (hkey : ∀ o e, key o = key e → key (absorb o e) = key e) (k : κ)
    (l : List α) :
    withKey key k (mergeBy key absorb l) = absorbAll absorb (withKey key k l) := by
  have hrun : ∀ out : List α, withKey key k out = [] →
      withKey key k (l.foldl (mergeStep key absorb) out) =
        absorbAll absorb (withKey key k l) := by
    induction l with
    | nil => exact fun out hout => hout
    | cons e l ih =>
        intro out hout
        rw [List.foldl_cons, withKey_cons]
        split_ifs with h
        · refine withKey_foldl hkey ?_
          rw [withKey_mergeStep hkey h, hout]
        · exact ih _ ((withKey_mergeStep_of_ne hkey h out).trans hout)
  exact hrun [] rfl

theorem length_mergeInto_le (e : α) (out : List α) :
    (mergeInto key absorb e out).length ≤ out.length + 1 := by
  induction out with
  | nil => exact Nat.le_refl 1
  | cons o out ih =>
      rw [mergeInto]
      split_ifs
      · exact Nat.le_succ _
      · exact Nat.succ_le_succ ih

theorem length_mergeBy_le (l : List α) : (mergeBy key absorb l).length ≤ l.length := by
  have hrun : ∀ out : List α,
      (l.foldl (mergeStep key absorb) out).length ≤ out.length + l.length := by
    induction l with
    | nil => exact fun out => Nat.le_refl _
    | cons e l ih =>
        intro out
        have hstep : (mergeStep key absorb out e).length ≤ out.length + 1 := by
          unfold mergeStep
          split_ifs
          · exact Nat.le_of_eq (List.length_append ..)
          · exact length_mergeInto_le e out
        have hrest := ih (mergeStep key absorb out e)
        rw [List.foldl_cons, List.length_cons]
        omega
  calc (mergeBy key absorb l).length ≤ ([] : List α).length + l.length := hrun []
    _ = l.length := Nat.zero_add _

end AuraLauncher.Lib
