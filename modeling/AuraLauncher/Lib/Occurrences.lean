import Mathlib.Algebra.GroupWithZero.Nat
import Mathlib.Data.List.Infix
import Mathlib.Tactic.Common

/-!
# Occurrences of a word in a text

How often a word occurs in a text that is put together from pieces. Occurrences may overlap and
are counted by where they start.

* `occurrences`, `occurrences_eq_zero_iff` — the count; it is zero for texts without the word.
* `Apart` — no occurrence can straddle the seam of two pieces: the second begins with a letter that
  the word has at most in front, or the first ends with one that it has at most at its end.
* `occurrences_append` — over such a seam the counts add up.
* `eq_of_occurrences_le_one` — a word that occurs once at most occurs at one place.
* `Apart.infix_append` — over such a seam a word occurs in one of the pieces or not at all.
-/

namespace AuraLauncher.Lib

universe u

variable {α : Type u} [DecidableEq α]

/-- How often `w` occurs in a text. -/
def occurrences (w : List α) : List α → ℕ
  | [] => if w = [] then 1 else 0
  | c :: cs => (if w <+: c :: cs then 1 else 0) + occurrences w cs

variable {w : List α}

theorem occurrences_eq_zero_iff {s : List α} : occurrences w s = 0 ↔ ¬ w <:+: s := by
  induction s with
  | nil => simp [occurrences]
  | cons c cs ih =>
      rw [occurrences, Nat.add_eq_zero_iff, ih, List.infix_cons_iff, not_or]
      exact and_congr_left fun _ => by simp

/-- A text without a letter of the word has no occurrence of it. -/
theorem occurrences_eq_zero_of_not_mem {s : List α} {c : α} (hw : c ∈ w) (hs : c ∉ s) :
    occurrences w s = 0 :=
  occurrences_eq_zero_iff.mpr fun h => hs (h.subset hw)

theorem occurrences_nil (hw : w ≠ []) : occurrences w [] = 0 := if_neg hw

/-- No occurrence of `w` straddles the seam of `a` and `b`. -/
def Apart (w a b : List α) : Prop :=
  (∀ c, b.head? = some c → c ∉ w.tail) ∨ ∀ c, a.getLast? = some c → c ∉ w.dropLast

omit [DecidableEq α] in
theorem Apart.tail {a b : List α} {c : α} (h : Apart w (c :: a) b) : Apart w a b := by
  refine h.imp_right fun hlast => ?_
  cases a with
  | nil => exact fun d hd => by cases hd
  | cons d ds =>
      intro e he
      exact hlast e (by rwa [List.getLast?_cons_cons])

omit [DecidableEq α] in
/-- Over such a seam a word is in front exactly if it is in front of the first piece. -/
theorem Apart.isPrefix_append_iff {a b : List α} (h : Apart w a b) (ha : a ≠ []) :
    w <+: a ++ b ↔ w <+: a := by
  constructor
  · rintro ⟨rest, hrest⟩
    rcases List.append_eq_append_iff.mp hrest with ⟨m, hm, -⟩ | ⟨m, hm, hb⟩
    · exact ⟨m, hm.symm⟩
    · -- the rest `m` of the word is in front of `b`
      cases m with
      | nil => exact ⟨[], by rw [hm]; simp⟩
      | cons d ds =>
          exfalso
          rcases h with hhead | hlast
          · refine hhead d (by rw [hb]; rfl) ?_
            rw [hm]
            cases a with
            | nil => exact absurd rfl ha
            | cons c cs => simp
          · refine hlast (a.getLast ha) (List.getLast?_eq_some_getLast ha) ?_
            rw [hm, List.dropLast_append_of_ne_nil (List.cons_ne_nil d ds)]
            exact List.mem_append_left _ (List.getLast_mem ha)
  · exact fun hw => hw.trans (List.prefix_append a b)

/-- **Over such a seam the counts add up.** -/
theorem occurrences_append {a b : List α} (hw : w ≠ []) (h : Apart w a b) :
    occurrences w (a ++ b) = occurrences w a + occurrences w b := by
  induction a with
  | nil => rw [List.nil_append, occurrences_nil hw, Nat.zero_add]
  | cons c a ih =>
      have hfront := h.isPrefix_append_iff (List.cons_ne_nil c a)
      rw [List.cons_append] at hfront ⊢
      rw [occurrences, occurrences, ih h.tail, Nat.add_assoc]
      simp only [hfront]

/-- The counts of pieces that all end with a letter that is not in the word add up. -/
theorem occurrences_flatMap {β : Type*} (hw : w ≠ []) {c : α} (hc : c ∉ w) {f : β → List α}
    {xs : List β} (hf : ∀ x, (f x).getLast? = some c) :
    occurrences w (xs.flatMap f) = (xs.map fun x => occurrences w (f x)).sum := by
  induction xs with
  | nil => exact occurrences_nil hw
  | cons x xs ih =>
      have hapart : Apart w (f x) (xs.flatMap f) := by
        refine .inr fun d hd hmem => hc ?_
        obtain rfl := Option.some.inj ((hf x).symm.trans hd)
        exact List.dropLast_subset w hmem
      rw [List.flatMap_cons, occurrences_append hw hapart, ih, List.map_cons, List.sum_cons]

/-- A word that occurs once at most occurs at one place. -/
theorem eq_of_occurrences_le_one {s a b a' b' : List α} (hw : w ≠ [])
    (hone : occurrences w s ≤ 1) (h : a ++ (w ++ b) = s) (h' : a' ++ (w ++ b') = s) : a = a' := by
  have hlater : ∀ {c : α} {cs a b a' b' : List α}, occurrences w (c :: cs) ≤ 1 →
      w ++ b = c :: cs → a' ++ (w ++ b') = cs → False := by
    intro c cs a b a' b' hle hfront htail
    have hcs : occurrences w cs ≠ 0 :=
      fun hzero => occurrences_eq_zero_iff.mp hzero ⟨a', b', by rw [← htail]; simp⟩
    rw [occurrences, if_pos ⟨b, hfront⟩] at hle
    omega
  induction s generalizing a a' with
  | nil =>
      simp only [List.append_eq_nil_iff] at h
      exact absurd h.2.1 hw
  | cons c cs ih =>
      cases a with
      | nil =>
          cases a' with
          | nil => rfl
          | cons d ds =>
              obtain ⟨-, htail⟩ := List.cons.inj h'
              exact (hlater (a := []) hone h htail).elim
      | cons d ds =>
          obtain ⟨rfl, htail⟩ := List.cons.inj h
          cases a' with
          | nil => exact (hlater (a := []) hone h' htail).elim
          | cons e es =>
              obtain ⟨rfl, htail'⟩ := List.cons.inj h'
              rw [occurrences] at hone
              rw [ih (by omega) htail htail']

/-- Over such a seam a word that occurs in the whole occurs in one of the pieces. -/
theorem Apart.infix_append {a b : List α} (hw : w ≠ []) (h : Apart w a b)
    (hsub : w <:+: a ++ b) : w <:+: a ∨ w <:+: b := by
  by_contra hnot
  rw [not_or, ← occurrences_eq_zero_iff, ← occurrences_eq_zero_iff] at hnot
  have hsum := occurrences_append hw h
  rw [hnot.1, hnot.2] at hsum
  exact occurrences_eq_zero_iff.mp hsum hsub

end AuraLauncher.Lib
