import Mathlib.Algebra.Order.Ring.Nat
import Mathlib.Data.List.Induction

/-!
# Lists cut into blocks, and functions folded over them

* `chunks n xs` — consecutive pieces of length `n`, the last one possibly shorter.
  `chunks_append` cuts at any multiple of `n`, `chunks_of_short` is the last piece, and
  `chunks_induct` is the induction that follows the cutting.
* `flatten_chunks`, `length_of_mem_chunks` — the pieces are the list; they are full when their
  length divides it.
* `Meets f s xs ys` — the folds of `f` over two lists meet: at some place, and from different states
  or different elements, they come to one state, and they go on over the same elements.
* `meets_of_foldl_eq` — two folds that end alike meet, when lists of different lengths have
  different last elements.

The last is the argument for iterated hash functions: a message is padded so that its length is part
of the last block, and then two messages with one digest give a collision of the compression.
-/

namespace AuraLauncher.Lib

variable {α σ : Type*}

/-! ## Pieces of a list -/

/-- The pieces of a list, when the elements of `acc` (the last one first) already belong to the
first piece. -/
def chunksFrom (n : ℕ) : List α → List α → List (List α)
  | acc, [] => if acc.isEmpty then [] else [acc.reverse]
  | acc, x :: xs =>
      if acc.length + 1 = n then (x :: acc).reverse :: chunksFrom n [] xs
      else chunksFrom n (x :: acc) xs

/-- Consecutive pieces of length `n`; the last one may be shorter. -/
def chunks (n : ℕ) (xs : List α) : List (List α) := chunksFrom n [] xs

@[simp] theorem chunks_nil (n : ℕ) : chunks n ([] : List α) = [] := rfl

theorem chunksFrom_append {n : ℕ} (acc : List α) {xs : List α} (ys : List α) (hxs : xs ≠ [])
    (hlen : acc.length + xs.length = n) :
    chunksFrom n acc (xs ++ ys) = (acc.reverse ++ xs) :: chunksFrom n [] ys := by
  induction xs generalizing acc with
  | nil => exact absurd rfl hxs
  | cons x xs ih =>
      rw [List.cons_append, chunksFrom]
      cases xs with
      | nil => rw [if_pos (by simpa using hlen)]; simp
      | cons y xs =>
          rw [List.length_cons, List.length_cons] at hlen
          rw [if_neg (by omega), ih (x :: acc) (by simp) (by simp only [List.length_cons]; omega)]
          simp

theorem chunksFrom_of_short {n : ℕ} (acc : List α) {xs : List α}
    (hlen : acc.length + xs.length < n) :
    chunksFrom n acc xs = if (acc.reverse ++ xs).isEmpty then [] else [acc.reverse ++ xs] := by
  induction xs generalizing acc with
  | nil => simp [chunksFrom]
  | cons x xs ih =>
      rw [List.length_cons] at hlen
      rw [chunksFrom, if_neg (by omega), ih (x :: acc) (by rw [List.length_cons]; omega)]
      simp

/-- The first piece. -/
theorem chunks_append_of_length {n : ℕ} {xs ys : List α} (hn : 0 < n) (hlen : xs.length = n) :
    chunks n (xs ++ ys) = xs :: chunks n ys := by
  have hxs : xs ≠ [] := by
    rintro rfl
    simp at hlen
    omega
  simpa [chunks] using chunksFrom_append [] ys hxs (by simpa using hlen)

/-- The last piece. -/
theorem chunks_of_short {n : ℕ} {xs : List α} (hxs : xs ≠ []) (hlen : xs.length < n) :
    chunks n xs = [xs] := by
  have h := chunksFrom_of_short [] (show ([] : List α).length + xs.length < n by simpa using hlen)
  rw [List.reverse_nil, List.nil_append, if_neg (by simpa using hxs)] at h
  exact h

/-- Induction along the pieces: from the rest of a list to the list, one full piece at a time. -/
theorem chunks_induct {P : List α → Prop} {n : ℕ} (hn : 0 < n)
    (short : ∀ xs : List α, xs.length < n → P xs)
    (full : ∀ xs ys : List α, xs.length = n → P ys → P (xs ++ ys)) (xs : List α) : P xs := by
  induction hlen : xs.length using Nat.strong_induction_on generalizing xs with
  | _ k ih =>
      rcases Nat.lt_or_ge xs.length n with hshort | hfull
      · exact short xs hshort
      · have hdrop : (xs.drop n).length < k := by
          rw [List.length_drop]
          omega
        rw [← List.take_append_drop n xs]
        exact full _ _ (by rw [List.length_take]; omega) (ih _ hdrop _ rfl)

theorem flatten_chunks {n : ℕ} (hn : 0 < n) (xs : List α) : (chunks n xs).flatten = xs := by
  induction xs using chunks_induct hn with
  | short xs hlen =>
      by_cases hxs : xs = []
      · simp [hxs]
      · simp [chunks_of_short hxs hlen]
  | full xs ys hlen ih => rw [chunks_append_of_length hn hlen, List.flatten_cons, ih]

/-- A list may be cut at any multiple of `n`. -/
theorem chunks_append {n : ℕ} (hn : 0 < n) {xs ys : List α} (hdvd : n ∣ xs.length) :
    chunks n (xs ++ ys) = chunks n xs ++ chunks n ys := by
  induction xs using chunks_induct hn with
  | short xs hlen =>
      obtain rfl : xs = [] := List.length_eq_zero_iff.mp (Nat.eq_zero_of_dvd_of_lt hdvd hlen)
      simp
  | full xs zs hlen ih =>
      rw [List.length_append, hlen, Nat.dvd_add_right dvd_rfl] at hdvd
      rw [List.append_assoc, chunks_append_of_length hn hlen, chunks_append_of_length hn hlen,
        ih hdvd, List.cons_append]

theorem length_of_mem_chunks {n : ℕ} (hn : 0 < n) {xs : List α} (hdvd : n ∣ xs.length) :
    ∀ b ∈ chunks n xs, b.length = n := by
  induction xs using chunks_induct hn with
  | short xs hlen =>
      obtain rfl : xs = [] := List.length_eq_zero_iff.mp (Nat.eq_zero_of_dvd_of_lt hdvd hlen)
      simp
  | full xs zs hlen ih =>
      rw [List.length_append, hlen, Nat.dvd_add_right dvd_rfl] at hdvd
      rw [chunks_append_of_length hn hlen]
      intro b hb
      rcases List.mem_cons.mp hb with rfl | hb
      · exact hlen
      · exact ih hdvd b hb

theorem length_chunks {n : ℕ} (hn : 0 < n) {xs : List α} (hdvd : n ∣ xs.length) :
    n * (chunks n xs).length = xs.length := by
  have hflat := congrArg List.length (flatten_chunks hn xs)
  rw [List.length_flatten, List.map_congr_left (length_of_mem_chunks hn hdvd), List.map_const',
    List.sum_replicate_nat] at hflat
  rw [Nat.mul_comm]
  exact hflat

/-! ## Folds that meet -/

/-- The folds over `xs` and `ys` meet at some place: the states or the elements before it differ,
the states after it are the same, and the elements that follow are the same. -/
def Meets (f : σ → α → σ) (s : σ) (xs ys : List α) : Prop :=
  ∃ xs' x ys' y rest, xs = xs' ++ x :: rest ∧ ys = ys' ++ y :: rest ∧
    (xs'.foldl f s, x) ≠ (ys'.foldl f s, y) ∧ f (xs'.foldl f s) x = f (ys'.foldl f s) y

theorem Meets.snoc {f : σ → α → σ} {s : σ} {xs ys : List α} (h : Meets f s xs ys) (z : α) :
    Meets f s (xs ++ [z]) (ys ++ [z]) := by
  obtain ⟨xs', x, ys', y, rest, rfl, rfl, hne, heq⟩ := h
  exact ⟨xs', x, ys', y, rest ++ [z], by simp, by simp, hne, heq⟩

/-- Two different lists of one length that are folded to one state meet. -/
theorem meets_of_length_eq {f : σ → α → σ} {s : σ} {xs ys : List α}
    (hlen : xs.length = ys.length) (hne : xs ≠ ys) (heq : xs.foldl f s = ys.foldl f s) :
    Meets f s xs ys := by
  induction xs using List.reverseRecOn generalizing ys with
  | nil => exact absurd (List.length_eq_zero_iff.mp hlen.symm).symm hne
  | append_singleton xs x ih =>
      rcases List.eq_nil_or_concat ys with rfl | ⟨ys, y, rfl⟩
      · simp at hlen
      · rw [List.concat_eq_append] at *
        rw [List.foldl_append, List.foldl_append, List.foldl_cons, List.foldl_cons, List.foldl_nil,
          List.foldl_nil] at heq
        by_cases hlast : (xs.foldl f s, x) = (ys.foldl f s, y)
        · -- nothing differs at the last element, so the difference lies before it
          obtain ⟨hstate, rfl⟩ := Prod.mk.inj hlast
          have hne' : xs ≠ ys := fun h => hne (by rw [h])
          exact (ih (by simpa using hlen) hne' hstate).snoc x
        · exact ⟨xs, x, ys, y, [], rfl, rfl, hlast, heq⟩

/-- **Folds that end alike meet**, if the last element tells lists of different lengths apart. -/
theorem meets_of_foldl_eq {f : σ → α → σ} {s : σ} {xs ys : List α} (hxs : xs ≠ []) (hys : ys ≠ [])
    (hlast : xs.length ≠ ys.length → xs.getLast hxs ≠ ys.getLast hys) (hne : xs ≠ ys)
    (heq : xs.foldl f s = ys.foldl f s) : Meets f s xs ys := by
  by_cases hlen : xs.length = ys.length
  · exact meets_of_length_eq hlen hne heq
  · have hx := List.dropLast_concat_getLast hxs
    have hy := List.dropLast_concat_getLast hys
    refine ⟨xs.dropLast, xs.getLast hxs, ys.dropLast, ys.getLast hys, [], hx.symm, hy.symm, ?_, ?_⟩
    · exact fun h => hlast hlen (Prod.mk.inj h).2
    · rw [← hx, ← hy] at heq
      simpa using heq

end AuraLauncher.Lib
