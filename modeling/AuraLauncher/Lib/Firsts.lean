import Mathlib.Data.List.Induction
import Mathlib.Data.List.Nodup
import Mathlib.Data.List.Sort
import Mathlib.Tactic.Common

/-!
# Loops over a list

Two loops that occur everywhere: one that adds to what it has, and one that remembers the keys it
has seen. `firstsBy key l` keeps of a list the elements whose key did not come before, in their
order.

* `foldl_adds_iff` — what holds after a loop whose steps only add.
* `firstsBy_sublist`, `nodup_map_firstsBy` — the elements kept are a sublist, no two of one key.
* `firstsBy_isPrefix` — a longer list keeps more, at the end; `take_firstsBy_append_take` — what
  does not matter for the first `n` elements kept.
* `exists_firstsBy` — every element has its key kept, by itself or by an element before it.
* `firstsBy_cons_of_forall` — of a list with one key, the first element is kept.
* `mem_firstsBy_insertionSort_iff` — what is kept of a sorted list: of each key the least element,
  and of several the one that came first.
-/

namespace AuraLauncher.Lib

universe u v

/-- When every step adds what comes with its element, what holds after the loop held before it or
comes with an element. -/
theorem foldl_adds_iff {α : Type u} {β : Type v} {op : β → α → β} (P : β → Prop) (Q : α → Prop)
    (l : List α) (b : β) (h : ∀ b a, P (op b a) ↔ P b ∨ Q a) :
    P (l.foldl op b) ↔ P b ∨ ∃ a ∈ l, Q a := by
  induction l generalizing b with
  | nil => simp
  | cons a l ih =>
      rw [List.foldl_cons, ih, h, or_assoc]
      simp only [List.mem_cons, exists_eq_or_imp]

variable {α : Type u} {κ : Type v} [DecidableEq κ] {key : α → κ}

/-- The elements whose key did not come before. -/
def firstsBy (key : α → κ) (l : List α) : List α :=
  l.foldl (fun kept c => if kept.any fun k => decide (key k = key c) then kept else kept ++ [c]) []

@[simp] theorem firstsBy_nil : firstsBy key [] = [] := rfl

/-- The last element is kept when its key is new. -/
theorem firstsBy_concat (l : List α) (c : α) :
    firstsBy key (l ++ [c]) =
      if ∃ k ∈ firstsBy key l, key k = key c then firstsBy key l else firstsBy key l ++ [c] := by
  unfold firstsBy
  rw [List.foldl_append]
  simp only [List.foldl_cons, List.foldl_nil, List.any_eq_true, decide_eq_true_eq]

theorem firstsBy_sublist (l : List α) : List.Sublist (firstsBy key l) l := by
  induction l using List.reverseRecOn with
  | nil => exact List.Sublist.refl []
  | append_singleton l c ih =>
      rw [firstsBy_concat]
      split_ifs
      · exact ih.trans (List.sublist_append_left l [c])
      · exact ih.append (List.Sublist.refl [c])

/-- What is kept of a list is kept first of every list that continues it. -/
theorem firstsBy_isPrefix (l l' : List α) : firstsBy key l <+: firstsBy key (l ++ l') := by
  induction l' using List.reverseRecOn with
  | nil => exact ⟨[], by simp⟩
  | append_singleton l' c ih =>
      rw [← List.append_assoc, firstsBy_concat]
      split_ifs
      · exact ih
      · exact ih.trans (List.prefix_append _ _)

theorem mem_of_mem_firstsBy {l : List α} {c : α} (h : c ∈ firstsBy key l) : c ∈ l :=
  (firstsBy_sublist l).subset h

theorem nodup_map_firstsBy (l : List α) : ((firstsBy key l).map key).Nodup := by
  induction l using List.reverseRecOn with
  | nil => exact List.nodup_nil
  | append_singleton l c ih =>
      rw [firstsBy_concat]
      split_ifs with h
      · exact ih
      · rw [List.map_append, List.map_singleton]
        refine List.nodup_append.mpr ⟨ih, List.nodup_singleton _, ?_⟩
        rintro a ha b hb rfl
        obtain ⟨k, hk, hkey⟩ := List.mem_map.mp ha
        exact h ⟨k, hk, hkey.trans (List.mem_singleton.mp hb)⟩

/-- When enough is kept, what comes later does not matter. -/
theorem take_firstsBy_append {n : ℕ} {l : List α} (h : n ≤ (firstsBy key l).length)
    (l' : List α) : (firstsBy key (l ++ l')).take n = (firstsBy key l).take n := by
  obtain ⟨t, ht⟩ : firstsBy key l <+: firstsBy key (l ++ l') := firstsBy_isPrefix l l'
  rw [← ht, List.take_append_of_le_length h]

variable (key) in
/-- An element that is not kept has one before it, of its key, that is. -/
theorem exists_firstsBy {l : List α} {c : α} (h : c ∈ l) :
    ∃ k ∈ firstsBy key l, key k = key c ∧ (k = c ∨ List.Sublist [k, c] l) := by
  induction l using List.reverseRecOn with
  | nil => exact absurd h List.not_mem_nil
  | append_singleton l d ih =>
      have hkept : ∀ k ∈ firstsBy key l, k ∈ firstsBy key (l ++ [d]) := by
        intro k hk
        rw [firstsBy_concat]
        split_ifs
        · exact hk
        · exact List.mem_append_left _ hk
      rcases List.mem_append.mp h with hc | hc
      · obtain ⟨k, hk, hkey, hbefore⟩ := ih hc
        refine ⟨k, hkept k hk, hkey, hbefore.imp_right fun hsub => ?_⟩
        exact hsub.trans (List.sublist_append_left l [d])
      · obtain rfl : c = d := List.mem_singleton.mp hc
        by_cases hseen : ∃ k ∈ firstsBy key l, key k = key c
        · obtain ⟨k, hk, hkey⟩ := hseen
          refine ⟨k, hkept k hk, hkey, .inr ?_⟩
          have hk' : List.Sublist [k] l := List.singleton_sublist.mpr (mem_of_mem_firstsBy hk)
          exact hk'.append (List.Sublist.refl [c])
        · refine ⟨c, ?_, rfl, .inl rfl⟩
          rw [firstsBy_concat, if_neg hseen]
          exact List.mem_append_right _ List.mem_cons_self

/-- Of a list without repetition, no more than `n` elements matter for the first `n`. -/
theorem take_firstsBy_append_take (n : ℕ) (l : List α) {l' : List α} (h : (l'.map key).Nodup) :
    (firstsBy key (l ++ l'.take n)).take n = (firstsBy key (l ++ l')).take n := by
  by_cases hlong : n ≤ l'.length
  · have hmany : n ≤ (firstsBy key (l ++ l'.take n)).length := by
      have hsub : (l'.take n).map key ⊆ (firstsBy key (l ++ l'.take n)).map key := by
        intro k hk
        obtain ⟨c, hc, rfl⟩ := List.mem_map.mp hk
        obtain ⟨d, hd, hkey, -⟩ := exists_firstsBy key (List.mem_append_right l hc)
        exact List.mem_map.mpr ⟨d, hd, hkey⟩
      have hnodup : ((l'.take n).map key).Nodup := h.sublist ((List.take_sublist n l').map key)
      have hcount := (List.subperm_of_subset hnodup hsub).length_le
      rwa [List.length_map, List.length_map, List.length_take, min_eq_left hlong] at hcount
    rw [← take_firstsBy_append hmany (l'.drop n), List.append_assoc, List.take_append_drop]
  · rw [List.take_of_length_le (Nat.le_of_not_le hlong)]

variable (key) in
/-- In a list ordered by `R`, an element that is not kept comes after one of its key that is. -/
theorem exists_firstsBy_rel {R : α → α → Prop} (hrefl : ∀ a, R a a) {l : List α} (hl : l.Pairwise R)
    {c : α} (h : c ∈ l) : ∃ k ∈ firstsBy key l, key k = key c ∧ R k c := by
  obtain ⟨k, hk, hkey, rfl | hsub⟩ := exists_firstsBy key h
  · exact ⟨k, hk, hkey, hrefl k⟩
  · refine ⟨k, hk, hkey, ?_⟩
    have hpair := hl.sublist hsub
    exact List.rel_of_pairwise_cons hpair List.mem_cons_self

/-- Of a list with one key, the first element is kept. -/
theorem firstsBy_cons_of_forall {a : α} {l : List α} (h : ∀ b ∈ l, key b = key a) :
    firstsBy key (a :: l) = [a] := by
  induction l using List.reverseRecOn with
  | nil => rfl
  | append_singleton l c ih =>
      have hl : firstsBy key (a :: l) = [a] := ih fun b hb => h b (List.mem_append_left _ hb)
      have hc : key c = key a := h c (List.mem_append_right _ List.mem_cons_self)
      rw [← List.cons_append, firstsBy_concat, hl, if_pos ⟨a, List.mem_cons_self, hc.symm⟩]

/-! ## The first of a sorted list -/

/-- An element is kept when its key does not occur before it. -/
theorem mem_firstsBy_iff {l : List α} {c : α} : c ∈ firstsBy key l ↔
    ∃ before after, l = before ++ c :: after ∧ ∀ e ∈ before, key e ≠ key c := by
  induction l using List.reverseRecOn with
  | nil => simp
  | append_singleton l d ih =>
      have hsplit : (∃ before after, l ++ [d] = before ++ c :: after ∧
            ∀ e ∈ before, key e ≠ key c) ↔
          c ∈ firstsBy key l ∨ c = d ∧ ∀ e ∈ l, key e ≠ key c := by
        rw [ih]
        constructor
        · rintro ⟨before, after, heq, hbefore⟩
          induction after using List.reverseRecOn with
          | nil =>
              obtain ⟨rfl, hd⟩ := List.append_inj' heq rfl
              exact .inr ⟨(List.singleton_inj.mp hd).symm, hbefore⟩
          | append_singleton after d' _ =>
              rw [← List.cons_append, ← List.append_assoc] at heq
              exact .inl ⟨before, after, (List.append_inj' heq rfl).1, hbefore⟩
        · rintro (⟨before, after, rfl, hbefore⟩ | ⟨rfl, hl⟩)
          · exact ⟨before, after ++ [d], by simp, hbefore⟩
          · exact ⟨l, [], rfl, hl⟩
      have hseen : (∃ k ∈ firstsBy key l, key k = key d) ↔ ∃ k ∈ l, key k = key d := by
        constructor
        · rintro ⟨k, hk, hkey⟩
          exact ⟨k, mem_of_mem_firstsBy hk, hkey⟩
        · rintro ⟨k, hk, hkey⟩
          obtain ⟨k', hk', hkey', -⟩ := exists_firstsBy key hk
          exact ⟨k', hk', hkey'.trans hkey⟩
      rw [firstsBy_concat, hsplit]
      split_ifs with h
      · obtain ⟨k, hk, hkey⟩ := hseen.mp h
        refine ⟨.inl, fun hc => hc.resolve_right ?_⟩
        rintro ⟨rfl, hl⟩
        exact hl k hk hkey
      · rw [List.mem_append, List.mem_singleton]
        refine or_congr_right (and_iff_left_of_imp ?_).symm
        rintro rfl e he hkey
        exact h (hseen.mpr ⟨e, he, hkey⟩)

theorem mem_firstsBy_cons_iff {a c : α} {l : List α} :
    c ∈ firstsBy key (a :: l) ↔ c = a ∨ c ∈ firstsBy key l ∧ key a ≠ key c := by
  rw [mem_firstsBy_iff, mem_firstsBy_iff]
  constructor
  · rintro ⟨before, after, heq, hbefore⟩
    cases before with
    | nil => exact .inl (List.cons.inj heq).1.symm
    | cons b before =>
        obtain ⟨rfl, rfl⟩ := List.cons.inj heq
        rw [List.forall_mem_cons] at hbefore
        exact .inr ⟨⟨before, after, rfl, hbefore.2⟩, hbefore.1⟩
  · rintro (rfl | ⟨⟨before, after, rfl, hbefore⟩, hkey⟩)
    · exact ⟨[], l, rfl, fun e he => absurd he List.not_mem_nil⟩
    · exact ⟨a :: before, after, rfl, List.forall_mem_cons.mpr ⟨hkey, hbefore⟩⟩

section sorted

variable {R : α → α → Prop} [DecidableRel R] [IsTrans α R]

/-- An element that is inserted is kept when it comes before all of its key, and hides those that
it comes before. -/
theorem mem_firstsBy_orderedInsert_iff {a c : α} {s : List α} (hs : s.Pairwise R) :
    c ∈ firstsBy key (s.orderedInsert R a) ↔ (c = a ∧ ∀ e ∈ s, key e = key a → R a e) ∨
      c ∈ firstsBy key s ∧ (key a = key c → ¬ R a c) := by
  induction s with
  | nil => simp [mem_firstsBy_cons_iff]
  | cons b s ih =>
      obtain ⟨hb, hs⟩ := List.pairwise_cons.mp hs
      rw [List.orderedInsert_cons]
      split_ifs with hab
      · -- It comes before everything.
        have hall : ∀ e ∈ b :: s, R a e :=
          List.forall_mem_cons.mpr ⟨hab, fun e he => IsTrans.trans a b e hab (hb e he)⟩
        rw [mem_firstsBy_cons_iff]
        refine or_congr (and_iff_left fun e he _ => hall e he).symm (and_congr_right fun hc => ?_)
        exact ⟨fun h hkey => absurd hkey h, fun h hkey =>
          h hkey (hall c (mem_of_mem_firstsBy hc))⟩
      · rw [mem_firstsBy_cons_iff, mem_firstsBy_cons_iff, ih hs, List.forall_mem_cons]
        by_cases hcb : c = b
        · subst hcb
          simp [hab]
        · by_cases hca : c = a
          · subst hca
            simp [hab, hcb, eq_comm]
            tauto
          · simp [hcb, hca]
            tauto

/-- **What is kept of a sorted list**: of each key an element that none before it precedes or ties
with, and none after it precedes. -/
theorem mem_firstsBy_insertionSort_iff [Std.Total R] {l : List α} {c : α} :
    c ∈ firstsBy key (l.insertionSort R) ↔ ∃ before after, l = before ++ c :: after ∧
      (∀ e ∈ before, key e = key c → ¬ R e c) ∧ ∀ e ∈ after, key e = key c → R c e := by
  induction l with
  | nil => simp
  | cons a l ih =>
      rw [List.insertionSort_cons,
        mem_firstsBy_orderedInsert_iff (List.pairwise_insertionSort R l), ih]
      simp only [List.mem_insertionSort]
      constructor
      · rintro (⟨rfl, hl⟩ | ⟨⟨before, after, rfl, hbefore, hafter⟩, ha⟩)
        · exact ⟨[], l, rfl, fun e he => absurd he List.not_mem_nil, hl⟩
        · exact ⟨a :: before, after, rfl, List.forall_mem_cons.mpr ⟨ha, hbefore⟩, hafter⟩
      · rintro ⟨before, after, heq, hbefore, hafter⟩
        cases before with
        | nil =>
            obtain ⟨rfl, rfl⟩ := List.cons.inj heq
            exact .inl ⟨rfl, hafter⟩
        | cons b before =>
            obtain ⟨rfl, rfl⟩ := List.cons.inj heq
            rw [List.forall_mem_cons] at hbefore
            exact .inr ⟨⟨before, after, rfl, hbefore.2, hafter⟩, hbefore.1⟩

end sorted

end AuraLauncher.Lib
