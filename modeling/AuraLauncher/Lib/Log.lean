import Mathlib.Data.List.Basic
import Mathlib.Tactic.Common

/-!
# Logs whose entries are accounted for

A program that appends to a log as it runs. `Justified p M base l` says that `l` continues `base`,
and that every entry it added with `p` is accounted for by `M`, which may speak of all that was
logged before the entry.

* `Justified.refl`, `Justified.extend` — the empty continuation, and one more piece of the log.
* `Justified.snoc`, `Justified.append` — a justified entry, and entries without `p`.
* `Justified.mem` — an added entry with `p`, from what was logged before it.
* `Justified.countP_le` — at most one entry is added when an entry rules out those after it.
* `Since` — there was an entry of one kind, and all entries after it are of another.
-/

namespace AuraLauncher.Lib

universe u v

variable {α : Type u} {β : Type v} {p : α → Bool} {M : List α → α → Prop} {base l : List α}

/-- `l` continues `base`, and every added entry with `p` has `M` with what was logged before it. -/
def Justified (p : α → Bool) (M : List α → α → Prop) (base l : List α) : Prop :=
  ∃ added, l = base ++ added ∧
    ∀ before c after, added = before ++ c :: after → p c = true → M (base ++ before) c

theorem Justified.refl (base : List α) : Justified p M base base :=
  ⟨[], (List.append_nil _).symm, fun before c after h => by simp at h⟩

/-- A split of `xs ++ ys` at an entry splits one of the two parts there. -/
theorem append_eq_append_cons {xs ys before after : List α} {c : α}
    (h : xs ++ ys = before ++ c :: after) :
    (∃ rest, xs = before ++ c :: rest) ∨ ∃ before', before = xs ++ before' ∧
      ys = before' ++ c :: after := by
  rcases List.append_eq_append_iff.mp h with ⟨before', rfl, hys⟩ | ⟨rest, hxs, hrest⟩
  · exact .inr ⟨before', rfl, hys⟩
  · cases rest with
    | nil => exact .inr ⟨[], by simpa using hxs.symm, by simpa using hrest.symm⟩
    | cons c' rest =>
        obtain ⟨rfl, -⟩ := List.cons.inj hrest
        exact .inl ⟨rest, hxs⟩

/-- The same log, for fewer entries and by a weaker account. -/
theorem Justified.imp {q : α → Bool} {N : List α → α → Prop} (h : Justified p M base l)
    (hN : ∀ before c, q c = true → p c = true ∧ (M before c → N before c)) :
    Justified q N base l := by
  obtain ⟨added, rfl, hadded⟩ := h
  refine ⟨added, rfl, fun before c after hsplit hq => ?_⟩
  obtain ⟨hp, hM⟩ := hN (base ++ before) c hq
  exact hM (hadded before c after hsplit hp)

/-- **The log grows**: a piece whose entries with `p` are justified where they stand. -/
theorem Justified.extend (h : Justified p M base l) {ys : List α}
    (hys : ∀ before c after, ys = before ++ c :: after → p c = true → M (l ++ before) c) :
    Justified p M base (l ++ ys) := by
  obtain ⟨added, rfl, hadded⟩ := h
  refine ⟨added ++ ys, List.append_assoc _ _ _, fun before c after hsplit hp => ?_⟩
  rcases append_eq_append_cons hsplit with ⟨rest, hrest⟩ | ⟨before', rfl, hafter⟩
  · exact hadded before c rest hrest hp
  · rw [← List.append_assoc]
    exact hys before' c after hafter hp

/-- Entries without `p` need no account. -/
theorem Justified.append (h : Justified p M base l) {ys : List α} (hys : ∀ c ∈ ys, p c = false) :
    Justified p M base (l ++ ys) := by
  refine h.extend fun before c after hsplit hp => ?_
  rw [hys c (by simp [hsplit])] at hp
  cases hp

theorem Justified.snoc (h : Justified p M base l) {c : α} (hc : p c = true → M l c) :
    Justified p M base (l ++ [c]) := by
  refine h.extend fun before c' after hsplit hp => ?_
  obtain ⟨rfl, rfl, -⟩ : before = [] ∧ c = c' ∧ after = [] := by
    simpa [eq_comm] using List.singleton_eq_append_iff.mp hsplit
  rw [List.append_nil]
  exact hc hp

/-- The entries of a log that another log takes over. -/
theorem Justified.extend_map {q : β → Bool} {N : List β → β → Prop} {l' base' : List β} {f : β → α}
    (h : Justified p M base l) (h' : Justified q N base' l') (hbase : base' = [])
    (hf : ∀ before c, p (f c) = true → q c = true ∧ (N before c → M (l ++ before.map f) (f c))) :
    Justified p M base (l ++ l'.map f) := by
  subst hbase
  obtain ⟨added, rfl, hadded⟩ := h'
  refine h.extend fun before c after hsplit hp => ?_
  obtain ⟨before', rest', hmap, rfl, hrest⟩ := List.map_eq_append_iff.mp hsplit
  obtain ⟨c', after', rfl, rfl, rfl⟩ := List.map_eq_cons_iff.mp hrest
  obtain ⟨hq, hN⟩ := hf before' c' hp
  exact hN (by simpa using hadded before' c' after' (by simpa using hmap) hq)

/-- Every added entry with `p` is justified by what was logged before it. -/
theorem Justified.mem (h : Justified p M base l) {added : List α} (hl : l = base ++ added) {c : α}
    (hc : c ∈ added) (hp : p c = true) : ∃ before, before <+: added ∧ M (base ++ before) c := by
  obtain ⟨added', hl', hadded⟩ := h
  obtain rfl : added = added' := List.append_cancel_left (hl.symm.trans hl')
  obtain ⟨before, after, rfl⟩ := List.append_of_mem hc
  exact ⟨before, List.prefix_append _ _, hadded before c after rfl hp⟩

/-- A list in which no entry with `p` comes after another has one at most. -/
theorem countP_le_one {xs : List α}
    (h : ∀ before c after, xs = before ++ c :: after → p c = true → before.countP p = 0) :
    xs.countP p ≤ 1 := by
  induction xs with
  | nil => simp
  | cons x xs ih =>
      rw [List.countP_cons]
      cases hx : p x with
      | false =>
          have hrest := ih fun before c after hsplit hp => by
            have hcount := h (x :: before) c after (by rw [hsplit, List.cons_append]) hp
            rwa [List.countP_cons_of_neg (by simp [hx])] at hcount
          simpa using hrest
      | true =>
          have hrest : xs.countP p = 0 := by
            refine List.countP_eq_zero.mpr fun c hc hp => ?_
            obtain ⟨before, after, rfl⟩ := List.append_of_mem hc
            have hcount := h (x :: before) c after rfl hp
            rw [List.countP_cons_of_pos hx] at hcount
            omega
          simp [hrest]

/-- **At most one**: where an entry with `p` is justified only when none was added before it, one is
added at most. -/
theorem Justified.countP_le (h : Justified p M base l)
    (hM : ∀ before c, M (base ++ before) c → p c = true → before.countP p = 0) :
    l.countP p ≤ base.countP p + 1 := by
  obtain ⟨added, rfl, hadded⟩ := h
  rw [List.countP_append]
  exact Nat.add_le_add_left (countP_le_one fun before c after hsplit hp =>
    hM before c (hadded before c after hsplit hp) hp) _

/-! ## The last entry of a kind -/

section Since

variable {P Q : α → Prop} {log : List α} {c : α}

/-- There is an entry with `P` after which every entry has `Q`. -/
def Since (P Q : α → Prop) (log : List α) : Prop :=
  ∃ before c after, log = before ++ c :: after ∧ P c ∧ ∀ d ∈ after, Q d

theorem since_snoc (log : List α) (hc : P c) : Since P Q (log ++ [c]) :=
  ⟨log, c, [], rfl, hc, fun _ hd => absurd hd List.not_mem_nil⟩

/-- An entry with `Q` changes nothing. -/
theorem Since.snoc (h : Since P Q log) (hc : Q c) : Since P Q (log ++ [c]) := by
  obtain ⟨before, d, after, rfl, hd, hafter⟩ := h
  refine ⟨before, d, after ++ [c], by simp, hd, fun e he => ?_⟩
  rcases List.mem_append.mp he with he | he
  · exact hafter e he
  · obtain rfl := List.mem_singleton.mp he
    exact hc

end Since

end AuraLauncher.Lib
