import Mathlib.Data.Set.Function
import Mathlib.Tactic.Common

/-!
# Values filed under names

A store may keep the value of a key under a name that it makes of the key. It serves its keys as a
store of the keys themselves would, whatever is put and dropped, exactly when no two keys in use
have the same name.

Where a name is made of parts with a separator between them, two names are the same when the parts
are, or when a separator inside a part is taken for the one between them.

* `FileOp`, `FileOp.apply` — a change, in a store of names.
* `foldl_apply_eq_iff_injOn` — when the names do not matter.
* `changeCell`, `foldl_changeCell_eq` — the same for stores whose cells are changed in place.
* `Shifted`, `append_cons_eq_iff` — how two texts with a separator may agree.
-/

namespace AuraLauncher.Lib

universe u v w

variable {κ : Type u} {ν : Type v} {β : Type w}

/-! ## Cells -/

/-- The cell of a key is changed, in a store that has it under the name of the key. -/
def changeCell {σ : Type w} [DecidableEq ν] (name : κ → ν) (store : ν → σ) (op : κ × (σ → σ)) :
    ν → σ :=
  Function.update store (name op.1) (op.2 (store (name op.1)))

/-- Keys with different names have what each would have by itself. -/
theorem foldl_changeCell_eq {σ : Type w} [DecidableEq κ] [DecidableEq ν] {name : κ → ν}
    {A : Set κ} (hinj : Set.InjOn name A) (ops : List (κ × (σ → σ))) (hops : ∀ op ∈ ops, op.1 ∈ A)
    {store : ν → σ} {cells : κ → σ} (hstore : ∀ k ∈ A, store (name k) = cells k) :
    ∀ k ∈ A, ops.foldl (changeCell name) store (name k) = ops.foldl (changeCell id) cells k := by
  induction ops generalizing store cells with
  | nil => exact hstore
  | cons op ops ih =>
      have hop : op.1 ∈ A := hops op List.mem_cons_self
      refine ih (fun o ho => hops o (List.mem_cons_of_mem op ho)) fun k hk => ?_
      unfold changeCell
      by_cases hkey : k = op.1
      · rw [hkey, Function.update_self, id_eq, Function.update_self, hstore op.1 hop]
      · rw [Function.update_of_ne (fun heq => hkey (hinj hk hop heq)), id_eq,
          Function.update_of_ne hkey, hstore k hk]

/-! ## Stores -/

/-- A change of the value of a key. -/
inductive FileOp (κ : Type u) (β : Type w)
  | put (k : κ) (b : β)
  | drop (k : κ)

/-- The key that is changed. -/
def FileOp.key : FileOp κ β → κ
  | .put k _ | .drop k => k

/-- The value that the key has afterwards. -/
def FileOp.value : FileOp κ β → Option β
  | .put _ b => some b
  | .drop _ => none

/-- A change, in a store that has the value of a key under its name. -/
def FileOp.apply [DecidableEq ν] (name : κ → ν) (store : ν → Option β) (op : FileOp κ β) :
    ν → Option β :=
  Function.update store (name op.key) op.value

/-- A store is one of cells, each change of which forgets what was there. -/
theorem foldl_apply_eq [DecidableEq ν] (name : κ → ν) (store : ν → Option β)
    (ops : List (FileOp κ β)) :
    ops.foldl (FileOp.apply name) store =
      (ops.map fun op => (op.key, fun _ => op.value)).foldl (changeCell name) store := by
  rw [List.foldl_map]
  rfl

/-- **When the names do not matter**: a store of names gives for every key in use what a store of
the keys gives, after any changes, exactly when no two of the keys have one name. -/
theorem foldl_apply_eq_iff_injOn [DecidableEq κ] [DecidableEq ν] [Nonempty β] {name : κ → ν}
    {A : Set κ} :
    (∀ ops : List (FileOp κ β), (∀ op ∈ ops, op.key ∈ A) → ∀ k ∈ A,
      ops.foldl (FileOp.apply name) (fun _ => none) (name k) =
        ops.foldl (FileOp.apply id) (fun _ => none) k) ↔ Set.InjOn name A := by
  constructor
  · intro h k hk k' hk' hname
    by_contra hne
    obtain ⟨b⟩ := ‹Nonempty β›
    have hsame := h [.put k b] (by simpa [FileOp.key] using hk) k' hk'
    simp only [List.foldl_cons, List.foldl_nil, FileOp.apply, FileOp.key, FileOp.value, ← hname,
      Function.update_self, id_eq, Function.update_of_ne (Ne.symm hne)] at hsame
    cases hsame
  · intro hinj ops hops
    rw [foldl_apply_eq, foldl_apply_eq]
    refine foldl_changeCell_eq hinj _ (fun op hop => ?_) fun _ _ => rfl
    obtain ⟨o, ho, rfl⟩ := List.mem_map.mp hop
    exact hops o ho

/-! ## Names of parts -/

/-- One of the two first parts goes on with a separator and what the other has in its second
part. -/
def Shifted (sep : ν) (a b a' b' : List ν) : Prop :=
  ∃ y, (a = a' ++ sep :: y ∧ b' = y ++ sep :: b) ∨ (a' = a ++ sep :: y ∧ b = y ++ sep :: b')

/-- **How two texts with a separator may agree**. -/
theorem append_cons_eq_iff {sep : ν} {a b a' b' : List ν} :
    a ++ sep :: b = a' ++ sep :: b' ↔ (a = a' ∧ b = b') ∨ Shifted sep a b a' b' := by
  constructor
  · intro h
    rcases List.append_eq_append_iff.mp h with ⟨y, rfl, hy⟩ | ⟨y, rfl, hy⟩
    · cases y with
      | nil => exact .inl ⟨by simp, (List.cons.inj hy).2⟩
      | cons c y =>
          obtain ⟨rfl, hb⟩ := List.cons.inj hy
          exact .inr ⟨y, .inr ⟨rfl, hb⟩⟩
    · cases y with
      | nil => exact .inl ⟨by simp, (List.cons.inj hy).2.symm⟩
      | cons c y =>
          obtain ⟨rfl, hb⟩ := List.cons.inj hy
          exact .inr ⟨y, .inl ⟨rfl, hb⟩⟩
  · rintro (⟨rfl, rfl⟩ | ⟨y, ⟨rfl, rfl⟩ | ⟨rfl, rfl⟩⟩)
    · rfl
    · simp
    · simp

/-- First parts without separators are the same. -/
theorem not_shifted_of_not_mem {sep : ν} {a b a' b' : List ν} (h : sep ∉ a) (h' : sep ∉ a') :
    ¬ Shifted sep a b a' b' := by
  rintro ⟨y, ⟨rfl, -⟩ | ⟨rfl, -⟩⟩
  · simp at h
  · simp at h'

end AuraLauncher.Lib
