import AuraLauncher.Domain.Names
import AuraLauncher.Lib.Firsts
import Mathlib.Data.List.Nodup
import Mathlib.Logic.Function.Basic

/-!
# Queue, coalescer and dirty roots

The three containers between the watchers and the writer of the index. A change that a watcher
reports is a hint: it waits in a bounded queue, then its paths wait in the coalescer, each once,
until they are verified. Roots whose changes can no longer be told apart are dirty.

* `Contains` — containment of identities: equal, or beginning with the root and a separator.
* `FileChange`, `changeIdentities` — a hint, and the identities it names.
* `BoundedQueue` — at most `capacity` hints; what does not fit is counted and not stored.
* `Coalescer`, `Coalescer.mem_push` — the identities that wait, in the order they came.
* `DirtyRootSet`, `DirtyRootSet.Covers` — the dirty roots, and the paths they stand for.
-/

namespace AuraLauncher.Index

open AuraLauncher.Lib AuraLauncher.Domain

/-! ## Containment -/

/-- `path == root || path.starts_with(&format!("{root}\\"))`. -/
def contains (root path : String) : Bool :=
  path == root || (root.toList ++ ['\\']).isPrefixOf path.toList

/-- The identity is the root's, or that of a path below it. -/
def Contains (root path : String) : Prop :=
  path = root ∨ root.toList ++ ['\\'] <+: path.toList

theorem contains_iff {root path : String} : contains root path = true ↔ Contains root path := by
  simp [contains, Contains]

instance (root path : String) : Decidable (Contains root path) :=
  decidable_of_iff _ contains_iff

theorem Contains.refl (root : String) : Contains root root := .inl rfl

/-- Below a path below a root is below the root. -/
theorem Contains.trans {root mid path : String} (hmid : Contains root mid)
    (hpath : Contains mid path) : Contains root path := by
  rcases hmid with rfl | hmid
  · exact hpath
  · rcases hpath with rfl | hpath
    · exact .inr hmid
    · exact .inr ((hmid.trans (List.prefix_append _ _)).trans hpath)

/-! ## Hints -/

/-- Source: `launcher-domain/src/file_change.rs`, `FileChangeKind`. -/
inductive FileChangeKind where
  | created
  | modified
  | deleted
  | renamed
  deriving DecidableEq

/-- What a watcher reports. Source: `launcher-domain/src/file_change.rs`, `FileChange`. -/
structure FileChange where
  kind : FileChangeKind
  path : String
  oldPath : Option String
  deriving DecidableEq

/-- The identities that a hint names; an empty one names nothing. Source:
`launcher-indexer/src/incremental.rs`, `change_identities`. -/
def changeIdentities (std : RustStd) (c : FileChange) : List String :=
  ((c.oldPath.toList ++ [c.path]).map (normalizePathIdentity std)).filter fun id => !id.isEmpty

/-! ## The queue -/

/-- Source: `launcher-indexer/src/incremental.rs`, `BoundedQueue`. -/
structure BoundedQueue where
  capacity : ℕ
  events : List FileChange
  dropped : ℕ
  /-- There is room for one hint at least. -/
  capacity_pos : 0 < capacity
  /-- The queue is within its bound. -/
  length_le : events.length ≤ capacity

namespace BoundedQueue

/-- Source: `launcher-indexer/src/incremental.rs`, `BoundedQueue::new`. -/
def new (capacity : ℕ) : BoundedQueue where
  capacity := max capacity 1
  events := []
  dropped := 0
  capacity_pos := lt_of_lt_of_le Nat.one_pos (le_max_right _ _)
  length_le := Nat.zero_le _

/-- The queue after a push, and whether the hint was stored. Source:
`launcher-indexer/src/incremental.rs`, `BoundedQueue::push`. -/
def push (q : BoundedQueue) (e : FileChange) : BoundedQueue × Bool :=
  if h : q.events.length ≥ q.capacity then ({ q with dropped := q.dropped + 1 }, false)
  else ({ q with events := q.events ++ [e], length_le := by simp; omega }, true)

/-- The queue after its hints were taken out. Source: `launcher-indexer/src/incremental.rs`,
`BoundedQueue::drain`. -/
def drain (q : BoundedQueue) : BoundedQueue := { q with events := [], length_le := Nat.zero_le _ }

/-- A hint pushed on an empty queue is stored. -/
theorem push_of_empty {q : BoundedQueue} (h : q.events = []) (e : FileChange) :
    (q.push e).2 = true ∧ (q.push e).1.events = [e] := by
  have hroom : ¬ q.events.length ≥ q.capacity := by
    have hpos := q.capacity_pos
    simp only [h, List.length_nil]
    omega
  unfold push
  rw [dif_neg hroom]
  simp [h]

end BoundedQueue

/-! ## The coalescer -/

/-- Source: `launcher-indexer/src/incremental.rs`, `Coalescer`. -/
structure Coalescer where
  /-- The identities that wait, in the order they came. -/
  order : List String
  /-- The kind last seen for an identity that waits. -/
  seen : String → Option FileChangeKind
  countIn : ℕ
  /-- What waits is what was seen. -/
  seen_iff : ∀ id, (seen id).isSome = true ↔ id ∈ order
  /-- Nothing waits twice. -/
  nodup : order.Nodup

namespace Coalescer

/-- Source: `launcher-indexer/src/incremental.rs`, `Coalescer::default`; also what `drain`
leaves. -/
def empty : Coalescer where
  order := []
  seen _ := none
  countIn := 0
  seen_iff := by simp
  nodup := List.nodup_nil

/-- The kind that an identity is marked with: `Deleted` and `Renamed` replace what was seen. -/
def markedKind (kind : FileChangeKind) (before : Option FileChangeKind) : FileChangeKind :=
  match kind with
  | .deleted => kind
  | .renamed => kind
  | .created => before.getD kind
  | .modified => before.getD kind

/-- One identity of a hint. Source: `launcher-indexer/src/incremental.rs`, the loop of
`Coalescer::push`. -/
def mark (kind : FileChangeKind) (c : Coalescer) (id : String) : Coalescer where
  order := if (c.seen id).isSome then c.order else c.order ++ [id]
  seen := Function.update c.seen id (some (markedKind kind (c.seen id)))
  countIn := c.countIn
  seen_iff := by
    intro other
    by_cases hother : other = id
    · subst hother
      have hseen := c.seen_iff other
      split_ifs with h
      · simp [hseen.mp h]
      · simp
    · rw [Function.update_of_ne hother, c.seen_iff]
      split_ifs with h
      · exact Iff.rfl
      · simp [hother]
  nodup := by
    split_ifs with h
    · exact c.nodup
    · refine List.nodup_append.mpr ⟨c.nodup, List.nodup_singleton id, ?_⟩
      rintro a ha b hb rfl
      rw [List.mem_singleton.mp hb] at ha
      exact h ((c.seen_iff id).mpr ha)

/-- Source: `launcher-indexer/src/incremental.rs`, `Coalescer::push`. -/
def push (std : RustStd) (c : Coalescer) (e : FileChange) : Coalescer :=
  (changeIdentities std e).foldl (mark e.kind) { c with countIn := c.countIn + 1 }

theorem mem_mark {kind : FileChangeKind} {c : Coalescer} {id other : String} :
    other ∈ (mark kind c id).order ↔ other ∈ c.order ∨ other = id := by
  unfold mark
  dsimp only
  split_ifs with h
  · have hid := (c.seen_iff id).mp h
    constructor
    · exact .inl
    · rintro (hother | rfl)
      · exact hother
      · exact hid
  · simp

/-- **What waits after a hint**: what waited before, and the identities it names. -/
theorem mem_push {std : RustStd} {c : Coalescer} {e : FileChange} {id : String} :
    id ∈ (push std c e).order ↔ id ∈ c.order ∨ id ∈ changeIdentities std e := by
  unfold push
  refine (foldl_adds_iff (fun c : Coalescer => id ∈ c.order) (fun other => id = other) _ _
    fun _ _ => mem_mark).trans ?_
  simp

theorem mem_foldl_push {std : RustStd} {events : List FileChange} {c : Coalescer} {id : String} :
    id ∈ (events.foldl (push std) c).order ↔
      id ∈ c.order ∨ ∃ e ∈ events, id ∈ changeIdentities std e :=
  foldl_adds_iff (fun c : Coalescer => id ∈ c.order) (fun e => id ∈ changeIdentities std e) _ _
    fun _ _ => mem_push

end Coalescer

/-! ## The dirty roots -/

/-- Source: `launcher-indexer/src/incremental.rs`, `DirtyRootSet`. -/
structure DirtyRootSet where
  roots : List String
  deriving DecidableEq

namespace DirtyRootSet

/-- Source: `launcher-indexer/src/incremental.rs`, `DirtyRootSet::default`; also what `drain`
leaves. -/
def empty : DirtyRootSet := ⟨[]⟩

/-- Source: `launcher-indexer/src/incremental.rs`, `DirtyRootSet::contains_or_parent`. -/
def containsOrParent (std : RustStd) (d : DirtyRootSet) (path : String) : Bool :=
  d.roots.any fun r => contains r (normalizePathIdentity std path)

/-- Source: `launcher-indexer/src/incremental.rs`, `DirtyRootSet::insert`. -/
def insert (std : RustStd) (d : DirtyRootSet) (root : String) : DirtyRootSet :=
  let id := normalizePathIdentity std root
  if id.isEmpty then d
  else if d.containsOrParent std id then d
  else ⟨d.roots.filter (fun r => !(id.toList ++ ['\\']).isPrefixOf r.toList) ++ [id]⟩

/-- Some root of the set contains the path with this identity. -/
def Covers (d : DirtyRootSet) (id : String) : Prop := ∃ r ∈ d.roots, Contains r id

instance (d : DirtyRootSet) (id : String) : Decidable (d.Covers id) :=
  inferInstanceAs (Decidable (∃ r ∈ d.roots, Contains r id))

/-- What `contains_or_parent` decides. -/
theorem containsOrParent_iff {std : RustStd} {d : DirtyRootSet} {path : String} :
    d.containsOrParent std path = true ↔ d.Covers (normalizePathIdentity std path) := by
  simp [containsOrParent, Covers, contains_iff]

@[simp] theorem not_covers_empty (id : String) : ¬ empty.Covers id := by
  simp [empty, Covers]

end DirtyRootSet

end AuraLauncher.Index
