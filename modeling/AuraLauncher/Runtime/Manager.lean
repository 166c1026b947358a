import AuraLauncher.Lib.Naming
import Mathlib.Data.String.Basic

/-!
# The persistent runtimes and their keys

`launcher-runtime/src/runtime_manager.rs`: a runtime is kept, and its crashes are counted, under a
text that is made of the parts of its key. A separator inside a part is not escaped, so that two
keys may have one text; every key with a profile has such a partner.

* `RuntimeKey`, `RuntimeKey.storageKey` — the key and its text.
* `RuntimeCell`, `RuntimeOp`, `RuntimeManager` — what is kept of a runtime, and the operations on
  it: `useRuntime`, the drop of its guard, `markBusy`, `onCrash` and `release`.
* `RuntimeKey.Confusable`, `storageKey_eq_iff` — the different keys with one text.
* `KeptApart`, `keptApart_iff` — the sets of keys whose runtimes share nothing.
* `not_keptApart_mcp` — a profile is taken for a part of the id.

`sweep_idle` and `shutdown_all` are about all runtimes and come with the crash budget. The fields
that the source marks as unused are left out.
-/

namespace AuraLauncher.Runtime

open AuraLauncher.Lib

/-! ## The manager -/

/-- The field `nameSpace` is `namespace` there. Source: `runtime_manager.rs`, `RuntimeKey`. -/
structure RuntimeKey where
  nameSpace : String
  id : String
  profile : Option String
  deriving DecidableEq

/-- Source: `runtime_manager.rs`, `RuntimeKey::storage_key`. -/
def RuntimeKey.storageKey (k : RuntimeKey) : String :=
  match k.profile with
  | some p => k.nameSpace ++ "/" ++ k.id ++ "/" ++ p
  | none => k.nameSpace ++ "/" ++ k.id

/-- Source: `runtime_manager.rs`, `RuntimeKey::plugin`. -/
def RuntimeKey.plugin (id : String) : RuntimeKey := ⟨"plugin", id, none⟩

/-- Source: `runtime_manager.rs`, `RuntimeKey::mcp`. -/
def RuntimeKey.mcp (id : String) (profile : Option String) : RuntimeKey := ⟨"mcp", id, profile⟩

/-- Source: `runtime_manager.rs`, `RestartPolicy`. -/
inductive RestartPolicy
  | never
  | onCrash
  deriving DecidableEq

/-- The times are in milliseconds. Source: `runtime_manager.rs`, `RuntimePolicy`. -/
structure RuntimePolicy where
  idleTimeout : Option ℕ
  restartPolicy : RestartPolicy
  maxRestarts : UInt32
  restartBackoff : List ℕ

/-- Source: `runtime_manager.rs`, `RuntimeManagerError`. -/
inductive RuntimeManagerError
  | busy
  | restartBudgetExhausted
  | restartBlocked
  | notFound
  deriving DecidableEq

universe u

/-- Source: `runtime_manager.rs`, `Entry`. -/
structure RuntimeEntry (V : Type u) where
  value : V
  lastActivity : ℕ
  busy : Bool

/-- What the manager keeps under one text: the runtime and the restarts that were admitted. -/
structure RuntimeCell (V : Type u) where
  entry : Option (RuntimeEntry V)
  restartCount : Option UInt32

namespace RuntimeCell

variable {V : Type u} (c : RuntimeCell V)

def empty : RuntimeCell V := ⟨none, none⟩

/-- Source: `runtime_manager.rs`, `RuntimeManager::is_busy`. -/
def isBusy : Bool := (c.entry.map RuntimeEntry.busy).getD false

/-- The runtime is taken, after it was started if it is not there; `spawned` is what the start
gives. Source: `runtime_manager.rs`, `RuntimeManager::use_runtime`. -/
def useRuntime (spawned : Option V) (now : ℕ) :
    Except RuntimeManagerError Unit × RuntimeCell V :=
  if c.isBusy then (.error .busy, c)
  else
    match c.entry with
    | some e => (.ok (), { c with entry := some { e with busy := true, lastActivity := now } })
    | none =>
        match spawned with
        | some v => (.ok (), { c with entry := some ⟨v, now, true⟩ })
        | none => (.error .notFound, c)

/-- The guard is dropped, with what was done to the runtime through it. Source:
`runtime_manager.rs`, `RuntimeGuard::deref_mut` and `RuntimeGuard::drop`. -/
def dropGuard (used : V → V) (now : ℕ) : RuntimeCell V :=
  { c with entry := c.entry.map fun e => ⟨used e.value, now, false⟩ }

/-- Source: `runtime_manager.rs`, `RuntimeManager::mark_busy`. -/
def markBusy : RuntimeCell V := { c with entry := c.entry.map fun e => { e with busy := true } }

/-- A crash is counted; the answer is the time to wait before the next start, in milliseconds. The
count wraps, as it does in a release build. Source: `runtime_manager.rs`,
`RuntimeManager::on_crash`. -/
def onCrash (policy : RuntimePolicy) : Except RuntimeManagerError ℕ × RuntimeCell V :=
  let c : RuntimeCell V := { c with entry := none }
  if policy.restartPolicy = .never then (.error .restartBlocked, c)
  else
    let newCount := c.restartCount.getD 0 + 1
    if policy.maxRestarts < newCount then (.error .restartBudgetExhausted, c)
    else
      let slot := min (newCount - 1).toNat (policy.restartBackoff.length - 1)
      (.ok (policy.restartBackoff[slot]?.getD 100), { c with restartCount := some newCount })

/-- Source: `runtime_manager.rs`, `RuntimeManager::release`. -/
def release : Option V × RuntimeCell V :=
  if c.isBusy then (none, c) else (c.entry.map RuntimeEntry.value, { c with entry := none })

end RuntimeCell

/-- An operation on the runtime of one key. -/
inductive RuntimeOp (V : Type u)
  | useRuntime (spawned : Option V) (now : ℕ)
  | dropGuard (used : V → V) (now : ℕ)
  | markBusy
  | onCrash (policy : RuntimePolicy)
  | release

/-- What an operation makes of the cell. -/
def RuntimeOp.act {V : Type u} : RuntimeOp V → RuntimeCell V → RuntimeCell V
  | .useRuntime spawned now, c => (c.useRuntime spawned now).2
  | .dropGuard used now, c => c.dropGuard used now
  | .markBusy, c => c.markBusy
  | .onCrash policy, c => (c.onCrash policy).2
  | .release, c => c.release.2

/-- The cells under their texts. Source: `runtime_manager.rs`, `RuntimeManager`. -/
abbrev RuntimeManager (V : Type u) := String → RuntimeCell V

/-- The manager after operations on the runtimes of keys, each kept under `name` of its key. -/
def afterOps {V : Type u} {ν : Type} [DecidableEq ν] (name : RuntimeKey → ν)
    (ops : List (RuntimeKey × RuntimeOp V)) : ν → RuntimeCell V :=
  (ops.map fun op => (op.1, op.2.act)).foldl (changeCell name) fun _ => RuntimeCell.empty

/-! ## Keys with one text -/

namespace RuntimeKey

/-- What stands after the namespace. -/
def rest (k : RuntimeKey) : List Char :=
  match k.profile with
  | some p => k.id.toList ++ '/' :: p.toList
  | none => k.id.toList

/-- Two keys that have one text: a separator inside a part of one is where the other has it between
two parts. -/
def Confusable (k k' : RuntimeKey) : Prop :=
  Shifted '/' k.nameSpace.toList k.rest k'.nameSpace.toList k'.rest ∨
    k.nameSpace = k'.nameSpace ∧
      match k.profile, k'.profile with
      | some p, some p' => Shifted '/' k.id.toList p.toList k'.id.toList p'.toList
      | some p, none => k'.id.toList = k.id.toList ++ '/' :: p.toList
      | none, some p' => k.id.toList = k'.id.toList ++ '/' :: p'.toList
      | none, none => False

theorem storageKey_toList (k : RuntimeKey) :
    k.storageKey.toList = k.nameSpace.toList ++ '/' :: k.rest := by
  unfold storageKey rest
  cases k.profile <;> simp [String.toList_append]

/-- **The keys with one text** are the same key or are confusable. -/
theorem storageKey_eq_iff (k k' : RuntimeKey) :
    k.storageKey = k'.storageKey ↔ k = k' ∨ k.Confusable k' := by
  rw [← String.toList_inj, storageKey_toList, storageKey_toList, append_cons_eq_iff]
  obtain ⟨n, i, profile⟩ := k
  obtain ⟨n', i', profile'⟩ := k'
  cases profile <;> cases profile' <;>
    simp only [rest, Confusable, append_cons_eq_iff, String.toList_inj, mk.injEq, and_true,
      and_false, or_false, false_or, Option.some.injEq, reduceCtorEq, eq_comm] <;>
    tauto

/-- A profile that is taken for a part of the id. -/
theorem confusable_of_profile (n i p : String) :
    Confusable ⟨n, i, some p⟩ ⟨n, i ++ "/" ++ p, none⟩ := by
  refine .inr ⟨rfl, ?_⟩
  simp [String.toList_append]

end RuntimeKey

/-! ## What is kept apart -/

/-- Different keys of the set have different texts, and after any operations on their runtimes each
has the runtime and the count of restarts that it would have by itself. -/
def KeptApart (V : Type u) (A : Set RuntimeKey) : Prop :=
  Set.InjOn RuntimeKey.storageKey A ∧
    ∀ ops : List (RuntimeKey × RuntimeOp V), (∀ op ∈ ops, op.1 ∈ A) → ∀ k ∈ A,
      afterOps RuntimeKey.storageKey ops k.storageKey = afterOps id ops k

/-- **When runtimes are kept apart**: the manager keeps the runtimes of a set of keys apart exactly
when no two of the keys are confusable. -/
theorem keptApart_iff (V : Type u) (A : Set RuntimeKey) :
    KeptApart V A ↔ A.Pairwise fun k k' => ¬ k.Confusable k' := by
  constructor
  · rintro ⟨hinj, -⟩ k hk k' hk' hne hconfusable
    exact hne (hinj hk hk' ((k.storageKey_eq_iff k').mpr (.inr hconfusable)))
  · intro h
    have hinj : Set.InjOn RuntimeKey.storageKey A := by
      intro k hk k' hk' hname
      rcases (k.storageKey_eq_iff k').mp hname with heq | hconfusable
      · exact heq
      · by_contra hne
        exact h hk hk' hne hconfusable
    refine ⟨hinj, fun ops hops => ?_⟩
    refine foldl_changeCell_eq hinj _ (fun op hop => ?_) fun _ _ => rfl
    obtain ⟨o, ho, rfl⟩ := List.mem_map.mp hop
    exact hops o ho

/-- A restart after every crash, three times, and half an hour of idleness. Source:
`runtime_manager.rs`, `RuntimePolicy` (`Default`). -/
def RuntimePolicy.default : RuntimePolicy :=
  ⟨some 1800000, .onCrash, 3, [100, 500, 2000]⟩

/-- The server `a` with the profile `b`, and the server `a/b`: a crash of the one is counted for the
other. -/
theorem not_keptApart_mcp :
    ¬ KeptApart Unit {RuntimeKey.mcp "a" (some "b"), RuntimeKey.mcp "a/b" none} ∧
      (afterOps RuntimeKey.storageKey
        [(RuntimeKey.mcp "a" (some "b"), (.onCrash .default : RuntimeOp Unit))]
        (RuntimeKey.mcp "a/b" none).storageKey).restartCount = some 1 := by
  constructor
  · rintro ⟨hinj, -⟩
    have hsame := hinj (Set.mem_insert _ _) (Set.mem_insert_of_mem _ rfl) (by decide)
    exact absurd hsame (by decide)
  · decide

end AuraLauncher.Runtime
