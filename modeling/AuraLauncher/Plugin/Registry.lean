import Mathlib.Logic.Function.Basic
import Mathlib.Tactic.Common

/-!
# The plugin registry

`plugin_registry.rs`: one row for each plugin with what the host has decided about it. A plugin
without a row is enabled and has no failures.

* `PluginRow`, `PluginRegistry` — the rows; `PluginRegistry.state` is what the providers read.
* `setEnabled`, `setTrust`, `noteManifestObserved` — the decisions of the host; none of them touches
  the failures (`state_setEnabled`, `state_setTrust`, `state_noteManifestObserved`).
* `recordFailure`, `recordSuccess` — the failure count and the quarantine that follows from it.

The statements of SQLite succeed here, and the counters do not reach the end of their types.
-/

namespace AuraLauncher.Plugin

/-- Source: `plugin_registry.rs`, `QUARANTINE_THRESHOLD`. -/
def quarantineThreshold : ℕ := 3

/-- Source: `plugin_registry.rs`, `TrustState`. -/
inductive TrustState
  | unknown
  | known
  | trusted
  deriving DecidableEq, Repr

/-- A row of `plugins`. -/
structure PluginRow where
  enabled : Bool
  quarantined : Bool
  failures : ℕ
  trust : TrustState
  revision : ℕ
  deriving DecidableEq, Repr

/-- Source: `plugin_registry.rs`, `PluginLifecycleState`. -/
structure PluginLifecycleState where
  enabled : Bool
  quarantined : Bool
  protocolFailures : ℕ
  deriving DecidableEq, Repr

/-- The rows by plugin id. Source: `plugin_registry.rs`, `PluginRegistry`. -/
abbrev PluginRegistry := String → Option PluginRow

namespace PluginRegistry

variable (reg : PluginRegistry)

/-- What is known of a plugin; one without a row is enabled. Source: `plugin_registry.rs`,
`PluginRegistry::state`. -/
def state (id : String) : PluginLifecycleState :=
  match reg id with
  | some r => ⟨r.enabled, r.quarantined, r.failures⟩
  | none => ⟨true, false, 0⟩

/-- `INSERT … ON CONFLICT(plugin_id) DO UPDATE`, which also counts the revision. -/
def upsert (id : String) (fresh : PluginRow) (update : PluginRow → PluginRow) : PluginRegistry :=
  Function.update reg id <|
    match reg id with
    | some r => some { update r with revision := r.revision + 1 }
    | none => some fresh

/-- Source: `plugin_registry.rs`, `PluginRegistry::set_enabled`. -/
def setEnabled (id : String) (enabled : Bool) : PluginRegistry :=
  reg.upsert id ⟨enabled, false, 0, .unknown, 1⟩ fun r => { r with enabled := enabled }

/-- Source: `plugin_registry.rs`, `PluginRegistry::set_trust`. -/
def setTrust (id : String) (trust : TrustState) : PluginRegistry :=
  reg.upsert id ⟨true, false, 0, trust, 1⟩ fun r => { r with trust := trust }

/-- Source: `plugin_registry.rs`, `PluginRegistry::note_manifest_observed`. -/
def noteManifestObserved (id : String) : PluginRegistry :=
  reg.upsert id ⟨true, false, 0, .known, 1⟩ fun r =>
    { r with trust := if r.trust = .unknown then .known else r.trust }

/-- One protocol failure more; the answer is whether the plugin is in quarantine now.
Source: `plugin_registry.rs`, `PluginRegistry::record_failure`. -/
def recordFailure (id : String) : PluginRegistry × Bool :=
  let reg' := reg.upsert id ⟨true, false, 1, .unknown, 1⟩ fun r =>
    { r with
      failures := r.failures + 1
      quarantined := decide (quarantineThreshold ≤ r.failures + 1) }
  (reg', (reg'.state id).quarantined)

/-- Resets the failure count and lifts the quarantine of a plugin that has a row.
Source: `plugin_registry.rs`, `PluginRegistry::record_success`. -/
def recordSuccess (id : String) : PluginRegistry :=
  Function.update reg id ((reg id).map fun r => { r with failures := 0, quarantined := false })

variable {reg} {id : String}

theorem state_upsert (fresh : PluginRow) (update : PluginRow → PluginRow) :
    (reg.upsert id fresh update).state id =
      match reg id with
      | some r => ⟨(update r).enabled, (update r).quarantined, (update r).failures⟩
      | none => ⟨fresh.enabled, fresh.quarantined, fresh.failures⟩ := by
  unfold upsert state
  rw [Function.update_self]
  cases reg id <;> rfl

theorem state_setEnabled (enabled : Bool) :
    (reg.setEnabled id enabled).state id = { reg.state id with enabled := enabled } := by
  rw [setEnabled, state_upsert, state]
  cases reg id <;> rfl

theorem state_setTrust (trust : TrustState) : (reg.setTrust id trust).state id = reg.state id := by
  rw [setTrust, state_upsert, state]

theorem state_noteManifestObserved : (reg.noteManifestObserved id).state id = reg.state id := by
  rw [noteManifestObserved, state_upsert, state]

/-- A failure counts, and three of them are a quarantine. -/
theorem state_recordFailure :
    (reg.recordFailure id).1.state id =
      { reg.state id with
        protocolFailures := (reg.state id).protocolFailures + 1
        quarantined := decide (quarantineThreshold ≤ (reg.state id).protocolFailures + 1) } := by
  rw [recordFailure, state_upsert, state]
  cases reg id <;> rfl

theorem recordFailure_snd :
    (reg.recordFailure id).2 =
      decide (quarantineThreshold ≤ (reg.state id).protocolFailures + 1) :=
  congrArg PluginLifecycleState.quarantined state_recordFailure

theorem state_recordSuccess :
    (reg.recordSuccess id).state id =
      { reg.state id with protocolFailures := 0, quarantined := false } := by
  unfold recordSuccess state
  rw [Function.update_self]
  cases reg id <;> rfl

end PluginRegistry

end AuraLauncher.Plugin
