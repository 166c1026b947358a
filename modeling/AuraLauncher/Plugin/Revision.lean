import AuraLauncher.Lib.Machine
import AuraLauncher.Plugin.Store

/-!
# The revision of a plugin

`plugin_registry.rs`: the revision of a plugin is to count every change of its lifecycle data. The
methods that insert or update a row of `plugins` count; `record_success` updates the row without
counting, and the writers of the tool tables do not touch the row.

* `RegistryCall`, `pluginDatabase` — calls of the methods, in any order, answered or not.
* `PluginDb.revision`, `PluginDb.lifecycleData` — what is counted, and what it is to count.
* `RevisionLaw` — what a call may do to the two.
* `CountsChange`, `revisionLaw_iff`, `revisionLaw_along_iff` — the calls and the runs that keep it.
* `not_revisionLaw_recordSuccess` — the failures of a plugin are reset at the same revision.
-/

namespace AuraLauncher.Plugin

open AuraLauncher.Lib AuraLauncher.Workflow

variable (sj : SerdeJson)

/-- A call of a method that writes; `answered` is whether the database answers its statements. -/
structure RegistryCall where
  op : RegistryOp
  now : ℤ
  answered : Bool

/-- What is persisted of the life of a plugin. -/
structure LifecycleData where
  enabled : Bool
  quarantined : Bool
  protocolFailures : ℕ
  trust : TrustState
  tools : String → Option (ToolMetadata × Bool)
  functions : String × String → Option ToolFunctionRow
  contracts : String → Option UiContractRow

namespace PluginDb

variable (db : PluginDb)

/-- The database after a call; without an answer nothing is written. -/
def call (c : RegistryCall) : PluginDb := if c.answered then db.apply sj c.now c.op else db

/-- The revision that `lifecycle_record` reports. -/
def revision (id : String) : ℕ := (db.lifecycleRecord id).installationRevision

/-- The lifecycle data of a plugin, without time stamps. -/
def lifecycleData (id : String) : LifecycleData where
  enabled := (db.lifecycleRecord id).enabled
  quarantined := (db.lifecycleRecord id).quarantined
  protocolFailures := (db.lifecycleRecord id).protocolFailures
  trust := (db.lifecycleRecord id).trust
  tools := fun tool => (db.tools (id, tool)).map fun r => (r.toToolMetadata, r.enabled)
  functions := fun key => db.functions (id, key)
  contracts := fun tool => db.contracts (id, tool)

/-- The law of the revision: of every plugin, a call that changes the data raises the revision, and
no call lowers it. -/
def RevisionLaw (c : RegistryCall) : Prop :=
  ∀ id, ((db.call sj c).lifecycleData id ≠ db.lifecycleData id →
      db.revision id < (db.call sj c).revision id) ∧
    db.revision id ≤ (db.call sj c).revision id

/-- The call does not change data without counting: a success is recorded of a plugin without
failures, and the metadata of tools is written as it was. -/
def CountsChange (c : RegistryCall) : Prop :=
  c.answered = true →
    match c.op with
    | .recordSuccess id => ∀ r, db.plugins id = some r → r.failures = 0 ∧ r.quarantined = false
    | .upsertTool id tool metadata =>
        ∃ r, db.tools (id, tool) = some r ∧ r.toToolMetadata = metadata
    | .upsertToolFunction id tool f => db.functions (id, tool, f.id) = some (f.row sj)
    | .setUiContract id tool contract => db.contracts (id, tool) = some contract
    | _ => True

end PluginDb

/-- The database under the calls of its methods. -/
def pluginDatabase : Machine PluginDb RegistryCall where
  step db c := some (db.call sj c)

namespace PluginDb

variable {sj} {db : PluginDb}

/-! ## Data and revision -/

theorem lifecycleRecord_congr {db' : PluginDb} {id : String}
    (h : db'.plugins id = db.plugins id) : db'.lifecycleRecord id = db.lifecycleRecord id := by
  unfold lifecycleRecord
  rw [h]

/-- Data that differ only in the row of `plugins` are compared by their rows. -/
theorem lifecycleData_eq_iff_of_plugins {id : String} {plugins : PluginRegistry}
    {stamps : String → Option ℤ} :
    ({ db with plugins := plugins, updatedAt := stamps } : PluginDb).lifecycleData id =
        db.lifecycleData id ↔
      { ({ db with plugins := plugins } : PluginDb).lifecycleRecord id with
          installationRevision := 0 } =
        { db.lifecycleRecord id with installationRevision := 0 } := by
  have hid : ∀ db' : PluginDb, (db'.lifecycleRecord id).pluginId = id := by
    intro db'
    unfold lifecycleRecord
    split <;> rfl
  simp only [lifecycleData, LifecycleData.mk.injEq, PluginLifecycleRecord.mk.injEq, hid, and_true,
    true_and]
  exact Iff.rfl

theorem lifecycleData_of_plugins_eq {id : String} {plugins : PluginRegistry}
    {stamps : String → Option ℤ} (h : plugins id = db.plugins id) :
    ({ db with plugins := plugins, updatedAt := stamps } : PluginDb).lifecycleData id =
      db.lifecycleData id := by
  rw [lifecycleData_eq_iff_of_plugins, lifecycleRecord_congr h]

/-- A counted write raises the revision of its plugin by one. -/
theorem revision_upsert (id : String) (fresh : PluginRow) (update : PluginRow → PluginRow)
    (now : ℤ) (hfresh : fresh.revision = 1) :
    (db.writePlugin id (db.plugins.upsert id fresh update) now).revision id =
      db.revision id + 1 := by
  unfold revision lifecycleRecord writePlugin PluginRegistry.upsert
  simp only [Function.update_self]
  cases db.plugins id with
  | none => exact hfresh
  | some r => rfl

/-- A counted write leaves the other plugins as they are. -/
theorem plugins_upsert_of_ne {id other : String} (h : other ≠ id) (fresh : PluginRow)
    (update : PluginRow → PluginRow) :
    db.plugins.upsert id fresh update other = db.plugins other :=
  Function.update_of_ne h _ _

/-- A counted write keeps the law. -/
theorem revisionLaw_upsert {c : RegistryCall} {id : String} {fresh : PluginRow}
    {update : PluginRow → PluginRow} (hfresh : fresh.revision = 1)
    (hcall : db.call sj c = db.writePlugin id (db.plugins.upsert id fresh update) c.now) :
    db.RevisionLaw sj c := by
  intro other
  rw [hcall]
  by_cases hother : other = id
  · subst hother
    rw [revision_upsert other fresh update c.now hfresh]
    exact ⟨fun _ => Nat.lt_succ_self _, Nat.le_succ _⟩
  · have hrow : db.plugins.upsert id fresh update other = db.plugins other :=
      plugins_upsert_of_ne hother fresh update
    refine ⟨fun h => absurd (lifecycleData_of_plugins_eq hrow) h, ?_⟩
    exact (congrArg PluginLifecycleRecord.installationRevision (lifecycleRecord_congr hrow)).ge

/-- A call that counts nothing keeps the law when, and only when, it changes no data. -/
theorem revisionLaw_iff_of_revision {c : RegistryCall}
    (h : ∀ id, (db.call sj c).revision id = db.revision id) :
    db.RevisionLaw sj c ↔ ∀ id, (db.call sj c).lifecycleData id = db.lifecycleData id := by
  refine forall_congr' fun id => ?_
  rw [h id, and_iff_left le_rfl]
  constructor
  · intro hlaw
    by_contra hne
    exact absurd (hlaw hne) (lt_irrefl _)
  · exact fun heq hne => absurd heq hne

theorem recordSuccess_eq_update (id : String) :
    db.plugins.recordSuccess id = Function.update db.plugins id
      ((db.plugins id).map fun r => { r with failures := 0, quarantined := false }) := rfl

/-- The revisions do not see a recorded success. -/
theorem revision_recordSuccess (id : String) (now : ℤ) (other : String) :
    (db.recordSuccess id now).revision other = db.revision other := by
  unfold revision lifecycleRecord recordSuccess
  dsimp only
  rw [recordSuccess_eq_update]
  by_cases hother : other = id
  · subst hother
    rw [Function.update_self]
    cases db.plugins other <;> rfl
  · rw [Function.update_of_ne hother]

/-- A recorded success leaves the data when, and only when, there is no failure to forget. -/
theorem lifecycleData_recordSuccess (id : String) (now : ℤ) :
    (∀ other, (db.recordSuccess id now).lifecycleData other = db.lifecycleData other) ↔
      ∀ r, db.plugins id = some r → r.failures = 0 ∧ r.quarantined = false := by
  have hdata : ∀ other, (db.recordSuccess id now).lifecycleData other = db.lifecycleData other ↔
      { ({ db with plugins := db.plugins.recordSuccess id } : PluginDb).lifecycleRecord other with
          installationRevision := 0 } =
        { db.lifecycleRecord other with installationRevision := 0 } := fun other =>
    lifecycleData_eq_iff_of_plugins
  simp only [hdata]
  constructor
  · intro h r hr
    have hid := h id
    unfold lifecycleRecord at hid
    dsimp only at hid
    rw [recordSuccess_eq_update, Function.update_self, hr] at hid
    simp only [Option.map_some, PluginLifecycleRecord.mk.injEq] at hid
    exact ⟨hid.2.2.2.1.symm, hid.2.2.1.symm⟩
  · intro h other
    unfold lifecycleRecord
    dsimp only
    rw [recordSuccess_eq_update]
    by_cases hother : other = id
    · subst hother
      rw [Function.update_self]
      cases hr : db.plugins other with
      | none => rfl
      | some r =>
          obtain ⟨hfailures, hquarantined⟩ := h r hr
          simp [hfailures, hquarantined]
    · rw [Function.update_of_ne hother]

/-- One entry of a table is written: all plugins keep what they see of the table when, and only
when, the entry was seen so before. -/
theorem forall_update_iff {κ β γ : Type} [DecidableEq κ] (table : String × κ → Option β)
    (see : Option β → γ) (id : String) (key : κ) (entry : Option β) :
    (∀ other, (fun k => see (Function.update table (id, key) entry (other, k))) =
        fun k => see (table (other, k))) ↔
      see entry = see (table (id, key)) := by
  constructor
  · intro h
    have hkey := congrFun (h id) key
    rwa [Function.update_self] at hkey
  · intro h other
    funext k
    by_cases hk : (other, k) = (id, key)
    · rw [hk, Function.update_self, h]
    · rw [Function.update_of_ne hk]

/-- A tool that is written again leaves the data when, and only when, its metadata are the same. -/
theorem lifecycleData_upsertTool (id tool : String) (metadata : ToolMetadata) (now : ℤ) :
    (∀ other, (db.upsertTool id tool metadata now).lifecycleData other = db.lifecycleData other) ↔
      ∃ r, db.tools (id, tool) = some r ∧ r.toToolMetadata = metadata := by
  have hdata : ∀ other,
      (db.upsertTool id tool metadata now).lifecycleData other = db.lifecycleData other ↔
        (fun k => (Function.update db.tools (id, tool)
            (some (ToolRow.upserted (db.tools (id, tool)) metadata now)) (other, k)).map
              fun r => (r.toToolMetadata, r.enabled)) =
          fun k => (db.tools (other, k)).map fun r => (r.toToolMetadata, r.enabled) := by
    simp [upsertTool, lifecycleData, lifecycleRecord]
  rw [forall_congr' hdata, forall_update_iff db.tools
    (fun entry => entry.map fun r => (r.toToolMetadata, r.enabled)) id tool]
  cases db.tools (id, tool) with
  | none => simp
  | some r => simp [ToolRow.upserted, eq_comm]

/-! ## The law of one call -/

theorem call_of_answered {c : RegistryCall} (h : c.answered = true) :
    db.call sj c = db.apply sj c.now c.op := if_pos h

/-- **The calls that keep the law** do not change data without counting. -/
theorem revisionLaw_iff (c : RegistryCall) : db.RevisionLaw sj c ↔ db.CountsChange sj c := by
  unfold CountsChange
  cases hanswered : c.answered with
  | false =>
      have hcall : db.call sj c = db := if_neg (by rw [hanswered]; exact Bool.false_ne_true)
      refine iff_of_true (fun id => ?_) fun h => absurd h Bool.false_ne_true
      rw [hcall]
      exact ⟨fun h => absurd rfl h, le_rfl⟩
  | true =>
      rw [forall_prop_of_true rfl]
      have hcall : db.call sj c = db.apply sj c.now c.op := call_of_answered hanswered
      obtain ⟨op, now, answered⟩ := c
      dsimp only at hcall ⊢
      cases op with
      | setEnabled id enabled => exact iff_of_true (revisionLaw_upsert rfl hcall) trivial
      | recordFailure id => exact iff_of_true (revisionLaw_upsert rfl hcall) trivial
      | setTrust id trust => exact iff_of_true (revisionLaw_upsert rfl hcall) trivial
      | noteManifestObserved id => exact iff_of_true (revisionLaw_upsert rfl hcall) trivial
      | recordSuccess id =>
          rw [revisionLaw_iff_of_revision fun other => hcall ▸ revision_recordSuccess id now other,
            hcall]
          exact lifecycleData_recordSuccess id now
      | recordCapability id capability =>
          refine iff_of_true ((revisionLaw_iff_of_revision fun other => ?_).mpr fun other => ?_)
            trivial <;> (rw [hcall]; rfl)
      | setCapabilityDecision id capability decision =>
          refine iff_of_true ((revisionLaw_iff_of_revision fun other => ?_).mpr fun other => ?_)
            trivial <;> (rw [hcall]; rfl)
      | upsertTool id tool metadata =>
          rw [revisionLaw_iff_of_revision fun other => by rw [hcall]; rfl, hcall]
          exact lifecycleData_upsertTool id tool metadata now
      | upsertToolFunction id tool f =>
          rw [revisionLaw_iff_of_revision fun other => by rw [hcall]; rfl, hcall]
          refine (forall_congr' fun other => ?_).trans
            ((forall_update_iff db.functions (fun r => r) id (tool, f.id) _).trans eq_comm)
          simp [apply, lifecycleData, lifecycleRecord]
      | setUiContract id tool contract =>
          rw [revisionLaw_iff_of_revision fun other => by rw [hcall]; rfl, hcall]
          refine (forall_congr' fun other => ?_).trans
            ((forall_update_iff db.contracts (fun r => r) id tool _).trans eq_comm)
          simp [apply, lifecycleData, lifecycleRecord]

/-! ## Runs -/

/-- **The law of the revision.** Over any calls of the methods every call raises the revision of
the plugins whose data it changes and lowers none when, and only when, no success is recorded of a
plugin with failures to forget and no metadata of a tool are changed. -/
theorem revisionLaw_along_iff (db : PluginDb) (calls : List RegistryCall) :
    (pluginDatabase sj).Along (RevisionLaw sj) db calls ↔
      (pluginDatabase sj).Along (CountsChange sj) db calls :=
  ⟨fun h => h.mono fun _ c => (revisionLaw_iff c).mp,
    fun h => h.mono fun _ c => (revisionLaw_iff c).mpr⟩

/-- A failure and a success of a new plugin: the count goes back to zero at the first revision. -/
theorem not_revisionLaw_recordSuccess :
    ¬ ∀ calls, (pluginDatabase SerdeJson.withoutFloats).Along
      (RevisionLaw SerdeJson.withoutFloats) empty calls := by
  intro hall
  have hlaw := ((hall [⟨.recordFailure "p", 0, true⟩, ⟨.recordSuccess "p", 1, true⟩]).2 _ rfl).1
  have hcount := (revisionLaw_iff _).mp hlaw rfl
  have hzero := (hcount _ rfl).1
  revert hzero
  decide

end PluginDb

end AuraLauncher.Plugin
