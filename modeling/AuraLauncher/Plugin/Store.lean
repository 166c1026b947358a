import AuraLauncher.Plugin.Registry
import AuraLauncher.Workflow.Json

/-!
# The tables of the plugin registry and their writers

`plugin_registry.rs`: beside `plugins` the database keeps the capability decisions and the metadata
of tools. `Plugin.Registry` has the rows of `plugins` that the providers read; here every method
that writes is one operation on the whole database.

* `ToolMetadata`, `ToolRow`, `ToolFunctionRow`, `UiContractRow`, `PluginDb` — the tables.
* `RegistryOp`, `PluginDb.apply` — the methods that write.
* `RegistryOp.refreshesBackup` — those that end with `refresh_backup`.
* `PluginLifecycleRecord`, `PluginDb.lifecycleRecord` — what is read of one plugin.
* `PluginDb.WritesNothing`, `PluginDb.apply_eq_self_iff` — the writes that leave every row as it is.

The statements of one method succeed or fail together, and the counters do not reach the end of
their types. `updated_at` of `plugins` is kept beside the rows.
-/

namespace AuraLauncher.Plugin

open AuraLauncher.Workflow

/-- Source: `plugin_registry.rs`, `CapDecision`. -/
inductive CapDecision
  | unset
  | allow
  | deny
  deriving DecidableEq, Repr

/-- What `upsert_tool` is given of a tool. -/
structure ToolMetadata where
  version : String
  name : String
  description : Option String
  category : Option String
  iconRef : Option String
  entryType : String
  schemaVersion : UInt32
  deriving DecidableEq

/-- A row of `plugin_tools`. -/
structure ToolRow extends ToolMetadata where
  enabled : Bool
  createdAt : ℤ
  updatedAt : ℤ
  deriving DecidableEq

/-- `INSERT … ON CONFLICT DO UPDATE`: a tool that is there keeps its flag and its birth. -/
def ToolRow.upserted (held : Option ToolRow) (metadata : ToolMetadata) (now : ℤ) : ToolRow :=
  match held with
  | some r => { r with toToolMetadata := metadata, updatedAt := now }
  | none => ⟨metadata, true, now, now⟩

/-- Source: `tool.rs`, `ToolFunction`. -/
structure ToolFunction where
  id : String
  inputSchema : Json
  outputSchema : Json
  deterministic : Bool
  sideEffect : Bool
  requiredCapabilities : List String

/-- A row of `tool_functions`. -/
structure ToolFunctionRow where
  inputSchemaJson : String
  outputSchemaJson : String
  deterministic : Bool
  sideEffect : Bool
  requiredCapabilities : String
  deriving DecidableEq

/-- A row of `plugin_ui_contracts`; the host versions are never written. -/
structure UiContractRow where
  uiSchemaVersion : UInt32
  maxNodes : UInt32
  maxDepth : UInt32
  maxTextBytes : UInt32
  maxAssetBytes : UInt32
  deriving DecidableEq

/-- The database, each table by its primary key. -/
structure PluginDb where
  plugins : PluginRegistry
  /-- The column `updated_at` of `plugins`. -/
  updatedAt : String → Option ℤ
  capabilities : String × String → Option CapDecision
  tools : String × String → Option ToolRow
  functions : String × String × String → Option ToolFunctionRow
  contracts : String × String → Option UiContractRow

/-- A method of the registry that writes, with its arguments. -/
inductive RegistryOp
  | setEnabled (id : String) (enabled : Bool)
  | recordFailure (id : String)
  | recordSuccess (id : String)
  | recordCapability (id capability : String)
  | setTrust (id : String) (trust : TrustState)
  | noteManifestObserved (id : String)
  | setCapabilityDecision (id capability : String) (decision : CapDecision)
  | upsertTool (id tool : String) (metadata : ToolMetadata)
  | upsertToolFunction (id tool : String) (f : ToolFunction)
  | setUiContract (id tool : String) (contract : UiContractRow)

/-- Whether the method ends with `refresh_backup`. -/
def RegistryOp.refreshesBackup : RegistryOp → Bool
  | .upsertTool _ _ _ => false
  | .upsertToolFunction _ _ _ => false
  | .setUiContract _ _ _ => false
  | _ => true

variable (sj : SerdeJson)

/-- The row of a function, its schemas and capabilities as texts. Source: `plugin_registry.rs`, the
parameters in `PluginRegistry::upsert_tool_function`. -/
def ToolFunction.row (f : ToolFunction) : ToolFunctionRow where
  inputSchemaJson := f.inputSchema.text sj
  outputSchemaJson := f.outputSchema.text sj
  deterministic := f.deterministic
  sideEffect := f.sideEffect
  requiredCapabilities := (Json.array (f.requiredCapabilities.map Json.string)).text sj

namespace PluginDb

/-- A new database. -/
def empty : PluginDb where
  plugins := fun _ => none
  updatedAt := fun _ => none
  capabilities := fun _ => none
  tools := fun _ => none
  functions := fun _ => none
  contracts := fun _ => none

variable (db : PluginDb)

/-- A write to the row of a plugin, which stamps it. -/
def writePlugin (id : String) (plugins : PluginRegistry) (now : ℤ) : PluginDb :=
  { db with plugins := plugins, updatedAt := Function.update db.updatedAt id (some now) }

/-- Source: `plugin_registry.rs`, `PluginRegistry::record_success`. -/
def recordSuccess (id : String) (now : ℤ) : PluginDb :=
  { db with
    plugins := db.plugins.recordSuccess id
    updatedAt := Function.update db.updatedAt id ((db.updatedAt id).map fun _ => now) }

/-- `INSERT OR IGNORE`. Source: `plugin_registry.rs`, `PluginRegistry::record_capability`. -/
def recordCapability (id capability : String) : PluginDb :=
  { db with
    capabilities := Function.update db.capabilities (id, capability)
      (some ((db.capabilities (id, capability)).getD .unset)) }

/-- Source: `plugin_registry.rs`, `PluginRegistry::upsert_tool`. -/
def upsertTool (id tool : String) (metadata : ToolMetadata) (now : ℤ) : PluginDb :=
  { db with
    tools := Function.update db.tools (id, tool)
      (some (ToolRow.upserted (db.tools (id, tool)) metadata now)) }

/-- The database after a method that the database answered. Source: `plugin_registry.rs`, the
methods of `PluginRegistry` of these names. -/
def apply (now : ℤ) : RegistryOp → PluginDb
  | .setEnabled id enabled => db.writePlugin id (db.plugins.setEnabled id enabled) now
  | .recordFailure id => db.writePlugin id (db.plugins.recordFailure id).1 now
  | .recordSuccess id => db.recordSuccess id now
  | .recordCapability id capability => db.recordCapability id capability
  | .setTrust id trust => db.writePlugin id (db.plugins.setTrust id trust) now
  | .noteManifestObserved id => db.writePlugin id (db.plugins.noteManifestObserved id) now
  | .setCapabilityDecision id capability decision =>
      { db with
        capabilities := Function.update db.capabilities (id, capability) (some decision) }
  | .upsertTool id tool metadata => db.upsertTool id tool metadata now
  | .upsertToolFunction id tool f =>
      { db with functions := Function.update db.functions (id, tool, f.id) (some (f.row sj)) }
  | .setUiContract id tool contract =>
      { db with contracts := Function.update db.contracts (id, tool) (some contract) }

end PluginDb

/-- Source: `plugin_registry.rs`, `PluginLifecycleRecord`. -/
structure PluginLifecycleRecord where
  pluginId : String
  enabled : Bool
  quarantined : Bool
  protocolFailures : ℕ
  trust : TrustState
  installationRevision : ℕ
  deriving DecidableEq, Repr

namespace PluginDb

/-- What is known of a plugin; one without a row has the defaults. Source: `plugin_registry.rs`,
`PluginRegistry::lifecycle_record`. -/
def lifecycleRecord (db : PluginDb) (id : String) : PluginLifecycleRecord :=
  match db.plugins id with
  | some r => ⟨id, r.enabled, r.quarantined, r.failures, r.trust, r.revision⟩
  | none => ⟨id, true, false, 0, .unknown, 0⟩

/-! ## Writes that change nothing -/

/-- Every row is there already as the method writes it. A method that counts the revision never
finds it so. -/
def WritesNothing (db : PluginDb) (now : ℤ) : RegistryOp → Prop
  | .recordSuccess id =>
      (∀ r, db.plugins id = some r → r.failures = 0 ∧ r.quarantined = false) ∧
        ∀ stamp, db.updatedAt id = some stamp → stamp = now
  | .recordCapability id capability => (db.capabilities (id, capability)).isSome = true
  | .setCapabilityDecision id capability decision =>
      db.capabilities (id, capability) = some decision
  | .upsertTool id tool metadata =>
      ∃ r, db.tools (id, tool) = some r ∧ r.toToolMetadata = metadata ∧ r.updatedAt = now
  | .upsertToolFunction id tool f => db.functions (id, tool, f.id) = some (f.row sj)
  | .setUiContract id tool contract => db.contracts (id, tool) = some contract
  | _ => False

variable {db : PluginDb}

/-- A counted write changes the row it is for. -/
theorem upsert_ne_self {reg : PluginRegistry} {id : String} {fresh : PluginRow}
    {update : PluginRow → PluginRow} : reg.upsert id fresh update ≠ reg := by
  intro h
  have hrow := congrFun h id
  unfold PluginRegistry.upsert at hrow
  rw [Function.update_self] at hrow
  cases hid : reg id with
  | none =>
      rw [hid] at hrow
      cases hrow
  | some r =>
      rw [hid] at hrow
      have hrevision := congrArg PluginRow.revision (Option.some.inj hrow)
      exact absurd hrevision (Nat.succ_ne_self _)

theorem writePlugin_ne_self {id : String} {plugins : PluginRegistry} {now : ℤ}
    (h : plugins ≠ db.plugins) : db.writePlugin id plugins now ≠ db :=
  fun heq => h (congrArg PluginDb.plugins heq)

theorem recordSuccess_eq_self_iff {id : String} {now : ℤ} :
    db.recordSuccess id now = db ↔
      (∀ r, db.plugins id = some r → r.failures = 0 ∧ r.quarantined = false) ∧
        ∀ stamp, db.updatedAt id = some stamp → stamp = now := by
  have hdb : db.recordSuccess id now = db ↔
      db.plugins.recordSuccess id = db.plugins ∧
        Function.update db.updatedAt id ((db.updatedAt id).map fun _ => now) = db.updatedAt := by
    obtain ⟨plugins, stamps, capabilities, tools, functions, contracts⟩ := db
    simp [recordSuccess]
  rw [hdb, PluginRegistry.recordSuccess, Function.update_eq_self_iff, Function.update_eq_self_iff]
  refine and_congr ?_ ?_
  · cases db.plugins id with
    | none => simp
    | some r =>
        obtain ⟨enabled, quarantined, failures, trust, revision⟩ := r
        simp only [Option.map_some, Option.some.injEq, PluginRow.mk.injEq, true_and, and_true,
          forall_eq']
        exact and_comm.trans (and_congr eq_comm eq_comm)
  · cases db.updatedAt id with
    | none => simp
    | some stamp => simp [eq_comm]

theorem upsertTool_eq_self_iff {id tool : String} {metadata : ToolMetadata} {now : ℤ} :
    db.upsertTool id tool metadata now = db ↔
      ∃ r, db.tools (id, tool) = some r ∧ r.toToolMetadata = metadata ∧ r.updatedAt = now := by
  obtain ⟨plugins, stamps, capabilities, tools, functions, contracts⟩ := db
  simp only [upsertTool, mk.injEq, true_and, and_true, Function.update_eq_self_iff]
  cases tools (id, tool) with
  | none => simp
  | some r =>
      obtain ⟨held, enabled, createdAt, updatedAt⟩ := r
      simp only [ToolRow.upserted, Option.some.injEq, ToolRow.mk.injEq, true_and, exists_eq_left']
      exact and_congr eq_comm eq_comm

/-- **The writes that change nothing.** -/
theorem apply_eq_self_iff {now : ℤ} (op : RegistryOp) :
    db.apply sj now op = db ↔ db.WritesNothing sj now op := by
  cases op with
  | setEnabled id enabled => exact iff_of_false (writePlugin_ne_self upsert_ne_self) fun h => h
  | recordFailure id => exact iff_of_false (writePlugin_ne_self upsert_ne_self) fun h => h
  | setTrust id trust => exact iff_of_false (writePlugin_ne_self upsert_ne_self) fun h => h
  | noteManifestObserved id => exact iff_of_false (writePlugin_ne_self upsert_ne_self) fun h => h
  | recordSuccess id => exact recordSuccess_eq_self_iff
  | upsertTool id tool metadata => exact upsertTool_eq_self_iff
  | recordCapability id capability =>
      obtain ⟨plugins, stamps, capabilities, tools, functions, contracts⟩ := db
      simp only [apply, recordCapability, mk.injEq, true_and, and_true,
        Function.update_eq_self_iff, WritesNothing]
      cases capabilities (id, capability) <;> simp
  | setCapabilityDecision id capability decision =>
      obtain ⟨plugins, stamps, capabilities, tools, functions, contracts⟩ := db
      simp [apply, WritesNothing, eq_comm]
  | upsertToolFunction id tool f =>
      obtain ⟨plugins, stamps, capabilities, tools, functions, contracts⟩ := db
      simp [apply, WritesNothing, eq_comm]
  | setUiContract id tool contract =>
      obtain ⟨plugins, stamps, capabilities, tools, functions, contracts⟩ := db
      simp [apply, WritesNothing, eq_comm]

end PluginDb

end AuraLauncher.Plugin
