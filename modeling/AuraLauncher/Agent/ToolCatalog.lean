import AuraLauncher.Lib.SortedMap
import AuraLauncher.Workflow.Json

/-!
# The tool catalog

`crates/launcher-ai/src/tool_catalog.rs`, with the catalog items of
`crates/launcher-workflow/src/proposal.rs`: the view of every action and workflow that a planner
sees, keyed by a `ref` it names them by, and its bounded rendering as JSON.

* `ActionCatalogItem`, `WorkflowToolSummary` — what is projected.
* `actionRef`, `workflowRef`, `ToolCatalog.project` — the refs, and the projection.
* `ToolCatalog.kept`, `ToolCatalog.renderJson` — the entries that the limits let through, and their
  text.

Serializing an entry cannot fail, so the branches of `render_json` for a failure are left out.
Lengths are in bytes, as `str::len` counts them.
-/

namespace AuraLauncher.Agent

open AuraLauncher.Lib
open AuraLauncher.Workflow (Json SerdeJson insertField)

/-! ## What is projected -/

/-- Source: `proposal.rs`, `ActionCatalogItem`. -/
structure ActionCatalogItem where
  providerId : String
  commandId : String
  title : String
  description : Option String
  actionId : String
  actionTitle : Option String
  actionType : String
  inputSchema : Option Json

/-- Source: `tool_catalog.rs`, `WorkflowToolSummary`. -/
structure WorkflowToolSummary where
  definitionId : String
  name : String
  description : Option String
deriving DecidableEq, Repr

/-! ## Entries -/

/-- Source: `tool_catalog.rs`, `ToolKind`. -/
inductive ToolKind where
  | action
  | workflow
deriving DecidableEq, Repr

/-- The name of a kind in snake case. -/
def ToolKind.toJson : ToolKind → Json
  | .action => .string "action"
  | .workflow => .string "workflow"

/-- Source: `tool_catalog.rs`, `ToolCatalogEntry`. -/
structure ToolCatalogEntry where
  ref : String
  kind : ToolKind
  title : String
  description : Option String
  actionType : Option String
  inputSchema : Option Json

namespace ToolCatalogEntry

/-- The fields of an entry in the order of its declaration, the absent ones as `null`. -/
def fields (e : ToolCatalogEntry) : List (String × Json) :=
  [("ref", .string e.ref),
    ("kind", e.kind.toJson),
    ("title", .string e.title),
    ("description", e.description.elim .null .string),
    ("action_type", e.actionType.elim .null .string),
    ("input_schema", e.inputSchema.getD .null)]

/-- The text of an entry. Source: `serde_json::to_string` of a `ToolCatalogEntry`. -/
def toText (sj : SerdeJson) (e : ToolCatalogEntry) : String := (Json.object e.fields).text sj

/-- An entry as a value, whose fields are in key order. Source: `serde_json::to_value` of a
`ToolCatalogEntry`. -/
def toValue (e : ToolCatalogEntry) : Json :=
  .object (e.fields.foldl (fun fields field => insertField field.1 field.2 fields) [])

end ToolCatalogEntry

/-! ## The projection -/

/-- Source: `tool_catalog.rs`, `REF_SEP`. -/
def refSep : Char := '|'

/-- Source: `tool_catalog.rs`, `action_ref`. -/
def actionRef (providerId commandId actionId : String) : String :=
  providerId ++ refSep.toString ++ commandId ++ refSep.toString ++ actionId

/-- Source: `tool_catalog.rs`, `workflow_ref`. -/
def workflowRef (definitionId : String) : String := "workflow" ++ refSep.toString ++ definitionId

/-- The entries by their refs, in the order of the refs. Source: `tool_catalog.rs`,
`ToolCatalog`. -/
structure ToolCatalog where
  entries : SortedMap ToolCatalogEntry.ref

/-- The entry of an action. -/
def ActionCatalogItem.entry (a : ActionCatalogItem) : ToolCatalogEntry where
  ref := actionRef a.providerId a.commandId a.actionId
  kind := .action
  title := a.title
  description := a.description
  actionType := some a.actionType
  inputSchema := a.inputSchema

/-- The entry of a workflow. -/
def WorkflowToolSummary.entry (w : WorkflowToolSummary) : ToolCatalogEntry where
  ref := workflowRef w.definitionId
  kind := .workflow
  title := w.name
  description := w.description
  actionType := none
  inputSchema := none

namespace ToolCatalog

/-- Source: `tool_catalog.rs`, `ToolCatalog::new`. -/
def new : ToolCatalog := ⟨.empty⟩

/-- Source: `tool_catalog.rs`, `ToolCatalog::len`. -/
def len (c : ToolCatalog) : ℕ := c.entries.rows.length

/-- Source: `tool_catalog.rs`, `ToolCatalog::get`. -/
def get (c : ToolCatalog) (ref : String) : Option ToolCatalogEntry := c.entries.find? ref

/-- Source: `tool_catalog.rs`, `ToolCatalog::insert`. -/
def insert (c : ToolCatalog) (entry : ToolCatalogEntry) : ToolCatalog := ⟨c.entries.insert entry⟩

/-- Source: `tool_catalog.rs`, `ToolCatalog::project`. -/
def project (actions : List ActionCatalogItem) (workflows : List WorkflowToolSummary) :
    ToolCatalog :=
  let cat := actions.foldl (fun cat a => cat.insert a.entry) new
  workflows.foldl (fun cat w => cat.insert w.entry) cat

/-! ## The rendering -/

end ToolCatalog

/-- Source: `tool_catalog.rs`, `ProjectionLimits`. -/
structure ProjectionLimits where
  maxEntries : ℕ
  maxChars : ℕ
deriving DecidableEq, Repr

/-- Source: `tool_catalog.rs`, `ProjectionLimits::default`. -/
def ProjectionLimits.default : ProjectionLimits := ⟨200, 16000⟩

namespace ToolCatalog

variable (sj : SerdeJson)

/-- The entries that are kept after `kept` entries in `chars` bytes, up to the first that a limit
stops. -/
def keptFrom (limits : ProjectionLimits) (kept chars : ℕ) :
    List ToolCatalogEntry → List ToolCatalogEntry
  | [] => []
  | e :: rest =>
      let json := e.toText sj
      -- a comma in front of every entry but the first
      let extra := if kept = 0 then json.utf8ByteSize else json.utf8ByteSize + 1
      if limits.maxEntries ≤ kept ∨ limits.maxChars < chars + extra then []
      else e :: keptFrom limits (kept + 1) (chars + extra) rest

/-- The entries that the limits let through; the two bytes are those of the brackets. -/
def kept (c : ToolCatalog) (limits : ProjectionLimits) : List ToolCatalogEntry :=
  keptFrom sj limits 0 2 c.entries.rows

/-- Source: `tool_catalog.rs`, `ToolCatalog::render_json`. -/
def renderJson (c : ToolCatalog) (limits : ProjectionLimits) : String × ℕ :=
  let kept := c.kept sj limits
  ((Json.array (kept.map ToolCatalogEntry.toValue)).text sj, kept.length)

end ToolCatalog

end AuraLauncher.Agent
