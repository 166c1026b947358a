import AuraLauncher.Mcp.Protocol

/-!
# The messages between the host and a plugin

`launcher-ipc/src/lib.rs`: requests, responses, and the results a plugin may send.

A line is what `serde` makes of it, so the texts of requests and responses are left out, and so are
the error codes, which no function of the host reads. The derived decoders are those of
`Mcp.Protocol`: functions on `Json` that answer `none` when they refuse. What they say then is the
parameter `refusal`, by the name of the type they decode.

* `Request`, `Response`, `RpcError` — the messages.
* `InitializeResult`, `QueryResult`, `PluginResultItem`, `ToolListResult`, `ToolOpenResult` — what
  is read out of a response.
* `sanitizeResults`, `parseQueryResult` — the answer to a query, checked and cut.
-/

namespace AuraLauncher.Ipc

open AuraLauncher.Mcp (structFields optionField defaultField decodeArray decodeU64)
open AuraLauncher.Workflow (Json JsonNumber SerdeJson)

/-! ## Messages -/

/-- Source: `PROTOCOL_VERSION`. -/
def protocolVersion : String := "0.1"

/-- Source: `MAX_FRAME_BYTES`. -/
def maxFrameBytes : ℕ := 256 * 1024

/-- Source: `MAX_PLUGIN_RESULTS`. -/
def maxPluginResults : ℕ := 100

/-- Source: `Request`. -/
structure Request where
  id : ℕ
  method : String
  params : Json

/-- Source: `RpcError`. -/
structure RpcError where
  code : Int32
  message : String

/-- Source: `Response`. -/
structure Response where
  id : ℕ
  result : Option Json
  error : Option RpcError

/-- The code and the message of an error, as the host prints them. -/
def RpcError.text (e : RpcError) : String := toString e.code.toInt ++ ": " ++ e.message

/-! ## Decoding -/

/-- A number as an `f32`, the nearest one. Source: `f32` (`Deserialize`). -/
def decodeF32 : Json → Option Float32
  | .number (.posInt n) => some n.toFloat32
  | .number (.negInt n) => some n.toFloat32
  | .number (.float x _) => some x.toFloat32
  | _ => none

/-- Source: `InitializeResult`. -/
structure InitializeResult where
  protocolVersion : String

/-- Source: `InitializeResult` (`Deserialize`). -/
def InitializeResult.decode (v : Json) : Option InitializeResult := do
  let fields ← structFields ["protocol_version"] v
  let version ← (fields.lookup "protocol_version").bind Json.asStr
  return ⟨version⟩

/-- Source: `QueryResult`. -/
structure QueryResult where
  queryId : String
  commands : List Json

/-- Source: `QueryResult` (`Deserialize`). -/
def QueryResult.decode (v : Json) : Option QueryResult := do
  let fields ← structFields ["query_id", "commands"] v
  let queryId ← (fields.lookup "query_id").bind Json.asStr
  let commands ← defaultField (decodeArray some) [] fields "commands"
  return ⟨queryId, commands⟩

/-- One row of the answer to a query. The entries of `actions` are decoded later, one by one.
Source: `PluginResultItem`. -/
structure PluginResultItem where
  title : String
  id : Option String
  subtitle : Option String
  actions : List Json
  score : Float32
  rich : Option Json

/-- Source: `PluginResultItem` (`Deserialize`). -/
def PluginResultItem.decode (v : Json) : Option PluginResultItem := do
  let fields ← structFields ["title", "id", "subtitle", "actions", "score", "rich"] v
  let title ← (fields.lookup "title").bind Json.asStr
  let id ← optionField Json.asStr fields "id"
  let subtitle ← optionField Json.asStr fields "subtitle"
  let actions ← defaultField (decodeArray some) [] fields "actions"
  let score ← defaultField decodeF32 0 fields "score"
  let rich ← optionField some fields "rich"
  return ⟨title, id, subtitle, actions, score, rich⟩

/-- Source: `tool_params`, `ToolListResult`. -/
structure ToolListResult where
  requestId : String
  tools : List Json

/-- Source: `tool_params`, `ToolListResult` (`Deserialize`). -/
def ToolListResult.decode (v : Json) : Option ToolListResult := do
  let fields ← structFields ["request_id", "tools"] v
  let requestId ← (fields.lookup "request_id").bind Json.asStr
  let tools ← (fields.lookup "tools").bind (decodeArray some)
  return ⟨requestId, tools⟩

/-- Source: `tool_params`, `ToolOpenResult`. -/
structure ToolOpenResult where
  sessionId : String
  uiGeneration : UInt64
  ui : Json

/-- Source: `tool_params`, `ToolOpenResult` (`Deserialize`). -/
def ToolOpenResult.decode (v : Json) : Option ToolOpenResult := do
  let fields ← structFields ["session_id", "ui_generation", "ui"] v
  let sessionId ← (fields.lookup "session_id").bind Json.asStr
  let uiGeneration ← (fields.lookup "ui_generation").bind decodeU64
  let ui ← fields.lookup "ui"
  return ⟨sessionId, uiGeneration, ui⟩

/-! ## The answer to a query -/

/-- The ranking hint within 0 and 1. Source: `sanitize_results`. -/
def sanitizeScore (score : Float32) : Float32 :=
  let score := if !score.isFinite || score < 0 then 0 else score
  if score < 1 then score else 1

variable (serde : SerdeJson) (refusal : String → Json → String)

/-- Source: `sanitize_results`. -/
def sanitizeResults (v : Json) : Except String (List PluginResultItem) :=
  match decodeArray PluginResultItem.decode v with
  | none => .error ("invalid result schema: " ++ refusal "Vec<PluginResultItem>" v)
  | some items =>
      .ok ((items.map fun it => { it with score := sanitizeScore it.score }).take maxPluginResults)

/-- Source: `parse_query_result`. -/
def parseQueryResult (v : Json) (expectedQueryId : String) (allowLegacyArray : Bool) :
    Except String (List PluginResultItem) :=
  match v with
  | .array _ =>
      if allowLegacyArray then sanitizeResults refusal v
      else .error "legacy bare-array response is not allowed for schema_version 1 manifests"
  | .object _ =>
      match QueryResult.decode v with
      | none => .error ("invalid result schema: " ++ refusal "QueryResult" v)
      | some parsed =>
          if parsed.queryId ≠ expectedQueryId then
            .error ("query_id echo mismatch: expected " ++ expectedQueryId ++ ", got " ++
              parsed.queryId)
          else sanitizeResults refusal (.array parsed.commands)
  | other => .error ("invalid result schema: " ++ other.text serde)

end AuraLauncher.Ipc
