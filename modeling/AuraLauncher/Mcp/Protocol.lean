import AuraLauncher.Mcp.Backend

/-!
# The MCP protocol and its transports

`launcher-mcp/src/protocol/mod.rs`, `compat.rs`, `error.rs` and `transport/mod.rs`: the messages of
the protocol as far as the launcher reads them, the two wire profiles, and what a transport offers
to its users.

`serde`'s derived decoders read an object by its field names, with a default for a missing field
where the type says so, and an array by position. They are written here as functions on `Json`; a
decoder that refuses is `none`, and the text of the refusal is a parameter of its users.

* `McpProtocolProfile` — the two revisions and whether they shake hands.
* `JsonRpcResponse`, `InitializeResult`, `ToolsListResult`, `ToolCallResult` — what a server says.
* `fromJsonRpcError` — the one place where an error code of the wire becomes an error.
* `McpTransports` — the operations of a transport, over the type `σ` of what the outside does
  during one call.
-/

namespace AuraLauncher.Mcp

open AuraLauncher.Workflow (Json)

universe u v

/-! ## Profiles -/

/-- Source: `compat.rs`, `McpProtocolProfile`. -/
inductive McpProtocolProfile
  | v2025_06_18
  | v2026_07_28
  deriving DecidableEq, Repr

/-- Source: `compat.rs`, `McpProtocolProfile::as_str`. -/
def McpProtocolProfile.asStr : McpProtocolProfile → String
  | .v2025_06_18 => "2025-06-18"
  | .v2026_07_28 => "2026-07-28"

/-- Source: `compat.rs`, `McpProtocolProfile::needs_handshake`. -/
def McpProtocolProfile.needsHandshake : McpProtocolProfile → Bool
  | .v2025_06_18 => true
  | .v2026_07_28 => false

/-- The version of the profile with a handshake. Source: `lib.rs`, `MCP_PROTOCOL_VERSION`. -/
def mcpProtocolVersion : String := "2025-06-18"

/-! ## Decoding -/

/-- The fields a derived decoder reads: those of an object, or the items of an array that is not
too long, under the names of the fields in their order. -/
def structFields (names : List String) : Json → Option (List (String × Json))
  | .object fields => some fields
  | .array items => if items.length ≤ names.length then some (names.zip items) else none
  | _ => none

/-- A field that may be missing or null. -/
def optionField {α : Type u} (decode : Json → Option α) (fields : List (String × Json))
    (name : String) : Option (Option α) :=
  match fields.lookup name with
  | none | some .null => some none
  | some v => (decode v).map some

/-- A field with a default for a missing one. -/
def defaultField {α : Type u} (decode : Json → Option α) (fallback : α)
    (fields : List (String × Json)) (name : String) : Option α :=
  match fields.lookup name with
  | none => some fallback
  | some v => decode v

/-- The items of an array, each decoded. -/
def decodeArray {α : Type u} (decode : Json → Option α) : Json → Option (List α)
  | .array items => items.mapM decode
  | _ => none

/-- A flag. -/
def decodeBool : Json → Option Bool
  | .bool b => some b
  | _ => none

/-- A nonnegative integer. -/
def decodeU64 : Json → Option UInt64
  | .number (.posInt n) => some n
  | _ => none

/-! ## Messages -/

/-- Source: `protocol/mod.rs`, `JsonRpcError`. -/
structure JsonRpcError where
  code : Int32
  message : String

/-- Source: `protocol/mod.rs`, `JsonRpcResponse`. -/
structure JsonRpcResponse where
  id : Option ℕ
  result : Option Json
  error : Option JsonRpcError
  method : Option String

/-- Source: `protocol/mod.rs`, `InitializeResult`. -/
structure InitializeResult where
  protocolVersion : String
  capabilities : Json
  serverInfo : Option Json

/-- Source: `protocol/mod.rs`, `InitializeResult` (`Deserialize`). -/
def InitializeResult.decode (v : Json) : Option InitializeResult := do
  let fields ← structFields ["protocolVersion", "capabilities", "server_info"] v
  let protocolVersion ← defaultField Json.asStr "" fields "protocolVersion"
  let serverInfo ← optionField some fields "server_info"
  return ⟨protocolVersion, (fields.lookup "capabilities").getD .null, serverInfo⟩

/-- A tool as the server lists it. Source: `protocol/mod.rs`, `ToolDto`. -/
structure ToolDto where
  name : String
  title : Option String
  description : Option String
  inputSchema : Json
  annotations : Json

/-- The field names are those of the type, none of them renamed. Source: `protocol/mod.rs`,
`ToolDto` (`Deserialize`). -/
def ToolDto.decode (v : Json) : Option ToolDto := do
  let fields ← structFields ["name", "title", "description", "input_schema", "annotations"] v
  let name ← (fields.lookup "name").bind Json.asStr
  let title ← optionField Json.asStr fields "title"
  let description ← optionField Json.asStr fields "description"
  return ⟨name, title, description, (fields.lookup "input_schema").getD .null,
    (fields.lookup "annotations").getD .null⟩

/-- Source: `protocol/mod.rs`, `ToolsListResult`. -/
structure ToolsListResult where
  tools : List ToolDto
  nextCursor : Option String
  ttlMs : Option UInt64

/-- Of the fields only `ttlMs` is renamed. Source: `protocol/mod.rs`, `ToolsListResult`
(`Deserialize`). -/
def ToolsListResult.decode (v : Json) : Option ToolsListResult := do
  let fields ← structFields ["tools", "next_cursor", "ttlMs"] v
  let tools ← defaultField (decodeArray ToolDto.decode) [] fields "tools"
  let nextCursor ← optionField Json.asStr fields "next_cursor"
  let ttlMs ← optionField decodeU64 fields "ttlMs"
  return ⟨tools, nextCursor, ttlMs⟩

/-- Source: `protocol/mod.rs`, `ContentItem`. -/
structure ContentItem where
  kind : String
  text : Option String

/-- Source: `protocol/mod.rs`, `ContentItem` (`Deserialize`). -/
def ContentItem.decode (v : Json) : Option ContentItem := do
  let fields ← structFields ["type", "text"] v
  let kind ← (fields.lookup "type").bind Json.asStr
  let text ← optionField Json.asStr fields "text"
  return ⟨kind, text⟩

/-- Source: `protocol/mod.rs`, `ToolCallResult`. -/
structure ToolCallResult where
  content : List ContentItem
  isError : Bool
  structuredContent : Option Json

/-- Source: `protocol/mod.rs`, `ToolCallResult` (`Deserialize`). -/
def ToolCallResult.decode (v : Json) : Option ToolCallResult := do
  let fields ← structFields ["content", "isError", "structuredContent"] v
  let content ← defaultField (decodeArray ContentItem.decode) [] fields "content"
  let isError ← defaultField decodeBool false fields "isError"
  let structuredContent ← optionField some fields "structuredContent"
  return ⟨content, isError, structuredContent⟩

/-- Source: `executor.rs`, `From<ToolCallResult> for McpToolResult`. -/
def ToolCallResult.toToolResult (r : ToolCallResult) : McpToolResult where
  content := r.content.map fun c => ⟨c.kind, c.text⟩
  structuredContent := r.structuredContent
  isError := r.isError

/-- Source: `error.rs`, `McpError::from_jsonrpc_error`. -/
def fromJsonRpcError (code : Int32) (message tool : String) : McpError :=
  if code = -32601 then .unknownTool tool
  else if code = -32602 then .invalidInput message
  else if code = -32700 ∨ code = -32600 then
    .protocolViolation ("jsonrpc error [" ++ toString code.toInt ++ "]: " ++ message)
  else .toolExecutionError ("[" ++ toString code.toInt ++ "] " ++ message)

/-- The result of a request, if it is an object with one of the wanted fields. Source: `stdio.rs`,
`StdioTransport::envelope`, and `streamable_http.rs`, `StreamableHttpTransport::rpc`. -/
def discriminated (v : Json) (requiredAny : List String) : Bool :=
  match v with
  | .object fields => requiredAny.any fun k => (fields.lookup k).isSome
  | _ => false

/-- What a refusal says about the wanted fields. The list is printed as `Debug` prints it. -/
def missingDiscriminator (ctx : String) (requiredAny : List String) : McpError :=
  .protocolViolation (ctx ++ ": missing result discriminator (want any of [" ++
    ", ".intercalate (requiredAny.map fun k => "\"" ++ k ++ "\"") ++ "])")

/-! ## Transports -/

/-- The operations of the transports of type `τ`, during a call in which the outside does `s : σ`. A
transport that is shut down is not used again, so that `shutdown` has nothing to say here.
Source: `transport/mod.rs`, `McpTransport`, and `executor.rs`, `TransportOpener`. -/
structure McpTransports (τ : Type u) (σ : Type v) where
  /-- A new transport for a server. -/
  opener : σ → String → Except McpError τ
  /-- `McpTransport::initialize`. -/
  initializeTransport : σ → τ → Except McpError InitializeResult × τ
  listTools : σ → τ → Except McpError ToolsListResult × τ
  /-- Tool, arguments and execution id. -/
  callTool : σ → String → Json → String → τ → Except McpError ToolCallResult × τ

end AuraLauncher.Mcp
