import AuraLauncher.Domain.Workflow

/-!
# MCP commands and the input of an invocation

`launcher-mcp/src/adapter.rs`, `executor.rs` and `error.rs`: how a discovered tool becomes a command
of the launcher, and how the executor decodes the input of an invocation again.

* `toolToCommand` — the projection of a tool. Its one action carries the server and the tool in its
  payload, whether it is granted or disabled.
* `McpInvokeInput`, `McpInvokeInput.fromJson` — the input of an invocation, decoded and checked.
* `mem_toolToCommand_actions`, `fromJson_eq_ok` — what the two do, for the proofs.
-/

namespace AuraLauncher.Mcp

open AuraLauncher.Domain
open AuraLauncher.Workflow (Json SerdeJson)

/-! ## Errors -/

/-- Source: `error.rs`, `McpError`. The duration of a timeout is given as its `Debug` text. -/
inductive McpError
  | invalidInput (what : String)
  | unknownTool (tool : String)
  | serverUnavailable (what : String)
  | timeout (after : String)
  | toolExecutionError (what : String)
  | protocolViolation (what : String)
  | processCrashed (code : Option Int32)
  | authenticationRequired (what : String)
  | permissionDenied (what : String)

/-- The `Debug` text of an exit code. -/
def exitCodeText : Option Int32 → String
  | none => "None"
  | some code => "Some(" ++ toString code.toInt ++ ")"

/-- Source: `error.rs`, `McpError` (`#[error]`). -/
def McpError.text : McpError → String
  | .invalidInput s => "invalid arguments: " ++ s
  | .unknownTool s => "unknown tool: " ++ s
  | .serverUnavailable s => "server unavailable: " ++ s
  | .timeout s => "connection timeout after " ++ s
  | .toolExecutionError s => "tool execution error: " ++ s
  | .protocolViolation s => "malformed protocol response: " ++ s
  | .processCrashed code => "server process crashed: exit code " ++ exitCodeText code
  | .authenticationRequired s => "authentication required: " ++ s
  | .permissionDenied s => "permission denied: " ++ s

/-- Source: `error.rs`, `McpError::failure_class`. -/
def McpError.failureClass : McpError → WorkflowFailureClass
  | .invalidInput _ => .invalidInput
  | .unknownTool _ => .commandNotFound
  | .serverUnavailable _ => .pluginUnavailable
  | .timeout _ => .timeout
  | .toolExecutionError _ => .businessError
  | .protocolViolation _ => .protocolViolation
  | .processCrashed _ => .protocolViolation
  | .authenticationRequired _ => .pluginUnavailable
  | .permissionDenied _ => .pluginUnavailable

/-! ## The input of an invocation -/

/-- The parameters of one invocation. Source: `executor.rs`, `McpInvokeInput`. -/
structure McpInvokeInput where
  serverId : String
  toolName : String
  arguments : Json

/-- Source: `executor.rs`, `MAX_INVOKE_INPUT_BYTES`. -/
def maxInvokeInputBytes : ℕ := 256 * 1024

/-- A printable character that separates nothing. Source: `executor.rs`, `is_valid_identity`. -/
def isIdentityChar (c : Char) : Bool :=
  (0x21 ≤ c.toNat && c.toNat ≤ 0x7e) && c != '/' && c != '\\' && c != ':'

/-- Source: `executor.rs`, `is_valid_identity`. -/
def isValidIdentity (s : String) : Bool :=
  !s.toList.isEmpty && trim s.toList == s.toList && !hasSub ['.', '.'] s.toList &&
    s.toList.all isIdentityChar

/-- The derived decoder: an object with the two identities and other fields ignored, or an array
with the fields in order; missing arguments are null. Source: `executor.rs`, `McpInvokeInput`
(`Deserialize`). -/
def McpInvokeInput.decode : Json → Option McpInvokeInput
  | .object fields => do
      let serverId ← (fields.lookup "server_id").bind Json.asStr
      let toolName ← (fields.lookup "tool_name").bind Json.asStr
      return ⟨serverId, toolName, (fields.lookup "arguments").getD .null⟩
  | .array [.string serverId, .string toolName] => some ⟨serverId, toolName, .null⟩
  | .array [.string serverId, .string toolName, arguments] => some ⟨serverId, toolName, arguments⟩
  | _ => none

variable (std : RustStd) (serde : SerdeJson)

/-- The input of an invocation, if it is well formed; `decodeText` is the text of a decoding error.
Source: `executor.rs`, `McpInvokeInput::from_json`. -/
def McpInvokeInput.fromJson (decodeText : Json → String) (v : Json) :
    Except McpError McpInvokeInput :=
  match McpInvokeInput.decode v with
  | none => .error (.invalidInput ("mcp invoke input: " ++ decodeText v))
  | some parsed =>
      if !isValidIdentity parsed.serverId then
        .error (.invalidInput ("invalid server_id: " ++ std.strDebug parsed.serverId))
      else if !isValidIdentity parsed.toolName then
        .error (.invalidInput ("invalid tool_name: " ++ std.strDebug parsed.toolName))
      else if !parsed.arguments.isObject then
        .error (.invalidInput "arguments must be a JSON object")
      else if maxInvokeInputBytes < (parsed.arguments.text serde).utf8ByteSize then
        .error (.invalidInput ("arguments exceed " ++ toString maxInvokeInputBytes ++ " bytes"))
      else .ok parsed

variable {std serde}

/-- What is accepted is what was decoded. -/
theorem McpInvokeInput.fromJson_eq_ok {decodeText : Json → String} {v : Json}
    {parsed : McpInvokeInput} (h : McpInvokeInput.fromJson std serde decodeText v = .ok parsed) :
    McpInvokeInput.decode v = some parsed := by
  unfold McpInvokeInput.fromJson at h
  split at h
  · cases h
  · rename_i p hp
    split_ifs at h
    obtain rfl := Except.ok.inj h
    exact hp

/-- The identities that are decoded from an object are strings in its fields. -/
theorem McpInvokeInput.decode_object {fields : List (String × Json)} {parsed : McpInvokeInput}
    (h : McpInvokeInput.decode (.object fields) = some parsed) :
    fields.lookup "server_id" = some (.string parsed.serverId) ∧
      fields.lookup "tool_name" = some (.string parsed.toolName) := by
  have hstr : ∀ {v : Option Json} {s : String}, v.bind Json.asStr = some s →
      v = some (.string s) := by
    intro v s hv
    obtain ⟨w, rfl, hw⟩ := Option.bind_eq_some_iff.mp hv
    cases w <;> simp_all [Json.asStr]
  simp only [McpInvokeInput.decode, Option.bind_eq_bind, Option.bind_eq_some_iff] at h
  obtain ⟨s, hs, t, ht, heq⟩ := h
  obtain rfl := Option.some.inj heq
  exact ⟨hstr (Option.bind_eq_some_iff.mpr hs), hstr (Option.bind_eq_some_iff.mpr ht)⟩

/-! ## The projection of a tool -/

/-- A discovered tool, with the field its projection reads. Source: `types.rs`, `McpTool`. -/
structure McpTool where
  name : String

/-- Source: `identity.rs`, `mcp_provider_id`. -/
def mcpProviderId (serverId : String) : String := "mcp:" ++ serverId

/-- Source: `identity.rs`, `MCP_ACTION_ID`. -/
def mcpActionId : String := "invoke"

/-- Source: `adapter.rs`, `MCP_ACTION_TYPE`. -/
def mcpActionType : String := "plugin.mcp.invoke"

/-- The fields are in key order. Source: `adapter.rs`, `invoke_input`. -/
def invokeInput (serverId toolName : String) (arguments : Json) : Json :=
  .object [("arguments", arguments), ("server_id", .string serverId),
    ("tool_name", .string toolName)]

/-- Source: `adapter.rs`, `invoke_descriptor`. -/
def invokeDescriptor (tool : McpTool) (serverId : String) : ActionDescriptor where
  id := mcpActionId
  title := some "Run"
  actionType := mcpActionType
  input := invokeInput serverId tool.name (.object [])
  requires := [.mcpInvoke]
  shortcut := none
  confirmation := none

/-- The serialized name of a capability. Source: `lib.rs`, `Capability` (`serde`). -/
def capabilityName : Capability → String
  | .filesystemRead => "filesystem.read"
  | .filesystemWrite => "filesystem.write"
  | .clipboardRead => "clipboard.read"
  | .clipboardWrite => "clipboard.write"
  | .network => "network.connect"
  | .shellExecute => "shell.execute"
  | .processSpawn => "process.launch"
  | .notifications => "notification.send"
  | .uiRender => "ui.render"
  | .contextProcessRead => "context.process.read"
  | .contextWindowRead => "context.window.read"
  | .contextLocationRead => "context.location.read"
  | .contextSelectionRead => "context.selection.read"
  | .storeRead => "store.read"
  | .storeWrite => "store.write"
  | .pluginInvoke => "plugin.invoke"
  | .mcpInvoke => "mcp.invoke"

/-- The text of a descriptor error. Source: `lib.rs`, `DescriptorError` (`#[error]`). -/
def descriptorErrorText : DescriptorError → String
  | .unknownActionType t => "unknown or unsupported action type: " ++ t
  | .invalidInput t => "invalid input for " ++ t
  | .capabilityDenied cs =>
      "capability denied: [" ++ ", ".intercalate (cs.map Capability.debug) ++ "]"

/-- The action of an invocation that may be shown but not executed. Source: `adapter.rs`,
`resolve_invoke_action`. -/
def disabledInvoke (descriptor : ActionDescriptor) (reason : String) (shortcut : Option String) :
    Action where
  kind := .pluginInvoke
  payload := some (.json descriptor.input)
  id := some mcpActionId
  title := some "Run"
  disabledReason := some reason
  shortcut := shortcut
  confirmationRequired := false

/-- Source: `adapter.rs`, `resolve_invoke_action`. -/
def resolveInvokeAction (descriptor : ActionDescriptor) (granted : List Capability) : Action :=
  match resolveDescriptorFor descriptor granted none with
  | .ok a => { a with id := some mcpActionId, title := descriptor.title }
  | .error (.capabilityDenied missing) =>
      disabledInvoke descriptor ("capability denied: " ++ ", ".intercalate
        (missing.map fun c => Workflow.quote (capabilityName c))) descriptor.shortcut
  | .error e => disabledInvoke descriptor (descriptorErrorText e) none

/-- The command a tool becomes. Source: `adapter.rs`, `tool_to_command_with_grants`. -/
def toolToCommand (tool : McpTool) (serverId : String) (granted : List Capability) : Command where
  id := tool.name
  providerId := mcpProviderId serverId
  actions := [resolveInvokeAction (invokeDescriptor tool serverId) granted]

/-- A descriptor of an invocation is resolved with its input as the payload. -/
theorem eq_of_resolveSystem {d : ActionDescriptor} {granted requires : List Capability} {a : Action}
    (htype : d.actionType = mcpActionType) (h : resolveSystem d granted requires = .ok a) :
    a = d.base .pluginInvoke (some (.json d.input)) := by
  unfold resolveSystem at h
  dsimp only at h
  split at h
  · cases h
  · simp only [htype, mcpActionType] at h
    split_ifs at h <;> simp_all

/-- **The projection fixes the route**: whatever is granted, the action of a projected command is an
invocation whose payload names the server and the tool. -/
theorem mem_toolToCommand_actions {tool : McpTool} {serverId : String} {granted : List Capability}
    {a : Action} (h : a ∈ (toolToCommand tool serverId granted).actions) :
    a.kind = .pluginInvoke ∧
      a.payload = some (.json (invokeInput serverId tool.name (.object []))) := by
  obtain rfl := List.mem_singleton.mp h
  unfold resolveInvokeAction
  split
  · rename_i a' ha'
    obtain rfl := eq_of_resolveSystem (d := invokeDescriptor tool serverId) rfl ha'
    exact ⟨rfl, rfl⟩
  · exact ⟨rfl, rfl⟩
  · exact ⟨rfl, rfl⟩

end AuraLauncher.Mcp
