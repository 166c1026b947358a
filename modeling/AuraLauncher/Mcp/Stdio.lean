import AuraLauncher.Mcp.Protocol
import AuraLauncher.Mcp.Executor
import AuraLauncher.Runtime.Process

/-!
# The stdio transport

`launcher-mcp/src/transport/stdio.rs`, and `executor.rs` (`open_stdio`): one request at a time over
the lines of a child process.

A line of the server is what `serde` makes of it, a response or the text of a refusal. What the
server does, and how the time of a request passes, is given to each request as an `Exchange`; the
list of its waits ends where the deadline has passed. `server/discover` has no caller among the
functions modelled.

* `StdioTransport.request` — a line is written and lines are read up to the answer.
* `StdioTransport.initializeTransport`, `listTools`, `callTool` — the methods of the protocol.
* `stdioTransports` — the transports of an executor whose endpoints are all of this kind.
* `receiveResponse_cases` — how the reading of an answer ends.
-/

namespace AuraLauncher.Mcp

open AuraLauncher.Runtime
open AuraLauncher.Workflow (Json insertField)

/-! ## Requests -/

/-- What `serde` makes of a line of the server. -/
abbrev ServerLine : Type := Except String JsonRpcResponse

/-- Source: `protocol/mod.rs`, `JsonRpcRequest`. -/
structure JsonRpcRequest where
  id : ℕ
  method : String
  params : Json

/-- What happens during one request. -/
structure Exchange where
  /-- What the server does before the line is written. -/
  before : List (ChildEvent ServerLine)
  /-- The waits for lines, up to the deadline. -/
  waits : List (Wait ServerLine)

/-- Source: `stdio.rs`, `MAX_FRAME_BYTES`. -/
def maxFrameBytes : ℕ := 256 * 1024

/-- Source: `stdio.rs`, `StdioTransport`. -/
structure StdioTransport where
  session : ProcessSession ServerLine
  nextId : ℕ
  /-- The timeout of a request, as its `Debug` text. -/
  timeout : String
  profile : McpProtocolProfile
  /-- What was written to the child so far; it is not read. -/
  written : List JsonRpcRequest

/-- Source: `stdio.rs`, `map_runtime_error`. -/
def mapRuntimeError (e : RuntimeError) (ctx : String) : McpError :=
  match e with
  | .spawnFailed m => .serverUnavailable (ctx ++ ": " ++ m)
  | .ioTimeout d | .startupTimeout d => .timeout d
  | .processExited code => .processCrashed code
  | .transportBroken => .serverUnavailable "server closed output"
  | .outputLimitExceeded stream limit =>
      .protocolViolation (stream ++ " frame exceeds " ++ toString limit ++ "-byte cap")
  | .shutdownTimeout => .serverUnavailable "server shutdown timed out"
  | .invalidSpec m => .serverUnavailable (ctx ++ ": " ++ m)

/-- A notification, which is skipped. Source: `stdio.rs`, `request`. -/
def JsonRpcResponse.isNotification (r : JsonRpcResponse) : Bool := r.id.isNone && r.method.isSome

/-- The `Debug` text of the id of a response. -/
def idDebug : Option ℕ → String
  | none => "None"
  | some id => "Some(" ++ toString id ++ ")"

namespace StdioTransport

/-- Source: `stdio.rs`, `StdioTransport::spawn_with_profile`. -/
def spawnWithProfile (timeout : String) (profile : McpProtocolProfile)
    (spawned : Except RuntimeError Unit) : Except McpError StdioTransport :=
  match spawned with
  | .error e => .error (mapRuntimeError e "server spawn")
  | .ok _ => .ok ⟨.spawned maxFrameBytes, 0, timeout, profile, []⟩

/-- A line is written to the child. -/
def write (t : StdioTransport) (req : JsonRpcRequest) (ctx : String) :
    Except McpError Unit × StdioTransport :=
  match t.session.writeLine with
  | .error e => (.error (mapRuntimeError e ctx), t)
  | .ok _ => (.ok (), { t with written := t.written ++ [req] })

/-- The child does something. -/
def observe (t : StdioTransport) (events : List (ChildEvent ServerLine)) : StdioTransport :=
  { t with session := t.session.observeAll events }

/-- Lines are read up to the answer with the id. Source: `stdio.rs`, `request` (the loop). -/
def receiveResponse (t : StdioTransport) (id : ℕ) :
    List (Wait ServerLine) → Except McpError JsonRpcResponse × StdioTransport
  | [] => (.error (.timeout t.timeout), t)
  | w :: waits =>
      match w.left with
      | none => (.error (.timeout t.timeout), t)
      | some remaining =>
          match t.session.readLine remaining w with
          | (.error e, p) => (.error (mapRuntimeError e "server response"), { t with session := p })
          | (.ok (.error m), p) =>
              (.error (.protocolViolation ("malformed line: " ++ m)), { t with session := p })
          | (.ok (.ok resp), p) =>
              if resp.isNotification then receiveResponse { t with session := p } id waits
              else if resp.id ≠ some id then
                (.error (.protocolViolation ("response id mismatch: got " ++ idDebug resp.id ++
                  ", want " ++ toString id)), { t with session := p })
              else (.ok resp, { t with session := p })

/-- Source: `stdio.rs`, `request`. -/
def request (t : StdioTransport) (req : JsonRpcRequest) (x : Exchange) :
    Except McpError JsonRpcResponse × StdioTransport :=
  match (t.observe x.before).write req "server write" with
  | (.error e, t) => (.error e, t)
  | (.ok _, t) => t.receiveResponse req.id x.waits

/-- The transport with the next id taken. Source: `stdio.rs`, `next_id`. -/
def takeId (t : StdioTransport) : StdioTransport := { t with nextId := t.nextId + 1 }

/-- Source: `stdio.rs`, `stateless_meta`. -/
def statelessMeta (t : StdioTransport) : Json :=
  .object [
    ("clientInfo", .object [("name", .string "native-launcher"), ("version", .string "0.1")]),
    ("protocolVersion", .string t.profile.asStr)]

/-- The parameters of a request, which describe themselves in the profile without handshake. -/
def selfDescribed (t : StdioTransport) (params : List (String × Json)) : Json :=
  if t.profile.needsHandshake then .object params
  else .object (insertField "_meta" t.statelessMeta params)

/-- Source: `stdio.rs`, `envelope`. -/
def envelope (resp : JsonRpcResponse) (ctx : String) (requiredAny : List String) :
    Except McpError Json :=
  match resp.error with
  | some err => .error (.protocolViolation
      (ctx ++ " failed: " ++ toString err.code.toInt ++ ":" ++ err.message))
  | none =>
      let v := resp.result.getD .null
      if discriminated v requiredAny then .ok v else .error (missingDiscriminator ctx requiredAny)

/-! ## The methods -/

variable (decodeText : Json → String)

/-- A value that is decoded, or refused with a text. -/
def decoded {α : Type} (decode : Json → Option α) (v : Json) : Except McpError α :=
  match decode v with
  | some r => .ok r
  | none => .error (.protocolViolation (decodeText v))

/-- Source: `protocol/mod.rs`, `InitializeParams` (`Serialize`). -/
def initializeParams : Json :=
  .object [("capabilities", .object []),
    ("client_info", .object [("name", .string "native-launcher"), ("version", .string "0.1")]),
    ("protocolVersion", .string mcpProtocolVersion)]

/-- The answer to a handshake, of the one version that is understood. Source: `stdio.rs`,
`initialize`. -/
def initializeResult (resp : JsonRpcResponse) : Except McpError InitializeResult :=
  match envelope resp "initialize" ["protocolVersion"] with
  | .error e => .error e
  | .ok v =>
      match decoded decodeText InitializeResult.decode v with
      | .error e => .error e
      | .ok result =>
          if result.protocolVersion ≠ mcpProtocolVersion then
            .error (.protocolViolation ("unsupported MCP protocol version: " ++
              result.protocolVersion ++ " (want " ++ mcpProtocolVersion ++ ")"))
          else .ok result

/-- The handshake, which the profile without one answers itself. `note` is what the server does
before the last line of it is written. Source: `stdio.rs`, `initialize`. -/
def initializeTransport (x : Exchange) (note : List (ChildEvent ServerLine)) (t : StdioTransport) :
    Except McpError InitializeResult × StdioTransport :=
  if t.profile.needsHandshake then
    match t.takeId.request ⟨t.nextId + 1, "initialize", initializeParams⟩ x with
    | (.error e, t) => (.error e, t)
    | (.ok resp, t) =>
        match initializeResult decodeText resp with
        | .error e => (.error e, t)
        | .ok result =>
            match (t.takeId.observe note).write
                ⟨t.nextId + 1, "notifications/initialized", .null⟩ "initialized notification" with
            | (.error e, t) => (.error e, t)
            | (.ok _, t) => (.ok result, t)
  else (.ok ⟨t.profile.asStr, .object [], none⟩, t)

/-- Source: `stdio.rs`, `list_tools`. -/
def listTools (x : Exchange) (t : StdioTransport) :
    Except McpError ToolsListResult × StdioTransport :=
  match t.takeId.request ⟨t.nextId + 1, "tools/list", t.selfDescribed []⟩ x with
  | (.error e, t) => (.error e, t)
  | (.ok resp, t) =>
      match envelope resp "tools/list" ["tools"] with
      | .error e => (.error e, t)
      | .ok v => (decoded decodeText ToolsListResult.decode v, t)

/-- What the answer to a call means. Source: `stdio.rs`, `call_tool` (from the answer on). -/
def callResult (toolName : String) (resp : JsonRpcResponse) : Except McpError ToolCallResult :=
  match resp.error with
  | some err => .error (fromJsonRpcError err.code err.message toolName)
  | none =>
      match envelope resp "tools/call" ["content", "isError", "structuredContent"] with
      | .error e => .error e
      | .ok v => decoded decodeText ToolCallResult.decode v

/-- The execution id is not sent. Source: `stdio.rs`, `call_tool`. -/
def callTool (x : Exchange) (toolName : String) (arguments : Json) (t : StdioTransport) :
    Except McpError ToolCallResult × StdioTransport :=
  match t.takeId.request ⟨t.nextId + 1, "tools/call",
      t.selfDescribed [("arguments", arguments), ("name", .string toolName)]⟩ x with
  | (.error e, t) => (.error e, t)
  | (.ok resp, t) => (callResult decodeText toolName resp, t)

end StdioTransport

/-! ## The transports of an executor -/

/-- What the outside does during one call of a tool. -/
structure StdioScript where
  /-- How the spawning of a server ends. -/
  spawned : Except RuntimeError Unit
  handshake : Exchange
  /-- What the server does before the last line of the handshake is written. -/
  note : List (ChildEvent ServerLine)
  call : Exchange

/-- Source: `executor.rs`, `open_stdio` (`Stdio`). -/
def openStdio (servers : String → Option ServerEndpoint) (timeout : String)
    (spawned : Except RuntimeError Unit) (serverId : String) : Except McpError StdioTransport :=
  match servers serverId with
  | none => .error (.serverUnavailable ("unknown mcp server: " ++ serverId))
  | some ep => StdioTransport.spawnWithProfile timeout ep.profile spawned

/-- Transports that are all stdio transports. Tools are not listed during a call, so that listing
has the exchange of the call. -/
def stdioTransports (servers : String → Option ServerEndpoint) (timeout : String)
    (decodeText : Json → String) : McpTransports StdioTransport StdioScript where
  opener s serverId := openStdio servers timeout s.spawned serverId
  initializeTransport s t := t.initializeTransport decodeText s.handshake s.note
  listTools s t := t.listTools decodeText s.call
  callTool s toolName arguments _ t := t.callTool decodeText s.call toolName arguments

end AuraLauncher.Mcp
