import AuraLauncher.Mcp.Sessions
import Mathlib.Tactic.Simps.Basic

/-!
# The executor of MCP invocations

`launcher-mcp/src/executor.rs`: one call of a tool of a configured server, over a new transport for
each call or over one that is kept for the endpoint.

The transports are any `McpTransports τ σ`, and `s : σ` is what the outside does during one call.
An `expect` that fails is a `Stop.panicked`; it never happens, which is proved in
`Mcp.Discipline`. A call holds both locks from its first look at the cache to its end, so calls of
several threads on kept transports come one after the other, and a call on a new transport touches
nothing that is shared. Where an endpoint's server is to be found is a matter of the opener.

* `StdMcpExecutor` — the configuration, the cache of transports and the registry of sessions.
* `execute` — one call, `executePersistent` and `executeEphemeral` its two ways.
* `TransportEvent` — what happened to the transports, in order. Opened transports are numbered. The
  executor carries the log and the numbers along and reads neither.
-/

namespace AuraLauncher.Mcp

open AuraLauncher.Domain
open AuraLauncher.Workflow (Json SerdeJson)

universe u v

/-! ## The executor -/

/-- Source: `executor.rs`, `EndpointRuntime`. -/
inductive EndpointRuntime
  | ephemeral
  | persistent
  deriving DecidableEq, Repr

/-- Source: `executor.rs`, `ServerEndpoint`. -/
structure ServerEndpoint where
  profile : McpProtocolProfile
  runtime : EndpointRuntime

/-- Something that happened to a transport, with the error if it failed. -/
inductive TransportEvent
  | opened (serverId : String) (failure : Option McpError)
  | initialized (number : ℕ) (failure : Option McpError)
  | called (number : ℕ) (tool : String) (failure : Option McpError)
  | shutdown (number : ℕ)

/-- A transport and its number. -/
structure NumberedTransport (τ : Type u) where
  number : ℕ
  transport : τ

/-- Source: `executor.rs`, `StdMcpExecutor`. -/
structure StdMcpExecutor (τ : Type u) where
  servers : String → Option ServerEndpoint
  /-- The kept transports, by the server. -/
  persistent : String → Option (NumberedTransport τ)
  sessions : ProtocolSessionManager
  /-- The counter of the session ids. Source: `session.rs`, `SESSION_SEQ`. -/
  minted : ℕ
  /-- The number of transports opened so far. -/
  opened : ℕ
  log : List TransportEvent

/-- Why a call ends early. -/
inductive Stop
  | failed (e : McpError)
  | panicked

/-- The error of a result. -/
def failure {α : Type u} : Except McpError α → Option McpError
  | .ok _ => none
  | .error e => some e

namespace StdMcpExecutor

variable {τ : Type u} {σ : Type v} (T : McpTransports τ σ)

/-- Source: `executor.rs`, `StdMcpExecutor::with_opener`. -/
def withOpener (servers : String → Option ServerEndpoint) (minted : ℕ) : StdMcpExecutor τ :=
  ⟨servers, fun _ => none, .new, minted, 0, []⟩

/-- The executor with one more event. -/
@[simps -fullyApplied]
def record (x : StdMcpExecutor τ) (e : TransportEvent) : StdMcpExecutor τ :=
  { x with log := x.log ++ [e] }

/-- The executor with other sessions. -/
@[simps -fullyApplied]
def withSessions (x : StdMcpExecutor τ) (m : ProtocolSessionManager) : StdMcpExecutor τ :=
  { x with sessions := m }

/-- The executor with another transport, or none, for a server. -/
@[simps -fullyApplied]
def cache (x : StdMcpExecutor τ) (serverId : String) (c : Option (NumberedTransport τ)) :
    StdMcpExecutor τ := { x with persistent := Function.update x.persistent serverId c }

/-- Source: `executor.rs`, `execute` (`persistent`). -/
def isPersistent (x : StdMcpExecutor τ) (serverId : String) : Bool :=
  ((x.servers serverId).map fun ep => ep.runtime == .persistent).getD false

/-- The key of the session of a server. Source: `executor.rs`, `execute_persistent` (`key`). -/
def key (x : StdMcpExecutor τ) (serverId : String) : ProtocolSessionKey :=
  .mcp serverId (((x.servers serverId).map ServerEndpoint.profile).getD .v2025_06_18)

/-! ## Transports -/

/-- A new transport. Source: `executor.rs`, `execute` and `execute_persistent` (`self.opener`). -/
def openTransport (s : σ) (serverId : String) (x : StdMcpExecutor τ) :
    Except Stop (NumberedTransport τ) × StdMcpExecutor τ :=
  match T.opener s serverId with
  | .error e => (.error (.failed e), x.record (.opened serverId (some e)))
  | .ok t =>
      (.ok ⟨x.opened + 1, t⟩,
        { x with opened := x.opened + 1 }.record (.opened serverId none))

/-- The kept transport of a server is initialized; `none` when there is no such transport. Source:
`executor.rs`, `execute_persistent` (`transport.initialize`). -/
def initializeCached (s : σ) (serverId : String) (x : StdMcpExecutor τ) :
    Option (Except McpError InitializeResult × StdMcpExecutor τ) :=
  (x.persistent serverId).map fun c =>
    let (result, t) := T.initializeTransport s c.transport
    (result,
      (x.cache serverId (some ⟨c.number, t⟩)).record (.initialized c.number (failure result)))

/-- The kept transport of a server calls a tool. Source: `executor.rs`, `execute_persistent`
(`transport.call_tool`). -/
def callCached (s : σ) (parsed : McpInvokeInput) (executionId : String) (x : StdMcpExecutor τ) :
    Option (Except McpError ToolCallResult × StdMcpExecutor τ) :=
  (x.persistent parsed.serverId).map fun c =>
    let (result, t) := T.callTool s parsed.toolName parsed.arguments executionId c.transport
    (result, (x.cache parsed.serverId (some ⟨c.number, t⟩)).record
      (.called c.number parsed.toolName (failure result)))

/-- The kept transport of a server is shut down and forgotten. Source: `executor.rs`,
`execute_persistent` (`cache.remove`, `t.shutdown`). -/
def shutdownCached (serverId : String) (x : StdMcpExecutor τ) : StdMcpExecutor τ :=
  match x.persistent serverId with
  | none => x
  | some c => (x.cache serverId none).record (.shutdown c.number)

/-! ## Sessions -/

/-- Source: `executor.rs`, `establish_err`. -/
def establishErr (e : SessionError) : McpError :=
  .serverUnavailable ("session establish: " ++ e.text)

/-- An initialized session is ready and has its operation. Source: `executor.rs`,
`execute_persistent` (`mark_ready`, `acquire_operation`). -/
def readySession (key : ProtocolSessionKey) (sessionId : ℕ) (x : StdMcpExecutor τ) :
    Except Stop ℕ × StdMcpExecutor τ :=
  match x.sessions.markReady sessionId with
  | .error e => (.error (.failed (establishErr e)), x)
  | .ok m =>
      match m.acquireOperation key with
      | .error e => (.error (.failed (establishErr e)), x.withSessions m)
      | .ok (_, m) => (.ok sessionId, x.withSessions m)

/-- A new session for the kept transport. Source: `executor.rs`, `execute_persistent` (`NotFound`,
`NotRecoverable`). -/
def establishSession (s : σ) (serverId : String) (key : ProtocolSessionKey)
    (x : StdMcpExecutor τ) : Except Stop ℕ × StdMcpExecutor τ :=
  match x.sessions.establish key none x.minted with
  | (.error e, m, minted) =>
      (.error (.failed (establishErr e)), { x with sessions := m, minted := minted })
  | (.ok sessionId, m, minted) =>
      match initializeCached T s serverId { x with sessions := m, minted := minted } with
      | none => (.error .panicked, { x with sessions := m, minted := minted })
      | some (.ok _, x) => readySession key sessionId x
      | some (.error e, x) =>
          match x.sessions.markFailed sessionId with
          | .error e' => (.error (.failed (establishErr e')), x)
          | .ok m => (.error (.failed e), (x.withSessions m).cache serverId none)

/-- A closed session. The transport that is initialized has just been removed. Source:
`executor.rs`, `execute_persistent` (`Closed`). -/
def reopenSession (s : σ) (serverId : String) (key : ProtocolSessionKey)
    (x : StdMcpExecutor τ) : Except Stop ℕ × StdMcpExecutor τ :=
  let x := x.cache serverId none
  match x.sessions.establish key none x.minted with
  | (.error e, m, minted) =>
      (.error (.failed (establishErr e)), { x with sessions := m, minted := minted })
  | (.ok sessionId, m, minted) =>
      match initializeCached T s serverId { x with sessions := m, minted := minted } with
      | none => (.error .panicked, { x with sessions := m, minted := minted })
      | some (.error e, x) => (.error (.failed e), x)
      | some (.ok _, x) => readySession key sessionId x

/-- A ready session with its operation acquired. Source: `executor.rs`, `execute_persistent`
(`session_id`). -/
def ensureSession (s : σ) (serverId : String) (key : ProtocolSessionKey)
    (x : StdMcpExecutor τ) : Except Stop ℕ × StdMcpExecutor τ :=
  match x.sessions.acquireOperation key with
  | .ok (sessionId, m) => (.ok sessionId, x.withSessions m)
  | .error .notFound | .error .notRecoverable => establishSession T s serverId key x
  | .error .closed => reopenSession T s serverId key x
  | .error .busy =>
      (.error (.failed (.serverUnavailable
        "persistent mcp session busy with another operation")), x)
  | .error .keyMismatch =>
      (.error (.failed (.protocolViolation
        "session key mismatch (cross-identity lookup refused)")), x)

/-! ## One call -/

/-- A kept transport for the server. Source: `executor.rs`, `execute_persistent` (`contains_key`).
-/
def ensureTransport (s : σ) (serverId : String) (x : StdMcpExecutor τ) :
    Except Stop Unit × StdMcpExecutor τ :=
  if (x.persistent serverId).isSome then (.ok (), x)
  else
    match openTransport T s serverId x with
    | (.error e, x) => (.error e, x)
    | (.ok c, x) => (.ok (), x.cache serverId (some c))

/-- The sessions after an operation on them whose failure is ignored. -/
def settleSessions (x : StdMcpExecutor τ)
    (r : Except SessionError ProtocolSessionManager) : StdMcpExecutor τ :=
  match r with
  | .ok m => x.withSessions m
  | .error _ => x

/-- What the outcome of a call means for the session and the transport. Source: `executor.rs`,
`execute_persistent` (`classify`). -/
def classify (serverId : String) (sessionId : ℕ) (result : Except McpError ToolCallResult)
    (x : StdMcpExecutor τ) : StdMcpExecutor τ :=
  match result with
  | .ok _ | .error (.toolExecutionError _) | .error (.unknownTool _) =>
      x.settleSessions (x.sessions.releaseOperation sessionId)
  | .error (.protocolViolation _) => x.settleSessions (x.sessions.invalidate sessionId)
  | .error (.processCrashed _) | .error (.timeout _) =>
      (x.settleSessions (x.sessions.invalidate sessionId)).shutdownCached serverId
  | .error _ => x.settleSessions (x.sessions.invalidate sessionId)

/-- A call on the kept transport. Source: `executor.rs`, `execute_persistent` (from the session on).
-/
def executeCached (s : σ) (parsed : McpInvokeInput) (executionId : String)
    (x : StdMcpExecutor τ) : Except Stop ToolCallResult × StdMcpExecutor τ :=
  match ensureSession T s parsed.serverId (x.key parsed.serverId) x with
  | (.error e, x) => (.error e, x)
  | (.ok sessionId, x) =>
      match callCached T s parsed executionId x with
      | none => (.error .panicked, x)
      | some (result, x) => (result.mapError .failed, x.classify parsed.serverId sessionId result)

/-- Source: `executor.rs`, `execute_persistent`. -/
def executePersistent (s : σ) (parsed : McpInvokeInput) (executionId : String)
    (x : StdMcpExecutor τ) : Except Stop ToolCallResult × StdMcpExecutor τ :=
  match ensureTransport T s parsed.serverId x with
  | (.error e, x) => (.error e, x)
  | (.ok _, x) => executeCached T s parsed executionId x

/-- Source: `executor.rs`, `execute` (the ephemeral lifecycle). -/
def executeEphemeral (s : σ) (parsed : McpInvokeInput) (executionId : String)
    (x : StdMcpExecutor τ) : Except Stop ToolCallResult × StdMcpExecutor τ :=
  match openTransport T s parsed.serverId x with
  | (.error e, x) => (.error e, x)
  | (.ok c, x) =>
      let (initialized, t) := T.initializeTransport s c.transport
      let x := x.record (.initialized c.number (failure initialized))
      match initialized with
      | .error e => (.error (.failed e), x)
      | .ok _ =>
          let (result, _) := T.callTool s parsed.toolName parsed.arguments executionId t
          (result.mapError .failed,
            (x.record (.called c.number parsed.toolName (failure result))).record
              (.shutdown c.number))

variable (std : RustStd) (serde : SerdeJson) (decodeText : Json → String)

/-- One call, whose input is checked again. Source: `executor.rs`, `StdMcpExecutor::execute`. -/
def execute (s : σ) (input : McpInvokeInput) (executionId : String) (x : StdMcpExecutor τ) :
    Except Stop McpToolResult × StdMcpExecutor τ :=
  match McpInvokeInput.fromJson std serde decodeText
      (invokeInput input.serverId input.toolName input.arguments) with
  | .error e => (.error (.failed e), x)
  | .ok parsed =>
      let (result, x) :=
        if x.isPersistent parsed.serverId then executePersistent T s parsed executionId x
        else executeEphemeral T s parsed executionId x
      (result.map ToolCallResult.toToolResult, x)

end StdMcpExecutor

end AuraLauncher.Mcp
