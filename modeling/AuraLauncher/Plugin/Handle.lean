import AuraLauncher.Plugin.Intake
import AuraLauncher.Plugin.Provider
import AuraLauncher.Runtime.Process
import Mathlib.Data.List.DropRight

/-!
# The handle of a plugin process

`launcher-plugin-host/src/lib.rs`, `PluginHandle`: the host's end of one plugin process, over which
requests are made one at a time.

What the plugin does during a request, and whether the clock runs out, is given to the request as
an `Exchange`. A line of the plugin is what `Response::from_line` makes of it, a response or the
text of a refusal. Resolving the executable and starting the process are left out: `spawn` is given
how they ended. So are the id of the last invocation and the counters, which only logs read.

* `PluginHandle` — the state: the manifest, the session, the number of the last request, and two
  records that no operation reads: what was written, and which responses were taken for answers.
* `request`, `ask`, `askOrKill` — a line out and a line in.
* `initializePlugin`, `query`, `executeAction`, `toolRequest` and the tool methods — the requests;
  `finishInvocation` — the end of an invocation of an ephemeral plugin.
* `HandleCall`, `handles` — the calls as the steps of a machine.
-/

namespace AuraLauncher.Plugin

open AuraLauncher.Domain AuraLauncher.Ipc AuraLauncher.Lib AuraLauncher.Runtime
open AuraLauncher.Workflow (Json SerdeJson)

/-! ## Exchanges -/

/-- What `Response::from_line` makes of a line of the plugin. -/
abbrev PluginLine : Type := Except String Response

/-- What happens during one request. -/
structure Exchange where
  /-- What the plugin does before the line is written. -/
  before : List (ChildEvent PluginLine)
  /-- The wait for the answer. -/
  wait : Wait PluginLine

/-- The response arrives in time, after what came before the request was written. -/
def Exchange.inTime (before : List (ChildEvent PluginLine)) (resp : Response) : Exchange :=
  ⟨before, ⟨none, [.line (.ok resp)], false, .unknown⟩⟩

/-- No line arrives in time. -/
def Exchange.outOfTime : Exchange := ⟨[], ⟨none, [], false, .unknown⟩⟩

/-- What happens at the end of an invocation, if there is anything to end. -/
structure Closing where
  /-- The request to shut down. -/
  exchange : Exchange
  /-- What the plugin does in the time it is given to exit. -/
  exit : List (ChildEvent PluginLine)

/-- The `Debug` text of a duration of milliseconds. -/
def durationDebug (ms : ℕ) : String :=
  if ms = 0 then "0ns"
  else if ms < 1000 then toString ms ++ "ms"
  else
    let fraction := ((Nat.toDigits 10 (1000 + ms % 1000)).drop 1).rdropWhile (· == '0')
    toString (ms / 1000) ++ (if fraction.isEmpty then "" else "." ++ String.ofList fraction) ++ "s"

example : durationDebug 1050 = "1.05s" := by decide

/-- The `Debug` text of an exit code. -/
def exitCodeDebug : Option Int32 → String
  | none => "None"
  | some code => "Some(" ++ toString code.toInt ++ ")"

/-- Source: `map_runtime_error`. -/
def mapRuntimeError : RuntimeError → PluginError
  | .spawnFailed m | .invalidSpec m => .spawn m
  | .ioTimeout d | .startupTimeout d => .timeout d
  | .processExited code => .crashed (exitCodeDebug code)
  | .transportBroken => .crashed (exitCodeDebug none)
  | .outputLimitExceeded _ limit =>
      .malformed ("frame too large (max " ++ toString limit ++ " bytes)")
  | .shutdownTimeout => .noResponse

/-- Source: `PluginHandle`. -/
structure PluginHandle where
  manifest : PluginManifest
  session : ProcessSession PluginLine
  nextRequestId : ℕ
  /-- What was written to the plugin so far. -/
  written : List Ipc.Request
  /-- The responses that were taken for answers so far, each with the id of the request. -/
  answered : List (ℕ × Response)

namespace PluginHandle

variable (h : PluginHandle)

/-! ## A line out and a line in -/

/-- The plugin does something. -/
def observe (events : List (ChildEvent PluginLine)) : PluginHandle :=
  { h with session := h.session.observeAll events }

/-- Source: `kill`. -/
def kill : PluginHandle := { h with session := h.session.kill }

/-- The id of the response is not looked at. Source: `request`. -/
def request (req : Ipc.Request) (timeoutMs : ℕ) (x : Exchange) :
    Except PluginError Response × PluginHandle :=
  let h := h.observe x.before
  match h.session.writeLine with
  | .error e => (.error (mapRuntimeError e), h)
  | .ok _ =>
      let h := { h with written := h.written ++ [req] }
      match h.session.readLine (durationDebug timeoutMs) x.wait with
      | (.error e, p) => (.error (mapRuntimeError e), { h with session := p })
      | (.ok (.error m), p) => (.error (.malformed m), { h with session := p })
      | (.ok (.ok resp), p) => (.ok resp, { h with session := p })

/-- The handle with the next id taken. Source: `next_request_id`. -/
def takeId : PluginHandle := { h with nextRequestId := h.nextRequestId + 1 }

/-- A request under the next id, with the response recorded as its answer. -/
def ask (method : String) (params : Json) (timeoutMs : ℕ) (x : Exchange) :
    Except PluginError Response × PluginHandle :=
  let id := h.nextRequestId + 1
  match h.takeId.request ⟨id, method, params⟩ timeoutMs x with
  | (.error e, h) => (.error e, h)
  | (.ok resp, h) => (.ok resp, { h with answered := h.answered ++ [(id, resp)] })

/-- A request after whose failure the plugin is killed. -/
def askOrKill (method : String) (params : Json) (timeoutMs : ℕ) (x : Exchange) :
    Except PluginError Response × PluginHandle :=
  match h.ask method params timeoutMs x with
  | (.error e, h) => (.error e, h.kill)
  | (.ok resp, h) => (.ok resp, h)

/-- The failure a plugin reports itself. -/
def pluginError (e : RpcError) : PluginError := .malformed ("plugin error " ++ e.text)

/-- The shorter of the timeout of the manifest and two seconds. -/
def shortTimeout : ℕ := min h.manifest.timeoutMs 2000

variable (serde : SerdeJson) (refusal : String → Json → String)

/-! ## The handshake -/

/-- What the answer to a handshake says. Source: `initialize` (from the answer on). -/
def initializeResult (resp : Response) : Except PluginError Unit :=
  match resp.result with
  | some v =>
      match InitializeResult.decode v with
      | none => .error (.malformed ("invalid initialize result: " ++ refusal "InitializeResult" v))
      | some result =>
          if result.protocolVersion ≠ Ipc.protocolVersion then
            .error (.versionMismatch ("plugin speaks " ++ result.protocolVersion ++
              ", host speaks " ++ Ipc.protocolVersion))
          else .ok ()
  | none =>
      .error (.versionMismatch ((resp.error.map RpcError.text).getD "empty initialize result"))

/-- The handshake, after whose failure the plugin is killed. Source: `initialize`. -/
def initializePlugin (x : Exchange) : Except PluginError Unit × PluginHandle :=
  match h.askOrKill "initialize"
      (.object [("plugin_id", .string h.manifest.id),
        ("protocol_version", .string Ipc.protocolVersion)]) h.shortTimeout x with
  | (.error e, h) => (.error e, h)
  | (.ok resp, h) =>
      match initializeResult refusal resp with
      | .error e => (.error e, h.kill)
      | .ok _ => (.ok (), h)

/-- The handle of a plugin that was just started. -/
def started (m : PluginManifest) : PluginHandle := ⟨m, .spawned maxFrameBytes, 0, [], []⟩

/-- How the manifest, the executable and the process fare is given. Source: `spawn`. -/
def spawn (m : PluginManifest) (process : Except PluginError Unit) (x : Exchange) :
    Except PluginError PluginHandle :=
  match process with
  | .error e => .error e
  | .ok _ =>
      match (started m).initializePlugin refusal x with
      | (.error e, _) => .error e
      | (.ok _, h) => .ok h

/-! ## Invocations -/

/-- Source: `finish_invocation`. -/
def finishInvocation (c : Closing) : PluginHandle :=
  if h.manifest.lifetime ≠ .ephemeral || !h.session.state.isAlive then h
  else
    let h := (h.takeId.request ⟨h.nextRequestId + 1, "shutdown", .object []⟩ 200 c.exchange).2
    { h with session := (h.session.shutdown c.exit).2 }

/-- The items in the answer to a query. Source: `query_invocation` (from the answer on). -/
def queryItems (m : PluginManifest) (queryId : String) (resp : Response) :
    Except PluginError (List PluginResultItem) :=
  match parseQueryResult serde refusal (resp.result.getD (.array [])) queryId
      m.schemaVersion.isNone with
  | .error e => .error (.malformed e)
  | .ok items => .ok items

/-- Source: `launcher-ipc/src/lib.rs`, `QueryParams` (`Serialize`). -/
def queryParams (text queryId : String) : Json :=
  .object [("limit", .number (.posInt (.ofNat maxPluginResults))), ("query_id", .string queryId),
    ("text", .string text)]

/-- The query id is minted by the host, which sends it along and wants it back. Source:
`query_invocation`. -/
def queryInvocation (text queryId : String) (x : Exchange) :
    Except PluginError (List PluginCommand) × PluginHandle :=
  match h.askOrKill "query" (queryParams text queryId) h.manifest.timeoutMs x with
  | (.error e, h) => (.error e, h)
  | (.ok resp, h) =>
      match resp.error with
      | some err => (.error (pluginError err), h.kill)
      | none =>
          match queryItems serde refusal h.manifest queryId resp with
          | .error e => (.error e, h)
          | .ok items => (.ok (items.map h.manifest.commandOf), h)

/-- Source: `query`. -/
def query (text queryId : String) (x : Exchange) (c : Closing) :
    Except PluginError (List PluginCommand) × PluginHandle :=
  let (r, h) := h.queryInvocation serde refusal text queryId x
  (r, h.finishInvocation c)

/-- What the answer to an action says, if its execution id is not another one. Source:
`execute_action_invocation` (from the answer on). -/
def actionPayload (executionId : String) (result : Json) : Except PluginError Json :=
  match result with
  | .object fields =>
      match (fields.lookup "execution_id").bind Json.asStr with
      | some echo =>
          if echo = executionId then .ok ((fields.lookup "result").getD .null)
          else .error (.malformed ("execution_id echo mismatch: expected " ++ executionId ++
            ", got " ++ echo))
      | none => .ok result
  | _ => .ok result

/-- A failure the plugin reports leaves it running. Source: `execute_action_invocation`. -/
def executeActionInvocation (actionId : String) (input : Json) (executionId : String)
    (contextGeneration : UInt64) (x : Exchange) : Except PluginError Json × PluginHandle :=
  match h.askOrKill "execute_action"
      (.object [("action_id", .string actionId),
        ("context_generation", .number (.posInt contextGeneration)),
        ("execution_id", .string executionId), ("input", input)]) h.manifest.timeoutMs x with
  | (.error e, h) => (.error e, h)
  | (.ok resp, h) =>
      match resp.error with
      | some err => (.error (.actionFailed err.code.toInt err.message), h)
      | none =>
          match actionPayload executionId (resp.result.getD .null) with
          | .error e => (.error e, h.kill)
          | .ok payload => (.ok payload, h)

/-- Source: `execute_action`. -/
def executeAction (actionId : String) (input : Json) (executionId : String)
    (contextGeneration : UInt64) (x : Exchange) (c : Closing) :
    Except PluginError Json × PluginHandle :=
  let (r, h) := h.executeActionInvocation actionId input executionId contextGeneration x
  (r, h.finishInvocation c)

/-! ## Tools -/

/-- A request after whose failure nothing happens to the plugin. Source: `tool_request`. -/
def toolRequest {α : Type} (type : String) (decode : Json → Option α) (method : String)
    (params : Json) (x : Exchange) : Except PluginError α × PluginHandle :=
  match h.ask method params h.shortTimeout x with
  | (.error e, h) => (.error e, h)
  | (.ok resp, h) =>
      match resp.error with
      | some err => (.error (pluginError err), h)
      | none =>
          let v := resp.result.getD .null
          match decode v with
          | none => (.error (.malformed (method ++ ": " ++ refusal type v)), h)
          | some r => (.ok r, h)

/-- Source: `tool_list`. -/
def toolList (requestId : String) (x : Exchange) : Except PluginError (List Json) × PluginHandle :=
  let (r, h) := h.toolRequest refusal "ToolListResult" ToolListResult.decode "tool.list"
    (.object [("request_id", .string requestId)]) x
  (r.map ToolListResult.tools, h)

/-- Source: `tool_open`. -/
def toolOpen (sessionId toolId : String) (context initialInput : Json) (x : Exchange) :
    Except PluginError ToolOpenResult × PluginHandle :=
  h.toolRequest refusal "ToolOpenResult" ToolOpenResult.decode "tool.open"
    (.object [("context", context), ("initial_input", initialInput),
      ("session_id", .string sessionId), ("tool_id", .string toolId)]) x

/-- A UI event. Source: `launcher-domain/src/tool.rs`, `UiEvent`. -/
structure UiEvent where
  sessionId : String
  eventId : String
  nodeId : String
  event : String
  value : Json

/-- Source: `launcher-domain/src/tool.rs`, `UiEvent` (`Serialize`). -/
def UiEvent.toValue (e : UiEvent) : Json :=
  .object [("event", .string e.event), ("event_id", .string e.eventId),
    ("node_id", .string e.nodeId), ("session_id", .string e.sessionId), ("value", e.value)]

/-- Source: `tool_event`. -/
def toolEvent (event : UiEvent) (x : Exchange) : Except PluginError Json × PluginHandle :=
  h.toolRequest refusal "Value" some "tool.event" event.toValue x

/-- Source: `tool_close`. -/
def toolClose (sessionId : String) (x : Exchange) : Except PluginError Unit × PluginHandle :=
  h.toolRequest refusal "Value" (fun _ => some ()) "tool.close"
    (.object [("session_id", .string sessionId)]) x

/-- Source: `tool_cancel`. -/
def toolCancel (sessionId : String) (eventId : Option String) (x : Exchange) :
    Except PluginError Unit × PluginHandle :=
  h.toolRequest refusal "Value" (fun _ => some ()) "tool.cancel"
    (.object [("event_id", (eventId.map Json.string).getD .null),
      ("session_id", .string sessionId)]) x

end PluginHandle

/-! ## Calls -/

/-- A call of the handle, with what happens during it. -/
inductive HandleCall
  | handshake (x : Exchange)
  | query (text queryId : String) (x : Exchange) (c : Closing)
  | executeAction (actionId : String) (input : Json) (executionId : String)
      (contextGeneration : UInt64) (x : Exchange) (c : Closing)
  | toolList (requestId : String) (x : Exchange)
  | toolOpen (sessionId toolId : String) (context initialInput : Json) (x : Exchange)
  | toolEvent (event : PluginHandle.UiEvent) (x : Exchange)
  | toolClose (sessionId : String) (x : Exchange)
  | toolCancel (sessionId : String) (eventId : Option String) (x : Exchange)

/-- The handle after a call. -/
def PluginHandle.act (serde : SerdeJson) (refusal : String → Json → String) (h : PluginHandle) :
    HandleCall → PluginHandle
  | .handshake x => (h.initializePlugin refusal x).2
  | .query text queryId x c => (h.query serde refusal text queryId x c).2
  | .executeAction actionId input executionId generation x c =>
      (h.executeAction actionId input executionId generation x c).2
  | .toolList requestId x => (h.toolList refusal requestId x).2
  | .toolOpen sessionId toolId context initialInput x =>
      (h.toolOpen refusal sessionId toolId context initialInput x).2
  | .toolEvent event x => (h.toolEvent refusal event x).2
  | .toolClose sessionId x => (h.toolClose refusal sessionId x).2
  | .toolCancel sessionId eventId x => (h.toolCancel refusal sessionId eventId x).2

/-- The handles, under calls in any order. -/
def handles (serde : SerdeJson) (refusal : String → Json → String) :
    Machine PluginHandle HandleCall :=
  ⟨fun h call => some (h.act serde refusal call)⟩

end AuraLauncher.Plugin
