import AuraLauncher.Mcp.Auth
import AuraLauncher.Mcp.HttpPolicy
import AuraLauncher.Mcp.Stdio

/-!
# The streamable HTTP transport

`launcher-mcp/src/transport/streamable_http.rs`: one POST for each request, with a header from the
authentication and with at most one more attempt.

The server is a function of its own state and of the request, so that it may answer any request
with any status, type and body; the provider of headers is any `AuthProvider`. Both states are kept
in the transport, which also logs what it asked of them. The HTTP library is `ureq` as it documents
itself: a status from 400 on is an error, any other one a response.

* `HttpTransport.post` — a request, up to the parsed response.
* `HttpTransport.rpc`, `initializeTransport`, `listTools`, `callTool` — the methods of the protocol.
* `httpTransports` — the transports of endpoints that are all of this kind.

`server/discover` has no caller among the functions modelled.
-/

namespace AuraLauncher.Mcp

open AuraLauncher.Domain
open AuraLauncher.Workflow (Json SerdeJson insertField)

universe u v

/-! ## The wire -/

/-- A body arrives byte by byte, and then ends or fails. -/
structure HttpBody where
  bytes : List UInt8
  /-- Reading fails after these bytes. -/
  fails : Bool

/-- Source: `streamable_http.rs`, `HttpResponse`. -/
structure HttpResponse where
  status : ℕ
  contentType : String
  body : HttpBody

structure HttpRequest where
  url : String
  headers : List (String × String)
  body : String

/-- What comes of one attempt: a response, or the text of an error of the connection. -/
inductive HttpOutcome
  | response (r : HttpResponse)
  | transport (message : String)

/-- Source: `ureq::Error`. -/
inductive UreqError
  | status (code : ℕ)
  | transport (message : String)

/-- A response with a status from 400 on is an error. Redirects are not followed, so that every
other response is passed on. Source: `ureq::Request::send_string`. -/
def sendString : HttpOutcome → Except UreqError HttpResponse
  | .response r => if 400 ≤ r.status then .error (.status r.status) else .ok r
  | .transport m => .error (.transport m)

theorem sendString_eq_ok {outcome : HttpOutcome} {r : HttpResponse} :
    sendString outcome = .ok r ↔ outcome = .response r ∧ r.status < 400 := by
  cases outcome with
  | transport m => simp [sendString]
  | response r' =>
      simp only [sendString]
      split_ifs with hlarge
      · simp only [HttpOutcome.response.injEq, false_iff, not_and, not_lt]
        rintro rfl
        exact hlarge
      · simp only [Except.ok.injEq, HttpOutcome.response.injEq, iff_self_and]
        rintro rfl
        omega

/-- What the other side does with a request. -/
abbrev HttpServer (σ : Type v) : Type v := σ → HttpRequest → HttpOutcome × σ

/-- What a transport asks of the outside. -/
inductive HttpEvent
  /-- The provider is asked for the current header. -/
  | currentHeader (answer : Except AuthError (Option String))
  | sent (request : HttpRequest) (outcome : HttpOutcome)
  /-- The provider is told of a 401. -/
  | unauthorized (answer : Except AuthError (Option String))

/-- Source: `streamable_http.rs`, `HeaderLine`. -/
structure HeaderLine where
  version : String
  method : String
  name : Option String

/-- Source: `streamable_http.rs`, `StreamableHttpTransport`. -/
structure HttpTransport (α : Type u) (σ : Type v) where
  endpoint : String
  url : String
  profile : McpProtocolProfile
  nextId : ℕ
  /-- The state of the provider, if there is one. -/
  auth : Option α
  server : σ
  /-- What was asked of the outside so far; it is not read. -/
  log : List HttpEvent

/-- Source: `streamable_http.rs`, `MAX_RESPONSE_BYTES`. -/
def maxResponseBytes : ℕ := 1024 * 1024

/-- Source: `streamable_http.rs`, `MAX_REQUEST_BYTES`. -/
def maxRequestBytes : ℕ := 256 * 1024

/-- What `serde` makes of the bytes of a body. -/
abbrev BodyParser : Type := List UInt8 → Except String JsonRpcResponse

/-- Not more than the cap and one byte is read. Source: `streamable_http.rs`, `parse_response`. -/
def parseResponse (parse : BodyParser) (r : HttpResponse) : Except McpError JsonRpcResponse :=
  match validateContentType (some r.contentType) with
  | .error e => .error e
  | .ok _ =>
      if maxResponseBytes < r.body.bytes.length then .error (.protocolViolation
        ("response exceeds " ++ toString maxResponseBytes ++ "-byte cap"))
      else if r.body.fails then .error (.protocolViolation "response read failed")
      else
        match parse r.body.bytes with
        | .ok resp => .ok resp
        | .error m => .error (.protocolViolation ("malformed http response body: " ++ m))

namespace HttpTransport

variable {α : Type u} {σ : Type v} (provider : AuthProvider α) (serve : HttpServer σ)
  (parse : BodyParser)

/-! ## One attempt -/

/-- Source: `streamable_http.rs`, `send_once` (the request). -/
def httpRequest (t : HttpTransport α σ) (header : HeaderLine) (body : String)
    (authHeader : Option String) : HttpRequest where
  url := t.url
  headers := [("Content-Type", "application/json"), ("Accept", "application/json"),
      ("MCP-Protocol-Version", header.version), ("Mcp-Method", header.method)] ++
    (header.name.map fun name => ("Mcp-Name", name)).toList ++
    (authHeader.map fun token => ("Authorization", token)).toList
  body := body

/-- What an error of the HTTP library means. Source: `streamable_http.rs`, `send_once` (the
error). -/
def ureqError (endpoint : String) : UreqError → McpError
  | .status code =>
      (statusError code endpoint).getD
        (.serverUnavailable ("http " ++ toString code ++ " from " ++ endpoint))
  | .transport msg =>
      if hasSub "Redirect".toList msg.toList then .protocolViolation ("redirect blocked: " ++ msg)
      else .serverUnavailable ("http transport: " ++ msg)

/-- Source: `streamable_http.rs`, `send_once`. -/
def sendOnce (t : HttpTransport α σ) (header : HeaderLine) (body : String)
    (authHeader : Option String) : Except McpError HttpResponse × HttpTransport α σ :=
  let request := t.httpRequest header body authHeader
  let (outcome, server) := serve t.server request
  ((sendString outcome).mapError (ureqError t.endpoint),
    { t with server, log := t.log ++ [.sent request outcome] })

/-- The current header of the provider. Source: `streamable_http.rs`, `post` (the first match). -/
def currentHeader (t : HttpTransport α σ) :
    Except AuthError (Option String) × HttpTransport α σ :=
  match t.auth with
  | none => (.ok none, t)
  | some a =>
      let (answer, a) := provider.currentHeader a
      (answer, { t with auth := some a, log := t.log ++ [.currentHeader answer] })

/-- Source: `streamable_http.rs`, `post` (the match on a 401). -/
def onUnauthorized (t : HttpTransport α σ) :
    Except AuthError (Option String) × HttpTransport α σ :=
  match t.auth with
  | none => (.ok none, t)
  | some a =>
      let (answer, a) := provider.onUnauthorized a
      (answer, { t with auth := some a, log := t.log ++ [.unauthorized answer] })

/-! ## Requests -/

/-- A response is parsed; after a 401 the request is sent once more with a new header.
Source: `streamable_http.rs`, `post` (from the first response on). -/
def afterResponse (t : HttpTransport α σ) (header : HeaderLine) (body : String)
    (response : HttpResponse) : Except McpError JsonRpcResponse × HttpTransport α σ :=
  if response.status = 401 then
    match t.onUnauthorized provider with
    | (.error e, t) => (.error (.authenticationRequired e.text), t)
    | (.ok none, t) => (.error (.authenticationRequired
        ("http 401 from " ++ t.endpoint ++ " (auth required)")), t)
    | (.ok (some h), t) =>
        match t.sendOnce serve header body (some h) with
        | (.error e, t) => (.error e, t)
        | (.ok retried, t) =>
            if retried.status = 401 then (.error (.authenticationRequired
              ("http 401 from " ++ t.endpoint ++ " after refresh")), t)
            else (parseResponse parse retried, t)
  else (parseResponse parse response, t)

/-- Source: `streamable_http.rs`, `post`. -/
def post (t : HttpTransport α σ) (header : HeaderLine) (body : String) :
    Except McpError JsonRpcResponse × HttpTransport α σ :=
  match t.currentHeader provider with
  | (.error e, t) => (.error (.authenticationRequired e.text), t)
  | (.ok authHeader, t) =>
      match t.sendOnce serve header body authHeader with
      | (.error e, t) => (.error e, t)
      | (.ok response, t) => t.afterResponse provider serve parse header body response

variable (serde : SerdeJson) (decodeText : Json → String)

/-- The method and the name in a header are those of the body. Source: `streamable_http.rs`,
`check_against_body`. -/
def checkAgainstBody (header : HeaderLine) (body : Json) : Except McpError Unit :=
  match serde.reread body with
  | none => .error (.protocolViolation ("body not json: " ++ decodeText body))
  | some v =>
      let bodyMethod := ((v.get "method").bind Json.asStr).getD ""
      if bodyMethod ≠ header.method then .error (.protocolViolation
        ("header/body mismatch: Mcp-Method=" ++ header.method ++ " body=" ++ bodyMethod))
      else
        match header.name, ((v.get "params").bind fun p => p.get "name").bind Json.asStr with
        | some h, some b =>
            if h ≠ b then .error (.protocolViolation
              ("header/body mismatch: Mcp-Name=" ++ h ++ " body=" ++ b))
            else .ok ()
        | none, none => .ok ()
        | _, _ => .error (.protocolViolation "header/body mismatch: Mcp-Name presence differs")

/-- The client's description of itself. Source: `streamable_http.rs`, `build_request` (`_meta`). -/
def requestMeta (t : HttpTransport α σ) : Json :=
  .object [
    ("io.modelcontextprotocol/clientInfo",
      .object [("name", .string "native-launcher"), ("version", .string "4.4.0")]),
    ("protocolVersion", .string t.profile.asStr)]

/-- The header of a request and its body. Source: `streamable_http.rs`, `build_request`. -/
def buildRequest (t : HttpTransport α σ) (id : ℕ) (rpcMethod : String) (toolName : Option String)
    (params : Json) : Except McpError (HeaderLine × Json) :=
  let fields := params.asObject.getD []
  let body : Json := .object [("id", .number (.posInt (UInt64.ofNat id))),
    ("jsonrpc", .string "2.0"), ("method", .string rpcMethod),
    ("params", .object (insertField "_meta" t.requestMeta fields))]
  if maxRequestBytes < (body.text serde).utf8ByteSize then
    .error (.invalidInput ("request body exceeds " ++ toString maxRequestBytes ++ " bytes"))
  else
    let header : HeaderLine := ⟨t.profile.asStr, rpcMethod, toolName⟩
    match checkAgainstBody serde decodeText header body with
    | .error e => .error e
    | .ok _ => .ok (header, body)

/-- The result in a response. Source: `streamable_http.rs`, `rpc` (from the response on). -/
def rpcResult (id : ℕ) (rpcMethod : String) (toolName : Option String) (requiredAny : List String)
    (errorFor : JsonRpcError → Option McpError) (resp : JsonRpcResponse) : Except McpError Json :=
  match resp.error with
  | some err =>
      .error ((errorFor err).getD (fromJsonRpcError err.code err.message (toolName.getD "")))
  | none =>
      if resp.id ≠ some id then .error (.protocolViolation
        ("response id mismatch: got " ++ idDebug resp.id ++ ", want " ++ toString id))
      else
        let v := resp.result.getD .null
        if discriminated v requiredAny then .ok v
        else .error (missingDiscriminator rpcMethod requiredAny)

/-- Source: `streamable_http.rs`, `rpc`. -/
def rpc (t : HttpTransport α σ) (rpcMethod : String) (toolName : Option String) (params : Json)
    (requiredAny : List String) (errorFor : JsonRpcError → Option McpError) :
    Except McpError Json × HttpTransport α σ :=
  let t := { t with nextId := t.nextId + 1 }
  match t.buildRequest serde decodeText t.nextId rpcMethod toolName params with
  | .error e => (.error e, t)
  | .ok (header, body) =>
      match t.post provider serve parse header (body.text serde) with
      | (.error e, t) => (.error e, t)
      | (.ok resp, t) => (rpcResult t.nextId rpcMethod toolName requiredAny errorFor resp, t)

/-! ## The methods -/

/-- Only the profile without a handshake is spoken over HTTP. Source: `streamable_http.rs`,
`StreamableHttpTransport::new`. -/
def new (url : String) (profile : McpProtocolProfile) (policy : UrlPolicy) (server : σ) :
    Except McpError (HttpTransport α σ) :=
  if profile.needsHandshake then
    .error (.invalidInput "streamable http requires the 2026-07-28 profile")
  else
    match validateUrl url policy with
    | .error e => .error e
    | .ok (_, host) => .ok ⟨host, url, profile, 0, none, server, []⟩

/-- Source: `streamable_http.rs`, `set_auth_provider`. -/
def setAuthProvider (t : HttpTransport α σ) (a : α) : HttpTransport α σ := { t with auth := some a }

/-- Source: `streamable_http.rs`, `initialize`. -/
def initializeTransport (t : HttpTransport α σ) :
    Except McpError InitializeResult × HttpTransport α σ :=
  (.ok ⟨t.profile.asStr, .object [], none⟩, t)

/-- Source: `streamable_http.rs`, `list_tools`. -/
def listTools (t : HttpTransport α σ) : Except McpError ToolsListResult × HttpTransport α σ :=
  match t.rpc provider serve parse serde decodeText "tools/list" none (.object []) ["tools"]
      (fun _ => none) with
  | (.error e, t) => (.error e, t)
  | (.ok v, t) => (StdioTransport.decoded decodeText ToolsListResult.decode v, t)

/-- Source: `streamable_http.rs`, `call_tool`. -/
def callTool (t : HttpTransport α σ) (toolName : String) (arguments : Json) :
    Except McpError ToolCallResult × HttpTransport α σ :=
  match t.rpc provider serve parse serde decodeText "tools/call" (some toolName)
      (.object [("arguments", arguments), ("name", .string toolName)])
      ["content", "isError", "structuredContent"]
      (fun err => if err.code = -32601 then some (.unknownTool toolName) else none) with
  | (.error e, t) => (.error e, t)
  | (.ok v, t) => (StdioTransport.decoded decodeText ToolCallResult.decode v, t)

end HttpTransport

/-- The transports of endpoints that are all of this kind. What the outside does in a call is the
state of the server when the transport is opened; later the transport knows it. -/
def httpTransports {α : Type u} {σ : Type v} (provider : AuthProvider α) (serve : HttpServer σ)
    (parse : BodyParser) (serde : SerdeJson) (decodeText : Json → String)
    (endpoints : String → Option (String × McpProtocolProfile × UrlPolicy)) :
    McpTransports (HttpTransport α σ) σ where
  opener server serverId :=
    match endpoints serverId with
    | none => .error (.serverUnavailable ("unknown mcp server: " ++ serverId))
    | some (url, profile, policy) => HttpTransport.new url profile policy server
  initializeTransport _ t := t.initializeTransport
  listTools _ t := t.listTools provider serve parse serde decodeText
  callTool _ toolName arguments _ t :=
    t.callTool provider serve parse serde decodeText toolName arguments

end AuraLauncher.Mcp
