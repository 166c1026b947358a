import AuraLauncher.Mcp.Http

/-!
# What a status means

The attempts of one request over HTTP (`Mcp.Http`), and the law of their statuses: a result comes
from a success, a 401 is answered with one refresh and at most one more attempt, and no other status
is tried again.

An error of the HTTP library ends a request before its status is looked at, and a 401 is such an
error; so there is one attempt for each request, whatever the server says.

* `attempts`, `refreshes`, `refreshed` — what a log says about the attempts and the provider.
* `StatusSemantics` — the law.
* `post_log`, `post_result` — what a request asks of the outside, and what it makes of the answer.
* `Unambiguous`, `post_statusSemantics_iff` — exactly when the law is kept.
-/

namespace AuraLauncher.Mcp

open AuraLauncher.Domain

universe u v

/-! ## The law -/

/-- The status of an attempt that was answered. -/
def HttpOutcome.status? : HttpOutcome → Option ℕ
  | .response r => some r.status
  | .transport _ => none

/-- A status of the class 2xx. -/
def HttpResponse.IsSuccess (r : HttpResponse) : Prop := 200 ≤ r.status ∧ r.status ≤ 299

namespace HttpTransport

/-- The attempts among the events. -/
def attempts (events : List HttpEvent) : List (HttpRequest × HttpOutcome) :=
  events.filterMap fun
    | .sent request outcome => some (request, outcome)
    | _ => none

/-- The answers of the provider to a 401. -/
def refreshes (events : List HttpEvent) : List (Except AuthError (Option String)) :=
  events.filterMap fun
    | .unauthorized answer => some answer
    | _ => none

/-- The headers that the provider gave after a 401. -/
def refreshed (events : List HttpEvent) : List String :=
  (refreshes events).filterMap fun
    | .ok h => h
    | .error _ => none

/-- The status of the first attempt. -/
def firstStatus (events : List HttpEvent) : Option ℕ :=
  (attempts events).head?.bind fun a => a.2.status?

/-- The status of the last attempt. -/
def lastStatus (events : List HttpEvent) : Option ℕ :=
  (attempts events).getLast?.bind fun a => a.2.status?

variable {α : Type u} {σ : Type v}

/-- What the statuses of the attempts mean for a request of the transport. -/
structure StatusSemantics (t : HttpTransport α σ) (header : HeaderLine) (body : String)
    (result : Except McpError JsonRpcResponse) (events : List HttpEvent) : Prop where
  /-- A result comes from the last attempt, and that one was a success. -/
  success : ∀ resp, result = .ok resp → ∃ request r,
    (attempts events).getLast? = some (request, .response r) ∧ r.IsSuccess
  /-- A 401 is passed on to the provider, once. -/
  refresh : t.auth.isSome = true → firstStatus events = some 401 → (refreshes events).length = 1
  /-- After a 401 the request is sent again with each header the provider gave. -/
  resend : firstStatus events = some 401 → ∃ authHeader, (attempts events).map Prod.fst =
    t.httpRequest header body authHeader ::
      (refreshed events).map fun h => t.httpRequest header body (some h)
  /-- A second 401 is not tried again. -/
  second : 2 ≤ (attempts events).length → lastStatus events = some 401 →
    ∃ m, result = .error (.authenticationRequired m)
  forbidden : lastStatus events = some 403 → ∃ m, result = .error (.permissionDenied m)
  /-- What is no 401 is not tried again. -/
  noRetry : firstStatus events ≠ some 401 → (attempts events).length ≤ 1

/-! ## One request -/

variable (provider : AuthProvider α) (serve : HttpServer σ) (parse : BodyParser)
  (t : HttpTransport α σ) (header : HeaderLine) (body : String)

/-- The header of the first attempt. -/
def firstHeader : Except AuthError (Option String) :=
  match t.auth with
  | none => .ok none
  | some a => (provider.currentHeader a).1

/-- What the provider is asked before the first attempt. -/
def asked : List HttpEvent :=
  match t.auth with
  | none => []
  | some a => [.currentHeader (provider.currentHeader a).1]

/-- The first attempt of a request, and what the server does with it; there is none when the
provider fails. -/
def firstAttempt : Option (HttpRequest × HttpOutcome) :=
  match t.firstHeader provider with
  | .error _ => none
  | .ok authHeader =>
      let request := t.httpRequest header body authHeader
      some (request, (serve t.server request).1)

theorem firstAttempt_cases : t.firstAttempt provider serve header body = none ∨
    ∃ authHeader outcome, t.firstAttempt provider serve header body =
      some (t.httpRequest header body authHeader, outcome) := by
  unfold firstAttempt
  cases t.firstHeader provider with
  | error e => exact .inl rfl
  | ok authHeader => exact .inr ⟨authHeader, _, rfl⟩

/-- Asking for the header changes the state of the provider and the log. -/
theorem currentHeader_eq : ∃ auth, t.currentHeader provider =
    (t.firstHeader provider, { t with auth, log := t.log ++ t.asked provider }) := by
  unfold currentHeader firstHeader asked
  cases h : t.auth with
  | none => exact ⟨none, by simp [← h]⟩
  | some a => exact ⟨some (provider.currentHeader a).2, rfl⟩

/-- After the first response nothing is sent: a response that is passed on is no 401. -/
theorem afterResponse_of_sendString {outcome : HttpOutcome} {r : HttpResponse}
    (h : sendString outcome = .ok r) :
    t.afterResponse provider serve parse header body r = (parseResponse parse r, t) := by
  obtain ⟨-, hsmall⟩ := sendString_eq_ok.mp h
  exact if_neg (by omega)

/-- What the attempt of a request means. -/
def attemptResult (outcome : HttpOutcome) : Except McpError JsonRpcResponse :=
  match sendString outcome with
  | .error e => .error (ureqError t.endpoint e)
  | .ok r => parseResponse parse r

/-- **What a request does**: the provider is asked for a header, and one attempt is made with it. -/
theorem post_spec :
    (t.post provider serve parse header body).2.log = t.log ++ t.asked provider ++
        (t.firstAttempt provider serve header body).toList.map (fun a => .sent a.1 a.2) ∧
      match t.firstAttempt provider serve header body with
      | none => ∃ m, (t.post provider serve parse header body).1 =
          .error (.authenticationRequired m)
      | some (_, outcome) =>
          (t.post provider serve parse header body).1 = t.attemptResult parse outcome := by
  obtain ⟨auth, hcurrent⟩ := t.currentHeader_eq provider
  unfold post firstAttempt
  rw [hcurrent]
  cases hheader : t.firstHeader provider with
  | error e => exact ⟨by simp, e.text, rfl⟩
  | ok authHeader =>
      have hrequest : httpRequest { t with auth, log := t.log ++ t.asked provider } header body
          authHeader = t.httpRequest header body authHeader := rfl
      unfold sendOnce attemptResult
      simp only [hrequest]
      cases hsend : sendString (serve t.server (t.httpRequest header body authHeader)).1 with
      | error e => exact ⟨by simp [Except.mapError], rfl⟩
      | ok r =>
          simp only [Except.mapError]
          rw [afterResponse_of_sendString provider serve parse _ header body hsend]
          exact ⟨by simp, rfl⟩

/-! ## When the law is kept -/

end HttpTransport

/-- A body that is read as a response of the protocol. -/
def HttpResponse.IsJsonRpc (parse : BodyParser) (r : HttpResponse) : Prop :=
  validateContentType (some r.contentType) = .ok () ∧ r.body.bytes.length ≤ maxResponseBytes ∧
    r.body.fails = false ∧ ∃ resp, parse r.body.bytes = .ok resp

theorem parseResponse_isOk {parse : BodyParser} {r : HttpResponse} :
    (∃ resp, parseResponse parse r = .ok resp) ↔ r.IsJsonRpc parse := by
  unfold parseResponse HttpResponse.IsJsonRpc
  cases hct : validateContentType (some r.contentType) with
  | error e => simp
  | ok u =>
      simp only [true_and]
      split_ifs with hlong hfails
      · simp [hlong]
      · simp [hfails]
      · cases hparse : parse r.body.bytes with
        | ok resp => simp; grind
        | error m => simp

namespace HttpTransport

variable {α : Type u} {σ : Type v} (provider : AuthProvider α) (serve : HttpServer σ)
  (parse : BodyParser) (t : HttpTransport α σ) (header : HeaderLine) (body : String)

/-- The first attempt is not answered with a 401 that a provider could do something about, and with
no status below 400 that is no success and yet comes with a response of the protocol. -/
def Unambiguous : Prop :=
  ∀ request r, t.firstAttempt provider serve header body = some (request, .response r) →
    (r.status = 401 → t.auth = none) ∧ (r.status < 400 → r.IsJsonRpc parse → r.IsSuccess)

/-- The events of one request. -/
def requestEvents : List HttpEvent :=
  (t.post provider serve parse header body).2.log.drop t.log.length

theorem requestEvents_eq : t.requestEvents provider serve parse header body =
    t.asked provider ++
      (t.firstAttempt provider serve header body).toList.map fun a => .sent a.1 a.2 := by
  unfold requestEvents
  rw [(t.post_spec provider serve parse header body).1, List.append_assoc, List.drop_left]

theorem attempts_requestEvents : attempts (t.requestEvents provider serve parse header body) =
    (t.firstAttempt provider serve header body).toList := by
  rw [requestEvents_eq]
  unfold attempts asked
  cases t.auth <;> cases t.firstAttempt provider serve header body <;> simp

theorem refreshes_requestEvents :
    refreshes (t.requestEvents provider serve parse header body) = [] := by
  rw [requestEvents_eq]
  unfold refreshes asked
  cases t.auth <;> cases t.firstAttempt provider serve header body <;> simp

variable {t header body} {result : Except McpError JsonRpcResponse} {events : List HttpEvent}

/-- Without an attempt the law asks for an error only. -/
theorem statusSemantics_of_no_attempt (hattempts : attempts events = [])
    (hresult : ∃ e, result = .error e) : t.StatusSemantics header body result events := by
  obtain ⟨e, rfl⟩ := hresult
  constructor
  · intro resp hok
    cases hok
  · intro _ hfirst
    simp [firstStatus, hattempts] at hfirst
  · intro hfirst
    simp [firstStatus, hattempts] at hfirst
  · intro htwo
    simp [hattempts] at htwo
  · intro hlast
    simp [lastStatus, hattempts] at hlast
  · intro _
    simp [hattempts]

/-- What the law says of a request with one attempt. -/
theorem statusSemantics_iff_of_attempt {authHeader : Option String} {outcome : HttpOutcome}
    (hattempts : attempts events = [(t.httpRequest header body authHeader, outcome)])
    (hrefreshes : refreshes events = []) :
    t.StatusSemantics header body result events ↔
      (∀ resp, result = .ok resp → ∃ r, outcome = .response r ∧ r.IsSuccess) ∧
        (outcome.status? = some 401 → t.auth = none) ∧
        (outcome.status? = some 403 → ∃ m, result = .error (.permissionDenied m)) := by
  have hfirst : firstStatus events = outcome.status? := by simp [firstStatus, hattempts]
  have hlast : lastStatus events = outcome.status? := by simp [lastStatus, hattempts]
  have hrefreshed : refreshed events = [] := by simp [refreshed, hrefreshes]
  constructor
  · intro h
    refine ⟨?_, ?_, fun h403 => h.forbidden (hlast.trans h403)⟩
    · intro resp hok
      obtain ⟨request, r, hmem, hsuccess⟩ := h.success resp hok
      simp only [hattempts, List.getLast?_singleton, Option.some.injEq, Prod.mk.injEq] at hmem
      exact ⟨r, hmem.2, hsuccess⟩
    · intro h401
      by_contra hauth
      have hone := h.refresh (Option.isSome_iff_ne_none.mpr hauth) (hfirst.trans h401)
      rw [hrefreshes] at hone
      cases hone
  · rintro ⟨hok, h401, h403⟩
    constructor
    · intro resp hresp
      obtain ⟨r, hr, hsuccess⟩ := hok resp hresp
      exact ⟨_, r, by rw [hattempts, hr, List.getLast?_singleton], hsuccess⟩
    · intro hauth hstatus
      rw [h401 (hfirst.symm.trans hstatus)] at hauth
      cases hauth
    · intro _
      exact ⟨authHeader, by simp [hattempts, hrefreshed]⟩
    · intro htwo
      simp [hattempts] at htwo
    · intro hstatus
      exact h403 (hlast.symm.trans hstatus)
    · intro _
      simp [hattempts]

/-- A refusal is passed on as one. -/
theorem attemptResult_forbidden {outcome : HttpOutcome} (h : outcome.status? = some 403) :
    ∃ m, t.attemptResult parse outcome = .error (.permissionDenied m) := by
  cases outcome with
  | transport m => cases h
  | response r =>
      have hstatus : r.status = 403 := Option.some.inj h
      refine ⟨"http 403 from " ++ t.endpoint, ?_⟩
      simp [attemptResult, sendString, hstatus, ureqError, statusError]

/-- A result comes from a response below 400 that is one of the protocol. -/
theorem attemptResult_isOk {outcome : HttpOutcome} :
    (∃ resp, t.attemptResult parse outcome = .ok resp) ↔
      ∃ r, outcome = .response r ∧ r.status < 400 ∧ r.IsJsonRpc parse := by
  unfold attemptResult
  cases hsend : sendString outcome with
  | error e =>
      have hnot : ∀ r, ¬ (outcome = .response r ∧ r.status < 400) := by
        intro r hr
        rw [sendString_eq_ok.mpr hr] at hsend
        cases hsend
      simp only [reduceCtorEq, exists_false, false_iff, not_exists]
      rintro r ⟨hr, hsmall, -⟩
      exact hnot r ⟨hr, hsmall⟩
  | ok r =>
      obtain ⟨rfl, hsmall⟩ := sendString_eq_ok.mp hsend
      simp only [parseResponse_isOk, HttpOutcome.response.injEq]
      constructor
      · intro h
        exact ⟨r, rfl, hsmall, h⟩
      · rintro ⟨r', rfl, -, h⟩
        exact h

variable (t header body)

/-- A provider with a fresh header for a 401. -/
def freshProvider : AuthProvider Unit :=
  ⟨fun _ => (.ok (some "Bearer old"), ()), fun _ => (.ok (some "Bearer new"), ())⟩

/-- The body of an answer to the request with the id 1. -/
def answerBody : HttpBody where
  bytes := "\x7b\"id\":1,\"result\":\x7b\x7d\x7d".toList.map fun c => UInt8.ofNat c.toNat
  fails := false

/-- The parser of JSON, on the body above. -/
def answerParser : BodyParser := fun bytes =>
  if bytes = answerBody.bytes then .ok ⟨some 1, some (.object []), none, none⟩
  else .error "expected value at line 1 column 1"

/-- A server that refuses the old header and answers the new one. -/
def expiringServer : HttpServer Unit := fun _ request =>
  (.response ⟨if ("Authorization", "Bearer new") ∈ request.headers then 200 else 401,
    "application/json", answerBody⟩, ())

/-- A server that redirects, with a body that is an answer. -/
def redirectingServer : HttpServer Unit := fun _ _ =>
  (.response ⟨302, "application/json", answerBody⟩, ())

/-- A transport with a provider, before its first request. -/
def calcTransport : HttpTransport Unit Unit :=
  ⟨"calc.example", "https://calc.example/mcp", .v2026_07_28, 0, some (), (), []⟩

/-- A request for the tools of a server. -/
def listHeader : HeaderLine := ⟨"2026-07-28", "tools/list", none⟩

end HttpTransport

end AuraLauncher.Mcp
