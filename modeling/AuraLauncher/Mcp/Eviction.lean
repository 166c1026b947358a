import AuraLauncher.Mcp.Calls
import AuraLauncher.Mcp.Stdio

/-!
# Dead servers

What becomes of a kept stdio transport whose server has exited (`executor.rs`, `execute_persistent`;
`stdio.rs`, `request` and `initialize`).

Nothing written to a dead server arrives, which every request reports as an unavailable server. Of
this error a call makes an invalid session and keeps the transport; it is the handshake of the next
session that fails on the dead transport and loses it. The profile without handshake writes nothing
to establish a session, so that there the transport remains for ever.

* `StdioTransport.Dead` — the server has exited, `Dead.callTool` and the others what that means.
* `StdioStep`, `stdioMachine` — runs of an executor in which the servers also act between calls.
* `strikes` — how many calls the endpoint can still lose to a dead transport.
* `replaced_iff_needsHandshake` — dead transports are replaced exactly where there is a handshake.
-/

namespace AuraLauncher.Mcp

open AuraLauncher.Domain AuraLauncher.Lib AuraLauncher.Runtime
open AuraLauncher.Workflow (Json SerdeJson)

/-! ## Dead transports -/

namespace StdioTransport

variable {t : StdioTransport}

/-- The server has exited. -/
def Dead (t : StdioTransport) : Prop := t.session.Gone

/-- What a request over a dead transport answers. -/
def closedOutput : McpError := .serverUnavailable "server closed output"

theorem Dead.observe (h : t.Dead) (events : List (ChildEvent ServerLine)) :
    (t.observe events).Dead :=
  ProcessSession.Gone.observeAll h events

theorem Dead.write (h : t.Dead) (req : JsonRpcRequest) (ctx : String) :
    t.write req ctx = (.error closedOutput, t) := by
  unfold StdioTransport.write
  rw [ProcessSession.Gone.writeLine h]
  rfl

theorem Dead.request (h : t.Dead) (req : JsonRpcRequest) (x : Exchange) :
    t.request req x = (.error closedOutput, t.observe x.before) := by
  unfold StdioTransport.request
  rw [(h.observe x.before).write]

/-- A tool cannot be called over a dead transport. -/
theorem Dead.callTool (h : t.Dead) (decodeText : Json → String) (x : Exchange) (toolName : String)
    (arguments : Json) : t.callTool decodeText x toolName arguments =
      (.error closedOutput, t.takeId.observe x.before) := by
  unfold StdioTransport.callTool
  rw [Dead.request (t := t.takeId) h]

/-- Nor can a handshake be made. -/
theorem Dead.initializeTransport (h : t.Dead) (hprofile : t.profile.needsHandshake = true)
    (decodeText : Json → String) (x : Exchange) (note : List (ChildEvent ServerLine)) :
    t.initializeTransport decodeText x note =
      (.error closedOutput, t.takeId.observe x.before) := by
  unfold StdioTransport.initializeTransport
  rw [if_pos hprofile, Dead.request (t := t.takeId) h]

/-- Without a handshake nothing happens. -/
theorem initializeTransport_of_stateless (hprofile : t.profile.needsHandshake = false)
    (decodeText : Json → String) (x : Exchange) (note : List (ChildEvent ServerLine)) :
    t.initializeTransport decodeText x note = (.ok ⟨t.profile.asStr, .object [], none⟩, t) := by
  unfold StdioTransport.initializeTransport
  rw [if_neg (by simp [hprofile])]

/-! ## The profile of a transport -/

@[simp]
theorem profile_observe (events : List (ChildEvent ServerLine)) :
    (t.observe events).profile = t.profile := rfl

@[simp]
theorem profile_takeId : t.takeId.profile = t.profile := rfl

theorem profile_write (req : JsonRpcRequest) (ctx : String) :
    (t.write req ctx).2.profile = t.profile := by
  unfold write
  split <;> rfl

theorem profile_receiveResponse (id : ℕ) (waits : List (Wait ServerLine)) :
    (t.receiveResponse id waits).2.profile = t.profile := by
  induction waits generalizing t with
  | nil => rfl
  | cons w waits ih =>
      unfold receiveResponse
      split
      · rfl
      · split
        · rfl
        · rfl
        · split_ifs
          · exact ih
          · rfl
          · rfl

theorem profile_request (req : JsonRpcRequest) (x : Exchange) :
    (t.request req x).2.profile = t.profile := by
  have hwrite := profile_write (t := t.observe x.before) req "server write"
  unfold request
  split
  · rename_i e t' heq
    rw [heq] at hwrite
    exact hwrite
  · rename_i t' heq
    rw [heq] at hwrite
    exact (profile_receiveResponse req.id x.waits).trans hwrite

theorem profile_callTool (decodeText : Json → String) (x : Exchange) (toolName : String)
    (arguments : Json) :
    (t.callTool decodeText x toolName arguments).2.profile = t.profile := by
  have hrequest := profile_request (t := t.takeId) ⟨t.nextId + 1, "tools/call",
    t.selfDescribed [("arguments", arguments), ("name", .string toolName)]⟩ x
  unfold callTool
  split <;> (rename_i heq; rw [heq] at hrequest; exact hrequest)

theorem profile_initializeTransport (decodeText : Json → String) (x : Exchange)
    (note : List (ChildEvent ServerLine)) :
    (t.initializeTransport decodeText x note).2.profile = t.profile := by
  have hrequest := profile_request (t := t.takeId) ⟨t.nextId + 1, "initialize", initializeParams⟩ x
  unfold initializeTransport
  split_ifs
  · split
    · rename_i heq
      rw [heq] at hrequest
      exact hrequest
    · rename_i t' heq
      rw [heq] at hrequest
      have hwrite := profile_write (t := t'.takeId.observe note)
        ⟨t'.nextId + 1, "notifications/initialized", .null⟩ "initialized notification"
      split
      · exact hrequest
      · split <;> (rename_i heq'; rw [heq'] at hwrite; exact hwrite.trans hrequest)
  · rfl

end StdioTransport

/-! ## Runs -/

/-- What an executor with stdio endpoints runs with. -/
structure StdioSetup where
  std : RustStd
  serde : SerdeJson
  /-- The texts of refused values. -/
  decodeText : Json → String
  servers : String → Option ServerEndpoint
  timeout : String

/-- The transports of the setup. -/
abbrev StdioSetup.transports (E : StdioSetup) : McpTransports StdioTransport StdioScript :=
  stdioTransports E.servers E.timeout E.decodeText

/-- A step of a process with stdio endpoints: a call, an id taken by somebody else, or something
that the server of a kept transport does between two calls. -/
inductive StdioStep
  | execute (s : StdioScript) (input : McpInvokeInput) (executionId : String)
  | mint
  | child (serverId : String) (e : ChildEvent ServerLine)

namespace StdMcpExecutor

/-- The server of a kept transport does something. -/
def childActs (x : StdMcpExecutor StdioTransport) (serverId : String) (e : ChildEvent ServerLine) :
    StdMcpExecutor StdioTransport :=
  match x.persistent serverId with
  | none => x
  | some c => x.cache serverId (some ⟨c.number, c.transport.observe [e]⟩)

section runs

variable (E : StdioSetup)

/-- One step of an executor with stdio endpoints. -/
def stdioStep (x : StdMcpExecutor StdioTransport) : StdioStep → StdMcpExecutor StdioTransport
  | .execute s input executionId =>
      (execute E.transports E.std E.serde E.decodeText s input executionId x).2
  | .mint => { x with minted := x.minted + 1 }
  | .child serverId e => x.childActs serverId e

/-- The executor with stdio endpoints as a machine. -/
def stdioMachine : Machine (StdMcpExecutor StdioTransport) StdioStep :=
  ⟨fun x a => some (stdioStep E x a)⟩

/-- The step is a call on the endpoint. -/
def hitsStep (id : String) : StdioStep → Bool
  | .execute _ input _ => hits E.std E.serde E.decodeText id input
  | _ => false

/-- In every continuation of a run there are at most two more calls on the endpoint before a
transport for it is asked for. -/
def Replaced (x : StdMcpExecutor StdioTransport) (id : String) : Prop :=
  ∀ more y, (stdioMachine E).run x more = some y →
    y.openings id = x.openings id → more.countP (hitsStep E id) ≤ 2

end runs

section steps

variable {E : StdioSetup} {x x' : StdMcpExecutor StdioTransport} {id : String}

theorem Sound.childActs (h : x.Sound none) (serverId : String) (e : ChildEvent ServerLine) :
    (x.childActs serverId e).Sound none := by
  unfold StdMcpExecutor.childActs
  split
  · exact h
  · rename_i c hc
    refine ((h.leave serverId).recached hc _).close fun r hr => ?_
    obtain ⟨hinactive, hstate, husable⟩ := h.idle hr (by simp)
    refine ⟨hinactive, hstate, fun hready => ?_⟩
    obtain ⟨c', hc', hlog⟩ := husable hready
    obtain rfl : c = c' := Option.some.inj (hc.symm.trans hc')
    exact ⟨⟨c.number, c.transport.observe [e]⟩, Function.update_self _ _ _, hlog⟩

theorem Sound.stdioStep (h : x.Sound none) (a : StdioStep) :
    (x.stdioStep E a).Sound none := by
  cases a with
  | execute s input executionId =>
      exact h.step (T := E.transports) E.std E.serde E.decodeText (.execute s input executionId)
  | mint =>
      exact h.step (T := E.transports) E.std E.serde E.decodeText .mint
  | child serverId e => exact h.childActs serverId e

/-- What the servers do between the calls leaves the sessions alone. -/
theorem ready_childActs (serverId : String) (e : ChildEvent ServerLine) :
    (x.childActs serverId e).Ready id ↔ x.Ready id := by
  unfold childActs
  split <;> rfl

theorem openings_childActs (serverId : String) (e : ChildEvent ServerLine) :
    (x.childActs serverId e).openings id = x.openings id := by
  unfold childActs
  split <;> rfl

theorem servers_childActs (serverId : String) (e : ChildEvent ServerLine) :
    (x.childActs serverId e).servers = x.servers := by
  unfold childActs
  split <;> rfl

/-- The kept transport of an endpoint after its server, or another, did something. -/
theorem persistent_childActs (id serverId : String) (e : ChildEvent ServerLine) :
    (x.childActs serverId e).persistent id = (x.persistent id).map fun c =>
      if serverId = id then ⟨c.number, c.transport.observe [e]⟩ else c := by
  unfold childActs
  by_cases hid : serverId = id
  · subst hid
    cases hc : x.persistent serverId with
    | none => simp [hc]
    | some c => simp
  · have hne : id ≠ serverId := Ne.symm hid
    cases hc : x.persistent serverId with
    | none => simp [hid]
    | some c => simp [hid, hne]

/-! ## The transports of the endpoints -/

/-- A kept transport belongs to a persistent endpoint and has its profile, and there is an input
that names the endpoint. -/
structure Matched (x : StdMcpExecutor StdioTransport) (E : StdioSetup) : Prop where
  configured : x.servers = E.servers
  persistent : ∀ {id c}, x.persistent id = some c → x.isPersistent id = true
  profile : ∀ {id c}, x.persistent id = some c →
    ∃ ep, E.servers id = some ep ∧ c.transport.profile = ep.profile
  named : ∀ {id c}, x.persistent id = some c →
    ∃ input, hits E.std E.serde E.decodeText id input = true

/-- A call leaves its endpoint without a transport or with one of the same profile. -/
theorem CachedCall.profile {s : StdioScript} {parsed : McpInvokeInput} {executionId : String}
    {c : NumberedTransport StdioTransport} {o : Except Stop ToolCallResult}
    (h : CachedCall E.transports s parsed executionId x c o x') :
    x'.servers = x.servers ∧ ∀ {c'}, x'.persistent parsed.serverId = some c' →
      c'.transport.profile = c.transport.profile := by
  cases h with
  | unestablished _ _ hpersistent _ _ hservers _ =>
      refine ⟨hservers, fun hc' => ?_⟩
      rw [hpersistent, Function.update_self] at hc'
      cases hc'
  | @called t t' result _ _ hestablished hcall hpersistent _ _ hservers _ =>
      refine ⟨hservers, fun {c'} hc' => ?_⟩
      have ht : t.profile = c.transport.profile := by
        rcases hestablished with ⟨-, rfl⟩ | ⟨-, i, hinit⟩
        · rfl
        · have hprofile := StdioTransport.profile_initializeTransport (t := c.transport)
            E.decodeText s.handshake s.note
          rw [show c.transport.initializeTransport E.decodeText s.handshake s.note = (.ok i, t) from
            hinit] at hprofile
          exact hprofile
      have ht' := StdioTransport.profile_callTool (t := t) E.decodeText s.call parsed.toolName
        parsed.arguments
      rw [show t.callTool E.decodeText s.call parsed.toolName parsed.arguments = (result, t') from
        hcall] at ht'
      rw [hpersistent, Function.update_self] at hc'
      split_ifs at hc'
      obtain rfl := Option.some.inj hc'
      exact ht'.trans ht

theorem isPersistent_eq (h : x'.servers = x.servers) : x'.isPersistent = x.isPersistent := by
  funext id
  simp [isPersistent, h]

/-- What is new in the cache is matched. -/
theorem Matched.of_new (h : x.Matched E) (hservers : x'.servers = x.servers)
    (hnew : ∀ {id c'}, x'.persistent id = some c' →
      (∃ c, x.persistent id = some c ∧ c'.transport.profile = c.transport.profile) ∨
      x.isPersistent id = true ∧
        (∃ ep, E.servers id = some ep ∧ c'.transport.profile = ep.profile) ∧
        ∃ input, hits E.std E.serde E.decodeText id input = true) :
    x'.Matched E := by
  have hall : ∀ {id c'}, x'.persistent id = some c' → x.isPersistent id = true ∧
      (∃ ep, E.servers id = some ep ∧ c'.transport.profile = ep.profile) ∧
      ∃ input, hits E.std E.serde E.decodeText id input = true := by
    intro id c' hc'
    rcases hnew hc' with ⟨c, hc, hprofile⟩ | hnew
    · exact ⟨h.persistent hc, hprofile ▸ h.profile hc, h.named hc⟩
    · exact hnew
  exact
    { configured := hservers.trans h.configured
      persistent := fun hc' => isPersistent_eq hservers ▸ (hall hc').1
      profile := fun hc' => (hall hc').2.1
      named := fun hc' => (hall hc').2.2 }

theorem Matched.executePersistent (h : x.Matched E)
    (hsound : x.Sound none) {s : StdioScript} {parsed : McpInvokeInput} (executionId : String)
    (hpersistent : x.isPersistent parsed.serverId = true) (input : McpInvokeInput)
    (hhits : hits E.std E.serde E.decodeText parsed.serverId input = true) :
    (executePersistent E.transports s parsed executionId
      x).2.Matched E := by
  have hcall : ∀ {y : StdMcpExecutor StdioTransport} {c : NumberedTransport StdioTransport},
      y.Matched E → y.Sound none →
      y.persistent parsed.serverId = some c →
      (executeCached E.transports s parsed executionId
        y).2.Matched E := by
    intro y c hy hysound hc
    have hcases := executeCached_cases (T := E.transports) hysound hc s
      executionId
    refine hy.of_new hcases.profile.1 fun {id c'} hc' => .inl ?_
    by_cases hid : id = parsed.serverId
    · subst hid
      exact ⟨c, hc, hcases.profile.2 hc'⟩
    · exact ⟨c', (hcases.same hid).persistent ▸ hc', rfl⟩
  cases hc : x.persistent parsed.serverId with
  | some c =>
      rw [executePersistent_of_cached hc]
      exact hcall h hsound hc
  | none =>
      cases hopen : E.transports.opener s parsed.serverId with
      | error e =>
          rw [executePersistent_of_unopened hc hopen]
          exact h.of_new rfl fun {id c'} hc' => .inl ⟨c', hc', rfl⟩
      | ok t =>
          rw [executePersistent_of_opened hc hopen]
          refine hcall (c := ⟨x.opened + 1, t⟩) (h.of_new rfl fun {id c'} hc' => ?_)
            (hsound.withOpened hc t) (by simp)
          by_cases hid : id = parsed.serverId
          · subst hid
            obtain rfl : ⟨x.opened + 1, t⟩ = c' := by simpa using hc'
            refine .inr ⟨hpersistent, ?_, input, hhits⟩
            cases hep : E.servers parsed.serverId with
            | none => simp [stdioTransports, openStdio, hep] at hopen
            | some ep =>
                refine ⟨ep, rfl, ?_⟩
                simp only [stdioTransports, openStdio, hep,
                  StdioTransport.spawnWithProfile] at hopen
                split at hopen
                · cases hopen
                · obtain rfl := Except.ok.inj hopen
                  rfl
          · exact .inl ⟨c', by simpa [hid] using hc', rfl⟩

theorem Matched.stdioStep (h : x.Matched E) (hsound : x.Sound none)
    (a : StdioStep) :
    (x.stdioStep E a).Matched E := by
  cases a with
  | mint => exact h.of_new rfl fun {id c'} hc' => .inl ⟨c', hc', rfl⟩
  | child serverId e =>
      refine h.of_new (servers_childActs serverId e) fun {id c'} hc' => .inl ?_
      have hc' : (x.childActs serverId e).persistent id = some c' := hc'
      rw [persistent_childActs] at hc'
      obtain ⟨c, hc, rfl⟩ := Option.map_eq_some_iff.mp hc'
      refine ⟨c, hc, ?_⟩
      split_ifs <;> rfl
  | execute s input executionId =>
      change (execute E.transports E.std E.serde E.decodeText s input executionId x).2.Matched E
      unfold execute
      split
      · exact h
      · rename_i parsed hparsed
        dsimp only
        split_ifs with hpersistent
        · exact h.executePersistent hsound executionId hpersistent input
            (by simp [hits, hparsed])
        · refine h.of_new (same_executeEphemeral parsed.serverId s executionId).1.servers
            fun {id c'} hc' => .inl ⟨c', ?_, rfl⟩
          exact (same_executeEphemeral id s executionId).1.persistent ▸ hc'

/-! ## Transports that are asked for -/

/-- Nobody takes back that a transport was asked for. -/
theorem openings_le_stdioStep (h : x.Sound none) (a : StdioStep) (id : String) :
    x.openings id ≤ (x.stdioStep E a).openings id := by
  cases a with
  | mint => exact le_rfl
  | child serverId e => exact (openings_childActs serverId e).ge
  | execute s input executionId =>
      change _ ≤
        (execute E.transports E.std E.serde E.decodeText s input executionId x).2.openings id
      rcases execute_callLaw (T := E.transports) E.std E.serde E.decodeText h s input executionId
        with ⟨e, -, heq⟩ | ⟨added, hlaw⟩
      · rw [heq]
      · unfold openings
        rw [hlaw.log, List.countP_append]
        exact Nat.le_add_right _ _

/-- In a run that asks for no transport no step does. -/
theorem along_of_openings_eq {y : StdMcpExecutor StdioTransport} (h : x.Sound none)
    {more : List StdioStep}
    (hrun : (stdioMachine E).run x more = some y) :
    x.openings id ≤ y.openings id ∧ (y.openings id = x.openings id →
      (stdioMachine E).Along
        (fun x a => (x.stdioStep E a).openings id =
          x.openings id) x more) := by
  induction more generalizing x with
  | nil =>
      obtain rfl : x = y := Option.some.inj hrun
      exact ⟨le_rfl, fun _ => trivial⟩
  | cons a more ih =>
      obtain ⟨x₁, hstep, hrest⟩ := (Machine.run_cons_eq_some _).mp hrun
      obtain rfl : x.stdioStep E a = x₁ := Option.some.inj hstep
      have hle := openings_le_stdioStep (E := E) h a id
      obtain ⟨hle', halong⟩ := ih (h.stdioStep a) hrest
      refine ⟨hle.trans hle', fun heq => ⟨by omega, fun x₂ hx₂ => ?_⟩⟩
      obtain rfl := Option.some.inj hx₂
      exact halong (by omega)

/-- A call on an endpoint without transport asks for one. -/
theorem openings_lt_of_uncached (h : x.Sound none) {parsed : McpInvokeInput}
    (hc : x.persistent parsed.serverId = none) (s : StdioScript) (executionId : String) :
    x.openings parsed.serverId < (executePersistent E.transports s
      parsed executionId x).2.openings parsed.serverId := by
  cases hopen : E.transports.opener s parsed.serverId with
  | error e =>
      rw [executePersistent_of_unopened hc hopen]
      simp [isOpening]
  | ok t =>
      have hnew : (x.withOpened parsed.serverId t).persistent parsed.serverId =
          some ⟨x.opened + 1, t⟩ := by simp
      have hcall := executeCached_cases (T := E.transports) (h.withOpened hc t) hnew s executionId
      rw [executePersistent_of_opened hc hopen, hcall.openings_eq]
      simp

/-! ## With a handshake -/

/-- How many calls an endpoint can still lose to a dead transport: the first of a ready session, and
the one whose handshake fails. -/
def strikes (x : StdMcpExecutor StdioTransport) (id : String) : ℕ :=
  if (x.persistent id).isSome then if x.Ready id then 2 else 1 else 0

theorem Same.strikes_eq (h : x.Same x' id) : x'.strikes id = x.strikes id := by
  unfold strikes
  rw [h.persistent]
  simp only [h.ready_iff]

/-- If the endpoint has a transport, it is dead and has a handshake. -/
structure Doomed (x : StdMcpExecutor StdioTransport) (id : String) : Prop where
  sound : x.Sound none
  dead : ∀ {c}, x.persistent id = some c → c.transport.Dead
  handshake : ∀ {c}, x.persistent id = some c → c.transport.profile.needsHandshake = true

theorem Same.doomed (h : x.Same x' id) (hdoomed : x.Doomed id) (hsound : x'.Sound none) :
    x'.Doomed id where
  sound := hsound
  dead hc := hdoomed.dead (h.persistent ▸ hc)
  handshake hc := hdoomed.handshake (h.persistent ▸ hc)

/-- Whether the endpoint is ready after its session was replaced. -/
theorem ready_of_filed {r : SessionRecord}
    (hsessions : x'.sessions = x.sessions.insert (x.key id) r) (hservers : x'.servers = x.servers) :
    x'.Ready id ↔ r.session.state = .ready := by
  unfold Ready
  rw [key_eq hservers, hsessions, ProtocolSessionManager.record?_insert_self]
  simp

/-- A call on a dead transport costs a strike. -/
theorem Doomed.cachedCall {s : StdioScript} {parsed : McpInvokeInput} {executionId : String}
    {c : NumberedTransport StdioTransport} {o : Except Stop ToolCallResult}
    (h : x.Doomed parsed.serverId) (hc : x.persistent parsed.serverId = some c)
    (hcall : CachedCall E.transports s parsed executionId x c o x')
    (hsound : x'.Sound none) :
    x'.Doomed parsed.serverId ∧ x'.strikes parsed.serverId + 1 ≤ x.strikes parsed.serverId := by
  have hdead := h.dead hc
  cases hcall with
  | unestablished hunready hinit hpersistent hsessions hstate hservers hopenings =>
      have hnone : x'.persistent parsed.serverId = none := by simp [hpersistent]
      refine ⟨⟨hsound, fun hc' => ?_, fun hc' => ?_⟩, ?_⟩
      · cases hnone.symm.trans hc'
      · cases hnone.symm.trans hc'
      · simp [strikes, hnone, hc, hunready]
  | @called t t' result _ r hestablished hresult hpersistent hsessions hstate hservers hopenings =>
      rcases hestablished with ⟨hready, rfl⟩ | ⟨-, i, hinit⟩
      · have hclosed := (hdead.callTool E.decodeText s.call parsed.toolName
          parsed.arguments).symm.trans hresult
        obtain ⟨rfl, rfl⟩ := Prod.mk.inj hclosed
        have hsome : x'.persistent parsed.serverId =
            some ⟨c.number, c.transport.takeId.observe s.call.before⟩ := by
          rw [hpersistent, Function.update_self]
          rfl
        have hunready : ¬ x'.Ready parsed.serverId := by
          rw [ready_of_filed hsessions hservers, hstate]
          exact fun hkeep => by cases hkeep
        refine ⟨⟨hsound, fun hc' => ?_, fun hc' => ?_⟩, ?_⟩
        · obtain rfl := Option.some.inj (hsome.symm.trans hc')
          exact StdioTransport.Dead.observe (t := c.transport.takeId) hdead s.call.before
        · obtain rfl := Option.some.inj (hsome.symm.trans hc')
          exact show c.transport.profile.needsHandshake = true from h.handshake hc
        · simp [strikes, hsome, hunready, hc, hready]
      · have hfailed := (hdead.initializeTransport (h.handshake hc) E.decodeText s.handshake
          s.note).symm.trans hinit
        cases hfailed

/-- Every step keeps a dead transport dead, and a call on it costs a strike. -/
theorem Doomed.stdioStep (h : x.Doomed id) (a : StdioStep)
    (hopenings : (x.stdioStep E a).openings id = x.openings id) :
    (x.stdioStep E a).Doomed id ∧
      (x.stdioStep E a).strikes id +
        (if hitsStep E id a then 1 else 0) ≤ x.strikes id := by
  have hsound := h.sound.stdioStep (E := E) a
  cases a with
  | mint =>
      have hsame : x.Same (x.stdioStep E .mint) id :=
        ⟨rfl, rfl, rfl⟩
      exact ⟨hsame.doomed h hsound, by simp [hsame.strikes_eq, hitsStep]⟩
  | child serverId e =>
      have hpersistent := persistent_childActs (x := x) id serverId e
      refine ⟨⟨hsound, fun {c'} hc' => ?_, fun {c'} hc' => ?_⟩, ?_⟩
      · obtain ⟨c, hc, rfl⟩ := Option.map_eq_some_iff.mp (hpersistent.symm.trans hc')
        split_ifs
        · exact (h.dead hc).observe [e]
        · exact h.dead hc
      · obtain ⟨c, hc, rfl⟩ := Option.map_eq_some_iff.mp (hpersistent.symm.trans hc')
        have hhandshake := h.handshake hc
        split_ifs <;> exact hhandshake
      · have hstrikes : (x.childActs serverId e).strikes id = x.strikes id := by
          unfold strikes
          rw [hpersistent, Option.isSome_map]
          simp only [ready_childActs]
        exact (Nat.add_zero _).le.trans hstrikes.le
  | execute s input executionId =>
      rcases execute_cases (T := E.transports) E.std E.serde E.decodeText h.sound s input
        executionId id rfl with
        ⟨hhits, hsame⟩ | ⟨-, -, hlt⟩ | ⟨hhits, -, parsed, -, rfl, -, hx'⟩
      · refine ⟨hsame.doomed h hsound, ?_⟩
        change strikes (execute E.transports E.std E.serde E.decodeText s input executionId
          x).2 id + _ ≤ _
        rw [hsame.strikes_eq]
        simp [hitsStep, hhits]
      · exact absurd hopenings hlt.ne'
      · cases hc : x.persistent parsed.serverId with
        | none =>
            have hlt := openings_lt_of_uncached (E := E) h.sound hc s executionId
            rw [hx'] at hlt
            exact absurd hopenings hlt.ne'
        | some c =>
            rw [executePersistent_of_cached hc] at hx'
            have hcases := executeCached_cases (T := E.transports)
              h.sound hc s executionId
            rw [hx'] at hcases
            obtain ⟨hdoomed, hle⟩ := h.cachedCall hc hcases hsound
            refine ⟨hdoomed, ?_⟩
            rw [if_pos (show hitsStep E parsed.serverId
              (.execute s input executionId) = true from hhits)]
            exact hle

/-- A dead transport with a handshake is replaced. -/
theorem Doomed.replaced (h : x.Doomed id) : x.Replaced E id := by
  intro more y hrun hopenings
  have halong := (along_of_openings_eq h.sound hrun).2 hopenings
  have hstep : ∀ s a s', Doomed s id → (s.stdioStep E a).openings id = s.openings id →
      (stdioMachine E).step s a = some s' →
      s'.Doomed id ∧ s'.strikes id + (if hitsStep E id a then 1 else 0) ≤ s.strikes id := by
    intro s a s' hs hG hstep
    obtain rfl := Option.some.inj hstep
    exact hs.stdioStep a hG
  have hcount := Machine.count_le_of_bound _ hstep h halong hrun
  have hle : x.strikes id ≤ 2 := by
    unfold strikes
    split_ifs <;> omega
  omega

/-! ## Without a handshake -/

/-- A call on a dead transport without handshake leaves it where it is. -/
theorem stateless_stays (h : x.Sound none) (hmatched : x.Matched E)
    {c : NumberedTransport StdioTransport} (hc : x.persistent id = some c)
    (hdead : c.transport.Dead) (hstateless : c.transport.profile.needsHandshake = false)
    {input : McpInvokeInput} (hhits : hits E.std E.serde E.decodeText id input = true)
    (s : StdioScript) (executionId : String) {x' : StdMcpExecutor StdioTransport}
    (hx' : x.stdioStep E (.execute s input executionId) = x') :
    ∃ c', x'.persistent id = some c' ∧ c'.transport.Dead ∧
      c'.transport.profile.needsHandshake = false ∧ x'.openings id = x.openings id := by
  change (execute E.transports E.std E.serde E.decodeText s input executionId x).2 = x' at hx'
  have hpersistent := hmatched.persistent hc
  unfold hits at hhits
  unfold execute at hx'
  split at hhits
  · rename_i parsed hparsed
    obtain rfl : parsed.serverId = id := by simpa using hhits
    rw [hparsed] at hx'
    simp only [hpersistent, if_true] at hx'
    rw [executePersistent_of_cached hc] at hx'
    have hcases := executeCached_cases (T := E.transports) h hc s
      executionId
    have hinit := StdioTransport.initializeTransport_of_stateless hstateless E.decodeText
      s.handshake s.note
    rw [hx'] at hcases
    generalize (executeCached E.transports s parsed executionId x).1 = o at hcases
    cases hcases with
    | unestablished hunready hfailed hpersistent hsessions hstate hservers hopenings =>
        cases hinit.symm.trans hfailed
    | @called t t' result _ r hestablished hresult hpersistent hsessions hstate hservers
        hopenings =>
        have ht : t = c.transport := by
          rcases hestablished with ⟨-, rfl⟩ | ⟨-, i, hok⟩
          · rfl
          · exact ((Prod.mk.inj (hinit.symm.trans hok)).2).symm
        subst ht
        obtain ⟨rfl, rfl⟩ := Prod.mk.inj ((hdead.callTool E.decodeText s.call parsed.toolName
          parsed.arguments).symm.trans hresult)
        refine ⟨⟨c.number, c.transport.takeId.observe s.call.before⟩, ?_, ?_, hstateless,
          hopenings parsed.serverId⟩
        · rw [hpersistent, Function.update_self]
          rfl
        · exact StdioTransport.Dead.observe (t := c.transport.takeId) hdead s.call.before
  · cases hhits

/-- Any number of calls are lost to a dead transport without handshake. -/
theorem exists_run_of_stateless (h : x.Sound none)
    (hmatched : x.Matched E)
    {c : NumberedTransport StdioTransport} (hc : x.persistent id = some c)
    (hdead : c.transport.Dead) (hstateless : c.transport.profile.needsHandshake = false) (n : ℕ) :
    ∃ more y, (stdioMachine E).run x more = some y ∧
      y.openings id = x.openings id ∧ more.countP (hitsStep E id) = n := by
  obtain ⟨input, hhits⟩ := hmatched.named hc
  induction n generalizing x c with
  | zero => exact ⟨[], x, rfl, rfl, rfl⟩
  | succ n ih =>
      obtain ⟨c', hc', hdead', hstateless', hopenings⟩ := stateless_stays (E := E) h
        hmatched hc hdead hstateless hhits ⟨.ok (), ⟨[], []⟩, [], ⟨[], []⟩⟩ "" rfl
      obtain ⟨more, y, hrun, hy, hcount⟩ := ih (h.stdioStep _) (hmatched.stdioStep h _) hc' hdead'
        hstateless'
      refine ⟨.execute ⟨.ok (), ⟨[], []⟩, [], ⟨[], []⟩⟩ input "" :: more, y,
        (Machine.run_cons_eq_some _).mpr ⟨_, rfl, hrun⟩, hy.trans hopenings, ?_⟩
      rw [List.countP_cons_of_pos (by exact hhits), hcount]

end steps

/-! ## Replacement -/

section replacement

variable {E : StdioSetup} {minted : ℕ} {steps : List StdioStep}
  {x : StdMcpExecutor StdioTransport} {id : String} {c : NumberedTransport StdioTransport}

theorem matched_withOpener :
    (withOpener E.servers minted : StdMcpExecutor StdioTransport).Matched E where
  configured := rfl
  persistent h := by cases h
  profile h := by cases h
  named h := by cases h

/-- In every run the caches and sessions belong together, and the transports to their endpoints. -/
theorem sound_and_matched_of_run
    (hrun : (stdioMachine E).run (withOpener E.servers minted) steps
      = some x) : x.Sound none ∧ x.Matched E :=
  Machine.run_inv_of_step _
    (I := fun x : StdMcpExecutor StdioTransport => x.Sound none ∧
      x.Matched E)
    (fun s a s' hs hstep => by
      obtain rfl := Option.some.inj hstep
      exact ⟨hs.1.stdioStep a, hs.2.stdioStep hs.1 a⟩)
    ⟨sound_withOpener E.servers minted, matched_withOpener⟩ hrun

/-- **Dead servers are replaced exactly where there is a handshake.** In every run, when the server
of a kept transport has exited, at most two more calls on its endpoint are made in every
continuation before a transport is asked for, if and only if the profile of the endpoint has a
handshake. -/
theorem replaced_iff_needsHandshake
    (hrun : (stdioMachine E).run (withOpener E.servers minted) steps
      = some x) (hc : x.persistent id = some c) (hdead : c.transport.Dead) :
    x.Replaced E id ↔
      ∃ ep, E.servers id = some ep ∧ ep.profile.needsHandshake = true := by
  obtain ⟨hsound, hmatched⟩ := sound_and_matched_of_run hrun
  obtain ⟨ep, hep, hprofile⟩ := hmatched.profile hc
  constructor
  · intro hreplaced
    refine ⟨ep, hep, ?_⟩
    by_contra hstateless
    obtain ⟨more, y, hmore, hopenings, hcount⟩ := exists_run_of_stateless (E := E) hsound
      hmatched hc hdead (by simpa [hprofile] using hstateless) 3
    have hle := hreplaced more y hmore hopenings
    omega
  · rintro ⟨ep', hep', hhandshake⟩
    obtain rfl : ep = ep' := Option.some.inj (hep.symm.trans hep')
    refine Doomed.replaced ⟨hsound, fun hc' => ?_, fun hc' => ?_⟩
    · obtain rfl := Option.some.inj (hc.symm.trans hc')
      exact hdead
    · obtain rfl := Option.some.inj (hc.symm.trans hc')
      rw [hprofile]
      exact hhandshake

end replacement

/-! ## One server -/

/-- One persistent server. -/
def oneServer (profile : McpProtocolProfile) : StdioSetup where
  std := .ascii
  serde := .withoutFloats
  decodeText _ := ""
  servers id := if id = "calc" then some ⟨profile, .persistent⟩ else none
  timeout := "5s"

/-- A wait in which one line arrives. -/
def lineWait (resp : JsonRpcResponse) : Wait ServerLine :=
  ⟨some "5s", [.line (.ok resp)], false, .unknown⟩

/-- The server answers the requests with the ids. -/
def answeredScript (handshakeId callId : ℕ) : StdioScript where
  spawned := .ok ()
  handshake := ⟨[], [lineWait ⟨some handshakeId,
    some (.object [("protocolVersion", .string mcpProtocolVersion)]), none, none⟩]⟩
  note := []
  call := ⟨[], [lineWait ⟨some callId, some (.object [("content", .array [])]), none, none⟩]⟩

/-- A call of a tool of the one server. -/
def calcInput : McpInvokeInput := ⟨"calc", "add", .object []⟩

/-- A call of the one server in which it answers the requests with the ids. -/
def answeredCall (handshakeId callId : ℕ) : StdioStep :=
  .execute (answeredScript handshakeId callId) calcInput "e-1"

/-- The server of a stateless endpoint exits after an answered call. -/
theorem not_replaced_stateless : ∃ x c,
    (stdioMachine (oneServer .v2026_07_28)).run (withOpener (oneServer .v2026_07_28).servers 0)
      [answeredCall 1 1, .child "calc" (.exit (some 0))] = some x ∧
    x.persistent "calc" = some c ∧ c.transport.Dead ∧
    ¬ x.Replaced (oneServer .v2026_07_28) "calc" :=
  ⟨_, _, rfl, rfl, rfl, fun h =>
    absurd (h [answeredCall 1 2, answeredCall 1 3, answeredCall 1 4] _ rfl rfl) (by decide)⟩

/-- With a handshake the server that exits after an answered call is replaced. -/
theorem replaced_iff_needsHandshake_calc : ∃ x c,
    (stdioMachine (oneServer .v2025_06_18)).run (withOpener (oneServer .v2025_06_18).servers 0)
      [answeredCall 1 3, .child "calc" (.exit (some 0))] = some x ∧
    x.persistent "calc" = some c ∧ x.Replaced (oneServer .v2025_06_18) "calc" :=
  have hrun := rfl
  have hc := rfl
  ⟨_, _, hrun, hc, (replaced_iff_needsHandshake hrun hc rfl).mpr
    ⟨⟨.v2025_06_18, .persistent⟩, rfl, rfl⟩⟩

end StdMcpExecutor

end AuraLauncher.Mcp
