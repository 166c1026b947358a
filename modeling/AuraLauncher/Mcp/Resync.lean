import AuraLauncher.Mcp.Eviction
import AuraLauncher.Runtime.Unread

/-!
# Responses that come late

Whether a kept stdio transport can hold a response to an earlier request when a tool is called over
it (`executor.rs`, `execute_persistent`; `stdio.rs`, `request`).

A request reads lines up to the first that is no notification and reads no further. A line the
server writes beyond that stays where it is, and of a mismatched id the executor makes an invalid
session and keeps the transport. With a server that is orderly — outside a request it writes only
notifications, in a request one other line at most — no such line is ever left behind.

* `Clean` — nothing but notifications waits to be read.
* `Exchange.Orderly`, `StdioStep.Orderly` — what the server writes, and when.
* `calledOn` — the transport at the moment a tool is called over it.
* `never_stale_of_orderly` — orderly servers leave no response behind, and answer the next call.
-/

namespace AuraLauncher.Mcp

open AuraLauncher.Domain AuraLauncher.Lib AuraLauncher.Runtime
open AuraLauncher.Workflow (Json SerdeJson)

/-! ## What waits to be read -/

/-- The line ends the wait for a response. -/
def ServerLine.isAnswer : ServerLine → Bool
  | .ok r => !r.isNotification
  | .error _ => true

/-- During an exchange the server writes notifications only before the request, and one other line
at most after it. -/
def Exchange.Orderly (x : Exchange) : Prop :=
  answersIn ServerLine.isAnswer x.before = 0 ∧
    answersIn ServerLine.isAnswer (x.waits.flatMap Wait.arrivals) ≤ 1

namespace StdioTransport

variable {t : StdioTransport}

/-- Nothing but notifications waits to be read. -/
def Clean (t : StdioTransport) : Prop :=
  t.session.Tidy ∧ t.session.unread ServerLine.isAnswer = 0

/-- A response to a request that was made before waits to be read. -/
def Stale (t : StdioTransport) : Prop :=
  ∃ resp id, .ok (.ok resp) ∈ t.session.stdoutLines ∧ resp.id = some id ∧ id ≤ t.nextId

theorem Clean.not_stale (h : t.Clean) : ¬ t.Stale := by
  rintro ⟨resp, id, hmem, hid, -⟩
  have hnot := List.countP_eq_zero.mp h.2 _ hmem
  simp [itemIsAnswer, ServerLine.isAnswer, JsonRpcResponse.isNotification, hid] at hnot

theorem Clean.observe (h : t.Clean) {events : List (ChildEvent ServerLine)}
    (hevents : answersIn ServerLine.isAnswer events = 0) : (t.observe events).Clean := by
  obtain ⟨htidy, hle⟩ := ProcessSession.unread_observeAll ServerLine.isAnswer h.1 events
  refine ⟨htidy, ?_⟩
  have hzero := h.2
  change ProcessSession.unread _ (t.session.observeAll events) = 0
  omega

theorem Clean.takeId (h : t.Clean) : t.takeId.Clean := h

theorem clean_write (h : t.Clean) (req : JsonRpcRequest) (ctx : String) :
    (t.write req ctx).2.Clean := by
  unfold write
  split <;> exact h

/-- Reading up to the answer leaves no answer, unless the time runs out. -/
theorem receiveResponse_clean {waits : List (Wait ServerLine)} (htidy : t.session.Tidy)
    (hone : t.session.unread ServerLine.isAnswer +
      answersIn ServerLine.isAnswer (waits.flatMap Wait.arrivals) ≤ 1) (id : ℕ) :
    (∃ d, (t.receiveResponse id waits).1 = .error (.timeout d)) ∨
      (t.receiveResponse id waits).2.Clean := by
  induction waits generalizing t with
  | nil => exact .inl ⟨t.timeout, rfl⟩
  | cons w waits ih =>
      rw [List.flatMap_cons, answersIn, List.countP_append] at hone
      unfold receiveResponse
      cases w.left with
      | none => exact .inl ⟨t.timeout, rfl⟩
      | some remaining =>
          have hread := ProcessSession.readLine_spec ServerLine.isAnswer htidy (w := w)
            (by unfold answersIn; omega) remaining
          dsimp only
          generalize t.session.readLine remaining w = o at hread ⊢
          unfold answersIn at hread
          obtain ⟨e | (m | resp), p⟩ := o
          · rcases hread with ⟨d, rfl⟩ | hclean
            · exact .inl ⟨d, rfl⟩
            · exact .inr hclean
          · obtain ⟨htidy', hle⟩ := hread
            simp only [ServerLine.isAnswer, if_true] at hle
            exact .inr ⟨htidy', by dsimp only; omega⟩
          · obtain ⟨htidy', hle⟩ := hread
            cases hnote : resp.isNotification with
            | true =>
                simp only [ServerLine.isAnswer, hnote, Bool.not_true, Bool.false_eq_true,
                  if_false] at hle
                dsimp only
                rw [if_pos hnote]
                exact ih (t := { t with session := p }) htidy' (by
                  unfold answersIn
                  dsimp only
                  omega)
            | false =>
                have hzero : p.unread ServerLine.isAnswer = 0 := by
                  simp only [ServerLine.isAnswer, hnote, Bool.not_false, if_true] at hle
                  omega
                dsimp only
                rw [if_neg (by simp [hnote])]
                split_ifs <;> exact .inr ⟨htidy', hzero⟩

theorem request_clean (h : t.Clean) {x : Exchange} (hx : x.Orderly) (req : JsonRpcRequest) :
    (∃ d, (t.request req x).1 = .error (.timeout d)) ∨ (t.request req x).2.Clean := by
  have hwrite := clean_write (h.observe hx.1) req "server write"
  unfold request
  generalize (t.observe x.before).write req "server write" = o at hwrite ⊢
  obtain ⟨e | u, t'⟩ := o
  · exact .inr hwrite
  · exact receiveResponse_clean hwrite.1 (by rw [hwrite.2, Nat.zero_add]; exact hx.2) req.id

/-- A call of a tool leaves no answer behind, unless the time runs out. -/
theorem callTool_clean (h : t.Clean) {x : Exchange} (hx : x.Orderly) (decodeText : Json → String)
    (toolName : String) (arguments : Json) :
    (∃ d, (t.callTool decodeText x toolName arguments).1 = .error (.timeout d)) ∨
      (t.callTool decodeText x toolName arguments).2.Clean := by
  have hrequest := request_clean h.takeId hx ⟨t.nextId + 1, "tools/call",
    t.selfDescribed [("arguments", arguments), ("name", .string toolName)]⟩
  unfold callTool
  generalize t.takeId.request _ x = o at hrequest ⊢
  obtain ⟨e | resp, t'⟩ := o
  · rcases hrequest with ⟨d, hd⟩ | hclean
    · cases hd
      exact .inl ⟨d, rfl⟩
    · exact .inr hclean
  · exact .inr (hrequest.resolve_left fun ⟨d, hd⟩ => by cases hd)

/-- An initialization that succeeds leaves no answer behind. -/
theorem initializeTransport_clean (h : t.Clean) {x : Exchange} (hx : x.Orderly)
    {note : List (ChildEvent ServerLine)} (hnote : answersIn ServerLine.isAnswer note = 0)
    {decodeText : Json → String} {i : InitializeResult} {t' : StdioTransport}
    (hinit : t.initializeTransport decodeText x note = (.ok i, t')) : t'.Clean := by
  have hrequest := request_clean h.takeId hx ⟨t.nextId + 1, "initialize", initializeParams⟩
  unfold initializeTransport at hinit
  split_ifs at hinit
  · generalize t.takeId.request _ x = o at hrequest hinit
    obtain ⟨e | resp, t₁⟩ := o
    · cases hinit
    · have hclean : t₁.Clean := hrequest.resolve_left fun ⟨d, hd⟩ => by cases hd
      dsimp only at hinit
      cases hresult : initializeResult decodeText resp with
      | error e =>
          rw [hresult] at hinit
          cases hinit
      | ok result =>
          rw [hresult] at hinit
          have hwrite := clean_write (hclean.takeId.observe hnote)
            ⟨t₁.nextId + 1, "notifications/initialized", .null⟩ "initialized notification"
          dsimp only at hinit
          generalize (t₁.takeId.observe note).write _ _ = o at hwrite hinit
          obtain ⟨e | u, t₂⟩ := o
          · cases hinit
          · obtain ⟨-, rfl⟩ := Prod.mk.inj hinit
            exact hwrite
  · obtain ⟨-, rfl⟩ := Prod.mk.inj hinit
    exact h

/-! ## A server that answers -/

/-- The server runs and reads its input, and its output is open. -/
structure Alive (t : StdioTransport) : Prop where
  stdin : t.session.stdinClosed = false
  running : t.session.exited = none
  stdout : t.session.stdoutClosed = false

/-- The wait ends before the time does, and lines arrive in it. -/
def OnTime (w : Wait ServerLine) (lines : List JsonRpcResponse) : Prop :=
  w.left.isSome = true ∧ w.late = false ∧ w.arrivals = lines.map fun r => .line (.ok r)

/-- After the notifications `unread`, and others, the response arrives in time. -/
inductive Punctual (resp : JsonRpcResponse) :
    List JsonRpcResponse → List (Wait ServerLine) → Prop
  | answer {unread lines rest : List JsonRpcResponse} {w : Wait ServerLine}
      {waits : List (Wait ServerLine)} (time : OnTime w lines)
      (first : unread ++ lines = resp :: rest) : Punctual resp unread (w :: waits)
  | notification {unread lines rest : List JsonRpcResponse} {w : Wait ServerLine}
      {waits : List (Wait ServerLine)} {n : JsonRpcResponse} (time : OnTime w lines)
      (first : unread ++ lines = n :: rest) (skipped : n.isNotification = true)
      (next : Punctual resp rest waits) : Punctual resp unread (w :: waits)

/-- The server answers the request with the id in time. -/
structure Serves (t : StdioTransport) (x : Exchange) (id : ℕ) (resp : JsonRpcResponse) : Prop where
  before : x.before = []
  id : resp.id = some id
  punctual : ∀ notes : List JsonRpcResponse,
    t.session.stdoutLines = (notes.map fun n => .ok (.ok n)) → Punctual resp notes x.waits

theorem observeAll_lines {p : ProcessSession ServerLine} (hopen : p.stdoutClosed = false)
    (lines : List JsonRpcResponse) :
    p.observeAll (lines.map fun r => .line (.ok r)) =
      { p with stdoutLines := p.stdoutLines ++ lines.map fun r => .ok (.ok r) } := by
  unfold ProcessSession.observeAll
  induction lines generalizing p with
  | nil => simp
  | cons r lines ih =>
      rw [List.map_cons, List.foldl_cons]
      have hreceive : p.observe (.line (.ok r)) =
          { p with stdoutLines := p.stdoutLines ++ [.ok (.ok r)] } := by
        simp [ProcessSession.observe, ProcessSession.receive, hopen]
      rw [hreceive]
      refine (ih (p := { p with stdoutLines := p.stdoutLines ++ [.ok (.ok r)] }) hopen).trans ?_
      simp

/-- What a clean transport with an open output has to read are notifications. -/
theorem Clean.exists_notes (h : t.Clean) (hopen : t.session.stdoutClosed = false) :
    ∃ notes : List JsonRpcResponse,
      t.session.stdoutLines = notes.map fun n => .ok (.ok n) := by
  have hall : ∀ item ∈ t.session.stdoutLines, ∃ n, .ok (.ok n) = item := by
    intro item hitem
    have hnot := List.countP_eq_zero.mp h.2 item hitem
    rcases item with e | (m | n)
    · cases e with
      | transportBroken => exact absurd hitem (h.1.not_mem hopen)
      | _ => simp [itemIsAnswer] at hnot
    · simp [itemIsAnswer, ServerLine.isAnswer] at hnot
    · exact ⟨n, rfl⟩
  generalize t.session.stdoutLines = items at hall
  induction items with
  | nil => exact ⟨[], rfl⟩
  | cons item items ih =>
      obtain ⟨n, rfl⟩ := hall item List.mem_cons_self
      obtain ⟨notes, rfl⟩ := ih fun item hitem => hall item (List.mem_cons_of_mem _ hitem)
      exact ⟨n :: notes, rfl⟩

/-- A response that arrives in time is read. -/
theorem Punctual.receive {resp : JsonRpcResponse} {notes : List JsonRpcResponse}
    {waits : List (Wait ServerLine)} (h : Punctual resp notes waits) {id : ℕ}
    (hid : resp.id = some id) (halive : t.Alive)
    (hnotes : t.session.stdoutLines = notes.map fun n => .ok (.ok n)) :
    ∃ p, t.receiveResponse id waits = (.ok resp, { t with session := p }) ∧
      Alive { t with session := p } := by
  have hread : ∀ {t : StdioTransport} {unread lines rest : List JsonRpcResponse}
      {w : Wait ServerLine} {r : JsonRpcResponse} (timeout : String), t.Alive →
      t.session.stdoutLines = (unread.map fun n => .ok (.ok n)) → OnTime w lines →
      unread ++ lines = r :: rest → t.session.readLine timeout w =
        (.ok (.ok r), { t.session with stdoutLines := rest.map fun n => .ok (.ok n) }) := by
    intro t unread lines rest w r timeout halive hunread htime hfirst
    unfold ProcessSession.readLine
    rw [htime.2.2, observeAll_lines halive.stdout, hunread, ← List.map_append, hfirst]
    simp [htime.2.1]
  induction h generalizing t with
  | @answer unread lines rest w waits htime hfirst =>
      obtain ⟨remaining, hleft⟩ := Option.isSome_iff_exists.mp htime.1
      refine ⟨{ t.session with stdoutLines := rest.map fun n => .ok (.ok n) }, ?_,
        halive.stdin, halive.running, halive.stdout⟩
      unfold receiveResponse
      rw [hleft]
      dsimp only
      rw [hread remaining halive hnotes htime hfirst]
      simp [JsonRpcResponse.isNotification, hid]
  | notification htime hfirst hskipped hnext ih =>
      obtain ⟨remaining, hleft⟩ := Option.isSome_iff_exists.mp htime.1
      unfold receiveResponse
      rw [hleft]
      dsimp only
      rw [hread remaining halive hnotes htime hfirst]
      dsimp only
      rw [if_pos hskipped]
      exact ih ⟨halive.stdin, halive.running, halive.stdout⟩ rfl

/-- A live server is written to. -/
theorem Alive.write (h : t.Alive) (req : JsonRpcRequest) (ctx : String) :
    t.write req ctx = (.ok (), { t with written := t.written ++ [req] }) := by
  unfold StdioTransport.write ProcessSession.writeLine
  simp [h.stdin, h.running]

/-- A request over a clean transport gets the answer of a server that answers. -/
theorem Clean.request (h : t.Clean) (halive : t.Alive) (req : JsonRpcRequest) {x : Exchange}
    {resp : JsonRpcResponse} (hserves : t.Serves x req.id resp) :
    ∃ t', t.request req x = (.ok resp, t') ∧ t'.Alive := by
  obtain ⟨notes, hnotes⟩ := h.exists_notes halive.stdout
  unfold StdioTransport.request
  rw [hserves.before, show t.observe [] = t from rfl, halive.write]
  obtain ⟨p, hp, hlive⟩ := (hserves.punctual notes hnotes).receive hserves.id
    (t := { t with written := t.written ++ [req] }) ⟨halive.stdin, halive.running, halive.stdout⟩
      hnotes
  exact ⟨_, hp, hlive⟩

/-- The server answers the handshake, if there is one. -/
def ServesHandshake (t : StdioTransport) (decodeText : Json → String) (x : Exchange)
    (note : List (ChildEvent ServerLine)) : Prop :=
  t.profile.needsHandshake = true → note = [] ∧ ∃ resp i,
    t.Serves x (t.nextId + 1) resp ∧ initializeResult decodeText resp = .ok i

/-- The server answers the call of a tool with the result. -/
def ServesCall (t : StdioTransport) (decodeText : Json → String) (x : Exchange) (toolName : String)
    (r : ToolCallResult) : Prop :=
  ∃ resp, t.Serves x (t.nextId + 1) resp ∧ callResult decodeText toolName resp = .ok r

theorem Clean.handshake (h : t.Clean) (halive : t.Alive) {decodeText : Json → String}
    {x : Exchange} {note : List (ChildEvent ServerLine)}
    (hserves : t.ServesHandshake decodeText x note) :
    ∃ i t', t.initializeTransport decodeText x note = (.ok i, t') ∧ t'.Alive := by
  unfold StdioTransport.initializeTransport
  split_ifs with hprofile
  · obtain ⟨rfl, resp, i, hresp, hresult⟩ := hserves hprofile
    obtain ⟨t', hrequest, halive'⟩ := Clean.request (t := t.takeId) h
      ⟨halive.stdin, halive.running, halive.stdout⟩
      ⟨t.nextId + 1, "initialize", initializeParams⟩ ⟨hresp.before, hresp.id, hresp.punctual⟩
    have hnote : (t'.takeId.observe []).Alive := ⟨halive'.stdin, halive'.running, halive'.stdout⟩
    rw [hrequest]
    dsimp only
    rw [hresult]
    dsimp only
    rw [hnote.write]
    exact ⟨i, _, rfl, hnote.stdin, hnote.running, hnote.stdout⟩
  · exact ⟨_, t, rfl, halive⟩

theorem Clean.call (h : t.Clean) (halive : t.Alive) {decodeText : Json → String} {x : Exchange}
    {toolName : String} {r : ToolCallResult} (hserves : t.ServesCall decodeText x toolName r)
    (arguments : Json) : (t.callTool decodeText x toolName arguments).1 = .ok r := by
  obtain ⟨resp, hresp, hresult⟩ := hserves
  obtain ⟨t', hrequest, -⟩ := Clean.request (t := t.takeId) h
    ⟨halive.stdin, halive.running, halive.stdout⟩
    ⟨t.nextId + 1, "tools/call",
      t.selfDescribed [("arguments", arguments), ("name", .string toolName)]⟩
    ⟨hresp.before, hresp.id, hresp.punctual⟩
  unfold StdioTransport.callTool
  rw [hrequest]
  exact hresult

end StdioTransport

/-! ## Orderly runs -/

/-- During a call the server is orderly in both exchanges and writes notifications only before the
last line of the handshake. -/
def StdioScript.Orderly (s : StdioScript) : Prop :=
  s.handshake.Orderly ∧ answersIn ServerLine.isAnswer s.note = 0 ∧ s.call.Orderly

/-- The servers are orderly during the step; between the calls they write notifications only. -/
def StdioStep.Orderly : StdioStep → Prop
  | .execute s _ _ => s.Orderly
  | .mint => True
  | .child _ e => e.answers ServerLine.isAnswer = false

namespace StdMcpExecutor

/-- The transport at the moment the step calls a tool over a kept transport, if it does. -/
def calledOn (E : StdioSetup) (a : StdioStep) (x : StdMcpExecutor StdioTransport) :
    Option StdioTransport :=
  match a with
  | .execute s input _ =>
      match McpInvokeInput.fromJson E.std E.serde E.decodeText
          (invokeInput input.serverId input.toolName input.arguments) with
      | .error _ => none
      | .ok parsed =>
          if x.isPersistent parsed.serverId then
            (callTransport E.transports s parsed.serverId x).map fun t => t.observe s.call.before
          else none
  | _ => none

/-- Every kept transport is clean. -/
def AllClean (x : StdMcpExecutor StdioTransport) : Prop :=
  ∀ id c, x.persistent id = some c → c.transport.Clean

section orderly

variable {E : StdioSetup} {x x' : StdMcpExecutor StdioTransport} {id : String}
  {c : NumberedTransport StdioTransport} {s : StdioScript} {parsed : McpInvokeInput}

/-- A new transport is clean. -/
theorem clean_of_opener {t : StdioTransport} (hopen : E.transports.opener s id = .ok t) :
    t.Clean := by
  simp only [stdioTransports, openStdio, StdioTransport.spawnWithProfile] at hopen
  split at hopen
  · cases hopen
  · split at hopen
    · cases hopen
    · obtain rfl := Except.ok.inj hopen
      exact ⟨ProcessSession.tidy_spawned _, rfl⟩

/-- The transport of a call is clean when the kept one is. -/
theorem clean_of_established (hclean : c.transport.Clean) (hs : s.Orderly) {t : StdioTransport}
    (ht : x.Ready id ∧ t = c.transport ∨
      ¬ x.Ready id ∧ ∃ i, E.transports.initializeTransport s c.transport = (.ok i, t)) :
    t.Clean := by
  rcases ht with ⟨-, rfl⟩ | ⟨-, i, hinit⟩
  · exact hclean
  · exact StdioTransport.initializeTransport_clean hclean hs.1 hs.2.1 hinit

/-- A call leaves its endpoint clean. -/
theorem CachedCall.clean {executionId : String} {o : Except Stop ToolCallResult}
    (h : CachedCall E.transports s parsed executionId x c o x') (hclean : c.transport.Clean)
    (hs : s.Orderly) {c' : NumberedTransport StdioTransport}
    (hc' : x'.persistent parsed.serverId = some c') : c'.transport.Clean := by
  cases h with
  | unestablished _ _ hpersistent _ _ _ _ =>
      rw [hpersistent, Function.update_self] at hc'
      cases hc'
  | @called t t' result _ _ hestablished hcall hpersistent _ _ _ _ =>
      have hcalled := StdioTransport.callTool_clean (clean_of_established hclean hs hestablished)
        hs.2.2 E.decodeText parsed.toolName parsed.arguments
      rw [show t.callTool E.decodeText s.call parsed.toolName parsed.arguments = (result, t') from
        hcall] at hcalled
      rw [hpersistent, Function.update_self] at hc'
      rcases hcalled with ⟨d, rfl⟩ | hcalled
      · cases hc'
      · split_ifs at hc'
        obtain rfl := Option.some.inj hc'
        exact hcalled

/-- A call on a persistent endpoint keeps all transports clean. -/
theorem AllClean.executePersistent (h : x.AllClean) (hsound : x.Sound none) (hs : s.Orderly)
    (executionId : String) :
    (executePersistent E.transports s parsed executionId x).2.AllClean := by
  intro id c' hc'
  by_cases hid : id = parsed.serverId
  · subst hid
    cases hc : x.persistent parsed.serverId with
    | some c =>
        rw [executePersistent_of_cached hc] at hc'
        exact (executeCached_cases hsound hc s executionId).clean (h _ _ hc) hs hc'
    | none =>
        cases hopen : E.transports.opener s parsed.serverId with
        | error e =>
            rw [executePersistent_of_unopened hc hopen] at hc'
            exact h _ _ hc'
        | ok t =>
            rw [executePersistent_of_opened hc hopen] at hc'
            have hnew : (x.withOpened parsed.serverId t).persistent parsed.serverId =
                some ⟨x.opened + 1, t⟩ := by simp
            exact (executeCached_cases (hsound.withOpened hc t) hnew s executionId).clean
              (clean_of_opener hopen) hs hc'
  · exact h _ _ ((same_executePersistent hsound hid s executionId).persistent ▸ hc')

theorem AllClean.stdioStep (h : x.AllClean) (hsound : x.Sound none) {a : StdioStep}
    (ha : a.Orderly) : (x.stdioStep E a).AllClean := by
  cases a with
  | mint => exact h
  | child serverId e =>
      intro id c' hc'
      have hc' : (x.childActs serverId e).persistent id = some c' := hc'
      rw [persistent_childActs] at hc'
      obtain ⟨c, hc, rfl⟩ := Option.map_eq_some_iff.mp hc'
      split_ifs
      · have hquiet : answersIn ServerLine.isAnswer [e] = 0 := by
          rw [answersIn, List.countP_singleton, show e.answers ServerLine.isAnswer = false from ha]
          rfl
        exact (h _ _ hc).observe hquiet
      · exact h _ _ hc
  | execute s input executionId =>
      change (execute E.transports E.std E.serde E.decodeText s input executionId x).2.AllClean
      unfold execute
      split
      · exact h
      · rename_i parsed hparsed
        dsimp only
        split_ifs with hpersistent
        · exact h.executePersistent hsound ha executionId
        · intro id c' hc'
          exact h _ _ ((same_executeEphemeral id s executionId).1.persistent ▸ hc')

/-- **No tool is called over a transport with a stale response**, when all transports were clean. -/
theorem AllClean.calledOn (h : x.AllClean) (hsound : x.Sound none) {a : StdioStep} (ha : a.Orderly)
    {t : StdioTransport} (ht : calledOn E a x = some t) : ¬ t.Stale := by
  cases a with
  | mint => cases ht
  | child serverId e => cases ht
  | execute s input executionId =>
      unfold StdMcpExecutor.calledOn at ht
      dsimp only at ht
      split at ht
      · cases ht
      · rename_i parsed hparsed
        split_ifs at ht
        obtain ⟨t, hcalled, rfl⟩ := Option.map_eq_some_iff.mp ht
        refine (StdioTransport.Clean.observe ?_ ha.2.2.1).not_stale
        cases hc : x.persistent parsed.serverId with
        | some c =>
            exact clean_of_established (h _ _ hc) ha (callTransport_cases hsound hc hcalled)
        | none =>
            cases hopen : E.transports.opener s parsed.serverId with
            | error e =>
                rw [callTransport_of_unopened hc hopen] at hcalled
                cases hcalled
            | ok t₀ =>
                rw [callTransport_of_opened hc hopen] at hcalled
                have hnew : (x.withOpened parsed.serverId t₀).persistent parsed.serverId =
                    some ⟨x.opened + 1, t₀⟩ := by simp
                exact clean_of_established (clean_of_opener hopen) ha
                  (callTransport_cases (hsound.withOpened hc t₀) hnew hcalled)

/-! ## The next call -/

/-- The transport a call on the endpoint starts with: the kept one or a new one. -/
def firstTransport (E : StdioSetup) (s : StdioScript) (id : String)
    (x : StdMcpExecutor StdioTransport) : Except McpError StdioTransport :=
  match x.persistent id with
  | some c => .ok c.transport
  | none => E.transports.opener s id

/-- During the call the server runs and answers every request in time, the call of the tool with
`r`; a ready session needs no handshake. -/
structure WellBehaved (E : StdioSetup) (s : StdioScript) (toolName : String) (r : ToolCallResult)
    (ready : Prop) (t : StdioTransport) : Prop where
  alive : t.Alive
  handshake : ¬ ready → t.ServesHandshake E.decodeText s.handshake s.note
  call : ∀ t', (ready ∧ t' = t ∨ ¬ ready ∧ ∃ i,
    t.initializeTransport E.decodeText s.handshake s.note = (.ok i, t')) →
      t'.ServesCall E.decodeText s.call toolName r

/-- A call over a clean transport gets the answer of a well-behaved server. -/
theorem executeCached_ok (hsound : x.Sound none) (hc : x.persistent parsed.serverId = some c)
    (hclean : c.transport.Clean) (hs : s.Orderly) (executionId : String) {r : ToolCallResult}
    (hserver : WellBehaved E s parsed.toolName r (x.Ready parsed.serverId) c.transport) :
    (executeCached E.transports s parsed executionId x).1 = .ok r := by
  have hcases := executeCached_cases (T := E.transports) hsound hc s executionId
  generalize executeCached E.transports s parsed executionId x = o at hcases
  obtain ⟨o, x'⟩ := o
  dsimp only at hcases ⊢
  cases hcases with
  | unestablished hunready hinit _ _ _ _ _ =>
      obtain ⟨i, t', hok, -⟩ := hclean.handshake hserver.alive (hserver.handshake hunready)
      cases hok.symm.trans hinit
  | @called t t' result _ _ hestablished hcall _ _ _ _ _ =>
      have halive : t.Alive := by
        rcases hestablished with ⟨-, rfl⟩ | ⟨hunready, i, hinit⟩
        · exact hserver.alive
        · obtain ⟨i', t'', hok, halive⟩ :=
            hclean.handshake hserver.alive (hserver.handshake hunready)
          obtain ⟨-, rfl⟩ := Prod.mk.inj (hok.symm.trans hinit)
          exact halive
      have hresult := (clean_of_established hclean hs hestablished).call halive
        (hserver.call t hestablished) parsed.arguments
      rw [show t.callTool E.decodeText s.call parsed.toolName parsed.arguments = (result, t') from
        hcall] at hresult
      obtain rfl : result = .ok r := hresult
      rfl

/-- The next call of a well-behaved server succeeds when all transports are clean. -/
theorem AllClean.execute_ok (h : x.AllClean) (hsound : x.Sound none) {input : McpInvokeInput}
    (hparsed : McpInvokeInput.fromJson E.std E.serde E.decodeText
      (invokeInput input.serverId input.toolName input.arguments) = .ok parsed)
    (hpersistent : x.isPersistent parsed.serverId = true) (hs : s.Orderly) {t : StdioTransport}
    (hfirst : firstTransport E s parsed.serverId x = .ok t) {r : ToolCallResult}
    (hserver : WellBehaved E s parsed.toolName r (x.Ready parsed.serverId) t)
    (executionId : String) :
    (execute E.transports E.std E.serde E.decodeText s input executionId x).1 =
      .ok r.toToolResult := by
  have hcall :
      (StdMcpExecutor.executePersistent E.transports s parsed executionId x).1 = .ok r := by
    unfold firstTransport at hfirst
    cases hc : x.persistent parsed.serverId with
    | some c =>
        rw [hc] at hfirst
        obtain rfl : c.transport = t := Except.ok.inj hfirst
        rw [executePersistent_of_cached hc]
        exact executeCached_ok hsound hc (h _ _ hc) hs executionId hserver
    | none =>
        rw [hc] at hfirst
        rw [executePersistent_of_opened hc hfirst]
        have hnew : (x.withOpened parsed.serverId t).persistent parsed.serverId =
            some ⟨x.opened + 1, t⟩ := by simp
        exact executeCached_ok (hsound.withOpened hc t) hnew (clean_of_opener hfirst) hs executionId
          hserver
  unfold execute
  rw [hparsed]
  simp only [hpersistent, if_true]
  rw [hcall]
  rfl

end orderly

/-! ## Runs -/

/-- **Orderly servers leave no response behind.** In every run in which the servers are orderly, no
tool is called over a transport that holds a response to an earlier request; and after it, whatever
the calls before came to, the next call succeeds when the server answers it. -/
theorem never_stale_of_orderly (E : StdioSetup) (minted : ℕ) (steps : List StdioStep)
    (x : StdMcpExecutor StdioTransport)
    (hrun : (stdioMachine E).run (withOpener E.servers minted) steps = some x)
    (horderly : ∀ a ∈ steps, a.Orderly) :
    (stdioMachine E).Along (fun x a => ∀ t, calledOn E a x = some t → ¬ t.Stale)
      (withOpener E.servers minted) steps ∧
    ∀ s input executionId parsed t r, s.Orderly →
      McpInvokeInput.fromJson E.std E.serde E.decodeText
        (invokeInput input.serverId input.toolName input.arguments) = .ok parsed →
      x.isPersistent parsed.serverId = true → firstTransport E s parsed.serverId x = .ok t →
      WellBehaved E s parsed.toolName r (x.Ready parsed.serverId) t →
      (execute E.transports E.std E.serde E.decodeText s input executionId x).1 =
        .ok r.toToolResult := by
  have halong := (stdioMachine E).along_of_forall (s := withOpener E.servers minted) horderly
  have hstep : ∀ x a x', (x.Sound none ∧ x.AllClean) → a.Orderly →
      (stdioMachine E).step x a = some x' → x'.Sound none ∧ x'.AllClean := by
    intro x a x' hx ha hstep
    obtain rfl := Option.some.inj hstep
    exact ⟨hx.1.stdioStep a, hx.2.stdioStep hx.1 ha⟩
  have hstart : (withOpener E.servers minted : StdMcpExecutor StdioTransport).Sound none ∧
      (withOpener E.servers minted : StdMcpExecutor StdioTransport).AllClean :=
    ⟨sound_withOpener E.servers minted, fun id c hc => by cases hc⟩
  obtain ⟨hsound, hclean⟩ := Machine.run_inv _ hstep hstart halong hrun
  refine ⟨halong.imp_inv hstep hstart fun x a hx ha t ht => hx.2.calledOn hx.1 ha ht, ?_⟩
  intro s input executionId parsed t r hs hparsed hpersistent hfirst hserver
  exact hclean.execute_ok hsound hparsed hpersistent hs hfirst hserver executionId

/-- The server answers the request with the id and writes a further response. -/
def chattyScript (callId extraId : ℕ) : StdioScript where
  spawned := .ok ()
  handshake := ⟨[], []⟩
  note := []
  call := ⟨[], [⟨some "5s", [
    .line (.ok ⟨some callId, some (.object [("content", .array [])]), none, none⟩),
    .line (.ok ⟨some extraId, some (.object [("content", .array [])]), none, none⟩)],
    false, .unknown⟩]⟩

/-- A server that answers its first request twice: the second call is made over a transport with
the second answer unread. It fails with an id mismatch, and so does the third, although the server
answers both in time. -/
theorem stale_after_duplicate : ∃ x y z t,
    (stdioMachine (oneServer .v2026_07_28)).run (withOpener (oneServer .v2026_07_28).servers 0)
      [.execute (chattyScript 1 1) calcInput "e-1"] = some x ∧
    calledOn (oneServer .v2026_07_28) (answeredCall 0 2) x = some t ∧ t.Stale ∧
    execute (oneServer .v2026_07_28).transports .ascii .withoutFloats (fun _ => "")
      (answeredScript 0 2) calcInput "e-2" x =
        (.error (.failed (.protocolViolation "response id mismatch: got Some(1), want 2")), y) ∧
    execute (oneServer .v2026_07_28).transports .ascii .withoutFloats (fun _ => "")
      (answeredScript 0 3) calcInput "e-3" y =
        (.error (.failed (.protocolViolation "response id mismatch: got Some(2), want 3")), z) :=
  ⟨_, _, _, _, rfl, rfl, ⟨_, 1, List.mem_singleton_self _, rfl, by decide⟩, rfl, rfl⟩

/-- The one server is orderly when it answers what it is asked. -/
theorem answeredScript_orderly (handshakeId callId : ℕ) :
    (answeredScript handshakeId callId).Orderly :=
  ⟨⟨rfl, Nat.le_refl 1⟩, rfl, rfl, Nat.le_refl 1⟩

/-- After one call of the orderly server the next succeeds. -/
theorem never_stale_of_orderly_calc : ∃ x,
    (stdioMachine (oneServer .v2026_07_28)).run (withOpener (oneServer .v2026_07_28).servers 0)
      [answeredCall 0 1] = some x ∧
    (execute (oneServer .v2026_07_28).transports .ascii .withoutFloats (fun _ => "")
      (answeredScript 0 2) calcInput "e-2" x).1 = .ok ⟨[], none, false⟩ := by
  refine ⟨_, rfl, (never_stale_of_orderly (oneServer .v2026_07_28) 0 [answeredCall 0 1] _ rfl
    (fun a ha => ?_)).2 (answeredScript 0 2) calcInput "e-2" calcInput _ ⟨[], false, none⟩
      (answeredScript_orderly 0 2) rfl rfl rfl
      { alive := ⟨rfl, rfl, rfl⟩, handshake := fun _ hprofile => ?_, call := fun t' ht' => ?_ }⟩
  · obtain rfl := List.mem_singleton.mp ha
    exact answeredScript_orderly 0 1
  · cases hprofile
  · have hready : Ready (stdioStep (oneServer .v2026_07_28)
        (withOpener (oneServer .v2026_07_28).servers 0) (answeredCall 0 1)) "calc" := ⟨_, rfl, rfl⟩
    obtain ⟨-, rfl⟩ := ht'.resolve_right fun h => h.1 hready
    refine ⟨⟨some 2, some (.object [("content", .array [])]), none, none⟩,
      ⟨rfl, rfl, fun notes hnotes => ?_⟩, rfl⟩
    obtain rfl : notes = [] := List.map_eq_nil_iff.mp hnotes.symm
    exact .answer (show StdioTransport.OnTime _ [_] from ⟨rfl, rfl, rfl⟩) rfl

end StdMcpExecutor

end AuraLauncher.Mcp
