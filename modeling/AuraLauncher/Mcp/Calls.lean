import AuraLauncher.Mcp.Discipline

/-!
# What a call on a kept transport can do

The calls of `executor.rs` (`execute_persistent`), seen from the outside: which of the transport's
operations ran, and what is kept afterwards. Everything else a call could do is ruled out by
`Sound`.

* `Ready` — the endpoint has a ready session.
* `CachedCall`, `executeCached_cases` — the two ways of a call on a transport that is kept.
* `executePersistent_of_cached`, `executePersistent_of_opened`, `executePersistent_of_unopened` —
  the same with the transport that may have to be opened.
* `Same`, `execute_cases` — a call on one endpoint leaves the others alone.
-/

namespace AuraLauncher.Mcp.StdMcpExecutor

open AuraLauncher.Domain AuraLauncher.Lib
open AuraLauncher.Workflow (Json SerdeJson)

universe u v

variable {τ : Type u} {σ : Type v} {T : McpTransports τ σ}

/-- The endpoint has a ready session. -/
def Ready (x : StdMcpExecutor τ) (id : String) : Prop :=
  ∃ r, x.sessions.record? (x.key id) = some r ∧ r.session.state = .ready

instance (x : StdMcpExecutor τ) (id : String) : Decidable (x.Ready id) :=
  decidable_of_iff
    ((x.sessions.record? (x.key id)).any (fun r => decide (r.session.state = .ready)) = true)
    (by simp [Ready, Option.any_eq_true])

/-- A transport for the endpoint is asked for. -/
def isOpening (id : String) : TransportEvent → Bool
  | .opened id' _ => id' == id
  | _ => false

/-- How often a transport for the endpoint was asked for. -/
def openings (x : StdMcpExecutor τ) (id : String) : ℕ := x.log.countP (isOpening id)

/-- The two ways of a call on the transport `c`, with what is kept after it: the session cannot be
established, or the tool is called. -/
inductive CachedCall (T : McpTransports τ σ) (s : σ) (parsed : McpInvokeInput)
    (executionId : String) (x : StdMcpExecutor τ) (c : NumberedTransport τ) :
    Except Stop ToolCallResult → StdMcpExecutor τ → Prop
  | unestablished {e : McpError} {t : τ} {x' : StdMcpExecutor τ} {r : SessionRecord}
      (unready : ¬ x.Ready parsed.serverId)
      (handshake : T.initializeTransport s c.transport = (.error e, t))
      (persistent : x'.persistent = Function.update x.persistent parsed.serverId none)
      (sessions : x'.sessions = x.sessions.insert (x.key parsed.serverId) r)
      (state : r.session.state = .failed) (servers : x'.servers = x.servers)
      (openings : ∀ id, x'.openings id = x.openings id) :
      CachedCall T s parsed executionId x c (.error (.failed e)) x'
  | called {t t' : τ} {result : Except McpError ToolCallResult} {x' : StdMcpExecutor τ}
      {r : SessionRecord}
      (established : x.Ready parsed.serverId ∧ t = c.transport ∨
        ¬ x.Ready parsed.serverId ∧ ∃ i, T.initializeTransport s c.transport = (.ok i, t))
      (call : T.callTool s parsed.toolName parsed.arguments executionId t = (result, t'))
      (persistent : x'.persistent = Function.update x.persistent parsed.serverId
        (if fate result = .evict then none else some ⟨c.number, t'⟩))
      (sessions : x'.sessions = x.sessions.insert (x.key parsed.serverId) r)
      (state : r.session.state = .ready ↔ fate result = .keep) (servers : x'.servers = x.servers)
      (openings : ∀ id, x'.openings id = x.openings id) :
      CachedCall T s parsed executionId x c (result.mapError .failed) x'

section cases

variable {x : StdMcpExecutor τ} {r : SessionRecord} {c : NumberedTransport τ}
  {parsed : McpInvokeInput}

@[simp]
theorem openings_record (e : TransportEvent) (id : String) :
    (x.record e).openings id = x.openings id + if isOpening id e then 1 else 0 := by
  simp [openings, List.countP_append, List.countP_singleton]

@[simp]
theorem openings_withSessions (m : ProtocolSessionManager) (id : String) :
    (x.withSessions m).openings id = x.openings id := rfl

@[simp]
theorem openings_cache (id' : String) (c : Option (NumberedTransport τ)) (id : String) :
    (x.cache id' c).openings id = x.openings id := rfl

@[simp]
theorem openings_fileNew (id' : String) (state : ProtocolSessionState) (active : Bool)
    (id : String) : (x.fileNew id' state active).openings id = x.openings id := rfl

/-- What is kept after the tool was called. -/
theorem Acquired.classified (h : x.Acquired parsed.serverId r c) (s : σ) (executionId : String)
    {result : Except McpError ToolCallResult} {t' : τ}
    (hcall : T.callTool s parsed.toolName parsed.arguments executionId c.transport = (result, t')) :
    ∃ x' r', callCached T s parsed executionId x = some (result, x') ∧
      (x'.classify parsed.serverId r.session.sessionId result).persistent =
        Function.update x.persistent parsed.serverId
          (if fate result = .evict then none else some ⟨c.number, t'⟩) ∧
      (x'.classify parsed.serverId r.session.sessionId result).sessions =
        x.sessions.insert (x.key parsed.serverId) r' ∧
      (r'.session.state = .ready ↔ fate result = .keep) ∧
      (x'.classify parsed.serverId r.session.sessionId result).servers = x.servers ∧
      ∀ id, (x'.classify parsed.serverId r.session.sessionId result).openings id =
        x.openings id := by
  have hclassify := classify_eq (x := (x.cache parsed.serverId (some ⟨c.number, t'⟩)).record
    (.called c.number parsed.toolName (failure result))) h.sound.wf (c := ⟨c.number, t'⟩) h.record
      (by simp) result
  refine ⟨_, match fate result with
    | .keep => { r with operationActive := false }
    | _ => { r.withState .invalid with operationActive := false },
    callCached_eq h.cached s executionId hcall, ?_⟩
  rw [hclassify]
  cases fate result with
  | keep => simp [h.ready, isOpening]
  | reset => simp [SessionRecord.withState, isOpening]
  | evict => simp [SessionRecord.withState, isOpening]

/-- **A call on a kept transport.** -/
theorem executeCached_cases (h : x.Sound none) (hc : x.persistent parsed.serverId = some c) (s : σ)
    (executionId : String) : CachedCall T s parsed executionId x c
      (executeCached T s parsed executionId x).1 (executeCached T s parsed executionId x).2 := by
  unfold executeCached
  by_cases hready : x.Ready parsed.serverId
  · obtain ⟨r, hr, hstate⟩ := hready
    obtain ⟨c', hc', hacquired⟩ := h.acquire hr hstate
    obtain rfl : c = c' := Option.some.inj (hc.symm.trans hc')
    rcases hcall : T.callTool s parsed.toolName parsed.arguments executionId c.transport with
      ⟨result, t'⟩
    obtain ⟨x', r', hcached, hpersistent, hsessions, hfate, hservers, hopenings⟩ :=
      hacquired.classified s executionId hcall
    rw [ensureSession_of_ready h hr hstate s]
    dsimp only
    rw [hcached]
    exact .called (.inl ⟨⟨r, hr, hstate⟩, rfl⟩) hcall hpersistent
      (by simpa using hsessions) hfate hservers hopenings
  · have hr : ∀ r, x.sessions.record? (x.key parsed.serverId) = some r →
        r.session.state ≠ .ready := fun r hr hs => hready ⟨r, hr, hs⟩
    rw [ensureSession_of_not_ready h hr hc s]
    rcases hinit : T.initializeTransport s c.transport with ⟨e | i, t⟩
    · exact .unestablished hready hinit rfl rfl rfl rfl (by simp [isOpening])
    · rcases hcall : T.callTool s parsed.toolName parsed.arguments executionId t with
        ⟨result, t'⟩
      obtain ⟨x', r', hcached, hpersistent, hsessions, hfate, hservers, hopenings⟩ :=
        (h.acquire_new hc t).classified s executionId hcall
      dsimp only
      rw [hcached]
      refine .called (.inr ⟨hready, i, hinit⟩) hcall ?_ (r := r') ?_ hfate hservers ?_
      · rw [hpersistent]
        simp [fileNew]
      · rw [hsessions]
        simp [fileNew, key]
      · simpa [isOpening] using hopenings

end cases

/-! ## Opening -/

/-- The executor with a new transport for the endpoint. -/
def withOpened (x : StdMcpExecutor τ) (id : String) (t : τ) : StdMcpExecutor τ :=
  ({ x with opened := x.opened + 1 }.record (.opened id none)).cache id (some ⟨x.opened + 1, t⟩)

section opening

variable {x : StdMcpExecutor τ} {c : NumberedTransport τ} {parsed : McpInvokeInput}

theorem executePersistent_of_cached (hc : x.persistent parsed.serverId = some c) (s : σ)
    (executionId : String) :
    executePersistent T s parsed executionId x = executeCached T s parsed executionId x := by
  simp [executePersistent, ensureTransport, hc]

theorem executePersistent_of_unopened (hc : x.persistent parsed.serverId = none) {s : σ}
    {e : McpError} (hopen : T.opener s parsed.serverId = .error e) (executionId : String) :
    executePersistent T s parsed executionId x =
      (.error (.failed e), x.record (.opened parsed.serverId (some e))) := by
  simp [executePersistent, ensureTransport, openTransport, hc, hopen]

theorem executePersistent_of_opened (hc : x.persistent parsed.serverId = none) {s : σ} {t : τ}
    (hopen : T.opener s parsed.serverId = .ok t) (executionId : String) :
    executePersistent T s parsed executionId x =
      executeCached T s parsed executionId (x.withOpened parsed.serverId t) := by
  simp [executePersistent, ensureTransport, openTransport, hc, hopen, withOpened]

theorem Sound.withOpened {id : String} (h : x.Sound none) (hc : x.persistent id = none) (t : τ) :
    (x.withOpened id t).Sound none :=
  h.opening hc t

@[simp]
theorem persistent_withOpened (id : String) (t : τ) : (x.withOpened id t).persistent =
    Function.update x.persistent id (some ⟨x.opened + 1, t⟩) := rfl

@[simp]
theorem sessions_withOpened (id : String) (t : τ) : (x.withOpened id t).sessions = x.sessions := rfl

@[simp]
theorem servers_withOpened (id : String) (t : τ) : (x.withOpened id t).servers = x.servers := rfl

@[simp]
theorem key_withOpened (id : String) (t : τ) : (x.withOpened id t).key = x.key := rfl

@[simp]
theorem openings_withOpened (id : String) (t : τ) (id' : String) :
    (x.withOpened id t).openings id' = x.openings id' + if id = id' then 1 else 0 := by
  unfold withOpened
  rw [openings_cache, openings_record]
  by_cases h : id = id' <;> simp [isOpening, h, openings]

end opening

/-! ## The transport of a call -/

/-- The transport a tool is called on, if the call comes that far. Source: `executor.rs`,
`execute_persistent` (`transport`). -/
def callTransport (T : McpTransports τ σ) (s : σ) (serverId : String) (x : StdMcpExecutor τ) :
    Option τ :=
  match ensureTransport T s serverId x with
  | (.error _, _) => none
  | (.ok _, x) =>
      match ensureSession T s serverId (x.key serverId) x with
      | (.error _, _) => none
      | (.ok _, x) => (x.persistent serverId).map NumberedTransport.transport

section callTransport

variable {x : StdMcpExecutor τ} {c : NumberedTransport τ} {id : String}

/-- It is the kept one, as it is for a ready session and as the initialization left it otherwise. -/
theorem callTransport_cases (h : x.Sound none) (hc : x.persistent id = some c) {s : σ} {t : τ}
    (ht : callTransport T s id x = some t) : x.Ready id ∧ t = c.transport ∨
      ¬ x.Ready id ∧ ∃ i, T.initializeTransport s c.transport = (.ok i, t) := by
  unfold callTransport ensureTransport at ht
  rw [if_pos (by simp [hc])] at ht
  dsimp only at ht
  by_cases hready : x.Ready id
  · obtain ⟨r, hr, hstate⟩ := hready
    rw [ensureSession_of_ready h hr hstate s] at ht
    exact .inl ⟨⟨r, hr, hstate⟩, by simpa [hc] using ht.symm⟩
  · have hr : ∀ r, x.sessions.record? (x.key id) = some r → r.session.state ≠ .ready :=
      fun r hr hs => hready ⟨r, hr, hs⟩
    rw [ensureSession_of_not_ready h hr hc s] at ht
    rcases hinit : T.initializeTransport s c.transport with ⟨e | i, t'⟩
    · rw [hinit] at ht
      cases ht
    · rw [hinit] at ht
      obtain rfl : t' = t := by simpa [fileNew] using ht
      exact .inr ⟨hready, i, rfl⟩

theorem callTransport_of_opened (hc : x.persistent id = none) {s : σ} {t : τ}
    (hopen : T.opener s id = .ok t) :
    callTransport T s id x = callTransport T s id (x.withOpened id t) := by
  simp [callTransport, ensureTransport, openTransport, hc, hopen, withOpened]

theorem callTransport_of_unopened (hc : x.persistent id = none) {s : σ} {e : McpError}
    (hopen : T.opener s id = .error e) : callTransport T s id x = none := by
  simp [callTransport, ensureTransport, openTransport, hc, hopen]

end callTransport

/-! ## Other endpoints -/

/-- Nothing that belongs to the endpoint has changed. -/
structure Same (x x' : StdMcpExecutor τ) (id : String) : Prop where
  persistent : x'.persistent id = x.persistent id
  record : x'.sessions.record? (x.key id) = x.sessions.record? (x.key id)
  servers : x'.servers = x.servers

section frame

variable {x x' x'' : StdMcpExecutor τ} {id : String} {c : NumberedTransport τ}
  {parsed : McpInvokeInput}

theorem Same.refl (x : StdMcpExecutor τ) (id : String) : x.Same x id := ⟨rfl, rfl, rfl⟩

theorem key_eq (h : x'.servers = x.servers) : x'.key = x.key := by
  funext id
  simp [key, h]

theorem Same.key (h : x.Same x' id) : x'.key = x.key := key_eq h.servers

theorem Same.trans (h : x.Same x' id) (h' : x'.Same x'' id) : x.Same x'' id where
  persistent := h'.persistent.trans h.persistent
  record := by rw [← h.record, ← h.key, h'.record]
  servers := h'.servers.trans h.servers

theorem Same.ready_iff (h : x.Same x' id) : x'.Ready id ↔ x.Ready id := by
  unfold Ready
  rw [h.key, h.record]

theorem key_ne (h : id ≠ parsed.serverId) : x.key id ≠ x.key parsed.serverId := fun hkey =>
  h (congrArg ProtocolSessionKey.endpointId hkey)

/-- A call on the transport of one endpoint leaves the others alone. -/
theorem CachedCall.same {s : σ} {executionId : String} {o : Except Stop ToolCallResult}
    (h : CachedCall T s parsed executionId x c o x') (hne : id ≠ parsed.serverId) :
    x.Same x' id := by
  cases h with
  | unestablished _ _ hpersistent hsessions _ hservers _ =>
      exact ⟨by simp [hpersistent, hne], by simp [hsessions, key_ne hne], hservers⟩
  | called _ _ hpersistent hsessions _ hservers _ =>
      exact ⟨by simp [hpersistent, hne], by simp [hsessions, key_ne hne], hservers⟩

theorem CachedCall.openings_eq {s : σ} {executionId : String} {o : Except Stop ToolCallResult}
    (h : CachedCall T s parsed executionId x c o x') (id : String) :
    x'.openings id = x.openings id := by
  cases h with
  | unestablished _ _ _ _ _ _ hopenings => exact hopenings id
  | called _ _ _ _ _ _ hopenings => exact hopenings id

theorem same_withOpened (hne : id ≠ parsed.serverId) (t : τ) :
    x.Same (x.withOpened parsed.serverId t) id :=
  ⟨by simp [hne], rfl, rfl⟩

/-- A call on a persistent endpoint leaves the others alone. -/
theorem same_executePersistent (h : x.Sound none) (hne : id ≠ parsed.serverId) (s : σ)
    (executionId : String) : x.Same (executePersistent T s parsed executionId x).2 id := by
  cases hc : x.persistent parsed.serverId with
  | some c =>
      rw [executePersistent_of_cached hc]
      exact (executeCached_cases h hc s executionId).same hne
  | none =>
      cases hopen : T.opener s parsed.serverId with
      | error e =>
          rw [executePersistent_of_unopened hc hopen]
          exact ⟨rfl, rfl, rfl⟩
      | ok t =>
          rw [executePersistent_of_opened hc hopen]
          exact (same_withOpened hne t).trans ((executeCached_cases
            (c := ⟨x.opened + 1, t⟩) (h.withOpened hc t) (by simp) s executionId).same hne)

/-- A call on an ephemeral endpoint leaves all endpoints alone, and asks for a transport. -/
theorem same_executeEphemeral (id : String) (s : σ) (executionId : String) :
    x.Same (executeEphemeral T s parsed executionId x).2 id ∧
      x.openings parsed.serverId < (executeEphemeral T s parsed executionId x).2.openings
        parsed.serverId := by
  unfold executeEphemeral openTransport
  cases T.opener s parsed.serverId with
  | error e => exact ⟨⟨rfl, rfl, rfl⟩, by simp [isOpening]⟩
  | ok t =>
      have hnext : openings { x with opened := x.opened + 1 } parsed.serverId =
          x.openings parsed.serverId := rfl
      dsimp only
      rcases hinit : T.initializeTransport s t with ⟨e | i, t'⟩
      · simp only [hinit]
        exact ⟨⟨rfl, rfl, rfl⟩, by simp [isOpening, hnext]⟩
      · simp only [hinit]
        exact ⟨⟨rfl, rfl, rfl⟩, by simp [isOpening, hnext]⟩

variable (std : RustStd) (serde : SerdeJson) (decodeText : Json → String)

/-- The input is well formed and names the endpoint. -/
def hits (id : String) (input : McpInvokeInput) : Bool :=
  match McpInvokeInput.fromJson std serde decodeText
      (invokeInput input.serverId input.toolName input.arguments) with
  | .ok parsed => parsed.serverId == id
  | .error _ => false

/-- **What a call is to an endpoint**: none of its own, one on a transport of its own, or one on the
kept transport. -/
theorem execute_cases (h : x.Sound none) (s : σ) (input : McpInvokeInput) (executionId : String)
    (id : String) {x' : StdMcpExecutor τ}
    (hx' : (execute T std serde decodeText s input executionId x).2 = x') :
    (hits std serde decodeText id input = false ∧ x.Same x' id) ∨
    (hits std serde decodeText id input = true ∧ x.Same x' id ∧ x.openings id < x'.openings id) ∨
    hits std serde decodeText id input = true ∧ x.isPersistent id = true ∧ ∃ parsed,
      McpInvokeInput.fromJson std serde decodeText
        (invokeInput input.serverId input.toolName input.arguments) = .ok parsed ∧
      parsed.serverId = id ∧
      execute T std serde decodeText s input executionId x =
        (((executePersistent T s parsed executionId x).1.map ToolCallResult.toToolResult), x') ∧
      (executePersistent T s parsed executionId x).2 = x' := by
  unfold execute at hx' ⊢
  cases hparsed : McpInvokeInput.fromJson std serde decodeText
      (invokeInput input.serverId input.toolName input.arguments) with
  | error e =>
      simp only [hparsed] at hx'
      exact .inl ⟨by simp [hits, hparsed], hx' ▸ .refl x id⟩
  | ok parsed =>
      simp only [hparsed] at hx'
      by_cases hid : parsed.serverId = id
      · subst hid
        refine .inr ?_
        have hhits : hits std serde decodeText parsed.serverId input = true := by
          simp [hits, hparsed]
        cases hpersistent : x.isPersistent parsed.serverId with
        | false =>
            simp only [hpersistent, Bool.false_eq_true, if_false] at hx'
            exact .inl ⟨hhits, hx' ▸ same_executeEphemeral _ s executionId⟩
        | true =>
            simp only [hpersistent, if_true] at hx'
            refine .inr ⟨hhits, rfl, parsed, rfl, rfl, ?_, hx'⟩
            simp [hpersistent, hx']
      · refine .inl ⟨by simp [hits, hparsed, hid], ?_⟩
        cases hpersistent : x.isPersistent parsed.serverId with
        | false =>
            simp only [hpersistent, Bool.false_eq_true, if_false] at hx'
            exact hx' ▸ (same_executeEphemeral id s executionId).1
        | true =>
            simp only [hpersistent, if_true] at hx'
            exact hx' ▸ same_executePersistent h (Ne.symm hid) s executionId

end frame

end AuraLauncher.Mcp.StdMcpExecutor
