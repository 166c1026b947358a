import AuraLauncher.Lib.Log
import AuraLauncher.Lib.Machine
import AuraLauncher.Mcp.Executor

/-!
# The discipline of kept sessions

What holds of an executor (`Mcp.Executor`) after any number of calls, whatever its transports do.

The registry of sessions and the cache of transports are two maps; `Sound` says how they belong
together. Every stage of a call keeps it with the endpoint of the call left out (`busy`), and a call
that is over leaves nothing out.

* `Usable` — the last initialization of a transport succeeded, and no call on it since has ended
  its session.
* `Sound`, `Acquired` — between two calls, and while a call has its operation.
* `ensureSession_of_ready`, `ensureSession_of_not_ready`, `classify_eq` — what the stages do.
* `execute_disciplined` — the discipline, after every run and for every call.
-/

namespace AuraLauncher.Mcp

open AuraLauncher.Domain AuraLauncher.Lib
open AuraLauncher.Workflow (Json SerdeJson)

universe u v

/-! ## Outcomes of a call -/

/-- What the outcome of a call means for the session and the transport it was made on. -/
inductive Fate
  /-- The session remains ready. -/
  | keep
  /-- The session is invalid, the transport is kept. -/
  | reset
  /-- The session is invalid and the transport shut down. -/
  | evict
  deriving DecidableEq

/-- Source: `executor.rs`, `execute_persistent` (the arms of `classify`). -/
def fate : Except McpError ToolCallResult → Fate
  | .ok _ | .error (.toolExecutionError _) | .error (.unknownTool _) => .keep
  | .error (.processCrashed _) | .error (.timeout _) => .evict
  | .error _ => .reset

/-- A violation of the protocol, a timeout or a crash. -/
def McpError.breaks : McpError → Bool
  | .protocolViolation _ | .timeout _ | .processCrashed _ => true
  | _ => false

/-- After an outcome that keeps the session no session is broken. -/
theorem not_breaks_of_keep {result : Except McpError ToolCallResult} (h : fate result = .keep)
    {e : McpError} (he : failure result = some e) : e.breaks = false := by
  cases result with
  | ok r => cases he
  | error e' =>
      obtain rfl : e' = e := Option.some.inj he
      cases e' <;> first | rfl | cases h

/-! ## Usable transports -/

namespace TransportEvent

/-- The transport that the event is about. -/
def number? : TransportEvent → Option ℕ
  | .opened _ _ => none
  | .initialized n _ | .called n _ _ | .shutdown n => some n

def isCall : TransportEvent → Bool
  | .called _ _ _ => true
  | _ => false

/-- The error of the event. -/
def failure? : TransportEvent → Option McpError
  | .opened _ f | .initialized _ f | .called _ _ f => f
  | .shutdown _ => none

/-- The event is no initialization of the transport, and no call on it that broke its session. -/
def Keeps (n : ℕ) : TransportEvent → Prop
  | .initialized m _ => m ≠ n
  | .called m _ (some e) => m = n → e.breaks = false
  | _ => True

theorem keeps_of_number_ne {n : ℕ} {e : TransportEvent} (h : e.number? ≠ some n) : e.Keeps n := by
  cases e with
  | opened id f => trivial
  | initialized m f => exact fun hm => h (congrArg some hm)
  | called m tool f =>
      cases f with
      | none => trivial
      | some e => exact fun hm => absurd (congrArg some hm) h
  | shutdown m => trivial

end TransportEvent

/-- The most recent initialization of the transport succeeded, and since then there was no violation
of the protocol, no timeout and no crash on it. -/
def Usable (log : List TransportEvent) (n : ℕ) : Prop :=
  Since (fun c => c = .initialized n none) (TransportEvent.Keeps n) log

namespace StdMcpExecutor

variable {τ : Type u} {σ : Type v} {T : McpTransports τ σ}

/-! ## Between two calls -/

/-- A session without an operation. When it is ready there is a usable transport for it. -/
structure Idle (x : StdMcpExecutor τ) (serverId : String) (r : SessionRecord) : Prop where
  inactive : r.operationActive = false
  state : r.session.state = .ready ∨ r.session.state = .invalid ∨ r.session.state = .failed
  usable : r.session.state = .ready →
    ∃ c, x.persistent serverId = some c ∧ Usable x.log c.number

/-- The registry and the cache belong together, but for the endpoint in `busy`. -/
structure Sound (x : StdMcpExecutor τ) (busy : Option String) : Prop where
  wf : x.sessions.Wf x.minted
  numbered : ∀ {id c}, x.persistent id = some c → c.number ≤ x.opened
  distinct : ∀ {id id' c c'}, x.persistent id = some c → x.persistent id' = some c' →
    c.number = c'.number → id = id'
  keyed : ∀ {key r}, x.sessions.record? key = some r → key = x.key key.endpointId
  idle : ∀ {key r}, x.sessions.record? key = some r → some key.endpointId ≠ busy →
    x.Idle key.endpointId r

/-- An operation is active for the endpoint, over a usable transport. -/
structure Acquired (x : StdMcpExecutor τ) (serverId : String) (r : SessionRecord)
    (c : NumberedTransport τ) : Prop where
  sound : x.Sound (some serverId)
  record : x.sessions.record? (x.key serverId) = some r
  ready : r.session.state = .ready
  cached : x.persistent serverId = some c
  usable : Usable x.log c.number

section Sound

variable {x : StdMcpExecutor τ} {busy : Option String} {id : String} {r : SessionRecord}

@[simp]
theorem key_record (e : TransportEvent) : (x.record e).key = x.key := rfl

@[simp]
theorem key_withSessions (m : ProtocolSessionManager) : (x.withSessions m).key = x.key := rfl

@[simp]
theorem key_cache (c : Option (NumberedTransport τ)) : (x.cache id c).key = x.key := rfl

theorem sound_withOpener (servers : String → Option ServerEndpoint) (minted : ℕ) :
    (withOpener servers minted : StdMcpExecutor τ).Sound none where
  wf := ProtocolSessionManager.wf_new minted
  numbered h := by cases h
  distinct h := by cases h
  keyed h := by cases h
  idle h := by cases h

/-- An endpoint may be left out. -/
theorem Sound.leave (h : x.Sound none) (id : String) : x.Sound (some id) where
  wf := h.wf
  numbered := h.numbered
  distinct := h.distinct
  keyed := h.keyed
  idle hr _ := h.idle hr (by simp)

/-- The endpoint that was left out is idle again. -/
theorem Sound.close (h : x.Sound (some id))
    (hid : ∀ r, x.sessions.record? (x.key id) = some r → x.Idle id r) : x.Sound none where
  wf := h.wf
  numbered := h.numbered
  distinct := h.distinct
  keyed := h.keyed
  idle {key r} hr _ := by
    by_cases hk : key.endpointId = id
    · subst hk
      exact hid r (h.keyed hr ▸ hr)
    · exact h.idle hr (by simpa using hk)

/-- A number may be given to a new transport. -/
theorem Sound.next (h : x.Sound busy) : Sound { x with opened := x.opened + 1 } busy where
  wf := h.wf
  numbered hc := (h.numbered hc).trans (Nat.le_succ _)
  distinct := h.distinct
  keyed := h.keyed
  idle hr hk :=
    have hidle := h.idle hr hk
    ⟨hidle.inactive, hidle.state, hidle.usable⟩

/-- An event that keeps the transports of the idle endpoints. -/
theorem Sound.logged (h : x.Sound busy) {e : TransportEvent}
    (he : ∀ {id c}, x.persistent id = some c → some id ≠ busy → e.Keeps c.number) :
    (x.record e).Sound busy where
  wf := h.wf
  numbered := h.numbered
  distinct := h.distinct
  keyed := h.keyed
  idle {key r} hr hk := by
    obtain ⟨hinactive, hstate, husable⟩ := h.idle hr hk
    refine ⟨hinactive, hstate, fun hready => ?_⟩
    obtain ⟨c, hc, hlog⟩ := husable hready
    exact ⟨c, hc, hlog.snoc (he hc hk)⟩

/-- An event of the endpoint's own transport. -/
theorem Sound.logged_own (h : x.Sound (some id)) {c : NumberedTransport τ}
    (hc : x.persistent id = some c) {e : TransportEvent} (he : e.number? = some c.number) :
    (x.record e).Sound (some id) :=
  h.logged fun hc' hne => TransportEvent.keeps_of_number_ne fun hnumber =>
    hne (congrArg some (h.distinct hc' hc (Option.some.inj (hnumber.symm.trans he))))

/-- The endpoint's transport is removed, or replaced by one that no other endpoint has. -/
theorem Sound.cached (h : x.Sound (some id)) {c : Option (NumberedTransport τ)}
    (hle : ∀ t ∈ c, t.number ≤ x.opened)
    (hnew : ∀ t ∈ c, ∀ {id' c'}, x.persistent id' = some c' → id' ≠ id → c'.number ≠ t.number) :
    (x.cache id c).Sound (some id) where
  wf := h.wf
  numbered {id' c'} hc' := by
    by_cases hk : id' = id
    · subst hk
      exact hle c' (by simpa using hc')
    · exact h.numbered (by simpa [hk] using hc')
  distinct {id₁ id₂ c₁ c₂} h₁ h₂ hnumber := by
    by_cases hk₁ : id₁ = id <;> by_cases hk₂ : id₂ = id
    · rw [hk₁, hk₂]
    · subst hk₁
      exact absurd hnumber.symm
        (hnew c₁ (by simpa using h₁) (by simpa [hk₂] using h₂) hk₂)
    · subst hk₂
      exact absurd hnumber (hnew c₂ (by simpa using h₂) (by simpa [hk₁] using h₁) hk₁)
    · exact h.distinct (by simpa [hk₁] using h₁) (by simpa [hk₂] using h₂) hnumber
  keyed := h.keyed
  idle {key r} hr hk := by
    obtain ⟨hinactive, hstate, husable⟩ := h.idle hr hk
    refine ⟨hinactive, hstate, fun hready => ?_⟩
    obtain ⟨c', hc', hlog⟩ := husable hready
    have hne : key.endpointId ≠ id := by simpa using hk
    exact ⟨c', by simpa [hne] using hc', hlog⟩

/-- The endpoint's transport goes on under its number. -/
theorem Sound.recached (h : x.Sound (some id)) {c : NumberedTransport τ}
    (hc : x.persistent id = some c) (t : τ) : (x.cache id (some ⟨c.number, t⟩)).Sound (some id) :=
  h.cached (by simpa using h.numbered hc) (by
    rintro _ ⟨⟩ id' c' hc' hne hnumber
    exact hne (h.distinct hc' hc hnumber))

/-- The endpoint's session is replaced. -/
theorem Sound.filed (h : x.Sound (some id)) (minted : ℕ)
    (hwf : (x.sessions.insert (x.key id) r).Wf minted) :
    Sound { x with sessions := x.sessions.insert (x.key id) r, minted := minted } (some id) where
  wf := hwf
  numbered := h.numbered
  distinct := h.distinct
  keyed {key r'} hr' := by
    by_cases hk : key = x.key id
    · rw [hk]
      rfl
    · exact h.keyed (by simpa [hk] using hr')
  idle {key r'} hr' hk := by
    have hne : key ≠ x.key id := by
      rintro rfl
      exact hk rfl
    obtain ⟨hinactive, hstate, husable⟩ := h.idle (r := r') (by simpa [hne] using hr') hk
    exact ⟨hinactive, hstate, husable⟩

end Sound

/-! ## The stages of a call -/

section stages

variable {x : StdMcpExecutor τ} {id : String} {r : SessionRecord} {c : NumberedTransport τ}

/-- A ready session is taken as it is. -/
theorem ensureSession_of_ready (h : x.Sound none) (hr : x.sessions.record? (x.key id) = some r)
    (hready : r.session.state = .ready) (s : σ) : ensureSession T s id (x.key id) x =
      (.ok r.session.sessionId,
        x.withSessions (x.sessions.insert (x.key id) { r with operationActive := true })) := by
  have hidle : r.operationActive = false := (h.idle hr (by simp)).inactive
  unfold ensureSession
  rw [ProtocolSessionManager.acquireOperation_of_ready h.wf hr hready hidle]

/-- Without a ready session a new one is established. -/
theorem ensureSession_eq_establish (h : x.Sound none)
    (hr : ∀ r, x.sessions.record? (x.key id) = some r → r.session.state ≠ .ready) (s : σ) :
    ensureSession T s id (x.key id) x = establishSession T s id (x.key id) x := by
  unfold ensureSession ProtocolSessionManager.acquireOperation
  cases hrec : x.sessions.record? (x.key id) with
  | none => rfl
  | some r =>
      have hkey : r.session.key = x.key id := h.wf.keyed hrec
      rcases (h.idle hrec (by simp)).state with hs | hs | hs
      · exact absurd hs (hr r hrec)
      · simp [hkey, hs]
      · simp [hkey, hs]

/-- The executor with the session `minted + 1` of the endpoint in a state. -/
def fileNew (x : StdMcpExecutor τ) (id : String) (state : ProtocolSessionState) (active : Bool) :
    StdMcpExecutor τ :=
  { x with
    sessions := x.sessions.insert (x.key id) ⟨⟨x.minted + 1, none, x.key id, state⟩, active⟩
    minted := x.minted + 1 }

/-- A session that was not ready is established anew: it fails with the initialization, which also
loses the transport, or has its operation. -/
theorem ensureSession_of_not_ready (h : x.Sound none)
    (hr : ∀ r, x.sessions.record? (x.key id) = some r → r.session.state ≠ .ready)
    (hc : x.persistent id = some c) (s : σ) : ensureSession T s id (x.key id) x =
      match T.initializeTransport s c.transport with
      | (.error e, _) =>
          (.error (.failed e),
            ((x.fileNew id .failed false).record (.initialized c.number (some e))).cache id none)
      | (.ok _, t) =>
          (.ok (x.minted + 1), ((x.fileNew id .ready true).cache id (some ⟨c.number, t⟩)).record
            (.initialized c.number none)) := by
  have hwf : ∀ state, (x.sessions.insert (x.key id)
      ⟨⟨x.minted + 1, none, x.key id, state⟩, false⟩).Wf (x.minted + 1) := fun state =>
    (h.wf.mono (Nat.le_succ _)).insert rfl le_rfl fun hr' hid =>
      absurd (h.wf.minted hr') (by rw [hid]; exact Nat.not_succ_le_self _)
  have hmodify : ∀ f, (x.sessions.insert (x.key id)
      ⟨⟨x.minted + 1, none, x.key id, .new⟩, false⟩).modify (x.minted + 1) f = _ := fun f =>
    ProtocolSessionManager.modify_eq_ok (hwf .new) ProtocolSessionManager.record?_insert_self f
  have hacquire : (x.sessions.insert (x.key id)
      ⟨⟨x.minted + 1, none, x.key id, .ready⟩, false⟩).acquireOperation (x.key id) = _ :=
    ProtocolSessionManager.acquireOperation_of_ready (hwf .ready)
      ProtocolSessionManager.record?_insert_self rfl rfl
  rw [ensureSession_eq_establish h hr]
  unfold establishSession
  rw [ProtocolSessionManager.establish_of_not_ready hr]
  dsimp only
  unfold initializeCached
  simp only [hc, Option.map_some]
  rcases hinit : T.initializeTransport s c.transport with ⟨e | result, t⟩
  · simp only [hinit, record_sessions, cache_sessions, ProtocolSessionManager.markFailed, hmodify]
    simp only [ProtocolSessionManager.insert_insert, fileNew, failure, withSessions, record, cache,
      Function.update_idem, SessionRecord.withState]
  · simp only [hinit, readySession, record_sessions, cache_sessions,
      ProtocolSessionManager.markReady, hmodify, ProtocolSessionManager.insert_insert]
    simp only [SessionRecord.withState, hacquire, ProtocolSessionManager.insert_insert]
    rfl

theorem callCached_eq {parsed : McpInvokeInput} (hc : x.persistent parsed.serverId = some c)
    (s : σ) (executionId : String) {result : Except McpError ToolCallResult} {t : τ}
    (hcall : T.callTool s parsed.toolName parsed.arguments executionId c.transport = (result, t)) :
    callCached T s parsed executionId x =
      some (result, (x.cache parsed.serverId (some ⟨c.number, t⟩)).record
        (.called c.number parsed.toolName (failure result))) := by
  unfold callCached
  rw [hc, Option.map_some, hcall]

/-- What an outcome does, by its fate. -/
theorem classify_eq (hwf : x.sessions.Wf x.minted)
    (hr : x.sessions.record? (x.key id) = some r) (hc : x.persistent id = some c)
    (result : Except McpError ToolCallResult) : x.classify id r.session.sessionId result =
      match fate result with
      | .keep => x.withSessions (x.sessions.insert (x.key id) { r with operationActive := false })
      | .reset => x.withSessions
          (x.sessions.insert (x.key id) { r.withState .invalid with operationActive := false })
      | .evict => ((x.withSessions (x.sessions.insert (x.key id)
          { r.withState .invalid with operationActive := false })).cache id none).record
            (.shutdown c.number) := by
  have hrelease : x.settleSessions (x.sessions.releaseOperation r.session.sessionId) =
      x.withSessions (x.sessions.insert (x.key id) { r with operationActive := false }) := by
    unfold ProtocolSessionManager.releaseOperation
    rw [ProtocolSessionManager.modify_eq_ok hwf hr]
    rfl
  have hinvalid : x.settleSessions (x.sessions.invalidate r.session.sessionId) = x.withSessions
      (x.sessions.insert (x.key id) { r.withState .invalid with operationActive := false }) := by
    unfold ProtocolSessionManager.invalidate
    rw [ProtocolSessionManager.modify_eq_ok hwf hr]
    rfl
  have hevict : ∀ m, (x.withSessions m).shutdownCached id =
      ((x.withSessions m).cache id none).record (.shutdown c.number) := by
    intro m
    unfold shutdownCached
    rw [withSessions_persistent, hc]
  unfold classify
  cases result with
  | ok r => exact hrelease
  | error e => cases e <;> simp only [fate, hrelease, hinvalid, hevict]

end stages

/-! ## What the stages keep -/

section invariants

variable {x : StdMcpExecutor τ} {id : String} {r : SessionRecord} {c : NumberedTransport τ}

/-- A session that is not ready needs no transport. -/
theorem Idle.of_not_ready (hinactive : r.operationActive = false)
    (hstate : r.session.state = .invalid ∨ r.session.state = .failed) : x.Idle id r where
  inactive := hinactive
  state := .inr hstate
  usable hready := by
    rcases hstate with h | h <;> rw [h] at hready <;> cases hready

/-- An endpoint without a transport has no ready session. -/
theorem Sound.not_ready (h : x.Sound none) (hc : x.persistent id = none)
    (hr : x.sessions.record? (x.key id) = some r) : r.session.state ≠ .ready := by
  intro hready
  obtain ⟨c, hc', -⟩ := (h.idle hr (by simp)).usable hready
  have hsome : x.persistent id = some c := hc'
  rw [hc] at hsome
  cases hsome

/-- A transport may be opened, and kept, for an endpoint without one. -/
theorem Sound.opening (h : x.Sound none) (hc : x.persistent id = none) (t : τ) :
    (({ x with opened := x.opened + 1 }.record (.opened id none)).cache id
      (some ⟨x.opened + 1, t⟩)).Sound none := by
  have hlogged := (h.leave id).next.logged (e := .opened id none) fun _ _ => trivial
  refine (hlogged.cached (by simp) ?_).close fun r hr => ?_
  · rintro _ ⟨⟩ id' c' hc' -
    exact (Nat.lt_succ_of_le (h.numbered hc')).ne
  · obtain ⟨hinactive, hstate, -⟩ := h.idle hr (by simp)
    exact .of_not_ready hinactive (hstate.resolve_left (h.not_ready hc hr))

/-- A failed opening leaves everything else as it is. -/
theorem Sound.opened_error (h : x.Sound none) (id : String) (e : McpError) :
    (x.record (.opened id (some e))).Sound none :=
  h.logged (e := .opened id (some e)) fun _ _ => trivial

/-- A ready session acquires its operation. -/
theorem Sound.acquire (h : x.Sound none) (hr : x.sessions.record? (x.key id) = some r)
    (hready : r.session.state = .ready) : ∃ c, x.persistent id = some c ∧
      (x.withSessions (x.sessions.insert (x.key id) { r with operationActive := true })).Acquired id
        { r with operationActive := true } c := by
  obtain ⟨c, hc, husable⟩ := (h.idle hr (by simp)).usable hready
  exact ⟨c, hc,
    { sound := (h.leave id).filed x.minted (h.wf.replace hr rfl rfl)
      record := ProtocolSessionManager.record?_insert_self
      ready := hready
      cached := hc
      usable := husable }⟩

/-- A new session may be filed. -/
theorem Sound.fileNew (h : x.Sound none) (id : String) (state : ProtocolSessionState)
    (active : Bool) : (x.fileNew id state active).Sound (some id) :=
  (h.leave id).filed _ ((h.wf.mono (Nat.le_succ _)).insert rfl le_rfl fun hr' hid =>
    absurd (h.wf.minted hr') (by rw [hid]; exact Nat.not_succ_le_self _))

/-- A new session acquires its operation. -/
theorem Sound.acquire_new (h : x.Sound none) (hc : x.persistent id = some c) (t : τ) :
    (((x.fileNew id .ready true).cache id (some ⟨c.number, t⟩)).record
      (.initialized c.number none)).Acquired id
        ⟨⟨x.minted + 1, none, x.key id, .ready⟩, true⟩ ⟨c.number, t⟩ where
  sound := ((h.fileNew id .ready true).recached (c := c) hc t).logged_own
    (c := ⟨c.number, t⟩) (by simp) rfl
  record := ProtocolSessionManager.record?_insert_self
  ready := rfl
  cached := by simp
  usable := since_snoc _ rfl

/-- An endpoint whose initialization failed is without transport and has a failed session. -/
theorem Sound.establish_failed (h : x.Sound none) (hc : x.persistent id = some c) (e : McpError) :
    (((x.fileNew id .failed false).record (.initialized c.number (some e))).cache id none).Sound
      none := by
  have hlogged := (h.fileNew id .failed false).logged_own (c := c) hc
    (e := .initialized c.number (some e)) rfl
  refine (hlogged.cached (by simp) (by simp)).close fun r hr => ?_
  have hrec : (x.sessions.insert (x.key id) _).record? (x.key id) = some r := hr
  obtain rfl := Option.some.inj (ProtocolSessionManager.record?_insert_self.symm.trans hrec)
  exact .of_not_ready rfl (.inr rfl)

/-- The endpoint of a call is idle again after it. -/
theorem Acquired.called (h : x.Acquired id r c) (tool : String)
    (result : Except McpError ToolCallResult) (t : τ) :
    (((x.cache id (some ⟨c.number, t⟩)).record
      (.called c.number tool (failure result))).classify id r.session.sessionId result).Sound
        none := by
  have hsound := (h.sound.recached h.cached t).logged_own (c := ⟨c.number, t⟩) (by simp)
    (e := .called c.number tool (failure result)) rfl
  rw [classify_eq hsound.wf (c := ⟨c.number, t⟩) h.record (by simp)]
  have hfiled : ∀ r' : SessionRecord, r'.session.sessionId = r.session.sessionId →
      r'.session.key = r.session.key → _ := fun r' hid hkey =>
    hsound.filed (r := r') x.minted (hsound.wf.replace h.record hid hkey)
  cases hfate : fate result with
  | keep =>
      refine (hfiled { r with operationActive := false } rfl rfl).close fun r' hr' => ?_
      obtain rfl := Option.some.inj (ProtocolSessionManager.record?_insert_self.symm.trans hr')
      refine ⟨rfl, .inl h.ready, fun _ => ⟨⟨c.number, t⟩, by simp, h.usable.snoc ?_⟩⟩
      cases hresult : failure result with
      | none => trivial
      | some e => exact fun _ => not_breaks_of_keep hfate hresult
  | reset =>
      refine (hfiled { r.withState .invalid with operationActive := false } rfl rfl).close
        fun r' hr' => ?_
      obtain rfl := Option.some.inj (ProtocolSessionManager.record?_insert_self.symm.trans hr')
      exact .of_not_ready rfl (.inl rfl)
  | evict =>
      have hclosed := ((hfiled { r.withState .invalid with operationActive := false }
        rfl rfl).cached (c := none) (by simp) (by simp)).logged (e := .shutdown c.number)
          fun _ _ => trivial
      refine hclosed.close fun r' hr' => ?_
      obtain rfl := Option.some.inj (ProtocolSessionManager.record?_insert_self.symm.trans hr')
      exact .of_not_ready rfl (.inl rfl)

end invariants

/-! ## A whole call -/

/-- What a call that leads from `x` to `x'` and added to the log what is in `added` keeps to. -/
structure CallLaw {α : Type v} (x x' : StdMcpExecutor τ) (outcome : Except Stop α)
    (added : List TransportEvent) : Prop where
  sound : x'.Sound none
  log : x'.log = x.log ++ added
  /-- It makes one call of a tool at most. -/
  once : added.countP TransportEvent.isCall ≤ 1
  /-- It makes it on a usable transport. -/
  usable : ∀ before n tool f after, added = before ++ .called n tool f :: after →
    Usable (x.log ++ before) n
  /-- Its error is one that a transport, or the opening of one, answered. -/
  answered : ∀ stop, outcome = .error stop →
    ∃ e, stop = .failed e ∧ ∃ c ∈ added, c.failure? = some e

section law

variable {α : Type v} {x x' : StdMcpExecutor τ} {outcome : Except Stop α}
  {added : List TransportEvent}

/-- A call that ended before it came to a tool. -/
theorem CallLaw.of_silent (hsound : x'.Sound none) (hlog : x'.log = x.log ++ added)
    (hsilent : ∀ c ∈ added, c.isCall = false)
    (hanswered : ∀ stop, outcome = .error stop →
      ∃ e, stop = .failed e ∧ ∃ c ∈ added, c.failure? = some e) : CallLaw x x' outcome added where
  sound := hsound
  log := hlog
  once := by
    rw [List.countP_eq_zero.mpr fun c hc => by simp [hsilent c hc]]
    exact Nat.zero_le 1
  usable before n tool f after hsplit := by
    have hcall := hsilent (.called n tool f) (by simp [hsplit])
    cases hcall
  answered := hanswered

/-- A call whose transport was not opened. -/
theorem CallLaw.opened_error (h : x.Sound none) (id : String) (e : McpError) :
    CallLaw x (x.record (.opened id (some e))) (.error (.failed e) : Except Stop α)
      [.opened id (some e)] := by
  refine .of_silent (h.opened_error id e) rfl (by simp [TransportEvent.isCall]) ?_
  rintro _ ⟨⟩
  exact ⟨e, rfl, _, List.mem_singleton_self _, rfl⟩

/-- A call that came to a tool. -/
theorem CallLaw.of_call {pre post : List TransportEvent} {n : ℕ} {tool : String}
    {result : Except McpError α} (hsound : x'.Sound none)
    (hlog : x'.log = x.log ++ (pre ++ .called n tool (failure result) :: post))
    (hpre : ∀ c ∈ pre, c.isCall = false) (hpost : ∀ c ∈ post, c.isCall = false)
    (husable : Usable (x.log ++ pre) n) :
    CallLaw x x' (result.mapError .failed) (pre ++ .called n tool (failure result) :: post) where
  sound := hsound
  log := hlog
  once := by
    have hnone : ∀ {l : List TransportEvent}, (∀ c ∈ l, c.isCall = false) →
        l.countP TransportEvent.isCall = 0 := fun h =>
      List.countP_eq_zero.mpr fun c hc => by simp [h c hc]
    rw [List.countP_append, List.countP_cons, hnone hpre, hnone hpost]
    simp [TransportEvent.isCall]
  usable before n' tool' f' after hsplit := by
    rcases append_eq_append_cons hsplit with ⟨rest, rfl⟩ | ⟨before', rfl, hrest⟩
    · cases hpre (.called n' tool' f') (by simp)
    · cases before' with
      | nil =>
          obtain ⟨hcall, -⟩ := List.cons.inj hrest
          obtain ⟨rfl, -, -⟩ := TransportEvent.called.inj hcall
          simpa using husable
      | cons c before' =>
          obtain ⟨-, rfl⟩ := List.cons.inj hrest
          cases hpost (.called n' tool' f') (by simp)
  answered stop hstop := by
    cases result with
    | ok r => cases hstop
    | error e =>
        obtain rfl : Stop.failed e = stop := Except.error.inj hstop
        exact ⟨e, rfl, .called n tool (some e), by simp [failure], rfl⟩

end law

section calls

variable {x : StdMcpExecutor τ} {r : SessionRecord} {c : NumberedTransport τ}

/-- The call of a tool, from the state in which its operation is active. -/
theorem Acquired.callLaw {parsed : McpInvokeInput} (h : x.Acquired parsed.serverId r c)
    (x₀ : StdMcpExecutor τ) (pre : List TransportEvent) (hlog : x.log = x₀.log ++ pre)
    (hpre : ∀ c ∈ pre, c.isCall = false) (s : σ) (executionId : String) :
    ∃ result x' added, callCached T s parsed executionId x = some (result, x') ∧
      CallLaw x₀ (x'.classify parsed.serverId r.session.sessionId result)
        (result.mapError .failed) added := by
  rcases hcall : T.callTool s parsed.toolName parsed.arguments executionId c.transport with
    ⟨result, t⟩
  have hsound := h.called parsed.toolName result t
  obtain ⟨post, hpost, hpostlog⟩ : ∃ post : List TransportEvent, (∀ c ∈ post, c.isCall = false) ∧
      (((x.cache parsed.serverId (some ⟨c.number, t⟩)).record (.called c.number parsed.toolName
        (failure result))).classify parsed.serverId r.session.sessionId result).log =
          x.log ++ .called c.number parsed.toolName (failure result) :: post := by
    rw [classify_eq (x := (x.cache _ _).record _) h.sound.wf (c := ⟨c.number, t⟩) h.record
      (by simp)]
    cases fate result with
    | keep => exact ⟨[], by simp, by simp⟩
    | reset => exact ⟨[], by simp, by simp⟩
    | evict => exact ⟨[.shutdown c.number], by simp [TransportEvent.isCall], by simp⟩
  refine ⟨result, _, pre ++ .called c.number parsed.toolName (failure result) :: post,
    callCached_eq h.cached s executionId hcall, .of_call hsound ?_ hpre hpost ?_⟩
  · rw [hpostlog, hlog, List.append_assoc]
  · exact hlog ▸ h.usable

/-- A call on the kept transport keeps the discipline. -/
theorem executeCached_callLaw (parsed : McpInvokeInput) (h : x.Sound none)
    (hc : x.persistent parsed.serverId = some c) (x₀ : StdMcpExecutor τ) (pre : List TransportEvent)
    (hlog : x.log = x₀.log ++ pre) (hpre : ∀ c ∈ pre, c.isCall = false) (s : σ)
    (executionId : String) : ∃ added, CallLaw x₀ (executeCached T s parsed executionId x).2
      (executeCached T s parsed executionId x).1 added := by
  unfold executeCached
  by_cases hready : ∃ r, x.sessions.record? (x.key parsed.serverId) = some r ∧
      r.session.state = .ready
  · obtain ⟨r, hr, hready⟩ := hready
    obtain ⟨c', -, hacquired⟩ := h.acquire hr hready
    obtain ⟨result, x', added, hcall, hlaw⟩ :=
      hacquired.callLaw (T := T) x₀ pre hlog hpre s executionId
    rw [ensureSession_of_ready h hr hready s]
    dsimp only
    rw [hcall]
    exact ⟨added, hlaw⟩
  · have hr : ∀ r, x.sessions.record? (x.key parsed.serverId) = some r →
        r.session.state ≠ .ready := fun r hr hs => hready ⟨r, hr, hs⟩
    rw [ensureSession_of_not_ready h hr hc s]
    rcases T.initializeTransport s c.transport with ⟨e | initialized, t⟩
    · refine ⟨pre ++ [.initialized c.number (some e)],
        .of_silent (h.establish_failed hc e) ?_ ?_ ?_⟩
      · simp [fileNew, hlog]
      · simpa [TransportEvent.isCall, or_imp, forall_and] using hpre
      · rintro _ ⟨⟩
        exact ⟨e, rfl, _, List.mem_append_right _ (List.mem_singleton_self _), rfl⟩
    · obtain ⟨result, x', added, hcall, hlaw⟩ :=
        (h.acquire_new hc t).callLaw (T := T) x₀ (pre ++ [.initialized c.number none])
          (by simp [fileNew, hlog])
          (by simpa [TransportEvent.isCall, or_imp, forall_and] using hpre) s executionId
      dsimp only
      rw [hcall]
      exact ⟨added, hlaw⟩

/-- So does the call that may have to open the transport first. -/
theorem executePersistent_callLaw (h : x.Sound none) (s : σ) (parsed : McpInvokeInput)
    (executionId : String) : ∃ added, CallLaw x (executePersistent T s parsed executionId x).2
      (executePersistent T s parsed executionId x).1 added := by
  unfold executePersistent ensureTransport openTransport
  cases hc : x.persistent parsed.serverId with
  | some c => exact executeCached_callLaw parsed h hc x [] (by simp) (by simp) s executionId
  | none =>
      cases hopen : T.opener s parsed.serverId with
      | error e => exact ⟨_, .opened_error h parsed.serverId e⟩
      | ok t =>
          exact executeCached_callLaw parsed (h.opening hc t) (c := ⟨x.opened + 1, t⟩)
            (Function.update_self _ _ _) x [.opened parsed.serverId none] rfl
            (by simp [TransportEvent.isCall]) s executionId

/-- A call on a new transport keeps the discipline. -/
theorem executeEphemeral_callLaw (h : x.Sound none) (s : σ) (parsed : McpInvokeInput)
    (executionId : String) : ∃ added, CallLaw x (executeEphemeral T s parsed executionId x).2
      (executeEphemeral T s parsed executionId x).1 added := by
  have hother : ∀ {y : StdMcpExecutor τ} {e : TransportEvent}, y.Sound none →
      y.persistent = x.persistent → e.number? = some (x.opened + 1) → (y.record e).Sound none :=
    fun hy hpersistent hnumber => hy.logged fun hc _ =>
      TransportEvent.keeps_of_number_ne fun hsame => by
        have hle := h.numbered (hpersistent ▸ hc)
        rw [hnumber, Option.some.injEq] at hsame
        omega
  unfold executeEphemeral openTransport
  cases hopen : T.opener s parsed.serverId with
  | error e => exact ⟨_, .opened_error h parsed.serverId e⟩
  | ok t =>
      have hopened : ({ x with opened := x.opened + 1 }.record
          (.opened parsed.serverId none)).Sound none := h.next.logged fun _ _ => trivial
      dsimp only
      rcases hinit : T.initializeTransport s t with ⟨e | initialized, t'⟩
      · simp only [hinit]
        refine ⟨[.opened parsed.serverId none, .initialized (x.opened + 1) (some e)],
          .of_silent (hother hopened rfl rfl) (by simp [failure])
            (by simp [TransportEvent.isCall]) ?_⟩
        rintro _ ⟨⟩
        exact ⟨e, rfl, .initialized (x.opened + 1) (some e), by simp, rfl⟩
      · rcases hcall : T.callTool s parsed.toolName parsed.arguments executionId t' with
          ⟨result, t''⟩
        simp only [hinit, hcall]
        have husable : Usable (x.log ++ [.opened parsed.serverId none,
            .initialized (x.opened + 1) none]) (x.opened + 1) := by
          rw [List.append_cons]
          exact since_snoc _ rfl
        exact ⟨[.opened parsed.serverId none, .initialized (x.opened + 1) none] ++
            .called (x.opened + 1) parsed.toolName (failure result) :: [.shutdown (x.opened + 1)],
          .of_call (hother (hother (hother hopened rfl rfl) rfl rfl) rfl rfl)
            (by simp [failure]) (by simp [TransportEvent.isCall])
            (by simp [TransportEvent.isCall]) husable⟩

variable (std : RustStd) (serde : SerdeJson) (decodeText : Json → String)

/-- A call of any endpoint either is refused for its input or keeps the discipline. -/
theorem execute_callLaw (h : x.Sound none) (s : σ) (input : McpInvokeInput)
    (executionId : String) :
    (∃ e, McpInvokeInput.fromJson std serde decodeText
        (invokeInput input.serverId input.toolName input.arguments) = .error e ∧
      execute T std serde decodeText s input executionId x = (.error (.failed e), x)) ∨
    ∃ added, CallLaw x (execute T std serde decodeText s input executionId x).2
      (execute T std serde decodeText s input executionId x).1 added := by
  unfold execute
  cases hparsed : McpInvokeInput.fromJson std serde decodeText
      (invokeInput input.serverId input.toolName input.arguments) with
  | error e => exact .inl ⟨e, rfl, rfl⟩
  | ok parsed =>
      right
      have hmap : ∀ {o : Except Stop ToolCallResult} {x' : StdMcpExecutor τ} {added},
          CallLaw x x' o added → CallLaw x x' (o.map ToolCallResult.toToolResult) added := by
        intro o x' added hlaw
        refine { hlaw with answered := fun stop hstop => hlaw.answered stop ?_ }
        cases o with
        | ok r => cases hstop
        | error e => exact congrArg Except.error (Except.error.inj hstop)
      dsimp only
      split_ifs
      · obtain ⟨added, hlaw⟩ := executePersistent_callLaw (T := T) h s parsed executionId
        exact ⟨added, hmap hlaw⟩
      · obtain ⟨added, hlaw⟩ := executeEphemeral_callLaw (T := T) h s parsed executionId
        exact ⟨added, hmap hlaw⟩

end calls

/-! ## Runs -/

/-- A step of the process: a call, or somebody else takes a session id from the counter. -/
inductive CallStep (σ : Type v)
  | execute (s : σ) (input : McpInvokeInput) (executionId : String)
  | mint

variable (T) (std : RustStd) (serde : SerdeJson) (decodeText : Json → String)

/-- One step of an executor. -/
def step (x : StdMcpExecutor τ) : CallStep σ → StdMcpExecutor τ
  | .execute s input executionId => (execute T std serde decodeText s input executionId x).2
  | .mint => { x with minted := x.minted + 1 }

/-- The executor after a sequence of steps. -/
def after (x : StdMcpExecutor τ) (steps : List (CallStep σ)) : StdMcpExecutor τ :=
  steps.foldl (step T std serde decodeText) x

variable {T}

theorem Sound.step {x : StdMcpExecutor τ} (h : x.Sound none) (a : CallStep σ) :
    (step T std serde decodeText x a).Sound none := by
  cases a with
  | execute s input executionId =>
      rcases execute_callLaw (T := T) std serde decodeText h s
        input executionId with ⟨e, -, heq⟩ | ⟨added, hlaw⟩
      · change (execute T std serde decodeText s input executionId x).2.Sound none
        rwa [heq]
      · exact hlaw.sound
  | mint =>
      exact
        { wf := h.wf.mono (Nat.le_succ _)
          numbered := h.numbered
          distinct := h.distinct
          keyed := h.keyed
          idle := fun hr hk =>
            have hidle := h.idle hr hk
            ⟨hidle.inactive, hidle.state, hidle.usable⟩ }

/-- Between two calls the registry and the cache belong together. -/
theorem Sound.after {x : StdMcpExecutor τ} (h : x.Sound none) (steps : List (CallStep σ)) :
    (after T std serde decodeText x steps).Sound none := by
  unfold StdMcpExecutor.after
  induction steps generalizing x with
  | nil => exact h
  | cons a steps ih => exact ih (h.step std serde decodeText a)

/-- **The discipline of sessions.** After every sequence of calls, a further call makes at most one
call of a tool, on a transport whose last initialization succeeded and which has had no violation,
timeout or crash since; it does not panic; its error is one that the check of its input or a
transport answered, and none of the executor's own about its sessions; and it leaves no operation
active and no ready session without a kept transport. -/
theorem execute_disciplined (T : McpTransports τ σ) (std : RustStd) (serde : SerdeJson)
    (decodeText : Json → String) (servers : String → Option ServerEndpoint) (minted : ℕ)
    (steps : List (CallStep σ)) (s : σ) (input : McpInvokeInput) (executionId : String) :
    let x := after T std serde decodeText (withOpener servers minted) steps
    let outcome := (execute T std serde decodeText s input executionId x).1
    let x' := (execute T std serde decodeText s input executionId x).2
    (∃ added, x'.log = x.log ++ added ∧
      added.countP TransportEvent.isCall ≤ 1 ∧
      (∀ before n tool f after, added = before ++ .called n tool f :: after →
        Usable (x.log ++ before) n) ∧
      ∀ e, outcome = .error (.failed e) →
        McpInvokeInput.fromJson std serde decodeText
          (invokeInput input.serverId input.toolName input.arguments) = .error e ∨
        ∃ c ∈ added, c.failure? = some e) ∧
    outcome ≠ .error .panicked ∧
    ∀ key r, x'.sessions.record? key = some r → r.operationActive = false ∧
      (r.session.state = .ready → (x'.persistent key.endpointId).isSome = true) := by
  intro x outcome x'
  have hx : x.Sound none := (sound_withOpener servers minted).after std serde decodeText steps
  have hidle : x'.Sound none → ∀ key r, x'.sessions.record? key = some r →
      r.operationActive = false ∧
        (r.session.state = .ready → (x'.persistent key.endpointId).isSome = true) := by
    intro hx' key r hr
    obtain ⟨hinactive, -, husable⟩ := hx'.idle hr (by simp)
    refine ⟨hinactive, fun hready => ?_⟩
    obtain ⟨c, hc, -⟩ := husable hready
    exact Option.isSome_of_eq_some hc
  rcases execute_callLaw (T := T) std serde decodeText hx s
    input executionId with ⟨e, hrefused, heq⟩ | ⟨added, hlaw⟩
  · have hout : outcome = .error (.failed e) := congrArg Prod.fst heq
    have hsame : x' = x := congrArg Prod.snd heq
    refine ⟨⟨[], by simp [hsame], by simp, by simp, fun e' he' => .inl ?_⟩, ?_,
      hidle (hsame ▸ hx)⟩
    · rw [hout] at he'
      cases he'
      exact hrefused
    · rw [hout]
      exact fun h => by cases h
  · refine ⟨⟨added, hlaw.log, hlaw.once, hlaw.usable, fun e he => .inr ?_⟩, fun hpanic => ?_,
      hidle hlaw.sound⟩
    · obtain ⟨e', he', hmem⟩ := hlaw.answered _ he
      cases he'
      exact hmem
    · obtain ⟨e', he', -⟩ := hlaw.answered _ hpanic
      cases he'

end StdMcpExecutor

end AuraLauncher.Mcp
