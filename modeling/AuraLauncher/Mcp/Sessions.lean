import AuraLauncher.Lib.Table
import AuraLauncher.Mcp.Protocol

/-!
# The registry of protocol sessions

`launcher-mcp/src/protocol/session.rs` and `session_manager.rs`: which protocol session there is for
an endpoint, and whether it may be used.

The registry is keyed by the identity of the session, and three of its operations look a session up
by its id, among all records. Ids come from a counter that the whole process shares; it is a natural
number here and given to `establish`. `close_for_runtime` and `purge_closed` have no caller among
the functions modelled, and the times of a session are read by none; they are left out.

* `ProtocolSessionManager` — the records, one for each key.
* `establish`, `markReady`, `markFailed`, `acquireOperation`, `releaseOperation`, `invalidate` —
  the operations.
* `ProtocolSessionManager.Wf` — ids are unique and minted, and a session stands under its key.
* `modify_eq_ok` — under `Wf` an operation by id changes the record under one key.
-/

namespace AuraLauncher.Mcp

open AuraLauncher.Lib

/-! ## Sessions -/

/-- Source: `session.rs`, `ProtocolSessionKey`. -/
structure ProtocolSessionKey where
  namespaceName : String
  endpointId : String
  profile : McpProtocolProfile
  deriving DecidableEq

/-- Source: `session.rs`, `ProtocolSessionKey::mcp`. -/
def ProtocolSessionKey.mcp (serverId : String) (profile : McpProtocolProfile) :
    ProtocolSessionKey := ⟨"mcp", serverId, profile⟩

/-- Source: `session.rs`, `ProtocolSessionState`. -/
inductive ProtocolSessionState
  | new
  | initializing
  | ready
  | invalid
  | failed
  | closed
  deriving DecidableEq, Repr

/-- Source: `session.rs`, `ProtocolSession`. -/
structure ProtocolSession where
  sessionId : ℕ
  runtimeId : Option ℕ
  key : ProtocolSessionKey
  state : ProtocolSessionState

/-- Source: `session_manager.rs`, `SessionError`. -/
inductive SessionError
  | notFound
  | keyMismatch
  | closed
  | busy
  | notRecoverable
  deriving DecidableEq

/-- Source: `session_manager.rs`, `SessionError` (`#[error]`). -/
def SessionError.text : SessionError → String
  | .notFound => "session not found"
  | .keyMismatch => "session key mismatch (cross-identity lookup refused)"
  | .closed => "session is closed and cannot be reused"
  | .busy => "session is busy with another operation"
  | .notRecoverable => "session is in a non-recoverable state"

/-- Source: `session_manager.rs`, `SessionRecord`. -/
structure SessionRecord where
  session : ProtocolSession
  operationActive : Bool

/-- The record with its session in another state. -/
def SessionRecord.withState (r : SessionRecord) (state : ProtocolSessionState) : SessionRecord :=
  { r with session := { r.session with state := state } }

/-- A record and the key it is filed under. -/
structure SessionRow where
  key : ProtocolSessionKey
  record : SessionRecord

/-- Source: `session_manager.rs`, `ProtocolSessionManager`. -/
structure ProtocolSessionManager where
  sessions : Table SessionRow.key

namespace ProtocolSessionManager

/-- Source: `session_manager.rs`, `ProtocolSessionManager::new`. -/
def new : ProtocolSessionManager := ⟨Table.empty⟩

/-- The record under a key. -/
def record? (m : ProtocolSessionManager) (key : ProtocolSessionKey) : Option SessionRecord :=
  (m.sessions.find? key).map SessionRow.record

/-- A record is filed under a key. -/
def insert (m : ProtocolSessionManager) (key : ProtocolSessionKey) (r : SessionRecord) :
    ProtocolSessionManager := ⟨m.sessions.upsert ⟨key, r⟩⟩

section insert

variable {m : ProtocolSessionManager} {key key' : ProtocolSessionKey} {r : SessionRecord}

@[simp]
theorem record?_new : new.record? key = none := rfl

@[simp]
theorem record?_insert_self : (m.insert key r).record? key = some r := by
  have hfind : (m.sessions.upsert ⟨key, r⟩).find? key = some ⟨key, r⟩ := Table.find?_upsert_self
  unfold record? insert
  rw [hfind]
  rfl

@[simp]
theorem record?_insert_of_ne (h : key' ≠ key) :
    (m.insert key r).record? key' = m.record? key' := by
  unfold record? insert
  rw [Table.find?_upsert_of_ne h]

/-- Of two records filed under one key the second remains. -/
@[simp]
theorem insert_insert {r' : SessionRecord} : (m.insert key r).insert key r' = m.insert key r' :=
  congrArg ProtocolSessionManager.mk (Table.upsert_upsert rfl)

end insert

/-! ## The operations -/

/-- The record with an id is changed. Source: `session_manager.rs`, `record_by_id`. -/
def modify (m : ProtocolSessionManager) (sessionId : ℕ) (f : SessionRecord → SessionRecord) :
    Except SessionError ProtocolSessionManager :=
  match m.sessions.first? fun row => row.record.session.sessionId == sessionId with
  | some row => .ok (m.insert row.key (f row.record))
  | none => .error .notFound

/-- The id of the session under the key, which is a new one unless an idle session is ready; the
last component is the counter of the ids. Source: `session_manager.rs`, `establish`. -/
def establish (m : ProtocolSessionManager) (key : ProtocolSessionKey) (runtimeId : Option ℕ)
    (minted : ℕ) : Except SessionError ℕ × ProtocolSessionManager × ℕ :=
  let fresh : Except SessionError ℕ × ProtocolSessionManager × ℕ :=
    (.ok (minted + 1), m.insert key ⟨⟨minted + 1, runtimeId, key, .new⟩, false⟩, minted + 1)
  match m.record? key with
  | some r =>
      if r.session.state = .ready ∧ r.operationActive = false then
        (.ok r.session.sessionId, m, minted)
      else fresh
  | none => fresh

/-- Source: `session_manager.rs`, `mark_ready`. -/
def markReady (m : ProtocolSessionManager) (sessionId : ℕ) :
    Except SessionError ProtocolSessionManager :=
  m.modify sessionId fun r => r.withState .ready

/-- Source: `session_manager.rs`, `mark_failed`. -/
def markFailed (m : ProtocolSessionManager) (sessionId : ℕ) :
    Except SessionError ProtocolSessionManager :=
  m.modify sessionId fun r => r.withState .failed

/-- Source: `session_manager.rs`, `acquire_operation`. -/
def acquireOperation (m : ProtocolSessionManager) (key : ProtocolSessionKey) :
    Except SessionError (ℕ × ProtocolSessionManager) :=
  match m.record? key with
  | none => .error .notFound
  | some r =>
      if r.session.key ≠ key then .error .keyMismatch
      else
        match r.session.state with
        | .ready =>
            if r.operationActive then .error .busy
            else .ok (r.session.sessionId, m.insert key { r with operationActive := true })
        | .closed => .error .closed
        | .invalid | .failed => .error .notRecoverable
        | .new | .initializing => .error .busy

/-- Source: `session_manager.rs`, `release_operation`. -/
def releaseOperation (m : ProtocolSessionManager) (sessionId : ℕ) :
    Except SessionError ProtocolSessionManager :=
  m.modify sessionId fun r => { r with operationActive := false }

/-- Source: `session_manager.rs`, `invalidate`. -/
def invalidate (m : ProtocolSessionManager) (sessionId : ℕ) :
    Except SessionError ProtocolSessionManager :=
  m.modify sessionId fun r => { r.withState .invalid with operationActive := false }

/-! ## What the registry keeps -/

/-- Ids are unique, none is beyond the counter, and a session stands under its own key. -/
structure Wf (m : ProtocolSessionManager) (minted : ℕ) : Prop where
  unique : ∀ {key key' r r'}, m.record? key = some r → m.record? key' = some r' →
    r.session.sessionId = r'.session.sessionId → key = key'
  minted : ∀ {key r}, m.record? key = some r → r.session.sessionId ≤ minted
  keyed : ∀ {key r}, m.record? key = some r → r.session.key = key

variable {m : ProtocolSessionManager} {minted : ℕ} {key : ProtocolSessionKey} {r : SessionRecord}

theorem wf_new (minted : ℕ) : new.Wf minted where
  unique h := by simp at h
  minted h := by simp at h
  keyed h := by simp at h

/-- Others may take ids from the counter. -/
theorem Wf.mono (h : m.Wf minted) {minted' : ℕ} (hle : minted ≤ minted') : m.Wf minted' where
  unique := h.unique
  minted hr := (h.minted hr).trans hle
  keyed := h.keyed

/-- A record may be filed under its key when no other key has its id. -/
theorem Wf.insert (h : m.Wf minted) (hkey : r.session.key = key)
    (hminted : r.session.sessionId ≤ minted)
    (hfree : ∀ {key' r'}, m.record? key' = some r' →
      r'.session.sessionId = r.session.sessionId → key' = key) :
    (m.insert key r).Wf minted := by
  have hcases : ∀ {key' r'}, (m.insert key r).record? key' = some r' →
      (key' = key ∧ r' = r) ∨ key' ≠ key ∧ m.record? key' = some r' := by
    intro key' r' hr'
    by_cases hk : key' = key
    · subst hk
      rw [record?_insert_self] at hr'
      exact .inl ⟨rfl, (Option.some.inj hr').symm⟩
    · rw [record?_insert_of_ne hk] at hr'
      exact .inr ⟨hk, hr'⟩
  constructor
  · intro key₁ key₂ r₁ r₂ h₁ h₂ hid
    rcases hcases h₁ with ⟨rfl, rfl⟩ | ⟨-, hold₁⟩ <;>
      rcases hcases h₂ with ⟨rfl, rfl⟩ | ⟨-, hold₂⟩
    · rfl
    · exact (hfree hold₂ hid.symm).symm
    · exact hfree hold₁ hid
    · exact h.unique hold₁ hold₂ hid
  · intro key' r' hr'
    rcases hcases hr' with ⟨rfl, rfl⟩ | ⟨-, hr'⟩
    · exact hminted
    · exact h.minted hr'
  · intro key' r' hr'
    rcases hcases hr' with ⟨rfl, rfl⟩ | ⟨-, hr'⟩
    · exact hkey
    · exact h.keyed hr'

/-- A record may be replaced by one with its identity. -/
theorem Wf.replace (h : m.Wf minted) (hr : m.record? key = some r) {r' : SessionRecord}
    (hid : r'.session.sessionId = r.session.sessionId) (hkey : r'.session.key = r.session.key) :
    (m.insert key r').Wf minted :=
  h.insert (hkey.trans (h.keyed hr)) (hid ▸ h.minted hr) fun hr' heq =>
    h.unique hr' hr (heq.trans hid)

/-- An operation by id changes the record under the key that has the id. -/
theorem modify_eq_ok (h : m.Wf minted) (hr : m.record? key = some r)
    (f : SessionRecord → SessionRecord) :
    m.modify r.session.sessionId f = .ok (m.insert key (f r)) := by
  obtain ⟨row, hrow, rfl⟩ := Option.map_eq_some_iff.mp hr
  obtain ⟨hmem, rfl⟩ := Table.find?_eq_some_iff.mp hrow
  unfold modify
  split
  · rename_i row' hrow'
    have hid : row'.record.session.sessionId = row.record.session.sessionId := by
      simpa using List.find?_some hrow'
    have hr' : m.record? row'.key = some row'.record :=
      Option.map_eq_some_iff.mpr
        ⟨row', Table.find?_eq_some_iff.mpr ⟨List.mem_of_find?_eq_some hrow', rfl⟩, rfl⟩
    have hsame : row' = row :=
      m.sessions.eq_of_key_eq (List.mem_of_find?_eq_some hrow') hmem (h.unique hr' hr hid)
    rw [hsame]
  · rename_i hnone
    have hne := List.find?_eq_none.mp hnone row hmem
    simp at hne

/-- A session that is not ready is replaced. -/
theorem establish_of_not_ready (h : ∀ r, m.record? key = some r → r.session.state ≠ .ready)
    (runtimeId : Option ℕ) (minted : ℕ) : m.establish key runtimeId minted =
      (.ok (minted + 1), m.insert key ⟨⟨minted + 1, runtimeId, key, .new⟩, false⟩, minted + 1) := by
  unfold establish
  dsimp only
  split
  · rename_i r hr
    rw [if_neg fun hready => h r hr hready.1]
  · rfl

/-- An idle ready session is acquired. -/
theorem acquireOperation_of_ready (h : m.Wf minted) (hr : m.record? key = some r)
    (hready : r.session.state = .ready) (hidle : r.operationActive = false) :
    m.acquireOperation key =
      .ok (r.session.sessionId, m.insert key { r with operationActive := true }) := by
  unfold acquireOperation
  simp [hr, h.keyed hr, hready, hidle]

end ProtocolSessionManager

end AuraLauncher.Mcp
