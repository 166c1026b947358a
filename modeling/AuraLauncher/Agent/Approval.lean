import AuraLauncher.Agent.Plan

/-!
# The approval gate of the agent

`approval.rs` of `launcher-ai`: the gate between a proposal and the executor. A request is for one
plan, it is decided once, and it expires.

* `ApprovalGate.request`, `ApprovalGate.decide`, `ApprovalGate.cancel` — the three operations.
* `ApprovalRequest.Grants` — the steps a decision on a request stands for.
* `decide_eq_ok_iff` — what `decide` answers: the steps of a decision on the pending request that
  comes in time, and no steps for a rejection.

The clock is an `i64` of milliseconds and wraps around, as in a release build.
-/

namespace AuraLauncher.Agent

/-- Source: `approval.rs`, `DEFAULT_TTL_MS`. -/
def defaultTtlMs : Int64 := 5 * 60 * 1000

/-- Source: `approval.rs`, `ApprovalRequest`. -/
structure ApprovalRequest where
  requestId : String
  sessionId : String
  userGoal : String
  steps : List PlanStep
  createdAtMs : Int64
  expiresAtMs : Int64

/-- Source: `approval.rs`, `Decision`. -/
inductive Decision
  | approve
  | approveEdited (doc : PlanDocument)
  | reject

/-- Source: `approval.rs`, `ApprovalDecision`. -/
structure ApprovalDecision where
  requestId : String
  decision : Decision

/-- Source: `approval.rs`, `ApprovalError`. -/
inductive ApprovalError
  | unknown
  | expired
  | alreadyDecided
  | invalidPlan (e : PlanDocumentError)
  deriving DecidableEq, Repr

/-- Source: `approval.rs`, `Pending`. -/
structure Pending where
  request : ApprovalRequest
  decided : Bool

/-- Source: `approval.rs`, `ApprovalGate`. -/
structure ApprovalGate where
  ttlMs : Int64
  seq : ℕ
  pending : Option Pending

/-- Source: `approval.rs`, `ApprovalGate::new`. -/
def ApprovalGate.new (ttlMs : Int64) : ApprovalGate := ⟨ttlMs, 0, none⟩

/-- Source: `approval.rs`, `ApprovalGate::default`. -/
def ApprovalGate.default : ApprovalGate := ⟨defaultTtlMs, 0, none⟩

/-- The request for a plan: its number in the gate is part of its id, and it expires when the time
of the gate is over. -/
def mintRequest (seq : ℕ) (ttlMs : Int64) (sessionId userGoal : String) (steps : List PlanStep)
    (nowMs : Int64) : ApprovalRequest where
  requestId := "apr-" ++ sessionId ++ "-" ++ toString seq
  sessionId := sessionId
  userGoal := userGoal
  steps := steps
  createdAtMs := nowMs
  expiresAtMs := nowMs + ttlMs

/-- The steps for a decision that comes in time, none for a rejection. Source: `approval.rs`,
`ApprovalGate::decide` (the match on the decision). -/
def ApprovalRequest.answer (request : ApprovalRequest) :
    Decision → Except ApprovalError (List PlanStep)
  | .approve => .ok request.steps
  | .approveEdited doc => (doc.validate.mapError .invalidPlan).map fun _ => doc.steps
  | .reject => .ok []

namespace ApprovalGate

variable (gate : ApprovalGate)

/-- Mints a request if a step asks for approval. Source: `approval.rs`, `ApprovalGate::request`. -/
def request (sessionId userGoal : String) (steps : List PlanStep) (nowMs : Int64) :
    Option ApprovalRequest × ApprovalGate :=
  if ¬steps.any PlanStep.requiresApproval then (none, gate)
  else
    let request := mintRequest (gate.seq + 1) gate.ttlMs sessionId userGoal steps nowMs
    (some request, { gate with seq := gate.seq + 1, pending := some ⟨request, false⟩ })

/-- The steps to execute. Source: `approval.rs`, `ApprovalGate::decide`. -/
def decide (requestId : String) (decision : Decision) (nowMs : Int64) :
    Except ApprovalError (List PlanStep) × ApprovalGate :=
  match gate.pending with
  | none => (.error .unknown, gate)
  | some pending =>
      if pending.request.requestId ≠ requestId then (.error .unknown, gate)
      else if pending.decided then (.error .alreadyDecided, gate)
      else
        -- expired or not, the request is not decided again
        let decided := { gate with pending := some { pending with decided := true } }
        if pending.request.expiresAtMs < nowMs then (.error .expired, decided)
        else (pending.request.answer decision, decided)

/-- Source: `approval.rs`, `ApprovalGate::cancel`. -/
def cancel (requestId : String) : Except ApprovalError Unit × ApprovalGate :=
  match gate.pending with
  | some pending =>
      if pending.request.requestId = requestId ∧ pending.decided = false then
        (.ok (), { gate with pending := none })
      else (.error .unknown, { gate with pending := none })
  | none => (.error .unknown, gate)

/-- The request that waits for a decision. Source: `approval.rs`,
`ApprovalGate::pending_request`. -/
def pendingRequest (nowMs : Int64) : Option ApprovalRequest :=
  (gate.pending.filter fun p => !p.decided && nowMs ≤ p.request.expiresAtMs).map Pending.request

end ApprovalGate

/-- The steps a decision on a request stands for: those of the request, or those of a valid edited
plan. A rejection stands for no steps. -/
inductive ApprovalRequest.Grants (request : ApprovalRequest) : Decision → List PlanStep → Prop
  | approve : Grants request .approve request.steps
  | edited {doc : PlanDocument} (valid : doc.validate = .ok ()) :
      Grants request (.approveEdited doc) doc.steps

theorem answer_eq_ok_iff {request : ApprovalRequest} {decision : Decision}
    {steps : List PlanStep} :
    request.answer decision = .ok steps ↔
      request.Grants decision steps ∨ decision = .reject ∧ steps = [] := by
  constructor
  · intro h
    cases decision with
    | approve =>
        cases h
        exact .inl .approve
    | approveEdited doc =>
        rw [ApprovalRequest.answer] at h
        cases hdoc : doc.validate with
        | error e =>
            rw [hdoc] at h
            cases h
        | ok u =>
            rw [hdoc] at h
            cases h
            exact .inl (.edited hdoc)
    | reject =>
        cases h
        exact .inr ⟨rfl, rfl⟩
  · rintro (h | ⟨rfl, rfl⟩)
    · cases h with
      | approve => rfl
      | edited valid =>
          rw [ApprovalRequest.answer, valid]
          rfl
    · rfl

/-- A gate that just minted a request answers a decision on it, in time, with the steps the
decision stands for, and a rejection with no steps. -/
theorem decide_eq_ok_iff {gate : ApprovalGate} {request : ApprovalRequest} {requestId : String}
    {decision : Decision} {nowMs : Int64} {steps : List PlanStep}
    (hpending : gate.pending = some ⟨request, false⟩) :
    (gate.decide requestId decision nowMs).1 = .ok steps ↔
      request.requestId = requestId ∧ ¬request.expiresAtMs < nowMs ∧
        (request.Grants decision steps ∨ decision = .reject ∧ steps = []) := by
  rw [← answer_eq_ok_iff]
  unfold ApprovalGate.decide
  rw [hpending]
  dsimp only
  rw [if_neg Bool.false_ne_true]
  split_ifs with hid hexpired
  · simp [hid]
  · simp [hexpired]
  · simp [not_not.mp hid, hexpired]

end AuraLauncher.Agent
