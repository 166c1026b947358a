import Mathlib.Tactic.Common

/-!
# The session of an agent run

`agent_session.rs`: the state of a run, the moves between states that are allowed, and the number of
turns that may be taken.

* `AgentRunStatus`, `legal`, `isTerminal` — the states and the moves between them.
* `AgentSession.transition` — a move, or the reason why there is none.
* `AgentSession.attempt` — a move whose answer is not looked at: the session is where it was if the
  move is refused.
* `AgentSession.Within` — the turns are within the budget, which every move keeps
  (`Within.attempt`).
-/

namespace AuraLauncher.Agent

/-- Source: `agent.rs`, `AgentRunStatus`. -/
inductive AgentRunStatus
  | created
  | observing
  | planning
  | executing
  | waitingForConfirmation
  | replanning
  | completed
  | failed
  | cancelled
  | budgetExhausted
  deriving DecidableEq, Repr

/-- Source: `agent_session.rs`, `is_terminal`. -/
def isTerminal : AgentRunStatus → Bool
  | .completed | .failed | .cancelled | .budgetExhausted => true
  | _ => false

/-- Source: `agent_session.rs`, `legal`. -/
def legal (src dst : AgentRunStatus) : Bool :=
  if dst = .cancelled ∨ dst = .budgetExhausted then !isTerminal src
  else
    match src, dst with
    | .created, .observing
    | .observing, .planning
    | .planning, .executing
    | .planning, .failed
    | .executing, .completed
    | .executing, .failed
    | .executing, .replanning
    | .executing, .waitingForConfirmation
    | .replanning, .planning
    | .replanning, .executing
    | .waitingForConfirmation, .executing
    | .waitingForConfirmation, .replanning => true
    | _, _ => false

/-- Source: `agent_session.rs`, `TransitionError`. -/
inductive TransitionError
  | illegal (src dst : AgentRunStatus)
  | stepBudgetExhausted
  | alreadyTerminal
  deriving DecidableEq, Repr

/-- Source: `agent_session.rs`, `AgentSession`. -/
structure AgentSession where
  sessionId : String
  state : AgentRunStatus
  turns : ℕ
  maxTurns : ℕ
  deriving DecidableEq, Repr

namespace AgentSession

/-- Source: `agent_session.rs`, `AgentSession::new`. -/
def new (sessionId : String) (maxTurns : ℕ) : AgentSession :=
  ⟨sessionId, .created, 0, max maxTurns 1⟩

/-- The session after a move, which takes a turn or not. Source: `agent_session.rs`,
`AgentSession::transition`. -/
def transition (s : AgentSession) (dst : AgentRunStatus) (consumesTurn : Bool) :
    Except TransitionError AgentSession :=
  if isTerminal s.state then .error .alreadyTerminal
  else if ¬legal s.state dst then .error (.illegal s.state dst)
  else if consumesTurn then
    if s.maxTurns ≤ s.turns then .error .stepBudgetExhausted
    else .ok { s with turns := s.turns + 1, state := dst }
  else .ok { s with state := dst }

/-- The session after `let _ = session.transition(…)`. -/
def attempt (s : AgentSession) (dst : AgentRunStatus) (consumesTurn : Bool) : AgentSession :=
  (s.transition dst consumesTurn).toOption.getD s

/-- A move that takes no turn is made if it is legal. -/
theorem attempt_of_legal {s : AgentSession} {dst : AgentRunStatus}
    (hterminal : isTerminal s.state = false) (hlegal : legal s.state dst = true) :
    s.attempt dst false = { s with state := dst } := by
  rw [attempt, transition, hterminal, if_neg Bool.false_ne_true, if_neg (by simp [hlegal]),
    if_neg Bool.false_ne_true]
  rfl

/-- A move that takes a turn is made if it is legal and a turn is left. -/
theorem attempt_of_turn {s : AgentSession} {dst : AgentRunStatus}
    (hterminal : isTerminal s.state = false) (hlegal : legal s.state dst = true)
    (hturn : s.turns < s.maxTurns) :
    s.attempt dst true = { s with turns := s.turns + 1, state := dst } := by
  rw [attempt, transition, hterminal, if_neg Bool.false_ne_true, if_neg (by simp [hlegal]),
    if_pos rfl, if_neg (Nat.not_le.mpr hturn)]
  rfl

/-- Without a turn left the session stays where it is. -/
theorem attempt_of_no_turn {s : AgentSession} {dst : AgentRunStatus}
    (hturn : s.maxTurns ≤ s.turns) : s.attempt dst true = s := by
  unfold attempt transition
  rw [if_pos rfl, if_pos hturn]
  split_ifs <;> rfl

theorem attempt_sessionId (s : AgentSession) (dst : AgentRunStatus) (consumesTurn : Bool) :
    (s.attempt dst consumesTurn).sessionId = s.sessionId := by
  unfold attempt transition
  split_ifs <;> rfl

/-- The turns taken are within `budget`, which is the budget of the session. -/
structure Within (s : AgentSession) (budget : ℕ) : Prop where
  maxTurns : s.maxTurns = budget
  turns : s.turns ≤ budget

theorem Within.attempt {s : AgentSession} {budget : ℕ} (h : s.Within budget)
    (dst : AgentRunStatus) (consumesTurn : Bool) : (s.attempt dst consumesTurn).Within budget := by
  unfold AgentSession.attempt transition
  split_ifs with _ _ _ hturn
  · exact h
  · exact h
  · refine ⟨h.maxTurns, ?_⟩
    have hlt : s.turns < s.maxTurns := Nat.not_le.mp hturn
    rw [h.maxTurns] at hlt
    exact hlt
  · exact ⟨h.maxTurns, h.turns⟩
  · exact h

end AgentSession

end AuraLauncher.Agent
