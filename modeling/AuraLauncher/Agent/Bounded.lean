import AuraLauncher.Agent.Session
import AuraLauncher.Lib.While
import AuraLauncher.Workflow.Json

/-!
# The bounded agent

`agent.rs` and `proposal.rs`: the loop that observes, plans and executes turn by turn, within its
budgets. The host and the planner are parameters that answer by a state `W` of the world, in which
each has its own; the commands of the catalog are of any type, since the loop hands them to the
planner only.

* `ActionProposal`, `ReplanContext`, `ActionPlanner` — what is proposed, and what a planner sees of
  the failures. `ActionPlanner.withDefaultReplan` is a planner with the default `replan`.
* `BudgetController` — the budgets.
* `runProposals` — one turn: the proposals handed to the host, one at a time.
* `boundedLoop`, `runBoundedAgent` — the turns, and the run.
* `Turned`, `runProposals_turned` — what one turn does.
-/

namespace AuraLauncher.Agent

open AuraLauncher.Lib
open AuraLauncher.Workflow (Json)

/-! ## Proposals and planners -/

/-- Source: `proposal.rs`, `ActionProposal`. -/
structure ActionProposal where
  providerId : String
  commandId : String
  actionId : String
  input : Json

/-- The command and action ids of the proposals that failed. Source: `proposal.rs`,
`ReplanContext`. -/
structure ReplanContext where
  failed : List (String × String)
  deriving DecidableEq, Repr

/-- Source: `proposal.rs`, `ActionPlanner`. -/
structure ActionPlanner (C W : Type) where
  plan : String → List C → W → List ActionProposal × W
  replan : String → List C → ReplanContext → W → List ActionProposal × W

variable {C W : Type}

/-- The planner that only says how to plan. Source: `proposal.rs`, `ActionPlanner::replan` (the
default). -/
def ActionPlanner.withDefaultReplan (plan : String → List C → W → List ActionProposal × W) :
    ActionPlanner C W where
  plan := plan
  replan input catalog observation w :=
    let (proposals, w) := plan input catalog w
    (proposals.filter fun p => !observation.failed.contains (p.commandId, p.actionId), w)

/-! ## Budgets -/

/-- Source: `agent.rs`, `AgentLimits`; the wall time is in milliseconds. -/
structure AgentLimits where
  maxTurns : ℕ
  maxProposalsPerTurn : ℕ
  maxTotalExecutions : ℕ
  maxFailures : ℕ
  maxReplans : ℕ
  maxWallTimeMs : ℕ
  deriving DecidableEq, Repr

/-- Source: `agent.rs`, `AgentLimits::default`. -/
def AgentLimits.default : AgentLimits := ⟨8, 8, 16, 4, 4, 300000⟩

/-- Source: `agent.rs`, `BudgetVerdict`. -/
inductive BudgetVerdict
  | continue
  | exhausted (which : String)
  deriving DecidableEq, Repr

/-- Source: `agent.rs`, `BudgetController`. -/
structure BudgetController where
  limits : AgentLimits
  turns : ℕ
  proposals : ℕ
  executions : ℕ
  failures : ℕ
  replans : ℕ
  deriving DecidableEq, Repr

namespace BudgetController

/-- Source: `agent.rs`, `BudgetController::new`. -/
def new (limits : AgentLimits) : BudgetController := ⟨limits, 0, 0, 0, 0, 0⟩

variable (b : BudgetController)

/-- Source: `agent.rs`, `BudgetController::can_start_turn`. -/
def canStartTurn (elapsedMs : ℕ) : BudgetVerdict :=
  if b.limits.maxTurns ≤ b.turns then .exhausted "max_turns"
  else if b.limits.maxWallTimeMs ≤ elapsedMs then .exhausted "max_wall_time"
  else .continue

/-- Source: `agent.rs`, `BudgetController::can_execute`. -/
def canExecute : BudgetVerdict :=
  if b.limits.maxTotalExecutions ≤ b.executions then .exhausted "max_total_executions"
  else if b.limits.maxFailures ≤ b.failures then .exhausted "max_failures"
  else .continue

/-- Source: `agent.rs`, `BudgetController::can_replan`. -/
def canReplan : BudgetVerdict :=
  if b.limits.maxReplans ≤ b.replans then .exhausted "max_replans" else .continue

/-- Source: `agent.rs`, `BudgetController::record_turn`. -/
def recordTurn : BudgetController := { b with turns := b.turns + 1 }

/-- Source: `agent.rs`, `BudgetController::record_proposals`. -/
def recordProposals (n : ℕ) : BudgetController := { b with proposals := b.proposals + n }

/-- Source: `agent.rs`, `BudgetController::record_execution`. -/
def recordExecution : BudgetController := { b with executions := b.executions + 1 }

/-- Source: `agent.rs`, `BudgetController::record_failure`. -/
def recordFailure : BudgetController := { b with failures := b.failures + 1 }

/-- Source: `agent.rs`, `BudgetController::record_replan`. -/
def recordReplan : BudgetController := { b with replans := b.replans + 1 }

theorem executions_lt_of_canExecute {b : BudgetController} (h : b.canExecute = .continue) :
    b.executions < b.limits.maxTotalExecutions := by
  unfold canExecute at h
  split_ifs at h with hexecutions
  exact Nat.not_le.mp hexecutions

theorem turns_lt_of_canStartTurn {b : BudgetController} {elapsedMs : ℕ}
    (h : b.canStartTurn elapsedMs = .continue) : b.turns < b.limits.maxTurns := by
  unfold canStartTurn at h
  split_ifs at h with hturns
  exact Nat.not_le.mp hturns

end BudgetController

/-! ## The host and the turns -/

/-- What the loop reads of a record of the host. Source: `agent.rs`, `ExecutionRecord`. -/
structure ExecutionRecord where
  executionId : Option String
  ok : Bool
  deriving DecidableEq, Repr

/-- Source: `agent.rs`, `AgentTurnRecord`. -/
structure AgentTurnRecord where
  turn : ℕ
  objective : String
  proposalCount : ℕ
  executed : List String
  failed : List String
  deriving DecidableEq, Repr

/-- Source: `agent.rs`, `AgentExecutionHost`; and the wall clock. -/
structure AgentExecutionHost (C W : Type) where
  catalog : W → List C × W
  execute : List ActionProposal → W → List ExecutionRecord × W
  confirmationRequired : ActionProposal → W → Bool × W
  /-- `Instant::elapsed`. -/
  elapsedMs : W → ℕ × W

/-- A proposal that was handed to the host, with the records it returned. -/
structure Handed where
  proposal : ActionProposal
  records : List ExecutionRecord

/-- The ids of the records of a success, or of a failure. -/
def recordIds (ok : Bool) (records : List ExecutionRecord) : List String :=
  (records.filter fun r => r.ok = ok).map fun r => r.executionId.getD ""

/-- The records that the host returned. -/
def returned (handed : List Handed) : List ExecutionRecord := handed.flatMap Handed.records

/-- A turn: the budgets, the failures seen so far, the ids of this turn, and all that was handed to
the host in the run. -/
structure Turn (W : Type) where
  budget : BudgetController
  observation : ReplanContext
  executed : List String
  failed : List String
  needsConfirmation : Bool
  world : W
  handed : List Handed

/-- What a record changes. Source: `agent.rs`, `run_bounded_agent` (the loop over the records). -/
def Turn.note (p : ActionProposal) (t : Turn W) (r : ExecutionRecord) : Turn W :=
  if r.ok then { t with executed := t.executed ++ [r.executionId.getD ""] }
  else
    { t with
      failed := t.failed ++ [r.executionId.getD ""]
      observation := ⟨t.observation.failed ++ [(p.commandId, p.actionId)]⟩ }

variable (host : AgentExecutionHost C W)

/-- The proposal is handed to the host. -/
def Turn.hand (t : Turn W) (p : ActionProposal) : Turn W :=
  let (records, world) := host.execute [p] t.world
  records.foldl (Turn.note p)
    { t with
      budget := t.budget.recordExecution
      world := world
      handed := t.handed ++ [⟨p, records⟩] }

/-- The proposals of a turn in turn, until one needs confirmation or a budget is used up.
Source: `agent.rs`, `run_bounded_agent` (the loop over the proposals). -/
def runProposals (t : Turn W) : List ActionProposal → Turn W
  | [] => t
  | p :: proposals =>
      match host.confirmationRequired p t.world with
      | (true, world) => { t with needsConfirmation := true, world }
      | (false, world) =>
          if t.budget.canExecute ≠ .continue then { t with world }
          else runProposals (Turn.hand host { t with world } p) proposals

/-- The state of the loop over the turns. -/
structure AgentState (W : Type) where
  budget : BudgetController
  turnRecords : List AgentTurnRecord
  status : AgentRunStatus
  observation : ReplanContext
  isReplan : Bool
  world : W
  handed : List Handed

/-- Source: `agent.rs`, `AgentRunOutcome`; with all that was handed to the host. -/
structure AgentRunOutcome where
  status : AgentRunStatus
  turns : ℕ
  executions : ℕ
  failures : ℕ
  replans : ℕ
  turnRecords : List AgentTurnRecord
  handed : List Handed

/-- The end of a run. Source: `agent.rs`, `run_bounded_agent` (after the loop). -/
def AgentState.outcome (s : AgentState W) : AgentRunOutcome where
  status := if s.status = .created ∨ s.status = .replanning then .failed else s.status
  turns := s.budget.turns
  executions := s.budget.executions
  failures := s.budget.failures
  replans := s.budget.replans
  turnRecords := s.turnRecords
  handed := s.handed

variable (planner : ActionPlanner C W) (goal : String)

/-- The proposals of a turn: those of a plan, or of a replan from the second turn on.
Source: `agent.rs`, `run_bounded_agent` (the plan). -/
def AgentState.proposals (s : AgentState W) (catalog : List C) (world : W) :
    List ActionProposal × W :=
  let (proposals, world) :=
    if s.isReplan then planner.replan goal catalog s.observation world
    else planner.plan goal catalog world
  (proposals.take s.budget.limits.maxProposalsPerTurn, world)

/-- The turn with these proposals, up to its end. -/
def AgentState.turn (s : AgentState W) (proposals : List ActionProposal) (world : W) : Turn W :=
  runProposals host
    ⟨s.budget.recordTurn.recordProposals proposals.length, s.observation, [], [], false, world,
      s.handed⟩ proposals

/-- What follows a turn. Source: `agent.rs`, `run_bounded_agent` (after the loop over the
proposals). -/
def AgentState.afterTurn (s : AgentState W) (proposals : List ActionProposal) (t : Turn W) :
    AgentState W ⊕ AgentRunOutcome :=
  let s := { s with world := t.world, handed := t.handed, observation := t.observation }
  if t.needsConfirmation then
    .inr { s with budget := t.budget, status := .waitingForConfirmation }.outcome
  else
    let budget := if t.failed = [] then t.budget else t.budget.recordFailure
    let record : AgentTurnRecord :=
      ⟨budget.turns, goal, proposals.length, t.executed, t.failed⟩
    let s := { s with turnRecords := s.turnRecords ++ [record] }
    if t.failed = [] ∧ t.executed.length = proposals.length then
      .inr { s with budget, status := .completed }.outcome
    else if budget.canReplan ≠ .continue then
      .inr { s with budget, status := .budgetExhausted }.outcome
    else .inl { s with budget := budget.recordReplan, status := .replanning, isReplan := true }

/-- The plan of the turn that comes next, from a fresh catalog, and the world after it. -/
def AgentState.nextPlan (s : AgentState W) : List ActionProposal × W :=
  let (catalog, world) := host.catalog (host.elapsedMs s.world).2
  s.proposals planner goal catalog world

/-- The proposals of the turn that comes next. -/
def AgentState.nextProposals (s : AgentState W) : List ActionProposal :=
  (s.nextPlan host planner goal).1

/-- The turn that comes next. -/
def AgentState.nextTurn (s : AgentState W) : Turn W :=
  s.turn host (s.nextProposals host planner goal) (s.nextPlan host planner goal).2

/-- A turn starts. -/
def AgentState.Starts (s : AgentState W) : Prop :=
  s.budget.canStartTurn (host.elapsedMs s.world).1 = .continue

/-- One round of the loop. Source: `agent.rs`, `run_bounded_agent` (the body of the loop). -/
def AgentState.round (s : AgentState W) : AgentState W ⊕ AgentRunOutcome :=
  if s.budget.canStartTurn (host.elapsedMs s.world).1 ≠ .continue then .inr s.outcome
  else if s.nextProposals host planner goal = [] then
    .inr { s with
      budget := s.budget.recordTurn.recordProposals 0, status := .completed }.outcome
  else s.afterTurn goal (s.nextProposals host planner goal) (s.nextTurn host planner goal)

/-! ## What a turn does -/

theorem Turn.note_frame (p : ActionProposal) (t : Turn W) (r : ExecutionRecord) :
    (t.note p r).handed = t.handed ∧ (t.note p r).budget = t.budget := by
  unfold Turn.note
  split_ifs <;> exact ⟨rfl, rfl⟩

theorem Turn.foldl_note_frame (p : ActionProposal) (t : Turn W) (rs : List ExecutionRecord) :
    (rs.foldl (Turn.note p) t).handed = t.handed ∧
      (rs.foldl (Turn.note p) t).budget = t.budget := by
  induction rs generalizing t with
  | nil => exact ⟨rfl, rfl⟩
  | cons r rs ih =>
      obtain ⟨hhanded, hbudget⟩ := ih (t.note p r)
      obtain ⟨hh, hb⟩ := t.note_frame p r
      exact ⟨hhanded.trans hh, hbudget.trans hb⟩

/-- Every record is noted, in its turn. -/
theorem Turn.foldl_note_ids (p : ActionProposal) (t : Turn W) (rs : List ExecutionRecord) :
    (rs.foldl (Turn.note p) t).executed = t.executed ++ recordIds true rs ∧
      (rs.foldl (Turn.note p) t).failed = t.failed ++ recordIds false rs := by
  induction rs generalizing t with
  | nil => simp [recordIds]
  | cons r rs ih =>
      rw [List.foldl_cons, (ih _).1, (ih _).2]
      unfold Turn.note recordIds
      cases hr : r.ok with
      | true => simp [hr]
      | false => simp [hr]

/-- The observation has what it had, and the ids of the proposal if one of the records is of a
failure; nothing leaves it. -/
theorem Turn.mem_foldl_note (p : ActionProposal) (t : Turn W) (rs : List ExecutionRecord)
    (ids : String × String) :
    ids ∈ (rs.foldl (Turn.note p) t).observation.failed ↔
      ids ∈ t.observation.failed ∨ (∃ r ∈ rs, r.ok = false) ∧ ids = (p.commandId, p.actionId) := by
  induction rs generalizing t with
  | nil => simp
  | cons r rs ih =>
      rw [List.foldl_cons, ih]
      unfold Turn.note
      cases hr : r.ok with
      | true => simp [hr]
      | false =>
          simp only [hr, Bool.false_eq_true, if_false, List.mem_append, List.mem_cons,
            exists_eq_or_imp, true_or, true_and]
          tauto

theorem Turn.hand_spec (t : Turn W) (p : ActionProposal) :
    ∃ records, (t.hand host p).handed = t.handed ++ [⟨p, records⟩] ∧
      (t.hand host p).budget = t.budget.recordExecution ∧
      ((t.hand host p).executed = t.executed ++ recordIds true records ∧
        (t.hand host p).failed = t.failed ++ recordIds false records) ∧
      ∀ ids, ids ∈ (t.hand host p).observation.failed ↔ ids ∈ t.observation.failed ∨
        (∃ r ∈ records, r.ok = false) ∧ ids = (p.commandId, p.actionId) := by
  refine ⟨(host.execute [p] t.world).1, ?_, ?_, ?_, fun ids => ?_⟩
  · exact (Turn.foldl_note_frame p _ _).1
  · exact (Turn.foldl_note_frame p _ _).2
  · exact Turn.foldl_note_ids p _ _
  · exact Turn.mem_foldl_note p _ _ ids

/-- What a turn does: it hands `new` to the host, which are of the first proposals in turn and
within the budget, and it notes every record. -/
structure Turned (t : Turn W) (proposals : List ActionProposal) (t' : Turn W) (new : List Handed) :
    Prop where
  handed : t'.handed = t.handed ++ new
  proposals : new.map Handed.proposal <+: proposals
  budget : t'.budget.limits = t.budget.limits ∧ t'.budget.turns = t.budget.turns
  executions : t'.budget.executions = t.budget.executions + new.length
  bounded : t.budget.executions ≤ t.budget.limits.maxTotalExecutions →
    t'.budget.executions ≤ t.budget.limits.maxTotalExecutions
  executed : t'.executed = t.executed ++ recordIds true (returned new)
  failed : t'.failed = t.failed ++ recordIds false (returned new)
  kept : ∀ ids ∈ t.observation.failed, ids ∈ t'.observation.failed
  noted : ∀ h ∈ new, ∀ r ∈ h.records, r.ok = false →
    (h.proposal.commandId, h.proposal.actionId) ∈ t'.observation.failed

variable {host planner goal}

/-- A turn that hands nothing to the host. -/
theorem Turned.none {t t' : Turn W} {proposals : List ActionProposal}
    (hhanded : t'.handed = t.handed) (hbudget : t'.budget = t.budget)
    (hobs : t'.observation = t.observation)
    (hids : t'.executed = t.executed ∧ t'.failed = t.failed) : Turned t proposals t' [] where
  handed := by rw [hhanded, List.append_nil]
  proposals := List.nil_prefix
  budget := by rw [hbudget]; exact ⟨rfl, rfl⟩
  executions := by rw [hbudget]; rfl
  bounded h := by rw [hbudget]; exact h
  executed := hids.1.trans (List.append_nil _).symm
  failed := hids.2.trans (List.append_nil _).symm
  kept ids h := by rw [hobs]; exact h
  noted h hh := absurd hh List.not_mem_nil

theorem runProposals_turned (host : AgentExecutionHost C W) (t : Turn W)
    (proposals : List ActionProposal) :
    ∃ new, Turned t proposals (runProposals host t proposals) new := by
  induction proposals generalizing t with
  | nil =>
      exact ⟨[], .none rfl rfl rfl ⟨rfl, rfl⟩⟩
  | cons p proposals ih =>
      have hstop : ∀ t' : Turn W, t'.handed = t.handed → t'.budget = t.budget →
          t'.observation = t.observation → t'.executed = t.executed ∧ t'.failed = t.failed →
          ∃ new, Turned t (p :: proposals) t' new :=
        fun t' hhanded hbudget hobs hids => ⟨[], .none hhanded hbudget hobs hids⟩
      unfold runProposals
      rcases host.confirmationRequired p t.world with ⟨flag, world⟩
      cases flag with
      | true => exact hstop _ rfl rfl rfl ⟨rfl, rfl⟩
      | false =>
          dsimp only
          split_ifs with hbudget
          · exact hstop _ rfl rfl rfl ⟨rfl, rfl⟩
          · obtain ⟨records, hhanded, hspent, ⟨hexec, hfail⟩, hfailed⟩ :=
              Turn.hand_spec host { t with world } p
            obtain ⟨new, hnew⟩ := ih (Turn.hand host { t with world } p)
            refine ⟨⟨p, records⟩ :: new, ?_, ?_, ?_, ?_, fun _ => ?_, ?_, ?_, fun ids hids => ?_,
              ?_⟩
            · rw [hnew.handed, hhanded, List.append_assoc]
              rfl
            · exact List.cons_prefix_cons.mpr ⟨rfl, hnew.proposals⟩
            · rw [hnew.budget.1, hnew.budget.2, hspent]
              exact ⟨rfl, rfl⟩
            · rw [hnew.executions, hspent, List.length_cons]
              simp only [BudgetController.recordExecution]
              omega
            · -- there was room for one more
              have hroom := BudgetController.executions_lt_of_canExecute (not_not.mp hbudget)
              have hbound := hnew.bounded
              rw [hspent] at hbound
              exact hbound hroom
            · rw [hnew.executed, hexec, List.append_assoc]
              simp [recordIds, returned]
            · rw [hnew.failed, hfail, List.append_assoc]
              simp [recordIds, returned]
            · exact hnew.kept ids ((hfailed ids).mpr (.inl hids))
            · intro h hh r hr hfail
              rcases List.mem_cons.mp hh with rfl | hh
              · exact hnew.kept _ ((hfailed _).mpr (.inr ⟨⟨r, hr, hfail⟩, rfl⟩))
              · exact hnew.noted h hh r hr hfail

/-! ## The loop over the turns -/

theorem nextTurn_turned (host : AgentExecutionHost C W) (planner : ActionPlanner C W)
    (goal : String) (s : AgentState W) :
    ∃ new, (s.nextTurn host planner goal).handed = s.handed ++ new ∧
      Turned ⟨s.budget.recordTurn.recordProposals (s.nextProposals host planner goal).length,
          s.observation, [], [], false, (s.nextPlan host planner goal).2, s.handed⟩
        (s.nextProposals host planner goal) (s.nextTurn host planner goal) new := by
  obtain ⟨new, hnew⟩ := runProposals_turned host
    ⟨s.budget.recordTurn.recordProposals (s.nextProposals host planner goal).length,
      s.observation, [], [], false, (s.nextPlan host planner goal).2, s.handed⟩
    (s.nextProposals host planner goal)
  exact ⟨new, hnew.handed, hnew⟩

/-- What a round does: the run ends with what was handed to the host before, or a turn starts. -/
theorem round_cases (host : AgentExecutionHost C W) (planner : ActionPlanner C W) (goal : String)
    (s : AgentState W) :
    (∃ o, s.round host planner goal = .inr o ∧ o.handed = s.handed ∧
        (s.Starts host → s.nextProposals host planner goal = [])) ∨
      s.Starts host ∧ s.round host planner goal =
        s.afterTurn goal (s.nextProposals host planner goal) (s.nextTurn host planner goal) := by
  unfold AgentState.round
  by_cases hstart : s.budget.canStartTurn (host.elapsedMs s.world).1 = .continue
  · rw [if_neg (not_not.mpr hstart)]
    by_cases hnil : s.nextProposals host planner goal = []
    · rw [if_pos hnil]
      exact .inl ⟨_, rfl, rfl, fun _ => hnil⟩
    · rw [if_neg hnil]
      exact .inr ⟨hstart, rfl⟩
  · rw [if_pos hstart]
    exact .inl ⟨_, rfl, rfl, fun h => absurd h hstart⟩

/-- What follows a turn: the run ends with what was handed to the host, or a replan begins. -/
theorem afterTurn_cases (goal : String) (s : AgentState W) (proposals : List ActionProposal)
    (t : Turn W) :
    (∃ o, s.afterTurn goal proposals t = .inr o ∧ o.handed = t.handed) ∨
      ∃ s', s.afterTurn goal proposals t = .inl s' ∧ s'.handed = t.handed ∧ s'.isReplan = true ∧
        s'.observation = t.observation ∧ s'.budget.limits = t.budget.limits ∧
        s'.budget.turns = t.budget.turns := by
  have hspent : (if t.failed = [] then t.budget else t.budget.recordFailure).limits =
      t.budget.limits ∧
      (if t.failed = [] then t.budget else t.budget.recordFailure).turns = t.budget.turns := by
    split_ifs <;> exact ⟨rfl, rfl⟩
  unfold AgentState.afterTurn
  dsimp only
  generalize (if t.failed = [] then t.budget else t.budget.recordFailure) = budget at hspent ⊢
  split_ifs
  · exact .inl ⟨_, rfl, rfl⟩
  · exact .inl ⟨_, rfl, rfl⟩
  · exact .inl ⟨_, rfl, rfl⟩
  · exact .inr ⟨_, rfl, rfl, rfl, rfl, hspent.1, hspent.2⟩

/-- A round that goes on was a turn, and a replan follows. -/
theorem round_eq_inl {s s' : AgentState W} (h : s.round host planner goal = .inl s') :
    s.Starts host ∧ s'.handed = (s.nextTurn host planner goal).handed ∧ s'.isReplan = true ∧
      s'.observation = (s.nextTurn host planner goal).observation ∧
      s'.budget.limits = s.budget.limits ∧ s'.budget.turns = s.budget.turns + 1 := by
  rcases round_cases host planner goal s with ⟨o, hstop, -⟩ | ⟨hstart, hturn⟩
  · rw [hstop] at h
    cases h
  · rw [hturn] at h
    obtain ⟨new, -, hnew⟩ := nextTurn_turned host planner goal s
    rcases afterTurn_cases goal s (s.nextProposals host planner goal)
      (s.nextTurn host planner goal) with
      ⟨o, ho, -⟩ | ⟨s'', hs'', hhanded, hreplan, hobs, hlimits, hturns⟩
    · rw [ho] at h
      cases h
    · rw [hs''] at h
      cases h
      exact ⟨hstart, hhanded, hreplan, hobs, hlimits.trans hnew.budget.1,
        hturns.trans hnew.budget.2⟩

variable (host planner goal)

/-- The loop over the turns. -/
def boundedLoop : While (AgentState W) AgentRunOutcome where
  body := AgentState.round host planner goal
  bound s := s.budget.limits.maxTurns - s.budget.turns
  decreases h := by
    obtain ⟨hstart, -, -, -, hlimits, hturns⟩ := round_eq_inl h
    have hlt := BudgetController.turns_lt_of_canStartTurn hstart
    rw [hlimits, hturns]
    omega

/-- The state a run begins in. -/
def AgentState.init (limits : AgentLimits) (w : W) : AgentState W :=
  ⟨.new limits, [], .created, ⟨[]⟩, false, w, []⟩

/-- Source: `agent.rs`, `run_bounded_agent`. -/
def runBoundedAgent (limits : AgentLimits) (w : W) : AgentRunOutcome :=
  (boundedLoop host planner goal).run (.init limits w)

end AuraLauncher.Agent
