import AuraLauncher.Agent.Approval
import AuraLauncher.Agent.Pipeline
import AuraLauncher.Agent.Session
import AuraLauncher.Lib.While
import Mathlib.Logic.Function.Basic

/-!
# The agent loop

`agent_loop.rs`: one run of the agent, from the request to the state its session ends in. The model,
the executor, the approval sink, the cancel flag and the clock are not part of it: each answers by a
state `W` of the world, which every answer may change, so that nothing is assumed about when the
flag is set, what the clock shows or what the executor remembers.

* `EffectState`, `StepStatus`, `retryDecision` — the vocabulary of `execution_semantics.rs`.
* `Env`, `Run` — the world around a run, and a run with all that happened in it so far.
* `prepare` — the plan and its approval, `runSteps` — one pass over the steps, `replanLoop` — the
  passes, `runAgent` — the run.
* `Passed`, `runSteps_passed` — what one pass does.
* `replanLoop_run` — the passes are one, or two if the first fails with a settled effect.

Telemetry is left out; the answers of the clock it asks for are changes of the world.
-/

namespace AuraLauncher.Agent

open AuraLauncher.Lib
open AuraLauncher.Workflow (Json)

/-! ## What is known of a step -/

/-- Source: `execution_semantics.rs`, `CommandResult`. -/
inductive CommandResult
  | succeeded
  | failed
  | rejected
  | cancelled
  | timeout
  | unknown
  deriving DecidableEq, Repr

/-- Source: `execution_semantics.rs`, `EffectState`. -/
inductive EffectState
  | notStarted
  | started
  | completed
  | failed
  | unknown
  deriving DecidableEq, Repr

/-- Source: `execution_semantics.rs`, `StepStatus`. -/
inductive StepStatus
  | pending
  | executing
  | succeeded
  | failed
  | cancelled
  | unknown
  | skipped
  deriving DecidableEq, Repr

/-- Source: `execution_semantics.rs`, `RetryDecision`. -/
inductive RetryDecision
  | allowed
  | forbidden
  deriving DecidableEq, Repr

/-- Source: `execution_semantics.rs`, `retry_decision`. -/
def retryDecision (result : CommandResult) (effect : EffectState) (idempotent : Bool) :
    RetryDecision :=
  match effect with
  | .completed | .started => .forbidden
  | .unknown => if idempotent then .allowed else .forbidden
  | .notStarted | .failed => if result = .succeeded then .forbidden else .allowed

/-- A failed call may be repeated if its effect did not start or did not land. -/
theorem retryDecision_failed_iff {effect : EffectState} :
    retryDecision .failed effect false = .allowed ↔ effect = .notStarted ∨ effect = .failed := by
  cases effect <;> decide

/-! ## Runs -/

/-- The result of a run. Source: `agent_loop.rs`, `LoopStop`. -/
inductive LoopStop
  | completed
  | failed (stepId error : String)
  | cancelled
  deriving DecidableEq, Repr

/-- A call of the executor for a step: what it was given, in which session, what it returned and,
for a call that failed, what it reported of the effect. -/
structure Call where
  step : PlanStep
  actionRef : String
  input : Json
  session : AgentSession
  result : Except String Json
  effect : Option EffectState

/-- What happens in a run: the session after a move was tried, the plan of the pipeline, a request
with its answer, the time the gate decided at, and the calls of the executor. -/
inductive Event
  | session (s : AgentSession)
  | planned (plan : List PlanStep)
  | asked (request : ApprovalRequest) (answer : Option ApprovalDecision)
  | decided (nowMs : Int64)
  | called (call : Call)

/-- The call of an event, if it is one. -/
def Event.call? : Event → Option Call
  | .called call => some call
  | _ => none

/-- What a run asks. Source: `agent_loop.rs`, `TurnExecutor`, `ApprovalSink`, and the arguments of
`run_agent`. -/
structure Env (W : Type) where
  /-- The call of the model. -/
  llm : String → W → Except String String × W
  /-- `TurnExecutor::execute`. -/
  execute : String → Json → W → Except String Json × W
  /-- `TurnExecutor::effect_state`. -/
  effectState : String → W → EffectState × W
  /-- `ApprovalSink::request_approval`. -/
  requestApproval : ApprovalRequest → W → Option ApprovalDecision × W
  /-- The cancel flag. -/
  cancelled : W → Bool × W
  /-- `now_ms`. -/
  now : W → Int64 × W

/-- A world without memory: the model answers with some object, every call of the executor returns
`result`, a failed one with this `effect`, nobody decides on requests, and nobody cancels. -/
def Env.constant (result : Except String Json) (effect : EffectState) : Env Unit where
  llm _ w := (.ok "\x7b\x7d", w)
  execute _ _ w := (result, w)
  effectState _ w := (effect, w)
  requestApproval _ w := (none, w)
  cancelled w := (false, w)
  now w := (0, w)

/-- A run: the world, the session and what happened so far. -/
structure Run (W : Type) where
  world : W
  session : AgentSession
  events : List Event

/-- The calls of the executor so far. -/
def Run.calls {W : Type} (r : Run W) : List Call := r.events.filterMap Event.call?

namespace Run

variable {W : Type} (env : Env W) (r : Run W)

/-- `let _ = session.transition(…)`. -/
def move (dst : AgentRunStatus) (consumesTurn : Bool) : Run W :=
  let session := r.session.attempt dst consumesTurn
  { r with session, events := r.events ++ [.session session] }

/-- The cancel flag. -/
def poll : Bool × Run W :=
  let (flag, world) := env.cancelled r.world
  (flag, { r with world })

/-- The clock. -/
def clock : Int64 × Run W :=
  let (now, world) := env.now r.world
  (now, { r with world })

/-- The approval sink. -/
def ask (request : ApprovalRequest) : Option ApprovalDecision × Run W :=
  let (answer, world) := env.requestApproval request r.world
  (answer, { r with world, events := r.events ++ [.asked request answer] })

/-- The executor, and what it reports of the effect of a call that failed. -/
def execute (step : PlanStep) : Except (String × EffectState) Unit × Run W :=
  let call (result : Except String Json) (effect : Option EffectState) : Event :=
    .called ⟨step, step.actionRef, step.input, r.session, result, effect⟩
  match env.execute step.actionRef step.input r.world with
  | (.ok output, world) =>
      (.ok (), { r with world, events := r.events ++ [call (.ok output) none] })
  | (.error e, world) =>
      let (effect, world) := env.effectState step.actionRef world
      (.error (e, effect), { r with world, events := r.events ++ [call (.error e) (some effect)] })

end Run

/-- A proposal with one harmless step. -/
def oneStepProposal : AgentProposal ℕ where
  proposalId := "p"
  sessionId := "s"
  userGoal := "open app"
  intent := .open
  plan := [⟨"a", "command:app:x", .null, none, false⟩]
  confidence := 1
  explanation := none

variable {W F : Type} (env : Env W)

/-! ## The passes over the steps -/

/-- How a pass ends. -/
inductive PassEnd
  | done
  | cancelled
  | failed (stepId error : String) (effect : EffectState)

/-- The statuses of the steps so far, by step id. -/
abbrev Statuses := String → Option StepStatus

/-- Nothing is known of the steps yet. -/
def noStatus : Statuses := fun _ => none

/-- A pass: how it ended, and the statuses and the run it left. -/
structure Pass (W : Type) where
  ending : PassEnd
  status : Statuses
  run : Run W

/-- A step that is not executed again: it succeeded, or its effect is not settled. -/
def Settled (status : Statuses) (stepId : String) : Prop :=
  status stepId = some .succeeded ∨ status stepId = some .unknown

instance (status : Statuses) (stepId : String) : Decidable (Settled status stepId) :=
  inferInstanceAs (Decidable (_ ∨ _))

/-- The status of a step whose call failed. -/
def failedStatus (effect : EffectState) : StepStatus :=
  if effect = .unknown then .unknown else .failed

/-- One pass over the steps, up to the first failure. Source: `agent_loop.rs`, `run_agent` (the loop
over the steps). -/
def runSteps (status : Statuses) (r : Run W) : List PlanStep → Pass W
  | [] => ⟨.done, status, r⟩
  | step :: steps =>
      match r.poll env with
      | (true, r) => ⟨.cancelled, status, r⟩
      | (false, r) =>
          if Settled status step.stepId then runSteps status r steps
          else
            match r.execute env step with
            | (.ok (), r) =>
                runSteps (Function.update status step.stepId (some .succeeded)) r steps
            | (.error (e, effect), r) =>
                ⟨.failed step.stepId e effect,
                  Function.update status step.stepId (some (failedStatus effect)), r⟩

/-- The state of the loop over the passes. -/
structure Replanning (W : Type) where
  status : Statuses
  replanned : Bool
  attempt : ℕ
  run : Run W

/-- What follows a pass: a second pass over the same plan, if the first failed with a settled
effect. Source: `agent_loop.rs`, `run_agent` (the loop around the loop over the steps). -/
def afterPass (s : Replanning W) (p : Pass W) : Replanning W ⊕ LoopStop × Run W :=
  match p.ending with
  | .cancelled => .inr (.cancelled, p.run.move .cancelled false)
  | .done => .inr (.completed, p.run.move .completed false)
  | .failed stepId e effect =>
      if effect = .unknown then
        .inr (.failed stepId ("unsettled effect (recovery required): " ++ e),
          p.run.move .failed false)
      else if s.replanned || decide (0 < s.attempt) then
        .inr (.failed stepId e, p.run.move .failed false)
      else
        .inl ⟨p.status, true, s.attempt + 1,
          ((p.run.move .replanning false).move .planning true).move .executing false⟩

theorem afterPass_eq_inl {s s' : Replanning W} {p : Pass W} (h : afterPass s p = .inl s') :
    (∃ stepId e effect, p.ending = .failed stepId e effect ∧ effect ≠ .unknown) ∧
      s.replanned = false ∧ s' = ⟨p.status, true, s.attempt + 1,
        ((p.run.move .replanning false).move .planning true).move .executing false⟩ := by
  unfold afterPass at h
  cases hend : p.ending with
  | done =>
      rw [hend] at h
      cases h
  | cancelled =>
      rw [hend] at h
      cases h
  | failed stepId e effect =>
      rw [hend] at h
      dsimp only at h
      split_ifs at h with heffect hagain
      have hno : s.replanned = false ∧ s.attempt = 0 := by simpa using hagain
      exact ⟨⟨stepId, e, effect, rfl, heffect⟩, hno.1, (Sum.inl.inj h).symm⟩

/-- The passes over a plan. -/
def replanLoop (plan : List PlanStep) : While (Replanning W) (LoopStop × Run W) where
  body s := afterPass s (runSteps env s.status s.run plan)
  bound s := if s.replanned then 0 else 1
  decreases h := by
    obtain ⟨-, hno, rfl⟩ := afterPass_eq_inl h
    simp [hno]

/-! ## The run -/

/-- The plan that may be executed, if there is one: a plan with a step that asks for approval waits
for a decision on exactly this plan. Every other end of the gate cancels the run. Source:
`agent_loop.rs`, `run_agent` (the approval). -/
def approve (input : String) (plan : List PlanStep) (r : Run W) :
    Option (List PlanStep) × Run W :=
  if plan.any PlanStep.requiresApproval then
    let (now, r) := r.clock env
    match ApprovalGate.default.request r.session.sessionId input plan now with
    | (none, _) => (none, r)
    | (some request, gate) =>
        match r.ask env request with
        | (some decision, r) =>
            if decision.requestId = request.requestId then
              let (now, r) := r.clock env
              let r := { r with events := r.events ++ [.decided now] }
              match (gate.decide request.requestId decision.decision now).1 with
              | .ok [] => (none, r)
              | .ok (step :: steps) => (some (step :: steps), r)
              | .error _ => (none, r)
            -- the source cancels the request in a gate that it does not use again
            else (none, r)
        | (none, r) => (none, r)
  else (some plan, r)

/-- What follows the pipeline. Source: `agent_loop.rs`, `run_agent` (the match on the outcome, up to
the move to `Executing`). -/
def afterPipeline (input : String) (r : Run W) :
    Except String (PipelineOutcome F) → (LoopStop ⊕ List PlanStep) × Run W
  | .error e => (.inl (.failed "(plan)" e), r.move .failed false)
  | .ok (.clarify question _) => (.inl (.failed "(clarify)" question), r.move .failed false)
  | .ok (.proposal proposal _ _) =>
      match approve env input proposal.plan
        { r with events := r.events ++ [.planned proposal.plan] } with
      | (none, r) => (.inl .cancelled, r.move .cancelled false)
      | (some plan, r) => (.inr plan, r)

/-- The run when it begins to plan. -/
def Run.start (session : AgentSession) (w : W) : Run W :=
  ((⟨w, session, []⟩ : Run W).move .observing true).move .planning false

/-- A run up to its first step: the end of the run, or a plan to execute. Every way through the
outer loop of the source returns, so it goes round once. Source: `agent_loop.rs`, `run_agent`. -/
def prepare (std : AgentStd F) (session : AgentSession) (input context catalog : String)
    (policy : ClarificationPolicy F) (contextBudget : ℕ) (w : W) :
    (LoopStop ⊕ List PlanStep) × Run W :=
  if session.transition .observing true = .error .stepBudgetExhausted then
    (.inl (.failed "(budget)" "step budget exhausted"),
      (⟨w, session, []⟩ : Run W).move .budgetExhausted false)
  else
    match (Run.start session w).poll env with
    | (true, r) => (.inl .cancelled, r.move .cancelled false)
    | (false, r) =>
        let (outcome, world) :=
          runPipeline std env.llm input context catalog policy contextBudget r.world
        afterPipeline env input { r with world } outcome

/-- Source: `agent_loop.rs`, `run_agent`. -/
def runAgent (std : AgentStd F) (session : AgentSession) (input context catalog : String)
    (policy : ClarificationPolicy F) (contextBudget : ℕ) (w : W) : LoopStop × Run W :=
  match prepare env std session input context catalog policy contextBudget w with
  | (.inl stop, r) => (stop, r)
  | (.inr plan, r) =>
      (replanLoop env plan).run ⟨noStatus, false, 0, r.move .executing true⟩

/-- What holds of the plan that is ready, and of the run up to it. -/
theorem forall_ready_iff {plan : List PlanStep} {r : Run W}
    {P : List PlanStep → Run W → Prop} :
    (∀ plan' r', ((.inr plan, r) : (LoopStop ⊕ List PlanStep) × Run W) = (.inr plan', r') →
      P plan' r') ↔ P plan r := by
  constructor
  · exact fun h => h plan r rfl
  · rintro h plan' r' ⟨⟩
    exact h

/-! ## What a pass does -/

/-- The call returned. -/
def Call.Returned (c : Call) : Prop := (∃ output, c.result = .ok output) ∧ c.effect = none

/-- The call failed, and this was reported of its effect. -/
def Call.FailedWith (c : Call) (effect : EffectState) : Prop :=
  (∃ e, c.result = .error e) ∧ c.effect = some effect

/-- The call is of a step of the plan, with its reference and its input. -/
structure Call.Of (c : Call) (plan : List PlanStep) : Prop where
  mem : c.step ∈ plan
  actionRef : c.actionRef = c.step.actionRef
  input : c.input = c.step.input

theorem Run.execute_spec (r : Run W) (step : PlanStep) :
    ∃ c : Call, c.step = step ∧ c.Of [step] ∧ c.session = r.session ∧
      (r.execute env step).2.events = r.events ++ [.called c] ∧
      (r.execute env step).2.session = r.session ∧
      ((r.execute env step).1 = .ok () ∧ c.Returned ∨
        ∃ e effect, (r.execute env step).1 = .error (e, effect) ∧ c.FailedWith effect) := by
  have hof : ∀ c : Call, c.step = step → c.actionRef = step.actionRef → c.input = step.input →
      c.Of [step] := by
    rintro c rfl href hinput
    exact ⟨List.mem_singleton_self _, href, hinput⟩
  unfold Run.execute
  rcases env.execute step.actionRef step.input r.world with ⟨e | output, world⟩
  · exact ⟨_, rfl, hof _ rfl rfl rfl, rfl, rfl, rfl, .inr ⟨e, _, rfl, ⟨e, rfl⟩, rfl⟩⟩
  · exact ⟨_, rfl, hof _ rfl rfl rfl, rfl, rfl, rfl, .inl ⟨rfl, ⟨output, rfl⟩, rfl⟩⟩

/-- How a pass ends, by its calls: only the last can have failed, and then the pass failed. -/
inductive PassEnd.After : PassEnd → List Call → Prop
  | done {calls : List Call} (h : ∀ c ∈ calls, c.Returned) : After .done calls
  | cancelled {calls : List Call} (h : ∀ c ∈ calls, c.Returned) : After .cancelled calls
  | failed {calls : List Call} {c : Call} {e : String} {effect : EffectState}
      (h : ∀ c ∈ calls, c.Returned) (hc : c.FailedWith effect) :
      After (.failed c.step.stepId e effect) (calls ++ [c])

/-- One more call that returned, before the others. -/
theorem PassEnd.After.cons {ending : PassEnd} {calls : List Call} (h : ending.After calls)
    {c : Call} (hc : c.Returned) : ending.After (c :: calls) := by
  have hall : ∀ {cs : List Call}, (∀ c ∈ cs, c.Returned) → ∀ d ∈ c :: cs, d.Returned := by
    intro cs hcs d hd
    rcases List.mem_cons.mp hd with rfl | hd
    · exact hc
    · exact hcs d hd
  cases h with
  | done h => exact .done (hall h)
  | cancelled h => exact .cancelled (hall h)
  | failed h hc => exact .failed (hall h) hc

/-- After a failure, the last call is of the step that failed. -/
theorem PassEnd.After.exists_last {stepId e : String} {effect : EffectState} {calls : List Call}
    (h : (PassEnd.failed stepId e effect).After calls) :
    ∃ returned c, calls = returned ++ [c] ∧ (∀ d ∈ returned, d.Returned) ∧ c.FailedWith effect ∧
      c.step.stepId = stepId := by
  generalize heq : PassEnd.failed stepId e effect = ending at h
  cases h with
  | done h => cases heq
  | cancelled h => cases heq
  | failed hreturned hc =>
      obtain ⟨rfl, -, rfl⟩ := PassEnd.failed.inj heq
      exact ⟨_, _, rfl, hreturned, hc, rfl⟩

/-- What a pass from `status` and `r` does: it makes `calls`, of steps that were not settled, each
step once at most, and nothing else. -/
structure Passed (status : Statuses) (r : Run W) (steps : List PlanStep) (p : Pass W)
    (calls : List Call) : Prop where
  events : p.run.events = r.events ++ calls.map .called
  session : p.run.session = r.session
  ids : (calls.map fun c => c.step.stepId).Sublist (steps.map PlanStep.stepId)
  of : ∀ c ∈ calls, c.Of steps ∧ c.session = r.session ∧ ¬Settled status c.step.stepId
  ending : p.ending.After calls
  /-- What is settled stays so. -/
  settled : ∀ stepId, Settled status stepId → Settled p.status stepId
  /-- What returned is settled. -/
  returned : ∀ c ∈ calls, c.Returned → Settled p.status c.step.stepId
  /-- The pass gets to the step it fails at by steps that are settled. -/
  reached : ∀ stepId e effect, p.ending = .failed stepId e effect →
    p.status stepId = some (failedStatus effect) ∧
      ∃ before step after, steps = before ++ step :: after ∧ step.stepId = stepId ∧
        ∀ s ∈ before, Settled p.status s.stepId
  /-- The first call is of the first step that is not settled. -/
  first : ∀ before step after, steps = before ++ step :: after →
    (∀ s ∈ before, Settled status s.stepId) → ¬Settled status step.stepId →
    ∀ c ∈ calls.head?, c.step = step

variable {env}

theorem settled_update {status : Statuses} {stepId stepId' : String} {new : StepStatus}
    (hnew : ¬Settled status stepId') (h : Settled status stepId) :
    Settled (Function.update status stepId' (some new)) stepId := by
  have hne : stepId ≠ stepId' := fun heq => hnew (heq ▸ h)
  unfold Settled
  rw [Function.update_of_ne hne]
  exact h

/-- What is reached over settled steps is reached with one more of them in front. -/
theorem reached_cons {status : Statuses} {step : PlanStep} {steps : List PlanStep}
    {stepId : String} (hstep : Settled status step.stepId)
    (h : ∃ before s after, steps = before ++ s :: after ∧ s.stepId = stepId ∧
      ∀ t ∈ before, Settled status t.stepId) :
    ∃ before s after, step :: steps = before ++ s :: after ∧ s.stepId = stepId ∧
      ∀ t ∈ before, Settled status t.stepId := by
  obtain ⟨before, s, after, rfl, hid, hbefore⟩ := h
  refine ⟨step :: before, s, after, rfl, hid, fun t ht => ?_⟩
  rcases List.mem_cons.mp ht with rfl | ht
  · exact hstep
  · exact hbefore t ht

/-- A pass over more steps, the first of which is skipped. -/
theorem Passed.skip {status : Statuses} {r r' : Run W} {step : PlanStep} {steps : List PlanStep}
    {p : Pass W} {calls : List Call} (h : Passed status r' steps p calls)
    (hstep : Settled status step.stepId) (hevents : r'.events = r.events)
    (hsession : r'.session = r.session) : Passed status r (step :: steps) p calls where
  events := hevents ▸ h.events
  session := hsession ▸ h.session
  ids := h.ids.cons _
  of c hc := by
    obtain ⟨⟨hmem, href, hinput⟩, hs, hopen⟩ := h.of c hc
    exact ⟨⟨List.mem_cons_of_mem _ hmem, href, hinput⟩, hsession ▸ hs, hopen⟩
  ending := h.ending
  settled := h.settled
  returned := h.returned
  reached stepId e effect hend := by
    obtain ⟨hstatus, hreached⟩ := h.reached stepId e effect hend
    exact ⟨hstatus, reached_cons (h.settled _ hstep) hreached⟩
  first before s after hsplit hbefore hopen := by
    cases before with
    | nil =>
        obtain ⟨rfl, -⟩ := List.cons.inj hsplit
        exact absurd hstep hopen
    | cons b before =>
        obtain ⟨rfl, rfl⟩ := List.cons.inj hsplit
        exact h.first before s after rfl (fun t ht => hbefore t (List.mem_cons_of_mem _ ht)) hopen

/-- A pass over more steps, the first of which was executed: the call that was made is the first,
and it is of the first step that is not settled. -/
theorem first_of_execute {status : Statuses} {step : PlanStep} {steps : List PlanStep}
    {calls : List Call} {c : Call} (hopen : ¬Settled status step.stepId) (hstep : c.step = step)
    (before : List PlanStep) (s : PlanStep) (after : List PlanStep)
    (hsplit : step :: steps = before ++ s :: after)
    (hbefore : ∀ t ∈ before, Settled status t.stepId) : ∀ d ∈ (c :: calls).head?, d.step = s := by
  intro d hd
  obtain rfl : c = d := Option.some.inj hd
  cases before with
  | nil =>
      obtain ⟨rfl, -⟩ := List.cons.inj hsplit
      exact hstep
  | cons b before =>
      obtain ⟨rfl, -⟩ := List.cons.inj hsplit
      exact absurd (hbefore _ List.mem_cons_self) hopen

/-- A pass over more steps, the first of which was executed and returned. -/
theorem Passed.execute {status : Statuses} {r r' : Run W} {step : PlanStep}
    {steps : List PlanStep} {p : Pass W} {calls : List Call} {c : Call}
    (h : Passed (Function.update status step.stepId (some .succeeded)) r' steps p calls)
    (hopen : ¬Settled status step.stepId) (hc : c.Returned) (hstep : c.step = step)
    (hof : c.Of [step]) (hcs : c.session = r.session)
    (hevents : r'.events = r.events ++ [.called c]) (hsession : r'.session = r.session) :
    Passed status r (step :: steps) p (c :: calls) where
  events := by rw [h.events, hevents, List.append_assoc]; rfl
  session := hsession ▸ h.session
  ids := by
    rw [List.map_cons, List.map_cons, hstep]
    exact h.ids.cons_cons _
  of d hd := by
    rcases List.mem_cons.mp hd with rfl | hd
    · exact ⟨⟨by simp [hstep], hof.actionRef, hof.input⟩, hcs, hstep ▸ hopen⟩
    · obtain ⟨⟨hmem, href, hinput⟩, hs, hno⟩ := h.of d hd
      refine ⟨⟨List.mem_cons_of_mem _ hmem, href, hinput⟩, hsession ▸ hs, fun hsettled => ?_⟩
      exact hno (settled_update hopen hsettled)
  ending := h.ending.cons hc
  settled stepId hs := h.settled stepId (settled_update hopen hs)
  returned d hd hreturned := by
    rcases List.mem_cons.mp hd with rfl | hd
    · exact hstep ▸ h.settled _ (.inl (Function.update_self _ _ _))
    · exact h.returned d hd hreturned
  reached stepId e effect hend := by
    obtain ⟨hstatus, hreached⟩ := h.reached stepId e effect hend
    exact ⟨hstatus, reached_cons (h.settled _ (.inl (Function.update_self _ _ _))) hreached⟩
  first before s after hsplit hbefore _ :=
    first_of_execute hopen hstep before s after hsplit hbefore

/-- A pass that stops before its first call and does not fail. -/
theorem Passed.stops {status : Statuses} {r r' : Run W} {ending : PassEnd}
    (hending : ending.After []) (hevents : r'.events = r.events) (hsession : r'.session = r.session)
    (steps : List PlanStep) : Passed status r steps ⟨ending, status, r'⟩ [] where
  events := by rw [hevents]; exact (List.append_nil _).symm
  session := hsession
  ids := List.nil_sublist _
  of _ hc := absurd hc List.not_mem_nil
  ending := hending
  settled _ h := h
  returned _ hc := absurd hc List.not_mem_nil
  reached stepId e effect hend := by
    obtain rfl : ending = .failed stepId e effect := hend
    obtain ⟨returned, c, hnil, -⟩ := hending.exists_last
    exact absurd hnil.symm (List.append_ne_nil_of_right_ne_nil _ (List.cons_ne_nil _ _))
  first _ _ _ _ _ _ _ hc := absurd hc (by simp)

/-- A pass over more steps, the first of which was executed and failed. -/
theorem Passed.fails {status : Statuses} {r r' : Run W} {step : PlanStep} {c : Call} {e : String}
    {effect : EffectState} (hopen : ¬Settled status step.stepId) (hc : c.FailedWith effect)
    (hstep : c.step = step) (hof : c.Of [step]) (hcs : c.session = r.session)
    (hevents : r'.events = r.events ++ [.called c]) (hsession : r'.session = r.session)
    (steps : List PlanStep) :
    Passed status r (step :: steps)
      ⟨.failed step.stepId e effect,
        Function.update status step.stepId (some (failedStatus effect)), r'⟩ [c] where
  events := hevents
  session := hsession
  ids := by
    rw [List.map_singleton, hstep, List.map_cons]
    exact List.singleton_sublist.mpr List.mem_cons_self
  of d hd := by
    obtain rfl := List.mem_singleton.mp hd
    exact ⟨⟨by simp [hstep], hof.actionRef, hof.input⟩, hcs, hstep ▸ hopen⟩
  ending := by
    have hnone : ∀ d ∈ ([] : List Call), d.Returned := fun d hd => absurd hd List.not_mem_nil
    exact hstep ▸ .failed hnone hc
  settled _ := settled_update hopen
  returned d hd hreturned := by
    obtain rfl := List.mem_singleton.mp hd
    cases hc.2.symm.trans hreturned.2
  reached stepId e' effect' hend := by
    cases hend
    exact ⟨Function.update_self _ _ _, [], step, steps, rfl, rfl,
      fun s hs => absurd hs List.not_mem_nil⟩
  first before s after hsplit hbefore _ :=
    first_of_execute hopen hstep before s after hsplit hbefore

/-- **A pass** makes calls of steps that are not settled, and nothing else. -/
theorem runSteps_passed (env : Env W) (status : Statuses) (r : Run W) (steps : List PlanStep) :
    ∃ calls, Passed status r steps (runSteps env status r steps) calls := by
  have hnone : ∀ c ∈ ([] : List Call), c.Returned := fun c hc => absurd hc List.not_mem_nil
  induction steps generalizing status r with
  | nil => exact ⟨[], .stops (.done hnone) rfl rfl []⟩
  | cons step steps ih =>
      unfold runSteps
      rcases hpoll : r.poll env with ⟨flag, r₁⟩
      have hr₁ : r₁.events = r.events ∧ r₁.session = r.session := by
        cases hpoll
        exact ⟨rfl, rfl⟩
      cases flag with
      | true => exact ⟨[], .stops (.cancelled hnone) hr₁.1 hr₁.2 _⟩
      | false =>
          by_cases hstep : Settled status step.stepId
          · obtain ⟨calls, hcalls⟩ := ih status r₁
            simp only [if_pos hstep]
            exact ⟨calls, hcalls.skip hstep hr₁.1 hr₁.2⟩
          · simp only [if_neg hstep]
            obtain ⟨c, hcstep, hof, hcs, hevents, hsession, hanswer⟩ := r₁.execute_spec env step
            rw [hr₁.1] at hevents
            rw [hr₁.2] at hcs hsession
            rcases hexec : r₁.execute env step with ⟨answer, r₂⟩
            rw [hexec] at hevents hsession hanswer
            rcases hanswer with ⟨rfl, hc⟩ | ⟨e, effect, rfl, hc⟩
            · obtain ⟨calls, hcalls⟩ :=
                ih (Function.update status step.stepId (some .succeeded)) r₂
              exact ⟨c :: calls, hcalls.execute hstep hc hcstep hof hcs hevents hsession⟩
            · exact ⟨[c], .fails hstep hc hcstep hof hcs hevents hsession steps⟩

/-- A pass that finds the cancel flag set ends there. -/
theorem runSteps_cancelled (status : Statuses) {r : Run W} {steps : List PlanStep}
    (hne : steps ≠ []) (hflag : (env.cancelled r.world).1 = true) :
    runSteps env status r steps =
      ⟨.cancelled, status, { r with world := (env.cancelled r.world).2 }⟩ := by
  have hpoll : r.poll env = (true, { r with world := (env.cancelled r.world).2 }) :=
    Prod.ext hflag rfl
  cases steps with
  | nil => exact absurd rfl hne
  | cons step steps => rw [runSteps, hpoll]

/-- A pass whose first step is not settled begins with a call, unless the flag is set. -/
theorem exists_call_of_runSteps {status : Statuses} {r : Run W} {step : PlanStep}
    {steps : List PlanStep} (hstep : ¬Settled status step.stepId)
    (hflag : (env.cancelled r.world).1 = false) {calls : List Call}
    (hevents : (runSteps env status r (step :: steps)).run.events =
      r.events ++ calls.map .called) : calls ≠ [] := by
  rintro rfl
  have hpoll : r.poll env = (false, { r with world := (env.cancelled r.world).2 }) :=
    Prod.ext hflag rfl
  rw [List.map_nil, List.append_nil, runSteps, hpoll] at hevents
  simp only [if_neg hstep] at hevents
  obtain ⟨c, -, -, -, hcall, -, hanswer⟩ :=
    ({ r with world := (env.cancelled r.world).2 } : Run W).execute_spec env step
  rcases hexec : ({ r with world := (env.cancelled r.world).2 } : Run W).execute env step with
    ⟨answer, r₂⟩
  rw [hexec] at hcall hanswer hevents
  rcases hanswer with ⟨rfl, -⟩ | ⟨e, effect, rfl, -⟩
  · obtain ⟨calls', hcalls'⟩ := runSteps_passed env
      (Function.update status step.stepId (some .succeeded)) r₂ steps
    rw [hcalls'.events, hcall, List.append_assoc] at hevents
    simp at hevents
  · rw [hcall] at hevents
    simp at hevents

/-- The cancel flag is set at one of the reads before the steps up to the one with this id. -/
def CancelledUpTo (env : Env W) (stepId : String) : List PlanStep → W → Prop
  | [], _ => False
  | step :: steps, w =>
      (env.cancelled w).1 = true ∨
        step.stepId ≠ stepId ∧ CancelledUpTo env stepId steps (env.cancelled w).2

/-- A pass that comes to `step` by steps that are settled makes no call exactly if it is cancelled
up to there. -/
theorem calls_eq_nil_iff {status : Statuses} {before after : List PlanStep} {step : PlanStep}
    (hbefore : ∀ s ∈ before, Settled status s.stepId) (hopen : ¬Settled status step.stepId)
    (r : Run W) {calls : List Call}
    (hevents : (runSteps env status r (before ++ step :: after)).run.events =
      r.events ++ calls.map .called) :
    calls = [] ↔ CancelledUpTo env step.stepId (before ++ step :: after) r.world := by
  have hcancelled : ∀ {r : Run W} {steps : List PlanStep}, steps ≠ [] →
      (env.cancelled r.world).1 = true →
      (runSteps env status r steps).run.events = r.events ++ calls.map .called → calls = [] := by
    intro r steps hne hflag hevents
    rw [runSteps_cancelled status hne hflag] at hevents
    simpa using hevents
  induction before generalizing r with
  | nil =>
      cases hflag : (env.cancelled r.world).1 with
      | true => exact iff_of_true (hcancelled (List.cons_ne_nil _ _) hflag hevents) (.inl hflag)
      | false =>
          refine iff_of_false (exists_call_of_runSteps hopen hflag hevents) ?_
          rintro (hset | ⟨hne, -⟩)
          · cases hset.symm.trans hflag
          · exact hne rfl
  | cons s before ih =>
      cases hflag : (env.cancelled r.world).1 with
      | true => exact iff_of_true (hcancelled (List.cons_ne_nil _ _) hflag hevents) (.inl hflag)
      | false =>
          have hs := hbefore s List.mem_cons_self
          have hne : s.stepId ≠ step.stepId := fun heq => hopen (heq ▸ hs)
          have hpoll : r.poll env = (false, { r with world := (env.cancelled r.world).2 }) :=
            Prod.ext hflag rfl
          have hskip : runSteps env status r (s :: (before ++ step :: after)) =
              runSteps env status { r with world := (env.cancelled r.world).2 }
                (before ++ step :: after) := by
            rw [runSteps, hpoll]
            exact if_pos hs
          rw [List.cons_append, hskip] at hevents
          refine (ih (fun t ht => hbefore t (List.mem_cons_of_mem _ ht)) _ hevents).trans ?_
          simp [CancelledUpTo, hflag, hne]

/-! ## What a run does -/

/-- The state of the session that goes with a result. -/
def LoopStop.status : LoopStop → AgentRunStatus
  | .completed => .completed
  | .failed _ _ => .failed
  | .cancelled => .cancelled

/-- The moves before the second pass. -/
def Run.replan (r : Run W) : Run W :=
  ((r.move .replanning false).move .planning true).move .executing false

/-- The state of the session that goes with the end of a pass that is the last. -/
def PassEnd.status : PassEnd → AgentRunStatus
  | .done => .completed
  | .failed _ _ _ => .failed
  | .cancelled => .cancelled

theorem afterPass_eq_inr {s : Replanning W} {p : Pass W} {stop : LoopStop} {r : Run W}
    (h : afterPass s p = .inr (stop, r)) :
    stop.status = p.ending.status ∧ r = p.run.move stop.status false := by
  unfold afterPass at h
  cases hend : p.ending with
  | done =>
      rw [hend] at h
      cases h
      exact ⟨rfl, rfl⟩
  | cancelled =>
      rw [hend] at h
      cases h
      exact ⟨rfl, rfl⟩
  | failed stepId e effect =>
      rw [hend] at h
      dsimp only at h
      split_ifs at h with heffect hagain
      · cases h
        exact ⟨rfl, rfl⟩
      · cases h
        exact ⟨rfl, rfl⟩

/-- A pass that is not the second goes on to it if it fails with a settled effect. -/
theorem afterPass_eq_inr_first {r r' : Run W} {p : Pass W} {stop : LoopStop}
    (h : afterPass ⟨noStatus, false, 0, r⟩ p = .inr (stop, r')) {stepId e : String}
    {effect : EffectState} (hend : p.ending = .failed stepId e effect) : effect = .unknown := by
  by_contra heffect
  unfold afterPass at h
  rw [hend] at h
  dsimp only at h
  rw [if_neg heffect] at h
  cases h

/-- The loop over the passes: one pass, or two if the first fails with a settled effect. -/
inductive LoopRun (env : Env W) (plan : List PlanStep) (r : Run W) : LoopStop × Run W → Prop
  | once {stop : LoopStop} {calls : List Call}
      (h : Passed noStatus r plan (runSteps env noStatus r plan) calls)
      (hstop : stop.status = (runSteps env noStatus r plan).ending.status)
      (hend : ∀ stepId e effect,
        (runSteps env noStatus r plan).ending = .failed stepId e effect → effect = .unknown) :
      LoopRun env plan r (stop, (runSteps env noStatus r plan).run.move stop.status false)
  | twice {stop : LoopStop} {p p' : Pass W} {calls calls' : List Call} {stepId e : String}
      {effect : EffectState} (h : Passed noStatus r plan p calls)
      (hp : p = runSteps env noStatus r plan) (hend : p.ending = .failed stepId e effect)
      (heffect : effect ≠ .unknown) (h' : Passed p.status p.run.replan plan p' calls')
      (hp' : p' = runSteps env p.status p.run.replan plan) :
      LoopRun env plan r (stop, p'.run.move stop.status false)

theorem replanLoop_run (env : Env W) (plan : List PlanStep) (r : Run W) :
    LoopRun env plan r ((replanLoop env plan).run ⟨noStatus, false, 0, r⟩) := by
  obtain ⟨calls, hcalls⟩ := runSteps_passed env noStatus r plan
  have hbody : (replanLoop env plan).body ⟨noStatus, false, 0, r⟩ =
      afterPass ⟨noStatus, false, 0, r⟩ (runSteps env noStatus r plan) := rfl
  rcases hafter : afterPass ⟨noStatus, false, 0, r⟩ (runSteps env noStatus r plan) with
    s' | ⟨stop, r'⟩
  · rw [(replanLoop env plan).run_of_inl (hbody.trans hafter)]
    obtain ⟨⟨stepId, e, effect, hend, heffect⟩, -, rfl⟩ := afterPass_eq_inl hafter
    -- the second pass cannot be followed by a third
    obtain ⟨calls', hcalls'⟩ := runSteps_passed env
      (runSteps env noStatus r plan).status (runSteps env noStatus r plan).run.replan plan
    rcases hlast : (replanLoop env plan).body ⟨(runSteps env noStatus r plan).status, true, 0 + 1,
        (runSteps env noStatus r plan).run.replan⟩ with s'' | ⟨stop, r'⟩
    · obtain ⟨-, hno, -⟩ := afterPass_eq_inl hlast
      cases hno
    · have hrun := (replanLoop env plan).run_of_inr hlast
      obtain ⟨-, rfl⟩ := afterPass_eq_inr hlast
      have hstop : LoopRun env plan r (stop, _) := .twice hcalls rfl hend heffect hcalls' rfl
      exact hrun ▸ hstop
  · rw [(replanLoop env plan).run_of_inr (hbody.trans hafter)]
    obtain ⟨hstop, rfl⟩ := afterPass_eq_inr hafter
    exact .once hcalls hstop fun _ _ _ hend => afterPass_eq_inr_first hafter hend

end AuraLauncher.Agent
