import AuraLauncher.Domain.Action
import AuraLauncher.Domain.Expr
import Mathlib.Data.Fin.Basic
import Mathlib.Logic.Function.Basic

/-!
# Workflow definitions and run records

`launcher-domain/src/workflow.rs`: the persisted objects of the workflow runner and the resolution
of failure policies.

* `WorkflowDefinition`, `WorkflowStep` — what is to be run. Declared variables and inputs are not
  read by the runner and are left out.
* `FailurePolicy`, `actionFor`, `maxAttempts` — what the runner does after a classified failure.
* `StepRun`, `WorkflowRun` — the record of a run. It has one `StepRun` for each step of its
  definition by its type, so a record of another length cannot be built.
* `WorkflowDefinition.validate`, `WorkflowDefinition.freshRun`.
-/

namespace AuraLauncher.Domain

open AuraLauncher.Workflow (Json)

/-! ## Definitions -/

/-- A logical reference to a published action. Source: `workflow.rs`, `ActionReference`. -/
structure ActionReference where
  providerId : String
  commandId : String
  actionId : String

/-- Source: `workflow.rs`, `WorkflowAction`. -/
inductive WorkflowAction
  | reference (r : ActionReference)
  | inline (d : ActionDescriptor)

/-- What the runner does after a classified failure. Source: `workflow.rs`, `FailureAction`. -/
inductive FailureAction
  | stop
  | retry
  | skip
  | reResolve
  deriving DecidableEq, Repr

/-- Source: `workflow.rs`, `WorkflowFailureClass`. -/
inductive WorkflowFailureClass
  | capabilityDenied
  | invalidInput
  | staleContext
  | timeout
  | businessError
  | protocolViolation
  | pluginUnavailable
  | commandNotFound
  | confirmationRequired
  deriving DecidableEq, Repr

/-- The overrides of the frozen failure matrix; `none` inherits. The retry policy of a timeout is
its total number of attempts. Source: `workflow.rs`, `StepFailurePolicy` and
`WorkflowFailurePolicy`, which have the same fields. -/
structure FailurePolicy where
  capabilityDenied : Option FailureAction
  staleContext : Option FailureAction
  timeout : Option UInt32
  businessError : Option FailureAction
  protocolViolation : Option FailureAction
  invalidInput : Option FailureAction
  pluginUnavailable : Option FailureAction
  commandNotFound : Option FailureAction

/-- No overrides. -/
def FailurePolicy.inherited : FailurePolicy :=
  ⟨none, none, none, none, none, none, none, none⟩

/-- The override for a class of failures; a class without a row has none. Source: `workflow.rs`,
`WorkflowFailurePolicy::action_for`. -/
def FailurePolicy.override (p : FailurePolicy) : WorkflowFailureClass → Option FailureAction
  | .capabilityDenied => p.capabilityDenied
  | .invalidInput => p.invalidInput
  | .staleContext => p.staleContext
  | .timeout => p.timeout.map fun _ => .retry
  | .businessError => p.businessError
  | .protocolViolation => p.protocolViolation
  | .pluginUnavailable => p.pluginUnavailable
  | .commandNotFound => p.commandNotFound
  | .confirmationRequired => none

/-- The frozen default matrix. Source: `workflow.rs`, `WorkflowFailurePolicy::action_for`. -/
def WorkflowFailureClass.default : WorkflowFailureClass → FailureAction
  | .staleContext => .reResolve
  | .timeout => .retry
  | .pluginUnavailable => .retry
  | _ => .stop

/-- Step override, then definition override, then the default. Source: `workflow.rs`,
`WorkflowFailurePolicy::action_for`. -/
def FailurePolicy.actionFor (p step : FailurePolicy) (c : WorkflowFailureClass) :
    FailureAction :=
  ((step.override c).or (p.override c)).getD c.default

/-- Source: `workflow.rs`, `WorkflowFailurePolicy::max_attempts`. -/
def FailurePolicy.maxAttempts (p step : FailurePolicy) : UInt32 :=
  (step.timeout.or p.timeout).getD 2

/-- A step condition, reparsed on use. Source: `workflow.rs`, `Condition`. -/
structure Condition where
  expression : String

/-- Source: `workflow.rs`, `Condition::expression`. -/
def Condition.parsed (std : RustStd) (c : Condition) : Except ExprError Expr :=
  parseExpr std c.expression

/-- Copies a path of the action result into a variable. Source: `workflow.rs`, `OutputBinding`. -/
structure OutputBinding where
  target : String
  source : String

/-- Source: `workflow.rs`, `WorkflowStep`. -/
structure WorkflowStep where
  stepId : String
  action : WorkflowAction
  input : Json
  failurePolicy : FailurePolicy
  condition : Option Condition
  output : Option OutputBinding
  onSuccess : Option String
  onFailure : Option String
  onConditionFalse : Option String

/-- Source: `workflow.rs`, `WorkflowDefinition`. -/
structure WorkflowDefinition where
  id : String
  version : UInt32
  steps : List WorkflowStep
  failurePolicy : FailurePolicy
  entryStep : Option String

/-! ## Run records -/

/-- Source: `workflow.rs`, `StepRunStatus`. -/
inductive StepRunStatus
  | pending
  | resolving
  | resolved
  | waitingForConfirmation
  | executing
  | complete
  | failed
  | skipped
  deriving DecidableEq, Repr

/-- Whether a step is `Complete` or `Skipped`. -/
def StepRunStatus.isDone : StepRunStatus → Bool
  | .complete | .skipped => true
  | _ => false

/-- Source: `workflow.rs`, `WorkflowRunStatus`. -/
inductive WorkflowRunStatus
  | created
  | running
  | paused
  | succeeded
  | failed
  | cancelled
  deriving DecidableEq, Repr

/-- One run of a step. Source: `workflow.rs`, `StepRun`. -/
structure StepRun where
  stepId : String
  status : StepRunStatus
  attempt : UInt32
  lastError : Option String
  lastExecutionId : Option String
  resolvedContextGeneration : Option UInt64
  skipReason : Option String
  output : Option Json

/-- The record of a run of a definition with `n` steps. Source: `workflow.rs`, `WorkflowRun`. -/
structure WorkflowRun (n : ℕ) where
  workflowRunId : String
  definitionId : String
  definitionVersion : UInt32
  status : WorkflowRunStatus
  pausedReason : Option String
  currentStep : Option String
  steps : Fin n → StepRun
  «variables» : Option Json

namespace WorkflowRun

variable {n : ℕ} (run : WorkflowRun n) (i : Fin n)

/-- The record with the run of step `i` replaced. -/
def setStep (sr : StepRun) : WorkflowRun n :=
  { run with steps := Function.update run.steps i sr }

@[simp] theorem setStep_steps (sr : StepRun) :
    (run.setStep i sr).steps = Function.update run.steps i sr := rfl

@[simp] theorem setStep_variables (sr : StepRun) :
    (run.setStep i sr).variables = run.variables := rfl

@[simp] theorem setStep_status (sr : StepRun) : (run.setStep i sr).status = run.status := rfl

/-- Whether every step is `Complete` or `Skipped`. -/
def AllDone : Prop := ∀ i, (run.steps i).status.isDone = true

instance : Decidable run.AllDone :=
  inferInstanceAs (Decidable (∀ i, (run.steps i).status.isDone = true))

end WorkflowRun

/-- Source: `workflow.rs`, `SKIP_BRANCH_NOT_SELECTED`. -/
def skipBranchNotSelected : String := "BranchNotSelected"

/-- Source: `workflow.rs`, `SKIP_CONDITION_FALSE`. -/
def skipConditionFalse : String := "ConditionFalse"

/-- Source: `workflow.rs`, `MAX_STEPS_PER_RUN`. -/
def maxStepsPerRun : ℕ := 1000

/-- Source: `workflow.rs`, `MAX_VARIABLES`. -/
def maxVariables : ℕ := 256

/-! ## Validation and fresh records -/

/-- The first complaint about the ids of the steps: an empty one, or one seen before. Source:
`workflow.rs`, `WorkflowDefinition::validate` (the loop). -/
def validateIds : List String → List WorkflowStep → Except String Unit
  | _, [] => .ok ()
  | seen, s :: steps =>
      if (trim s.stepId.toList).isEmpty then .error "step_id is required"
      else if seen.contains s.stepId then .error ("duplicate step_id: " ++ s.stepId)
      else validateIds (s.stepId :: seen) steps

/-- Source: `workflow.rs`, `WorkflowDefinition::validate`. -/
def WorkflowDefinition.validate (d : WorkflowDefinition) : Except String Unit :=
  if (trim d.id.toList).isEmpty then .error "workflow id is required"
  else if d.steps.isEmpty then .error "workflow must have at least one step"
  else validateIds [] d.steps

/-- The ids of the steps. -/
def WorkflowDefinition.ids (d : WorkflowDefinition) : List String := d.steps.map (·.stepId)

/-- The loop passes when the ids are not empty, pairwise different and not seen before. -/
theorem validateIds_eq_ok {seen : List String} {steps : List WorkflowStep}
    (h : validateIds seen steps = .ok ()) :
    (steps.map (·.stepId)).Nodup ∧ ∀ s ∈ steps, s.stepId ∉ seen := by
  induction steps generalizing seen with
  | nil => simp
  | cons s steps ih =>
      unfold validateIds at h
      split_ifs at h with _ hseen
      obtain ⟨hnodup, hfresh⟩ := ih h
      have hnot : s.stepId ∉ seen := by simpa using hseen
      constructor
      · rw [List.map_cons, List.nodup_cons]
        refine ⟨fun hmem => ?_, hnodup⟩
        obtain ⟨s', hs', heq⟩ := List.mem_map.mp hmem
        exact hfresh s' hs' (heq ▸ List.mem_cons_self)
      · intro s' hs'
        rcases List.mem_cons.mp hs' with rfl | hs'
        · exact hnot
        · exact fun hin => hfresh s' hs' (List.mem_cons_of_mem _ hin)

/-- A valid definition has a step, and the ids of its steps are pairwise different. -/
theorem WorkflowDefinition.validate_eq_ok {d : WorkflowDefinition} (h : d.validate = .ok ()) :
    d.steps ≠ [] ∧ d.ids.Nodup := by
  unfold WorkflowDefinition.validate at h
  split_ifs at h with _ hne
  exact ⟨by simpa using hne, (validateIds_eq_ok h).1⟩

/-- Source: `workflow.rs`, `WorkflowDefinition::fresh_run`. -/
def WorkflowDefinition.freshRun (d : WorkflowDefinition) (workflowRunId : String) :
    WorkflowRun d.steps.length where
  workflowRunId := workflowRunId
  definitionId := d.id
  definitionVersion := d.version
  status := .created
  pausedReason := none
  currentStep := none
  steps i :=
    { stepId := (d.steps.get i).stepId
      status := .pending
      attempt := 0
      lastError := none
      lastExecutionId := none
      resolvedContextGeneration := none
      skipReason := none
      output := none }
  «variables» := none

end AuraLauncher.Domain
