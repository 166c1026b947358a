import AuraLauncher.Runner.Graph
import AuraLauncher.Runner.Step

/-!
# The walk through a definition

`launcher-workflow/src/lib.rs`: `advance`, the loop that takes up one step after the other, and the
two entries of the runner, `run` and `resume`.

* `Walk` — the loop variables, the run record, the host, and the calls made so far.
* `gate`, `bindOutput` — the condition of a step and the binding of its output.
* `takeUp` — one pass through the loop for a step; `advanceLoop`, `advance` — the loop.
* `WorkflowRunner.run`, `WorkflowRunner.resume` — the entries.
* `takeUp_frame`, `advanceBody_calls`, `advanceBody_keeps` — what one pass leaves alone.
-/

namespace AuraLauncher.Runner

open AuraLauncher.Domain AuraLauncher.Lib
open AuraLauncher.Workflow (Json)

universe u

variable (std : RustStd)

/-! ## Conditions and bindings -/

/-- What the condition of a step says. -/
inductive Gate
  | pass
  | skip
  | parseError (e : ExprError)
  | evalError (e : ExprError)

/-- The value of a reference in a condition; an unknown namespace counts as not set. Source:
`lib.rs`, `advance`. -/
def conditionRef (store : VariableStore) (path : String) : Option Value :=
  match store.get std path with
  | .ok v => v
  | .error _ => none

/-- Whether a value is `true`. -/
def Value.isTrue : Value → Bool
  | .bool b => b
  | _ => false

/-- The condition gate. Source: `lib.rs`, `advance`. -/
def gate (step : WorkflowStep) (vars : Option Json) : Gate :=
  match step.condition with
  | none => .pass
  | some cond =>
      match cond.parsed std with
      | .error e => .parseError e
      | .ok e =>
          match evaluate (conditionRef std (.fromSnapshot vars)) e with
          | .error e => .evalError e
          | .ok v => if Value.isTrue v then .pass else .skip

/-- The input of a step with its templates replaced, or as it is where that fails. Source: `lib.rs`,
`execute_step`. -/
def materialized (step : WorkflowStep) (vars : Option Json) : Json :=
  match materializeInput std (.fromSnapshot vars) step.input with
  | .ok v => v
  | .error _ => step.input

/-- The value an output binding copies. Source: `lib.rs`, `advance`. -/
def boundValue (binding : OutputBinding) (output : Option Json) : Option Json :=
  output.bind fun out => if binding.source = "" then some out else jsonWalk out binding.source

/-- The variables after the output of a complete step is bound. Source: `lib.rs`, `advance`. -/
def bindOutput (step : WorkflowStep) (sr : StepRun) (vars : Option Json) :
    Except String (Option Json) :=
  match step.output with
  | none => .ok vars
  | some binding =>
      match boundValue binding sr.output with
      | none => .error ("output path not found: " ++ binding.source)
      | some v =>
          ((VariableStore.fromSnapshot vars).set std binding.target v).map VariableStore.snapshot

/-! ## The walk -/

/-- The walk through a definition: the step to take up, the passes of the current call, the run
record, the host, and all calls so far. -/
structure Walk (d : WorkflowDefinition) (σ : Type u) where
  current : Option (Fin d.steps.length)
  executed : ℕ
  run : WorkflowRun d.steps.length
  host : σ
  calls : List (Fin d.steps.length × HostCall)

variable {σ : Type u} (H : Host σ) (d : WorkflowDefinition)

namespace Walk

variable {d} (w : Walk d σ)

/-- The walk with the run of step `i` replaced. -/
def setStep (i : Fin d.steps.length) (sr : StepRun) : Walk d σ :=
  { w with run := w.run.setStep i sr }

/-- The walk with the status of the run replaced. -/
def setStatus (status : WorkflowRunStatus) : Walk d σ :=
  { w with run := { w.run with status := status } }

/-- The walk at another step. -/
def goto (next : Option (Fin d.steps.length)) : Walk d σ := { w with current := next }

/-- The walk with what `execute_step` left of step `i`. -/
def executedStep (i : Fin d.steps.length) (a : Attempt σ) : Walk d σ :=
  { w with
    run := w.run.setStep i a.sr
    host := a.host
    calls := w.calls ++ a.calls.map fun c => (i, c) }

/-- The walk with `step` as the current step of the record. -/
def enterStep (step : WorkflowStep) : Walk d σ :=
  { w with run := { w.run with currentStep := some step.stepId } }

end Walk

/-- A pass goes on with a walk, or the call returns: with an error, in which case the record is
lost, or with the record of the walk. -/
abbrev Pass (d : WorkflowDefinition) (σ : Type u) := Walk d σ ⊕ (Except String Unit × Walk d σ)

/-- What follows when `execute_step` lets the walk go on: the output binding and the transition.
Source: `lib.rs`, `advance` (the arm `StepOutcome::Next`). -/
def afterStep (i : Fin d.steps.length) (w : Walk d σ) : Pass d σ :=
  let step := d.steps.get i
  let sr := w.run.steps i
  if sr.status = .complete then
    match bindOutput std step sr w.run.variables with
    | .error e =>
        .inr (.ok (),
          (w.setStep i { sr with status := .failed, lastError := some e }).setStatus .failed)
    | .ok vars =>
        .inl (Walk.goto { w with run := { w.run with «variables» := vars } }
          (transition d i step.onSuccess))
  else .inl (w.goto (transition d i step.onFailure))

variable (gen : UInt64) (confirmed : Bool)

/-- A step that is not done and whose condition holds. Source: `lib.rs`, `advance` (the match on
`execute_step`). -/
def perform (i : Fin d.steps.length) (w : Walk d σ) : Pass d σ :=
  let step := d.steps.get i
  let result := executeStep H d step (materialized std step w.run.variables) gen confirmed
    ⟨w.run.steps i, w.host, []⟩
  let w := w.executedStep i result.2
  match result.1 with
  | .next => afterStep std d i w
  | .paused =>
      .inr (.ok (),
        { w with
          run := { w.run with status := .paused, pausedReason := some "ConfirmationRequired" } })
  | .failed => .inr (.ok (), w.setStatus .failed)

/-- One pass for step `i`. Source: `lib.rs`, `advance` (the body of the loop). -/
def takeUp (i : Fin d.steps.length) (w : Walk d σ) : Pass d σ :=
  let step := d.steps.get i
  let sr := w.run.steps i
  -- on resume a step that is done is passed over in the order of the definition
  if sr.status.isDone then .inl (w.goto (nextLinear d i))
  else
    let w := w.enterStep step
    match gate std step w.run.variables with
    | .parseError e =>
        .inr (.ok (),
          (w.setStep i
            { sr with
              status := .failed
              lastError := some ("condition error: " ++ e.text std) }).setStatus .failed)
    | .evalError e => .inr (.error ("condition error: " ++ e.text std), w)
    | .skip =>
        .inl ((w.setStep i
          { sr with status := .skipped, skipReason := some skipConditionFalse }).goto
            (transition d i step.onConditionFalse))
    | .pass => perform std H d gen confirmed i w

/-- A pending step is on a branch that was not selected. Source: `lib.rs`, `advance` (after the
loop). -/
def closeStep (sr : StepRun) : StepRun :=
  if sr.status = .pending then
    { sr with status := .skipped, skipReason := some skipBranchNotSelected }
  else sr

/-- The record at the end of the walk. Source: `lib.rs`, `advance` (after the loop). -/
def closeRun {n : ℕ} (run : WorkflowRun n) : WorkflowRun n :=
  let closed := { run with steps := fun i => closeStep (run.steps i) }
  { closed with status := if closed.AllDone then .succeeded else .failed }

/-- The walk cut off by the limit on passes. Source: `lib.rs`, `advance`. -/
def overLimit (i : Fin d.steps.length) (w : Walk d σ) : Walk d σ :=
  (w.setStep i
    { w.run.steps i with
      lastError := some
        ("max steps per run exceeded (" ++ toString maxStepsPerRun ++ ")") }).setStatus
    .failed

/-- One pass through the loop. Source: `lib.rs`, `advance`. -/
def advanceBody (w : Walk d σ) : Pass d σ :=
  match w.current with
  | none => .inr (.ok (), { w with run := closeRun w.run })
  | some i =>
      let w := { w with executed := w.executed + 1 }
      if maxStepsPerRun < w.executed then .inr (.ok (), overLimit d i w)
      else takeUp std H d gen confirmed i w

theorem afterStep_counters {i : Fin d.steps.length} {w w' : Walk d σ}
    (h : afterStep std d i w = .inl w') :
    w'.executed = w.executed ∧ w'.run.status = w.run.status := by
  unfold afterStep at h
  dsimp only at h
  split_ifs at h
  · split at h
    · cases h
    · cases h
      exact ⟨rfl, rfl⟩
  · cases h
    exact ⟨rfl, rfl⟩

/-- A pass that goes on from a step leaves the count of the passes and the status of the run. -/
theorem takeUp_counters {i : Fin d.steps.length} {w w' : Walk d σ}
    (h : takeUp std H d gen confirmed i w = .inl w') :
    w'.executed = w.executed ∧ w'.run.status = w.run.status := by
  unfold takeUp at h
  dsimp only at h
  split_ifs at h
  · cases h
    exact ⟨rfl, rfl⟩
  · split at h
    · cases h
    · cases h
    · cases h
      exact ⟨rfl, rfl⟩
    · unfold perform at h
      dsimp only at h
      split at h
      · obtain ⟨hexec, hstatus⟩ := afterStep_counters std d h
        exact ⟨hexec.trans rfl, hstatus.trans rfl⟩
      · cases h
      · cases h

/-- The loop of `advance`. The limit on passes bounds it. Source: `lib.rs`, `advance`. -/
def advanceLoop : While (Walk d σ) (Except String Unit × Walk d σ) where
  body := advanceBody std H d gen confirmed
  bound w := maxStepsPerRun - w.executed
  decreases := by
    intro w w' h
    unfold advanceBody at h
    split at h
    · cases h
    · dsimp only at h
      split_ifs at h with hlimit
      have hexec := (takeUp_counters std H d gen confirmed h).1
      dsimp only at hexec
      omega

variable {d}

/-- The walk at the start of a call. Source: `lib.rs`, `advance`. -/
def Walk.restart (w : Walk d σ) : Walk d σ :=
  { w with current := indexOf d (entryId d), executed := 0 }

variable (d)

/-- Source: `lib.rs`, `advance`. -/
def advance (w : Walk d σ) : Except String Unit × Walk d σ :=
  (advanceLoop std H d gen confirmed).run w.restart

/-! ## The entries -/

/-- The walk before the first pass of a fresh run. -/
def freshWalk (workflowRunId : String) (host : σ) : Walk d σ where
  current := none
  executed := 0
  run := { d.freshRun workflowRunId with status := .running }
  host := host
  calls := []

/-- The checks before a fresh run. Source: `lib.rs`, `WorkflowRunner::run`. -/
def admissible : Except String Unit := do
  d.validate
  match validateGraph std d with
  | .ok () => .ok ()
  | .error errors => .error ("; ".intercalate (errors.map DefinitionError.text))

/-- A fresh run: what the call returns, and the walk as it left it. Source: `lib.rs`,
`WorkflowRunner::run`. -/
def WorkflowRunner.run (workflowRunId : String) (host : σ) : Except String Unit × Walk d σ :=
  match admissible std d with
  | .error e => (.error e, freshWalk d workflowRunId host)
  | .ok () => advance std H d gen false (freshWalk d workflowRunId host)

/-- The record of a paused run when its resume starts. -/
def resumed {n : ℕ} (run : WorkflowRun n) : WorkflowRun n :=
  { run with status := .running, pausedReason := none }

/-- A resume of the run in `w`. Source: `lib.rs`, `WorkflowRunner::resume`. -/
def WorkflowRunner.resume (w : Walk d σ) : Except String Unit × Walk d σ :=
  if w.run.status = .paused then advance std H d gen true { w with run := resumed w.run }
  else (.error "only paused runs can resume", w)

/-! ## What a pass leaves alone -/

/-- The walk a pass leaves, whether it goes on or returns. -/
def Pass.walk : Pass d σ → Walk d σ := Sum.elim id Prod.snd

variable {d}

/-- What a pass for step `i` may change: the run of this step, and calls for it at the end. -/
structure Frame (i : Fin d.steps.length) (w w' : Walk d σ) : Prop where
  others : ∀ j, j ≠ i → w'.run.steps j = w.run.steps j
  calls : ∃ tail, w'.calls = w.calls ++ tail ∧ ∀ c ∈ tail, c.1 = i

theorem Frame.setStep (w : Walk d σ) (i : Fin d.steps.length) (sr : StepRun) :
    Frame i w (w.setStep i sr) :=
  ⟨fun _ hj => Function.update_of_ne hj _ _, [], by simp [Walk.setStep], by simp⟩

theorem Frame.executedStep (w : Walk d σ) (i : Fin d.steps.length) (a : Attempt σ) :
    Frame i w (w.executedStep i a) := by
  refine ⟨fun _ hj => Function.update_of_ne hj _ _, a.calls.map fun c => (i, c), rfl, ?_⟩
  intro c hc
  obtain ⟨_, _, rfl⟩ := List.mem_map.mp hc
  rfl

theorem Frame.trans {i : Fin d.steps.length} {w w' w'' : Walk d σ} (h : Frame i w w')
    (h' : Frame i w' w'') : Frame i w w'' := by
  obtain ⟨tail, hcalls, htail⟩ := h.calls
  obtain ⟨tail', hcalls', htail'⟩ := h'.calls
  refine ⟨fun j hj => (h'.others j hj).trans (h.others j hj), tail ++ tail', ?_, ?_⟩
  · rw [hcalls', hcalls, List.append_assoc]
  · intro c hc
    exact (List.mem_append.mp hc).elim (htail c) (htail' c)

/-- The loop variables and the other fields of the record do not count. -/
theorem Frame.of_eq {i : Fin d.steps.length} {w w' w'' : Walk d σ} (h : Frame i w w')
    (hsteps : w''.run.steps = w'.run.steps) (hcalls : w''.calls = w'.calls) : Frame i w w'' :=
  ⟨fun j hj => by rw [hsteps, h.others j hj], by rw [hcalls]; exact h.calls⟩

theorem afterStep_frame (i : Fin d.steps.length) (w : Walk d σ) :
    Frame i w (Pass.walk d (afterStep std d i w)) := by
  have hself : Frame i w w := ⟨fun _ _ => rfl, [], by simp, by simp⟩
  unfold afterStep
  dsimp only
  split_ifs
  · split
    · exact (Frame.setStep w i _).of_eq rfl rfl
    · exact hself.of_eq rfl rfl
  · exact hself.of_eq rfl rfl

theorem perform_frame (i : Fin d.steps.length) (w : Walk d σ) :
    Frame i w (Pass.walk d (perform std H d gen confirmed i w)) := by
  unfold perform
  dsimp only
  split
  · exact (Frame.executedStep w i _).trans (afterStep_frame std i _)
  · exact (Frame.executedStep w i _).of_eq rfl rfl
  · exact (Frame.executedStep w i _).of_eq rfl rfl

theorem afterStep_calls (i : Fin d.steps.length) (w : Walk d σ) :
    (Pass.walk d (afterStep std d i w)).calls = w.calls := by
  unfold afterStep
  dsimp only
  split_ifs
  · split <;> rfl
  · rfl

/-- A step that is performed makes the calls of `execute_step` and no others. -/
theorem perform_calls (i : Fin d.steps.length) (w : Walk d σ) :
    (Pass.walk d (perform std H d gen confirmed i w)).calls =
      w.calls ++ (executeStep H d (d.steps.get i)
        (materialized std (d.steps.get i) w.run.variables) gen confirmed
        ⟨w.run.steps i, w.host, []⟩).2.calls.map fun c => (i, c) := by
  unfold perform
  dsimp only
  split
  · rw [afterStep_calls]
    rfl
  · rfl
  · rfl

/-- A pass for a step that is done only moves on in order. -/
theorem takeUp_of_done {i : Fin d.steps.length} {w : Walk d σ}
    (h : (w.run.steps i).status.isDone = true) :
    takeUp std H d gen confirmed i w = .inl (w.goto (nextLinear d i)) := by
  unfold takeUp
  rw [if_pos h]

/-- A pass for a step that is not done changes no more than the run of this step. -/
theorem takeUp_frame {i : Fin d.steps.length} {w : Walk d σ}
    (h : (w.run.steps i).status.isDone = false) :
    Frame i w (Pass.walk d (takeUp std H d gen confirmed i w)) := by
  have henter : Frame i w (w.enterStep (d.steps.get i)) :=
    ⟨fun _ _ => rfl, [], by simp [Walk.enterStep], by simp⟩
  unfold takeUp
  dsimp only
  rw [if_neg (by simp [h])]
  split
  · exact (henter.trans (Frame.setStep _ i _)).of_eq rfl rfl
  · exact henter
  · exact (henter.trans (Frame.setStep _ i _)).of_eq rfl rfl
  · exact henter.trans (perform_frame std H gen confirmed i _)

theorem closeStep_status_of_done {sr : StepRun} (h : sr.status.isDone = true) :
    (closeStep sr).status = sr.status := by
  unfold closeStep
  split_ifs with hp
  · rw [hp] at h
    cases h
  · rfl

/-- A step that is done keeps its status in every pass. -/
theorem advanceBody_keeps (w : Walk d σ) {j : Fin d.steps.length}
    (h : (w.run.steps j).status.isDone = true) :
    ((Pass.walk d (advanceBody std H d gen confirmed w)).run.steps j).status =
      (w.run.steps j).status := by
  unfold advanceBody
  split
  · exact closeStep_status_of_done h
  · rename_i i _
    dsimp only
    split_ifs
    · show (Function.update w.run.steps i _ j).status = _
      by_cases hj : j = i
      · subst hj
        rw [Function.update_self]
      · rw [Function.update_of_ne hj]
    · cases hdone : (w.run.steps i).status.isDone with
      | true =>
          rw [takeUp_of_done std H gen confirmed (by exact hdone)]
          rfl
      | false =>
          have hframe := takeUp_frame std H gen confirmed (i := i)
            (w := { w with executed := w.executed + 1 }) hdone
          have hj : j ≠ i := by
            rintro rfl
            rw [hdone] at h
            cases h
          rw [hframe.others j hj]

/-- The calls of a pass are made for a step that is not done. -/
theorem advanceBody_calls (w : Walk d σ) :
    ∃ tail, (Pass.walk d (advanceBody std H d gen confirmed w)).calls = w.calls ++ tail ∧
      ∀ c ∈ tail, w.current = some c.1 ∧ (w.run.steps c.1).status.isDone = false := by
  unfold advanceBody
  split
  · exact ⟨[], by simp [Pass.walk], by simp⟩
  · rename_i i hcurrent
    dsimp only
    split_ifs
    · exact ⟨[], by simp [Pass.walk, overLimit, Walk.setStep, Walk.setStatus], by simp⟩
    · cases hdone : (w.run.steps i).status.isDone with
      | true =>
          rw [takeUp_of_done std H gen confirmed (by exact hdone)]
          exact ⟨[], by simp [Pass.walk, Walk.goto], by simp⟩
      | false =>
          obtain ⟨tail, hcalls, htail⟩ := (takeUp_frame std H gen confirmed (i := i)
            (w := { w with executed := w.executed + 1 }) hdone).calls
          refine ⟨tail, hcalls, fun c hc => ?_⟩
          rw [htail c hc]
          exact ⟨hcurrent, hdone⟩

/-- The executions of step `i` among the calls of a walk. -/
def executionsOf (calls : List (Fin d.steps.length × HostCall)) (i : Fin d.steps.length) : ℕ :=
  calls.countP fun c => decide (c.1 = i) && c.2.isExecute

theorem executionsOf_append_map (calls : List (Fin d.steps.length × HostCall))
    (i j : Fin d.steps.length) (added : List HostCall) :
    executionsOf (calls ++ added.map fun c => (j, c)) i =
      executionsOf calls i + if j = i then executions added else 0 := by
  unfold executionsOf executions
  rw [List.countP_append, List.countP_map]
  split_ifs with hij
  · congr 1
    refine List.countP_congr fun c _ => ?_
    simp [hij]
  · congr 1
    exact List.countP_eq_zero.mpr fun c _ => by simp [hij]

/-- The walk is about to perform step `i`: it is its turn, it is not done, and its condition
holds. -/
structure Performs (w : Walk d σ) (i : Fin d.steps.length) : Prop where
  current : w.current = some i
  limit : w.executed < maxStepsPerRun
  notDone : (w.run.steps i).status.isDone = false
  gate : gate std (d.steps.get i) w.run.variables = .pass

/-- The visit of step `i` from a walk. Source: `lib.rs`, `advance` (the call of `execute_step`). -/
def visit (w : Walk d σ) (i : Fin d.steps.length) : StepOutcome × Attempt σ :=
  executeStep H d (d.steps.get i) (materialized std (d.steps.get i) w.run.variables) gen confirmed
    ⟨w.run.steps i, w.host, []⟩

/-- The calls of a pass: none, or those of the visit of the step it performs. -/
theorem advanceBody_calls_eq (w : Walk d σ) :
    (Pass.walk d (advanceBody std H d gen confirmed w)).calls = w.calls ∨
      ∃ i, Performs std w i ∧
        (Pass.walk d (advanceBody std H d gen confirmed w)).calls =
          w.calls ++ (visit std H gen confirmed w i).2.calls.map fun c => (i, c) := by
  unfold advanceBody
  split
  · exact .inl rfl
  · rename_i i hcurrent
    dsimp only
    split_ifs with hlimit
    · exact .inl rfl
    · unfold takeUp
      dsimp only
      split_ifs with hdone
      · exact .inl rfl
      · split
        · exact .inl rfl
        · exact .inl rfl
        · exact .inl rfl
        · rename_i hgate
          exact .inr ⟨i, ⟨hcurrent, by omega, by simpa using hdone, hgate⟩,
            perform_calls std H gen confirmed i _⟩

/-- One pass executes a step at most five times more than its maximum of attempts. -/
theorem advanceBody_executionsOf_le (w : Walk d σ) (i : Fin d.steps.length) :
    executionsOf (Pass.walk d (advanceBody std H d gen confirmed w)).calls i ≤
      executionsOf w.calls i + ((maxAttempts d (d.steps.get i)).toNat + 5) := by
  rcases advanceBody_calls_eq std H gen confirmed w with heq | ⟨j, -, heq⟩
  · rw [heq]
    exact Nat.le_add_right _ _
  · rw [heq, executionsOf_append_map]
    split_ifs with hij
    · subst hij
      have hle := executeStep_executions_le H d (d.steps.get j)
        (materialized std (d.steps.get j) w.run.variables) gen confirmed
        ⟨w.run.steps j, w.host, []⟩
      exact Nat.add_le_add_left (hle.trans (by simp [executions])) _
    · omega

/-! ## The status of the run -/

theorem afterStep_inr {i : Fin d.steps.length} {w w' : Walk d σ} {r : Except String Unit}
    (h : afterStep std d i w = .inr (r, w')) : w'.run.status = .failed := by
  unfold afterStep at h
  dsimp only at h
  split_ifs at h
  split at h
  · cases h
    rfl
  · cases h

/-- A call that returns from a step leaves the run failed, or paused after a visit that was, or its
record is lost. -/
theorem takeUp_inr {i : Fin d.steps.length} {w w' : Walk d σ} {r : Except String Unit}
    (h : takeUp std H d gen confirmed i w = .inr (r, w')) :
    w'.run.status = .failed ∨
      (w'.run.status = .paused ∧
        ∃ input a, (executeStep H d (d.steps.get i) input gen confirmed a).1 = .paused) ∨
      (∃ e, r = .error e) ∧ w'.run.status = w.run.status := by
  unfold takeUp at h
  dsimp only at h
  split_ifs at h
  split at h
  · cases h
    exact .inl rfl
  · cases h
    exact .inr (.inr ⟨⟨_, rfl⟩, rfl⟩)
  · cases h
  · unfold perform at h
    dsimp only at h
    split at h
    · exact .inl (afterStep_inr std h)
    · rename_i hpaused
      cases h
      exact .inr (.inl ⟨rfl, _, _, hpaused⟩)
    · cases h
      exact .inl rfl

theorem closeRun_status {n : ℕ} {run : WorkflowRun n} (h : (closeRun run).status = .succeeded) :
    (closeRun run).AllDone := by
  unfold closeRun at h ⊢
  dsimp only at h
  split_ifs at h with hall
  exact hall

/-- **The status of a run comes from its steps**: a pass leaves the status, or ends the call with a
status that is `Succeeded` only when every step is done. -/
theorem advanceBody_status (w : Walk d σ) :
    (∀ w', advanceBody std H d gen confirmed w = .inl w' → w'.run.status = w.run.status) ∧
      ∀ r w', advanceBody std H d gen confirmed w = .inr (r, w') → w'.run.status = .succeeded →
        w'.run.AllDone ∨ w.run.status = .succeeded := by
  unfold advanceBody
  split
  · refine ⟨by rintro w' ⟨⟩, ?_⟩
    rintro r w' ⟨⟩ hs
    exact .inl (closeRun_status hs)
  · dsimp only
    split_ifs
    · refine ⟨by rintro w' ⟨⟩, ?_⟩
      rintro r w' ⟨⟩ hs
      cases hs
    · refine ⟨fun w' h => ?_, fun r w' h hs => ?_⟩
      · rw [(takeUp_counters std H d gen confirmed h).2]
      rcases takeUp_inr std H gen confirmed h with hst | ⟨hst, -⟩ | ⟨-, hst⟩
      · rw [hst] at hs
        cases hs
      · rw [hst] at hs
        cases hs
      · exact .inr (hst ▸ hs)

end AuraLauncher.Runner
