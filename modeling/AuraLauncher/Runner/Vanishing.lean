import AuraLauncher.Runner.Session

/-!
# Calls that lose their record

`launcher-workflow/src/lib.rs`: what `run` and `resume` return once the host has been asked to
execute something. Every way out of the loop of `advance` leaves a record, except that the error of
a condition is passed on with `?`, and the record is dropped with it; an error in the templates of
an input is not seen at all, the input is taken as it stands.

* `RunnerCall` — a call of the runner, and its moments.
* `ConditionErrs`, `TemplateErrs` — the step at hand has a condition, or an input, that cannot be
  evaluated.
* `advanceBody_inr` — the ways out of the loop.
* `NeverVanishes`, `neverVanishes` — what is asked of a call after an effect, and when it holds.
-/

namespace AuraLauncher.Runner

open AuraLauncher.Domain AuraLauncher.Lib

universe u

variable (std : RustStd) {σ : Type u} (H : Host σ) {d : WorkflowDefinition} (gen : UInt64)

/-! ## Calls and their moments -/

/-- A call of the runner: a fresh run, or the resume of the run of a walk. -/
inductive RunnerCall (d : WorkflowDefinition) (σ : Type u)
  | run (workflowRunId : String) (host : σ)
  | resume (w : Walk d σ)

/-- The executions the host was asked for. -/
def Walk.effects (w : Walk d σ) : ℕ := w.calls.countP fun c => c.2.isExecute

namespace RunnerCall

/-- The walk before the call. -/
def before : RunnerCall d σ → Walk d σ
  | run workflowRunId host => freshWalk d workflowRunId host
  | resume w => w

/-- Whether the call counts as a confirmation. -/
def confirms : RunnerCall d σ → Bool
  | run _ _ => false
  | resume _ => true

/-- What the call returns, and the walk as it left it. Source: `lib.rs`, `WorkflowRunner::run` and
`WorkflowRunner::resume`. -/
def result : RunnerCall d σ → Except String Unit × Walk d σ
  | run workflowRunId host => WorkflowRunner.run std H d gen workflowRunId host
  | resume w => WorkflowRunner.resume std H d gen w

/-- The call is accepted, and its loop begins with this walk. -/
def Begins : RunnerCall d σ → Walk d σ → Prop
  | run workflowRunId host, w =>
      admissible std d = .ok () ∧ w = (freshWalk d workflowRunId host).restart
  | resume w', w =>
      w'.run.status = .paused ∧ w = ({ w' with run := resumed w'.run } : Walk d σ).restart

/-- A walk that the loop of the call meets. -/
def Moment (c : RunnerCall d σ) (t : Walk d σ) : Prop :=
  ∃ w, c.Begins std w ∧ (advanceLoop std H d gen c.confirms).Reaches w t

/-- An accepted call returns what its loop does. -/
theorem Begins.result_eq {c : RunnerCall d σ} {w : Walk d σ} (h : c.Begins std w) :
    c.result std H gen = (advanceLoop std H d gen c.confirms).run w := by
  cases c with
  | run workflowRunId host =>
      obtain ⟨hadm, rfl⟩ := h
      show WorkflowRunner.run std H d gen workflowRunId host = _
      unfold WorkflowRunner.run
      rw [hadm]
      rfl
  | resume w' =>
      obtain ⟨hpaused, rfl⟩ := h
      show WorkflowRunner.resume std H d gen w' = _
      unfold WorkflowRunner.resume
      rw [if_pos hpaused]
      rfl

/-- A call that is not accepted leaves the walk alone. -/
theorem result_of_not_begins {c : RunnerCall d σ} (h : ∀ w, ¬c.Begins std w) :
    (c.result std H gen).2 = c.before := by
  cases c with
  | run workflowRunId host =>
      show (WorkflowRunner.run std H d gen workflowRunId host).2 = _
      unfold WorkflowRunner.run
      cases hadm : admissible std d with
      | error e => rfl
      | ok _ => exact absurd ⟨hadm, rfl⟩ (h _)
  | resume w =>
      show (WorkflowRunner.resume std H d gen w).2 = _
      unfold WorkflowRunner.resume
      split_ifs with hpaused
      · exact absurd ⟨hpaused, rfl⟩ (h _)
      · rfl

/-- What a call returns is what its loop does, from every moment of it. -/
theorem Moment.result_eq {c : RunnerCall d σ} {t : Walk d σ} (h : c.Moment std H gen t) :
    c.result std H gen = (advanceLoop std H d gen c.confirms).run t := by
  obtain ⟨w, hbegins, hreaches⟩ := h
  rw [← hreaches.run_eq, hbegins.result_eq]

end RunnerCall

/-! ## The ways out of the loop -/

/-- It is the turn of step `i`, which is not done. -/
structure TakesUp (t : Walk d σ) (i : Fin d.steps.length) : Prop where
  current : t.current = some i
  limit : t.executed < maxStepsPerRun
  notDone : (t.run.steps i).status.isDone = false

/-- The condition of the step at hand cannot be evaluated. -/
def ConditionErrs (t : Walk d σ) : Prop :=
  ∃ i e, TakesUp t i ∧ gate std (d.steps.get i) t.run.variables = .evalError e

/-- The condition of the step at hand holds, and the templates of its input cannot be replaced. -/
def TemplateErrs (t : Walk d σ) : Prop :=
  ∃ i e, Performs std t i ∧
    materializeInput std (.fromSnapshot t.run.variables) (d.steps.get i).input = .error e

/-- The states of a run that a call returns. -/
def WorkflowRunStatus.Returned (status : WorkflowRunStatus) : Prop :=
  status = .failed ∨ status = .paused ∨ status = .succeeded

theorem closeRun_returned {n : ℕ} (run : WorkflowRun n) :
    WorkflowRunStatus.Returned (closeRun run).status := by
  unfold closeRun
  dsimp only
  split_ifs
  · exact .inr (.inr rfl)
  · exact .inl rfl

theorem afterStep_returned {i : Fin d.steps.length} {t w : Walk d σ} {r : Except String Unit}
    (h : afterStep std d i t = .inr (r, w)) :
    r = .ok () ∧ WorkflowRunStatus.Returned w.run.status := by
  refine ⟨?_, .inl (afterStep_inr std h)⟩
  unfold afterStep at h
  dsimp only at h
  split_ifs at h
  split at h <;> cases h
  rfl

theorem perform_returned {confirmed : Bool} {i : Fin d.steps.length} {t w : Walk d σ}
    {r : Except String Unit} (h : perform std H d gen confirmed i t = .inr (r, w)) :
    r = .ok () ∧ WorkflowRunStatus.Returned w.run.status := by
  unfold perform at h
  dsimp only at h
  split at h
  · exact afterStep_returned std h
  · cases h
    exact ⟨rfl, .inr (.inl rfl)⟩
  · cases h
    exact ⟨rfl, .inl rfl⟩

/-- A pass whose condition cannot be evaluated ends the call with an error and calls nobody. -/
theorem advanceBody_of_conditionErrs (confirmed : Bool) {t : Walk d σ}
    (h : ConditionErrs std t) : ∃ e w, advanceBody std H d gen confirmed t = .inr (.error e, w) ∧
      w.calls = t.calls := by
  obtain ⟨i, e, htakes, hgate⟩ := h
  unfold advanceBody
  rw [htakes.current]
  dsimp only
  rw [if_neg (Nat.not_lt.mpr htakes.limit)]
  unfold takeUp
  dsimp only
  rw [htakes.notDone, if_neg (by decide)]
  dsimp only [Walk.enterStep]
  rw [hgate]
  exact ⟨_, _, rfl, rfl⟩

/-- **The ways out of the loop**: with a record, or with the error of a condition. -/
theorem advanceBody_inr {confirmed : Bool} {t w : Walk d σ} {r : Except String Unit}
    (h : advanceBody std H d gen confirmed t = .inr (r, w)) :
    r = .ok () ∧ WorkflowRunStatus.Returned w.run.status ∨
      ConditionErrs std t ∧ w.calls = t.calls := by
  unfold advanceBody at h
  split at h
  · cases h
    exact .inl ⟨rfl, closeRun_returned _⟩
  · rename_i i hcurrent
    dsimp only at h
    split_ifs at h with hlimit
    · cases h
      exact .inl ⟨rfl, .inl rfl⟩
    · unfold takeUp at h
      dsimp only at h
      split_ifs at h with hdone
      split at h
      · cases h
        exact .inl ⟨rfl, .inl rfl⟩
      · rename_i e hgate
        cases h
        exact .inr ⟨⟨i, e, ⟨hcurrent, by omega, by simpa using hdone⟩, hgate⟩, rfl⟩
      · cases h
      · exact .inl (perform_returned std H gen h)

/-! ## After an effect -/

/-- What is asked of a call. -/
structure NeverVanishes (c : RunnerCall d σ) : Prop where
  /-- Once it has asked for an execution, it returns a record. -/
  returned : c.before.effects < (c.result std H gen).2.effects →
    (c.result std H gen).1 = .ok () ∧
      WorkflowRunStatus.Returned (c.result std H gen).2.run.status
  /-- An error in a condition or a template after that is recorded as a failed run. -/
  recorded : ∀ t, c.Moment std H gen t → c.before.effects < t.effects →
    ConditionErrs std t ∨ TemplateErrs std t →
      (c.result std H gen).1 = .ok () ∧ (c.result std H gen).2.run.status = .failed

/-- **A call whose conditions and templates evaluate after an effect never vanishes**, and one that
never vanishes has no condition that errs after an effect. -/
theorem neverVanishes (c : RunnerCall d σ) :
    ((∀ t, c.Moment std H gen t → c.before.effects < t.effects →
        ¬ConditionErrs std t ∧ ¬TemplateErrs std t) → NeverVanishes std H gen c) ∧
      (NeverVanishes std H gen c → ∀ t, c.Moment std H gen t → c.before.effects < t.effects →
        ¬ConditionErrs std t) := by
  constructor
  · intro hclean
    refine ⟨?_, fun t ht heffects herrs => ?_⟩
    · by_cases haccepted : ∃ w, c.Begins std w
      · obtain ⟨w, hbegins⟩ := haccepted
        rw [hbegins.result_eq]
        refine (advanceLoop std H d gen c.confirms).run_induct_of_reaches (I := fun _ => True)
          (P := fun r => c.before.effects < r.2.effects →
            r.1 = .ok () ∧ WorkflowRunStatus.Returned r.2.run.status)
          (fun _ _ _ _ _ => trivial) ?_ trivial
        rintro t ⟨r, w'⟩ hreaches - hexit hlt
        rcases advanceBody_inr std H gen hexit with hreturned | ⟨herrs, hcalls⟩
        · exact hreturned
        · have heffects : c.before.effects < t.effects := by
            unfold Walk.effects at hlt ⊢
            rwa [← hcalls]
          exact absurd herrs (hclean t ⟨w, hbegins, hreaches⟩ heffects).1
      · rw [RunnerCall.result_of_not_begins std H gen (not_exists.mp haccepted)]
        exact fun hlt => absurd hlt (Nat.lt_irrefl _)
    · obtain ⟨hcondition, htemplate⟩ := hclean t ht heffects
      exact absurd herrs (not_or.mpr ⟨hcondition, htemplate⟩)
  · intro hnever t ht heffects herrs
    obtain ⟨e, w, hbody, hcalls⟩ := advanceBody_of_conditionErrs std H gen c.confirms herrs
    have hresult : c.result std H gen = (.error e, w) :=
      ht.result_eq.trans ((advanceLoop std H d gen c.confirms).run_of_inr hbody)
    have hok := (hnever.recorded t ht heffects (.inl herrs)).1
    rw [hresult] at hok
    cases hok

/-- A run of two plain steps executes both and returns its record. -/
theorem neverVanishes_plain : NeverVanishes .ascii (clickHost []) 0
    (.run "run" () : RunnerCall (plainDefinition [namedStep "a" none, namedStep "b" none]) Unit) :=
  by
  have hplain : ∀ i : Fin (plainDefinition [namedStep "a" none, namedStep "b" none]).steps.length,
      ((plainDefinition [namedStep "a" none, namedStep "b" none]).steps.get i).condition = none ∧
        ((plainDefinition [namedStep "a" none, namedStep "b" none]).steps.get i).input = .null
    | ⟨0, _⟩ => ⟨rfl, rfl⟩
    | ⟨1, _⟩ => ⟨rfl, rfl⟩
  refine (neverVanishes _ _ _ _).1 fun t _ _ => ⟨?_, ?_⟩
  · rintro ⟨i, e, -, hgate⟩
    unfold gate at hgate
    rw [(hplain i).1] at hgate
    cases hgate
  · rintro ⟨i, e, -, herr⟩
    rw [(hplain i).2] at herr
    cases (materializeInput_eq_self rfl).symm.trans herr

/-- The second of two steps has a condition on a variable that nothing sets. -/
def guardedSteps : List WorkflowStep :=
  [namedStep "a" none, { namedStep "b" none with condition := some ⟨"not variables.done"⟩ }]

/-- The second of two steps has a template for a variable that nothing sets. -/
def templatedSteps : List WorkflowStep :=
  [namedStep "a" none, { namedStep "b" none with input := .string "$\x7bvariables.done\x7d" }]

/-- Both errors go wrong after the effect of the first step: the record is lost with the error of
the condition, and the step whose template fails is executed, so that the run succeeds. -/
theorem not_neverVanishes :
    ¬NeverVanishes .ascii (clickHost []) 0
        (.run "run" () : RunnerCall (plainDefinition guardedSteps) Unit) ∧
      ¬NeverVanishes .ascii (clickHost []) 0
        (.run "run" () : RunnerCall (plainDefinition templatedSteps) Unit) := by
  constructor
  · intro hnever
    have hok := (hnever.returned (by decide +kernel)).1
    revert hok
    decide +kernel
  · intro hnever
    let w : Walk (plainDefinition templatedSteps) Unit := (freshWalk _ "run" ()).restart
    let i : Fin (plainDefinition templatedSteps).steps.length := ⟨1, by decide⟩
    have hpass : (advanceBody .ascii (clickHost []) _ 0 false w).elim
        (fun t => decide (t.current = some i ∧ t.executed < maxStepsPerRun ∧
          (t.run.steps i).status.isDone = false ∧ 0 < t.effects ∧
          (materializeInput .ascii (.fromSnapshot t.run.variables)
            ((plainDefinition templatedSteps).steps.get i).input).isOk = false))
        (fun _ => false) = true := by decide +kernel
    cases hbody : advanceBody .ascii (clickHost []) _ 0 false w with
    | inr r =>
        rw [hbody] at hpass
        cases hpass
    | inl t =>
        rw [hbody] at hpass
        obtain ⟨hcurrent, hlimit, hdone, heffects, herr⟩ := of_decide_eq_true hpass
        have hmoment : (RunnerCall.run "run" ()).Moment .ascii (clickHost []) 0 t :=
          ⟨w, ⟨by decide +kernel, rfl⟩, .step (.refl _ w) hbody⟩
        have hfailed : TemplateErrs .ascii t := by
          cases hinput : materializeInput .ascii (.fromSnapshot t.run.variables)
              ((plainDefinition templatedSteps).steps.get i).input with
          | error e => exact ⟨i, e, ⟨hcurrent, hlimit, hdone, rfl⟩, hinput⟩
          | ok v =>
              rw [hinput] at herr
              cases herr
        have hstatus := (hnever.recorded t hmoment heffects (.inr hfailed)).2
        revert hstatus
        decide +kernel

end AuraLauncher.Runner
