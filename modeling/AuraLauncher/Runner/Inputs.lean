import AuraLauncher.Runner.Session

/-!
# Inputs that cannot be materialized

`launcher-workflow/src/lib.rs`, `execute_step` and `v2.rs`, `materialize_input`: what becomes of a
step whose input holds a reference that cannot be resolved. The step goes on with the input as it
is, so a descriptor or an execution passes the reference on.

* `HostCall.input` — the input a call passes on.
* `Withholds` — no call passes on an input that is refused, and the step fails.
* `GivesUp` — the resolution finds no action, and the policy does not skip the step.
* `withholds_iff` — a refused input is withheld exactly when the step refers to an action and its
  resolution gives up.
-/

namespace AuraLauncher.Runner

open AuraLauncher.Domain AuraLauncher.Lib
open AuraLauncher.Workflow (Json)

universe u

variable (std : RustStd) {σ : Type u} (H : Host σ) (d : WorkflowDefinition) (step : WorkflowStep)
  (gen : UInt64) (confirmed : Bool)

/-- The input a call passes on: that of a descriptor, or the JSON payload of an action. -/
def HostCall.input : HostCall → Option Json
  | .discover _ => none
  | .descriptor d => some d.input
  | .execute a _ _ _ => jsonPayload a

/-- Whether `materialize_input` refuses an input. -/
def rejected (vars : Option Json) (input : Json) : Bool :=
  match materializeInput std (.fromSnapshot vars) input with
  | .ok _ => false
  | .error _ => true

/-- A visit of a step withholds what is refused: no call passes on an input that `materialize_input`
refuses, and the step fails. -/
structure Withholds (vars : Option Json) (visit : StepOutcome × Attempt σ) : Prop where
  calls : ∀ c ∈ visit.2.calls, ∀ v, c.input = some v → rejected std vars v = false
  failed : visit.1 = .failed

/-- The resolution gives up: whenever it looks for the action, there is none to be had for this
input, and the policy for that does not skip the step. -/
def GivesUp (input : Json) (a : Attempt σ) : Prop :=
  ∀ n s, (resolveLoop H d step input).passes n (0, a.enter) = some s →
    ∃ f, (resolveStep H step.action input s.2.host).1 = .error f ∧
      policyFor d step f.failureClass ≠ .skip

variable {std step}

/-! ## The input of a step -/

theorem materialized_of_rejected {vars : Option Json} (h : rejected std vars step.input = true) :
    materialized std step vars = step.input := by
  unfold rejected at h
  unfold materialized
  cases he : materializeInput std (.fromSnapshot vars) step.input with
  | ok v =>
      rw [he] at h
      cases h
  | error e => rfl

/-- An input that is refused is not null. -/
theorem isNull_of_rejected {vars : Option Json} {input : Json}
    (h : rejected std vars input = true) : input.isNull = false := by
  cases input with
  | null => cases h
  | _ => rfl

variable {d H} {gen confirmed}

/-- A referenced action is resolved with the input as its payload. -/
theorem jsonPayload_of_resolveStep {ref : ActionReference} {input : Json} {s : σ}
    {r : ResolvedStepAction} (hinput : input.isNull = false)
    (h : (resolveStep H (.reference ref) input s).1 = .ok r) :
    jsonPayload r.action = some input := by
  obtain ⟨c, a, -, -, haction, -⟩ := resolveStep_reference H h
  rw [haction]
  simp [runtimeAction, hinput, jsonPayload]

/-- The resolution of a reference passes no input on. -/
theorem resolveReference_input (r : ActionReference) (s : σ) :
    ∀ c ∈ (resolveReference H r s).2.2, c.input = none := by
  intro c hc
  unfold resolveReference at hc
  split at hc
  · simp at hc
  · split at hc <;> obtain rfl := List.mem_singleton.mp hc <;> rfl

/-- A refused input that reaches an execution or a descriptor is not withheld. -/
theorem not_withholds {vars : Option Json} {visit : StepOutcome × Attempt σ} {c : HostCall}
    (hrej : rejected std vars step.input = true) (hc : c ∈ visit.2.calls)
    (hinput : c.input = some step.input) : ¬ Withholds std vars visit := by
  intro h
  have hno := h.calls c hc step.input hinput
  rw [hrej] at hno
  cases hno

/-! ## A resolution that gives up -/

/-- The resolution gives up exactly when its loop ends as failed. -/
theorem givesUp_iff {input : Json} {a : Attempt σ} :
    GivesUp H d step input a ↔
      ((resolveLoop H d step input).run (0, a.enter)).1 = .error .failed := by
  constructor
  · intro h
    obtain ⟨n, ⟨m, b⟩, -, hpasses, hexit⟩ := (resolveLoop H d step input).exists_passes_run
      (0, a.enter)
    obtain ⟨f, hf, hpolicy⟩ := h n (m, b) hpasses
    have hbody := resolveBody_error H d step input (n := m) (a := b) (Prod.ext hf rfl)
    rcases (onResolveError_inr d step (hbody.symm.trans hexit)).1 with
      ⟨-, -, hskip⟩ | ⟨hfailed, -⟩
    · exact absurd hskip hpolicy
    · exact hfailed
  · rintro h n ⟨m, b⟩ hpasses
    have hrun := (resolveLoop H d step input).run_of_passes hpasses
    rw [hrun] at h
    cases hres : (resolveStep H step.action input b.host).1 with
    | ok r =>
        have hbody := resolveBody_ok H d step input (n := m) (a := b) (Prod.ext hres rfl)
        rw [(resolveLoop H d step input).run_of_inr hbody] at h
        cases h
    | error f =>
        refine ⟨f, rfl, fun hskip => ?_⟩
        have hbody := resolveBody_error H d step input (n := m) (a := b) (Prod.ext hres rfl)
        rw [hskip] at hbody
        rw [(resolveLoop H d step input).run_of_inr hbody] at h
        cases h

/-- The resolution of a reference passes no input on, in any of its rounds. -/
theorem resolveLoop_input {ref : ActionReference} {input : Json} {a : Attempt σ}
    (haction : step.action = .reference ref) (ha : ∀ c ∈ a.calls, c.input = none) :
    ∀ c ∈ ((resolveLoop H d step input).run (0, a)).2.calls, c.input = none := by
  have hround : ∀ (n : ℕ) (b : Attempt σ), (∀ c ∈ b.calls, c.input = none) →
      ∀ c ∈ (Sum.elim Prod.snd Prod.snd (resolveBody H d step input (n, b))).calls,
        c.input = none := by
    intro n b hb c hc
    rw [resolveBody_calls, haction] at hc
    exact (List.mem_append.mp hc).elim (hb c) (resolveReference_input ref b.host c)
  refine (resolveLoop H d step input).run_induct
    (I := fun s => ∀ c ∈ s.2.calls, c.input = none)
    (P := fun r => ∀ c ∈ r.2.calls, c.input = none) ?_ ?_ (0, a) ha
  · rintro ⟨n, b⟩ s' hb hbody
    have h := hround n b hb
    rwa [show resolveBody H d step input (n, b) = .inl s' from hbody] at h
  · rintro ⟨n, b⟩ r hb hbody
    have h := hround n b hb
    rwa [show resolveBody H d step input (n, b) = .inr r from hbody] at h

/-! ## The result -/

/-- The first attempt decides: a visit whose resolution finds no action ends with it. -/
theorem executeStep_of_error {input : Json} {a b : Attempt σ} {outcome : StepOutcome}
    (h : (resolveLoop H d step input).run (0, a.enter) = (.error outcome, b)) :
    executeStep H d step input gen confirmed a = (outcome, b) := by
  refine (attemptLoop H d step input gen confirmed).run_of_inr ?_
  show attemptBody H d step input gen confirmed a = _
  rw [attemptBody, h]

variable (gen confirmed) in
/-- A visit whose resolution finds an action pauses, or executes it first. -/
theorem executeStep_of_ok {input : Json} {a b : Attempt σ} {r : ResolvedStepAction}
    (h : (resolveLoop H d step input).run (0, a.enter) = (.ok r, b)) :
    (executeStep H d step input gen confirmed a).1 = .paused ∨
      b.calls ++ [.execute r.action r.providerId gen confirmed] <+:
        (executeStep H d step input gen confirmed a).2.calls := by
  have hbody : attemptBody H d step input gen confirmed a =
      executeResolved H d step gen confirmed r b := by
    rw [attemptBody, h]
  rcases executeResolved_cases H d step gen confirmed r b with
    ⟨-, -, b', hpause, -⟩ | ⟨-, hcalls, -⟩
  · left
    rw [executeStep, (attemptLoop H d step input gen confirmed).run_of_inr
      (show attemptBody H d step input gen confirmed a = _ from hbody.trans hpause)]
  · right
    rw [← hcalls]
    cases hres : executeResolved H d step gen confirmed r b with
    | inl a' =>
        rw [executeStep, (attemptLoop H d step input gen confirmed).run_of_inl
          (show attemptBody H d step input gen confirmed a = _ from hbody.trans hres)]
        exact executeStep_prefix H d step input gen confirmed a'
    | inr r' =>
        rw [executeStep, (attemptLoop H d step input gen confirmed).run_of_inr
          (show attemptBody H d step input gen confirmed a = _ from hbody.trans hres)]
        exact List.prefix_rfl

section withheld

variable {vars : Option Json} {a b : Attempt σ}

/-- A call of the resolution that passes a refused input on is a call of the visit. -/
theorem not_withholds_of_resolveLoop {res : Except StepOutcome ResolvedStepAction} {c : HostCall}
    (hrej : rejected std vars step.input = true)
    (hrun : (resolveLoop H d step step.input).run (0, a.enter) = (res, b)) (hc : c ∈ b.calls)
    (hinput : c.input = some step.input) :
    ¬ Withholds std vars (executeStep H d step step.input gen confirmed a) := by
  intro h
  refine not_withholds hrej ?_ hinput h
  cases res with
  | error outcome => rwa [executeStep_of_error hrun]
  | ok r =>
      rcases executeStep_of_ok gen confirmed hrun with hpaused | hcalls
      · exact absurd (hpaused.symm.trans h.failed) (by decide)
      · exact hcalls.subset (List.mem_append_left _ hc)

/-- An inline descriptor is resolved with the refused input. -/
theorem reference_of_withholds (hrej : rejected std vars step.input = true)
    (h : Withholds std vars (executeStep H d step step.input gen confirmed a)) :
    ∃ ref, step.action = .reference ref := by
  cases haction : step.action with
  | reference ref => exact ⟨ref, rfl⟩
  | «inline» desc =>
      have hfirst := resolveLoop_calls H d step step.input
        (a := a.enter) (Prod.eta ((resolveLoop H d step step.input).run (0, a.enter))).symm
      rw [haction] at hfirst
      have hmem := hfirst.subset (List.mem_append_right _ List.mem_cons_self)
      refine absurd h (not_withholds_of_resolveLoop hrej (Prod.eta _).symm hmem ?_)
      simp [HostCall.input, runtimeDescriptor, isNull_of_rejected hrej]

/-- An action that is found for a reference is executed with the refused input. -/
theorem not_withholds_of_found {ref : ActionReference} {r : ResolvedStepAction}
    (hrej : rejected std vars step.input = true) (haction : step.action = .reference ref)
    (hrun : (resolveLoop H d step step.input).run (0, a.enter) = (.ok r, b)) :
    ¬ Withholds std vars (executeStep H d step step.input gen confirmed a) := by
  intro h
  rcases executeStep_of_ok gen confirmed hrun with hpaused | hcalls
  · exact absurd (hpaused.symm.trans h.failed) (by decide)
  · obtain ⟨s, hs⟩ := resolveLoop_ok H d step step.input hrun
    rw [haction] at hs
    refine not_withholds hrej (hcalls.subset (List.mem_append_right _ List.mem_cons_self)) ?_ h
    exact jsonPayload_of_resolveStep (isNull_of_rejected hrej) hs

/-- A reference that gives up passes nothing on. -/
theorem withholds_of_failed {ref : ActionReference} (haction : step.action = .reference ref)
    (ha : a.calls = [])
    (hrun : (resolveLoop H d step step.input).run (0, a.enter) = (.error .failed, b)) :
    Withholds std vars (executeStep H d step step.input gen confirmed a) := by
  rw [executeStep_of_error hrun]
  refine ⟨fun c hc v hv => ?_, rfl⟩
  have hnone : ∀ c ∈ ((resolveLoop H d step step.input).run (0, a.enter)).2.calls,
      c.input = none := by
    refine resolveLoop_input haction fun c hc => ?_
    rw [show a.enter.calls = [] from ha] at hc
    exact absurd hc List.not_mem_nil
  rw [hrun] at hnone
  rw [hnone c hc] at hv
  cases hv

end withheld

variable (std H d step gen confirmed)

/-- **A refused input is withheld exactly when the resolution fails without it**: the step must
refer to an action, which is looked up without the input, and the resolution must give up. An inline
descriptor is resolved with the input as it is, and so is every action that is found executed. -/
theorem withholds_iff {vars : Option Json} (hrej : rejected std vars step.input = true)
    (sr : StepRun) (host : σ) :
    Withholds std vars
        (executeStep H d step (materialized std step vars) gen confirmed ⟨sr, host, []⟩) ↔
      (∃ ref, step.action = .reference ref) ∧ GivesUp H d step step.input ⟨sr, host, []⟩ := by
  rw [materialized_of_rejected hrej, givesUp_iff]
  obtain ⟨⟨res, b⟩, hrun⟩ :
      ∃ out, (resolveLoop H d step step.input).run (0, Attempt.enter ⟨sr, host, []⟩) = out :=
    ⟨_, rfl⟩
  rw [hrun]
  constructor
  · intro h
    obtain ⟨ref, haction⟩ := reference_of_withholds hrej h
    refine ⟨⟨ref, haction⟩, ?_⟩
    cases res with
    | error outcome =>
        have hfailed := h.failed
        rw [executeStep_of_error hrun] at hfailed
        exact congrArg Except.error hfailed
    | ok r => exact absurd h (not_withholds_of_found hrej haction hrun)
  · rintro ⟨⟨ref, haction⟩, hres⟩
    obtain rfl : res = .error .failed := hres
    exact withholds_of_failed haction rfl hrun

/-- A step whose input names a variable that is not set. -/
def unsetStep (id : String) : WorkflowStep :=
  { namedStep id none with input := .string "$\x7bvar.missing\x7d" }

/-- The reference to a command that no source has gives up, so nothing is passed on. -/
theorem withholds_iff_missing :
    Withholds .ascii none (executeStep emptyHost (plainDefinition [unsetStep "a"])
      (unsetStep "a") (materialized .ascii (unsetStep "a") none) 0 false
      ⟨((plainDefinition [unsetStep "a"]).freshRun "run").steps ⟨0, by decide⟩, (), []⟩) := by
  refine (withholds_iff .ascii _ _ _ 0 false (by decide +kernel) _ ()).mpr ⟨⟨_, rfl⟩, ?_⟩
  rintro n ⟨m, b⟩ -
  exact ⟨_, rfl, by decide⟩

/-- The first visit of the only step of a definition, whose command is there. -/
def unsetVisit : StepOutcome × Attempt Unit :=
  executeStep (clickHost []) (plainDefinition [unsetStep "a"]) (unsetStep "a")
    (materialized .ascii (unsetStep "a") none) 0 false
    ⟨((plainDefinition [unsetStep "a"]).freshRun "run").steps ⟨0, by decide⟩, (), []⟩

/-- The definition is accepted and its input refused, yet the step is executed with the reference to
the variable in its payload, and completes. -/
theorem unsetVisit_executes :
    (admissible .ascii (plainDefinition [unsetStep "a"])).isOk = true ∧
    rejected .ascii none (unsetStep "a").input = true ∧
    (unsetVisit.1 = .next ∧ unsetVisit.2.calls.any fun c =>
      c.isExecute && (c.input.map (unsetStep "a").input.beq).getD false) ∧
    ¬ Withholds .ascii none unsetVisit := by
  have hnext : unsetVisit.1 = .next := by decide +kernel
  exact ⟨by decide +kernel, by decide +kernel, ⟨hnext, by decide +kernel⟩,
    fun h => absurd (hnext.symm.trans h.failed) (by decide)⟩

end AuraLauncher.Runner
