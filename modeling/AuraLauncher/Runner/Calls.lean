import AuraLauncher.Lib.Log
import AuraLauncher.Runner.Session

/-!
# Where the executions of a call come from

Every execution that a call of `advance` makes belongs to a moment of the walk at which the action
of a step was found, and that moment lies right behind the calls made before it. What is claimed of
the effects of a run is proved at those moments.

* `Finds` — an attempt of a visit found an action.
* `executeStep_justified` — every execution of a visit is that of an action found.
* `executeStep_host` — the rule for what the host keeps during a visit.
* `Meets` — a moment of a call at which the action of a step is found.
* `advanceLoop_justified` — every execution of a call comes from such a moment.
-/

namespace AuraLauncher.Runner

open AuraLauncher.Domain AuraLauncher.Lib
open AuraLauncher.Workflow (Json)

universe u

variable (std : RustStd) {σ : Type u} (H : Host σ) (d : WorkflowDefinition)

/-! ## One visit -/

section
variable (step : WorkflowStep) (input : Json) (gen : UInt64) (confirmed : Bool)

/-- An attempt of the visit from `a₀` found the action `r`, and is in state `b`. -/
def Finds (a₀ : Attempt σ) (r : ResolvedStepAction) (b : Attempt σ) : Prop :=
  ∃ a, (attemptLoop H d step input gen confirmed).Reaches a₀ a ∧
    (resolveLoop H d step input).run (0, a.enter) = (.ok r, b)

/-- An execution is accounted for when its action was found behind the calls so far. -/
def FoundAt (a₀ : Attempt σ) (before : List HostCall) (c : HostCall) : Prop :=
  ∃ r b, Finds H d step input gen confirmed a₀ r b ∧ b.calls = before ∧
    c = .execute r.action r.providerId gen confirmed

/-- What every attempt of a visit keeps, the visit keeps. -/
theorem executeStep_induct {P : Attempt σ → Prop} {a₀ : Attempt σ}
    (hbody : ∀ a, (attemptLoop H d step input gen confirmed).Reaches a₀ a → P a →
      P (Attempt.ofResult (attemptBody H d step input gen confirmed a)))
    (h₀ : P a₀) : P (executeStep H d step input gen confirmed a₀).2 := by
  refine (attemptLoop H d step input gen confirmed).run_induct_of_reaches
    (I := P) (P := fun r => P r.2) ?_ ?_ h₀
  · intro a a' ha hI hstep
    have h := hbody a ha hI
    rwa [show attemptBody H d step input gen confirmed a = .inl a' from hstep] at h
  · intro a r ha hI hexit
    have h := hbody a ha hI
    rwa [show attemptBody H d step input gen confirmed a = .inr r from hexit] at h

/-- **Every execution of a visit is that of an action found**, right behind the calls before it. -/
theorem executeStep_justified (a₀ : Attempt σ) :
    Justified HostCall.isExecute (FoundAt H d step input gen confirmed a₀) a₀.calls
      (executeStep H d step input gen confirmed a₀).2.calls := by
  have hbody : ∀ a, (attemptLoop H d step input gen confirmed).Reaches a₀ a →
      Justified HostCall.isExecute (FoundAt H d step input gen confirmed a₀) a₀.calls a.calls →
      Justified HostCall.isExecute (FoundAt H d step input gen confirmed a₀) a₀.calls
        (Attempt.ofResult (attemptBody H d step input gen confirmed a)).calls := by
    intro a ha hI
    rcases attemptBody_cases H d step input gen confirmed a with
      ⟨o, b, hrun, heq⟩ | ⟨r, b, hrun, heq⟩
    · obtain ⟨tail, hcalls, hno⟩ := (resolveLoop_spec H d step input hrun).1.calls
      rw [heq, Attempt.ofResult, Sum.elim_inr, hcalls]
      exact hI.append hno
    · obtain ⟨tail, hcalls, hno⟩ := (resolveLoop_spec H d step input hrun).1.calls
      have hb : Justified HostCall.isExecute (FoundAt H d step input gen confirmed a₀) a₀.calls
          b.calls := by
        rw [hcalls]
        exact hI.append hno
      rw [heq]
      rcases executeResolved_cases H d step gen confirmed r b with
        ⟨-, -, b', hpause, -, hcalls⟩ | ⟨-, hcalls, -⟩
      · rw [hpause]
        exact hcalls ▸ hb
      · rw [hcalls]
        exact hb.snoc fun _ => ⟨r, b, ⟨a, ha, hrun⟩, rfl, rfl⟩
  exact executeStep_induct H d step input gen confirmed (P := fun a =>
    Justified HostCall.isExecute (FoundAt H d step input gen confirmed a₀) a₀.calls a.calls)
    hbody (.refl _)

/-! ## The host during a visit -/

variable {H d step input gen confirmed}

/-- What discovery keeps, a resolution keeps. -/
theorem resolveStep_host {P : σ → Prop} (hquery : ∀ s provider, P s → P (H.freshQuery s provider).2)
    {action : WorkflowAction} {s : σ} (hs : P s) : P (resolveStep H action input s).2.1 := by
  cases action with
  | «inline» desc => exact hs
  | reference ref =>
      show P (resolveReference H ref s).2.1
      unfold resolveReference
      split
      · exact hs
      · have hkeep := hquery s ref.providerId hs
        split <;> rename_i hres <;> rwa [hres] at hkeep

theorem onResolveError_host (n : ℕ) (a : Attempt σ) (p : FailureAction) :
    (Sum.elim Prod.snd Prod.snd (onResolveError d step n a p)).host = a.host := by
  cases p with
  | reResolve =>
      simp only [onResolveError]
      split_ifs <;> rfl
  | retry =>
      simp only [onResolveError]
      split_ifs <;> rfl
  | skip => rfl
  | stop => rfl

/-- What discovery keeps, the whole resolution keeps. -/
theorem resolveLoop_host {P : σ → Prop} (hquery : ∀ s provider, P s → P (H.freshQuery s provider).2)
    {n : ℕ} {a : Attempt σ} (ha : P a.host) :
    P ((resolveLoop H d step input).run (n, a)).2.host := by
  have hround : ∀ (n : ℕ) (b : Attempt σ), P b.host →
      P (Sum.elim Prod.snd Prod.snd (resolveBody H d step input (n, b))).host := by
    intro n b hb
    have hkeep : P (resolveStep H step.action input b.host).2.1 := resolveStep_host hquery hb
    obtain ⟨⟨outcome, host, calls⟩, hres⟩ :
        ∃ res, resolveStep H step.action input b.host = res := ⟨_, rfl⟩
    rw [hres] at hkeep
    cases outcome with
    | ok r =>
        rw [resolveBody_ok H d step input hres]
        exact hkeep
    | error f =>
        rw [resolveBody_error H d step input hres, onResolveError_host]
        exact hkeep
  refine (resolveLoop H d step input).run_induct (I := fun s => P s.2.host)
    (P := fun r => P r.2.host) ?_ ?_ (n, a) ha
  · rintro ⟨m, b⟩ s' hb hbody
    have h := hround m b hb
    rwa [show resolveBody H d step input (m, b) = .inl s' from hbody] at h
  · rintro ⟨m, b⟩ r hb hbody
    have h := hround m b hb
    rwa [show resolveBody H d step input (m, b) = .inr r from hbody] at h

theorem onExecuteError_host (a : Attempt σ) (p : FailureAction) :
    (Attempt.ofResult (onExecuteError d step a p)).host = a.host := by
  cases p with
  | retry =>
      simp only [onExecuteError]
      split_ifs <;> rfl
  | reResolve =>
      simp only [onExecuteError]
      split_ifs <;> rfl
  | skip => rfl
  | stop => rfl

variable (H d step gen confirmed) in
/-- A resolved action leaves the host, or as its execution left it. -/
theorem executeResolved_host (r : ResolvedStepAction) (a : Attempt σ) :
    (Attempt.ofResult (executeResolved H d step gen confirmed r a)).host = a.host ∨
      (Attempt.ofResult (executeResolved H d step gen confirmed r a)).host =
        (H.execute a.host { r.action with confirmationRequired := false } r.providerId gen
          confirmed).2 := by
  unfold executeResolved
  dsimp only
  split_ifs
  · exact .inl rfl
  · right
    split <;> rename_i hres <;> rw [hres]
    · rfl
    · rw [onExecuteError_host]

/-- **The rule for the host of a visit**: what discovery keeps, and the execution of every action
found keeps, the visit keeps. -/
theorem executeStep_host {P : σ → Prop} {a₀ : Attempt σ}
    (hquery : ∀ s provider, P s → P (H.freshQuery s provider).2)
    (hexecute : ∀ r b, Finds H d step input gen confirmed a₀ r b → P b.host →
      P (H.execute b.host { r.action with confirmationRequired := false } r.providerId gen
        confirmed).2)
    (h₀ : P a₀.host) : P (executeStep H d step input gen confirmed a₀).2.host := by
  have hbody : ∀ a, (attemptLoop H d step input gen confirmed).Reaches a₀ a → P a.host →
      P (Attempt.ofResult (attemptBody H d step input gen confirmed a)).host := by
    intro a ha hI
    have hres : P ((resolveLoop H d step input).run (0, a.enter)).2.host :=
      resolveLoop_host hquery hI
    rcases attemptBody_cases H d step input gen confirmed a with
      ⟨o, b, hrun, heq⟩ | ⟨r, b, hrun, heq⟩
    · rw [hrun] at hres
      rwa [heq]
    · rw [hrun] at hres
      rw [heq]
      rcases executeResolved_host H d step gen confirmed r b with h | h
      · rw [h]
        exact hres
      · rw [h]
        exact hexecute r b ⟨a, ha, hrun⟩ hres
  exact executeStep_induct H d step input gen confirmed (P := fun a => P a.host) hbody h₀

end

/-! ## A whole call -/

variable {d} (gen : UInt64) (confirmed : Bool)

/-- A moment of the call from `w`: in its walk `u`, which performs step `i`, the action `r` of the
step was found, and the visit is in state `b`. -/
structure Meets (w u : Walk d σ) (i : Fin d.steps.length) (r : ResolvedStepAction)
    (b : Attempt σ) : Prop where
  reaches : (advanceLoop std H d gen confirmed).Reaches w u
  performs : Performs std u i
  finds : Finds H d (d.steps.get i) (materialized std (d.steps.get i) u.run.variables) gen confirmed
    ⟨u.run.steps i, u.host, []⟩ r b

/-- The calls made up to a moment. -/
def callsAt (u : Walk d σ) (i : Fin d.steps.length) (b : Attempt σ) :
    List (Fin d.steps.length × HostCall) :=
  u.calls ++ b.calls.map fun c => (i, c)

/-- An execution is accounted for when the call met its action behind the calls so far. -/
def MetAt (w : Walk d σ) (before : List (Fin d.steps.length × HostCall))
    (c : Fin d.steps.length × HostCall) : Prop :=
  ∃ u r b, Meets std H gen confirmed w u c.1 r b ∧ callsAt u c.1 b = before ∧
    c.2 = .execute r.action r.providerId gen confirmed

/-- **Every execution of a call comes from a moment of it**, right behind the calls before it. -/
theorem advanceLoop_justified (w : Walk d σ) :
    Justified (fun c => c.2.isExecute) (MetAt std H gen confirmed w) w.calls
      ((advanceLoop std H d gen confirmed).run w).2.calls := by
  have hbody : ∀ u, (advanceLoop std H d gen confirmed).Reaches w u →
      Justified (fun c => c.2.isExecute) (MetAt std H gen confirmed w) w.calls u.calls →
      Justified (fun c => c.2.isExecute) (MetAt std H gen confirmed w) w.calls
        (Pass.walk d (advanceBody std H d gen confirmed u)).calls := by
    intro u hu hI
    rcases advanceBody_calls_eq std H gen confirmed u with heq | ⟨i, hi, heq⟩
    · rwa [heq]
    · rw [heq]
      refine hI.extend_map (executeStep_justified H d (d.steps.get i)
        (materialized std (d.steps.get i) u.run.variables) gen confirmed
        ⟨u.run.steps i, u.host, []⟩) rfl fun before c hc => ⟨hc, ?_⟩
      rintro ⟨r, b, hfinds, rfl, rfl⟩
      exact ⟨u, r, b, ⟨hu, hi, hfinds⟩, rfl, rfl⟩
  refine (advanceLoop std H d gen confirmed).run_induct_of_reaches
    (I := fun u => Justified (fun c => c.2.isExecute)
      (MetAt std H gen confirmed w) w.calls u.calls)
    (P := fun r => Justified (fun c => c.2.isExecute)
      (MetAt std H gen confirmed w) w.calls r.2.calls) ?_ ?_ (.refl _)
  · intro u u' hu hI hstep
    have h := hbody u hu hI
    rwa [show advanceBody std H d gen confirmed u = .inl u' from hstep] at h
  · intro u r hu hI hexit
    have h := hbody u hu hI
    rwa [show advanceBody std H d gen confirmed u = .inr r from hexit] at h

end AuraLauncher.Runner
