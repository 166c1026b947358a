import AuraLauncher.Runner.Calls

/-!
# What one confirmation authorises

`launcher-workflow/src/lib.rs`, `WorkflowRunner::resume`: the user confirms the pending step and the
run goes on. The flag for that is passed to every step of the resumed call and is never taken back,
so the call executes whatever it comes to and does not pause again.

* `resume_not_paused` — a resume never pauses.
* `OneEffect` — a resume executes one action that requires a confirmation, that of the pending step,
  and a later one stops the run again.
* `oneEffect_iff` — that holds exactly when the resume finds no other such action.
-/

namespace AuraLauncher.Runner

open AuraLauncher.Domain AuraLauncher.Lib
open AuraLauncher.Workflow (Json)

universe u

variable (std : RustStd) {σ : Type u} (H : Host σ) {d : WorkflowDefinition} (gen : UInt64)

/-! ## A confirmed call does not pause -/

/-- A visit with a confirmation does not pause. -/
theorem executeStep_confirmed (step : WorkflowStep) (input : Json) (a : Attempt σ) :
    (executeStep H d step input gen true a).1 ≠ .paused := by
  refine (attemptLoop H d step input gen true).run_induct (I := fun _ => True)
    (P := fun r => r.1 ≠ .paused) (fun _ _ _ _ => trivial) ?_ a trivial
  rintro b ⟨outcome, c⟩ - hbody
  rcases attemptBody_cases H d step input gen true b with
    ⟨o, b', hrun, heq⟩ | ⟨r, b', hrun, heq⟩
  · obtain ⟨rfl, rfl⟩ := Prod.mk.inj (Sum.inr.inj (heq.symm.trans hbody))
    rcases (resolveLoop_spec H d step input hrun).2 o rfl with ⟨rfl, -⟩ | ⟨rfl, -⟩ <;> rintro ⟨⟩
  · rcases executeResolved_cases H d step gen true r b' with ⟨-, ⟨⟩, -⟩ | ⟨-, -, hpaused⟩
    exact hpaused outcome c (heq.symm.trans hbody)

/-- A pass with a confirmation that ends the call leaves the run failed, or its record is lost. -/
theorem takeUp_confirmed {i : Fin d.steps.length} {w w' : Walk d σ} {r : Except String Unit}
    (h : takeUp std H d gen true i w = .inr (r, w')) :
    w'.run.status = .failed ∨ w'.run.status = w.run.status := by
  rcases takeUp_inr std H gen true h with hst | ⟨-, input, a, hpaused⟩ | ⟨-, hst⟩
  · exact .inl hst
  · exact absurd hpaused (executeStep_confirmed H gen _ _ _)
  · exact .inr hst

/-- **A resume never pauses**: the call ends the run, or loses its record while it is running. -/
theorem resume_not_paused {w : Walk d σ} (hpaused : w.run.status = .paused) :
    (WorkflowRunner.resume std H d gen w).2.run.status ≠ .paused := by
  unfold WorkflowRunner.resume
  rw [if_pos hpaused]
  refine (advanceLoop std H d gen true).run_induct (I := fun u => u.run.status = .running)
    (P := fun r => r.2.run.status ≠ .paused) ?_ ?_ _ rfl
  · intro u u' hu hbody
    exact ((advanceBody_status std H gen true u).1 u' hbody).trans hu
  · rintro u ⟨r, w'⟩ hu hbody
    simp only [advanceLoop, advanceBody] at hbody
    split at hbody
    · cases hbody
      simp only [closeRun]
      split_ifs <;> decide
    · split_ifs at hbody
      · cases hbody
        rintro ⟨⟩
      · rcases takeUp_confirmed std H gen hbody with h | h
        · rw [h]
          decide
        · rw [h]
          show u.run.status ≠ _
          rw [hu]
          decide

/-! ## One effect -/

/-- The executions of actions that require a confirmation, among some calls. -/
def confirmedCalls (calls : List (Fin d.steps.length × HostCall)) : ℕ :=
  calls.countP fun c => c.2.isConfirmed

/-- The walk with which a resume starts. -/
def resumeWalk (w : Walk d σ) : Walk d σ := ({ w with run := resumed w.run } : Walk d σ).restart

/-- A moment of the resume of `w` at which an action that requires a confirmation is found. -/
structure Asks (w u : Walk d σ) (i : Fin d.steps.length) (r : ResolvedStepAction)
    (b : Attempt σ) : Prop where
  paused : w.run.status = .paused
  meets : Meets std H gen true (resumeWalk w) u i r b
  required : r.action.confirmationRequired = true

/-- The confirmation is unused at a moment of the resume of `w`: it is the turn of the pending step,
and the resume has executed no action that requires a confirmation. -/
structure Unused (w u : Walk d σ) (i : Fin d.steps.length) (b : Attempt σ) : Prop where
  pending : (w.run.steps i).status = .waitingForConfirmation
  first : confirmedCalls (callsAt u i b) = confirmedCalls w.calls

/-- One confirmation authorises one effect: the resume of `w` executes at most one action that
requires a confirmation, and that for the pending step; any other that it finds stops the run
again, with its step waiting. -/
structure OneEffect (w : Walk d σ) : Prop where
  once : confirmedCalls (WorkflowRunner.resume std H d gen w).2.calls ≤ confirmedCalls w.calls + 1
  pending : ∀ added, (WorkflowRunner.resume std H d gen w).2.calls = w.calls ++ added →
    ∀ c ∈ added, c.2.isConfirmed = true → (w.run.steps c.1).status = .waitingForConfirmation
  stops : ∀ u i r b, Asks std H gen w u i r b → ¬ Unused w u i b →
    (WorkflowRunner.resume std H d gen w).2.run.status = .paused ∧
      ((WorkflowRunner.resume std H d gen w).2.run.steps i).status = .waitingForConfirmation

/-- The executions of a resume come from moments of it. -/
theorem resume_justified (w : Walk d σ) :
    Justified (fun c => c.2.isConfirmed)
      (fun before c => ∃ u r b, Asks std H gen w u c.1 r b ∧ callsAt u c.1 b = before)
      w.calls (WorkflowRunner.resume std H d gen w).2.calls := by
  unfold WorkflowRunner.resume
  split_ifs with hpaused
  · refine (advanceLoop_justified std H gen true (resumeWalk w)).imp ?_
    rintro before ⟨i, c⟩ hc
    refine ⟨?_, ?_⟩
    · cases c with
      | execute => rfl
      | _ => cases hc
    · rintro ⟨u, r, b, hmeets, hcalls, rfl⟩
      exact ⟨u, r, b, ⟨hpaused, hmeets, hc⟩, hcalls⟩
  · exact .refl _

/-- **One confirmation authorises one effect exactly when no other is asked for**: the resumed call
must find no action that requires a confirmation but the first of the pending step, because it would
execute it all the same. -/
theorem oneEffect_iff (w : Walk d σ) :
    OneEffect std H gen w ↔ ∀ u i r b, Asks std H gen w u i r b → Unused w u i b := by
  constructor
  · intro h u i r b hasks
    by_contra hused
    exact resume_not_paused std H gen hasks.paused (h.stops u i r b hasks hused).1
  · intro h
    refine ⟨?_, ?_, fun u i r b hasks hused => absurd (h u i r b hasks) hused⟩
    · refine (resume_justified std H gen w).countP_le ?_
      rintro before c ⟨u, r, b, hasks, hcalls⟩ -
      have hfirst := (h u c.1 r b hasks).first
      rw [hcalls, confirmedCalls, List.countP_append] at hfirst
      exact Nat.left_eq_add.mp hfirst.symm
    · intro added hadded c hc hconfirmed
      obtain ⟨-, -, u, r, b, hasks, -⟩ := (resume_justified std H gen w).mem hadded hc hconfirmed
      exact (h u c.1 r b hasks).pending

/-! ## Two confirmations asked for, one given -/

/-- The walk after the fresh run of a definition of two steps that both ask for a confirmation. -/
def pausedWalk : Walk (plainDefinition [namedStep "a" none, namedStep "b" none]) Unit :=
  (WorkflowRunner.run .ascii (clickHost ["a", "b"]) _ 0 "run" ()).2

/-- The fresh run pauses at the first step, and its one resume executes both. -/
theorem pausedWalk_two_effects :
    (admissible .ascii (plainDefinition [namedStep "a" none, namedStep "b" none])).isOk = true ∧
    (pausedWalk.run.status = .paused ∧ confirmedCalls pausedWalk.calls = 0) ∧
    confirmedCalls
      (WorkflowRunner.resume .ascii (clickHost ["a", "b"]) _ 0 pausedWalk).2.calls = 2 ∧
    ¬ OneEffect .ascii (clickHost ["a", "b"]) 0 pausedWalk := by
  have hbefore : confirmedCalls pausedWalk.calls = 0 := by decide +kernel
  have htwo : confirmedCalls
      (WorkflowRunner.resume .ascii (clickHost ["a", "b"]) _ 0 pausedWalk).2.calls = 2 := by
    decide +kernel
  refine ⟨by decide +kernel, ⟨by decide +kernel, hbefore⟩, htwo, fun h => ?_⟩
  have honce := h.once
  omega

end AuraLauncher.Runner
