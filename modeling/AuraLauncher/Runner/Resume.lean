import AuraLauncher.Runner.Lockstep
import Mathlib.Order.Interval.Finset.Fin

/-!
# A resumed run and the uninterrupted run

`launcher-workflow/src/lib.rs`, `WorkflowRunner::resume`: the resumed call starts at the entry of
the definition and passes over the steps that are done in the order of the definition, whichever way
the run went before the pause.

* `PausedAt` — a run that has paused, against the run without confirmations at the same step.
* `passes_done` — the resumed call on its way over the steps that are done.
* `Undisturbed` — the pause leaves no trace: the way over the done steps comes to the pending step
  first, the host answers as if it had not been asked before, and neither the attempt nor the passes
  made for the pause decide anything.
* `resume_follows` — then the resumed run executes the steps that the uninterrupted run executes.
* `branchWalk_executes_unselected` — a run that goes over a step of a branch before it pauses
  executes that step when it is resumed.
-/

namespace AuraLauncher.Runner

open AuraLauncher.Domain AuraLauncher.Lib
open AuraLauncher.Workflow (Json)

universe u

variable (std : RustStd) {σ : Type u} (H : Host σ) {d : WorkflowDefinition} (gen : UInt64)

/-! ## A run that has paused -/

/-- The input with which step `i` is visited from a walk. -/
def inputAt (w : Walk d σ) (i : Fin d.steps.length) : Json :=
  materialized std (d.steps.get i) w.run.variables

/-- A run has paused at step `i` with the walk `w`, where the run without confirmations is visiting
the same step from the walk `v`: `w` waits for a confirmation of the action `r`, which the other run
has found as well, in state `y` of the attempt that it began in state `b`. -/
structure PausedAt (w : Walk d σ) (v : Walk d.unconfirmed σ) (i : Fin d.steps.length)
    (r : ResolvedStepAction) (b y : Attempt σ) : Prop where
  status : w.run.status = .paused
  waiting : (w.run.steps i).status = .waitingForConfirmation
  gate : gate std (d.steps.get i) w.run.variables = .pass
  current : v.current = some (sameStep i)
  limit : v.executed < maxStepsPerRun
  executed : w.executed = v.executed + 1
  vars : w.run.variables = v.run.variables
  record : ∀ j, j ≠ i → SameRecord (w.run.steps j) (v.run.steps (sameStep j))
  notDone : (v.run.steps (sameStep i)).status.isDone = false
  ran : ∃ k, ∀ id, executes d w.calls id =
    (executes d.unconfirmed v.calls id || (k && (d.steps.get i).stepId == id))
  found : ∃ s calls,
    resolveStep H (d.steps.get i).action (inputAt std w i) s = (.ok r, w.host, calls)
  visiting : (attemptLoop H.unconfirmed d.unconfirmed (d.steps.get i).unconfirmed (inputAt std w i)
    gen false).Reaches ⟨v.run.steps (sameStep i), v.host, []⟩ b
  resolved : (resolveLoop H.unconfirmed d.unconfirmed (d.steps.get i).unconfirmed
    (inputAt std w i)).run (0, b.enter) = (.ok r.unconfirmed, y)
  attempt : (w.run.steps i).attempt = y.sr.attempt
  host : w.host = y.host

variable {std H gen} {u : Walk d σ} {v : Walk d.unconfirmed σ} {i : Fin d.steps.length}

/-- The resolution that finds an action leaves the host where the visit goes on. -/
theorem resolveLoop_found {step : WorkflowStep} {input : Json} {a x : Attempt σ}
    {r : ResolvedStepAction} (h : (resolveLoop H d step input).run (0, a) = (.ok r, x)) :
    ∃ s calls, resolveStep H step.action input s = (.ok r, x.host, calls) := by
  obtain ⟨m, ⟨k, c⟩, -, -, hexit⟩ := (resolveLoop H d step input).exists_passes_run (0, a)
  rw [h] at hexit
  obtain ⟨⟨outcome, s, calls⟩, hres⟩ : ∃ res, resolveStep H step.action input c.host = res :=
    ⟨_, rfl⟩
  cases outcome with
  | ok r' =>
      cases hexit.symm.trans (resolveBody_ok H d step input (n := k) hres)
      exact ⟨c.host, calls, hres⟩
  | error f =>
      have hbody := resolveBody_error H d step input (n := k) hres
      rcases (onResolveError_inr d step (hbody.symm.trans hexit)).1 with ⟨⟨⟩, -⟩ | ⟨⟨⟩, -⟩

/-- A walk that is about to stop for a confirmation does so. -/
theorem Waits.pausedAt (hw : Waits H (fun s t => s = t) gen gen false false std u v i)
    (h : InStep (fun s t => s = t) u v) (hu : u.current = some i)
    (hlimit : u.executed < maxStepsPerRun) (hpace : u.executed = v.executed) :
    ∃ w r b y, advanceBody std H d gen false u = .inr (.ok (), w) ∧
      PausedAt std H gen w v i r b y := by
  obtain ⟨a, b, ha, hb, -, r, x, y, hx, hy, hxy, hgate⟩ := hw.stops
  obtain ⟨z, hz, hstatus, hattempt, hhost, hcalls⟩ : ∃ z : Attempt σ,
      visit std H gen false u i = (.paused, z) ∧ z.sr.status = .waitingForConfirmation ∧
        z.sr.attempt = x.sr.attempt ∧ z.host = x.host ∧ z.calls = x.calls := by
    refine
      ⟨{ x with
          sr := { resolvedRecord gen r x.sr with
            status := .waitingForConfirmation
            lastError := some "confirmation required" } }, ?_, rfl, rfl, rfl, rfl⟩
    unfold visit executeStep
    rw [ha.run_eq]
    refine (attemptLoop H d _ _ gen false).run_of_inr ?_
    show attemptBody H d _ _ gen false a = _
    rw [attemptBody, hx]
    exact executeResolved_paused hgate
  obtain ⟨w, hperform, hwstatus, hwvars, hwsteps, hwhost, hwexecuted, hwcalls⟩ :=
    perform_paused (w := Walk.enterStep { u with executed := u.executed + 1 } (d.steps.get i)) hz
  have hwvars : w.run.variables = u.run.variables := hwvars
  have hwsteps : w.run.steps = Function.update u.run.steps i z.sr := hwsteps
  have hwcalls : w.calls = u.calls ++ z.calls.map fun c => (i, c) := hwcalls
  have hwi : w.run.steps i = z.sr := by rw [hwsteps, Function.update_self]
  have hinput : inputAt std w i = materialized std (d.steps.get i) u.run.variables := by
    rw [inputAt, hwvars]
  refine ⟨w, r, b, y, ?_, ?_⟩
  · rw [advanceBody_of_some hu hlimit]
    exact (takeUp_of_pass (w := { u with executed := u.executed + 1 }) hw.notDone hw.gate).trans
      hperform
  · refine
      { status := hwstatus
        waiting := hwi ▸ hstatus
        gate := hwvars ▸ hw.gate
        current := by rw [h.current, hu]; rfl
        limit := hpace ▸ hlimit
        executed := hwexecuted.trans (congrArg (· + 1) hpace)
        vars := hwvars.trans h.like.vars
        record := fun j hj => by rw [hwsteps, Function.update_of_ne hj]; exact h.like.record j
        notDone := (h.like.record i).done ▸ hw.notDone
        ran := ⟨x.calls.any HostCall.isExecute, fun id => ?_⟩
        found := by rw [hinput, hwhost, hhost]; exact resolveLoop_found hx
        visiting := hinput ▸ hb
        resolved := hinput ▸ hy
        attempt := by rw [hwi, hattempt, hxy.attempt, UInt32.add_zero]
        host := (hwhost.trans hhost).trans hxy.host }
    rw [hwcalls, hcalls, executes_append_map, h.like.ran id]

/-! ## The passes before the pause -/

/-- The steps of a walk that are done. -/
def doneSteps (w : Walk d σ) : Finset (Fin d.steps.length) :=
  Finset.univ.filter fun j => (w.run.steps j).status.isDone = true

/-- A pass makes one step done at most. -/
theorem card_doneSteps_le {confirmed : Bool} {u' : Walk d σ}
    (h : advanceBody std H d gen confirmed u = .inl u') :
    (doneSteps u').card ≤ (doneSteps u).card + 1 ∧ u'.executed = u.executed + 1 := by
  cases hu : u.current with
  | none =>
      rw [advanceBody_of_none hu] at h
      cases h
  | some i =>
      by_cases hlimit : u.executed < maxStepsPerRun
      · rw [advanceBody_of_some hu hlimit] at h
        refine ⟨?_, (takeUp_counters std H d gen confirmed h).1⟩
        have hsub : doneSteps u' ⊆ insert i (doneSteps u) := by
          intro j hj
          obtain ⟨-, hj⟩ := Finset.mem_filter.mp hj
          by_cases hji : j = i
          · exact Finset.mem_insert.mpr (.inl hji)
          · refine Finset.mem_insert_of_mem (Finset.mem_filter.mpr ⟨Finset.mem_univ j, ?_⟩)
            cases hdone : (u.run.steps i).status.isDone with
            | true =>
                rw [takeUp_of_done std H gen confirmed (by exact hdone)] at h
                cases h
                exact hj
            | false =>
                have hframe := takeUp_frame std H gen confirmed (i := i)
                  (w := { u with executed := u.executed + 1 }) hdone
                rw [h] at hframe
                have hsame : u'.run.steps j = u.run.steps j := hframe.others j hji
                rwa [hsame] at hj
        exact (Finset.card_le_card hsub).trans (Finset.card_insert_le i _)
      · rw [advanceBody_overLimit hu hlimit] at h
        cases h

/-- A fresh run has made a pass for every step that is done. -/
theorem card_doneSteps_le_executed {workflowRunId : String} {host : σ} {confirmed : Bool}
    (h : (advanceLoop std H d gen confirmed).Reaches (freshWalk d workflowRunId host).restart u) :
    (doneSteps u).card ≤ u.executed := by
  obtain ⟨n, hn⟩ := h
  refine (advanceLoop std H d gen confirmed).passes_induct
    (I := fun w => (doneSteps w).card ≤ w.executed) ?_ ?_ hn
  · intro w w' hw hbody
    obtain ⟨hcard, hexecuted⟩ := card_doneSteps_le hbody
    omega
  · have hnone : doneSteps (freshWalk d workflowRunId host).restart = ∅ :=
      Finset.filter_eq_empty_iff.mpr fun j _ => by rintro ⟨⟩
    rw [hnone]
    exact Nat.zero_le _

/-! ## The way over the done steps -/

/-- A call goes over steps that are done in the order of the definition. -/
theorem passes_done {confirmed : Bool} {w : Walk d σ} {e i : Fin d.steps.length}
    (hcurrent : w.current = some e) (hle : e ≤ i)
    (hdone : ∀ j, e ≤ j → j < i → (w.run.steps j).status.isDone = true)
    (hlimit : w.executed + i.val ≤ maxStepsPerRun + e.val) :
    (advanceLoop std H d gen confirmed).Reaches w
      { w with current := some i, executed := w.executed + (i.val - e.val) } := by
  have hfrom : ∀ n (e : Fin d.steps.length) (w : Walk d σ), i.val = e.val + n →
      w.current = some e → (∀ j, e ≤ j → j < i → (w.run.steps j).status.isDone = true) →
      w.executed + n ≤ maxStepsPerRun →
      (advanceLoop std H d gen confirmed).Reaches w
        { w with current := some i, executed := w.executed + n } := by
    intro n
    induction n with
    | zero =>
        intro e w hi hw _ _
        obtain rfl : i = e := Fin.ext hi
        obtain ⟨current, executed, run, host, calls⟩ := w
        obtain rfl : current = some i := hw
        exact .refl _ _
    | succ n ih =>
        intro e w hi hw hdone hlimit
        have hlt : e.val + 1 < d.steps.length := by omega
        have hstep : advanceBody std H d gen confirmed w =
            .inl { w with current := some ⟨e.val + 1, hlt⟩, executed := w.executed + 1 } := by
          rw [advanceBody_of_some hw (by omega), takeUp_of_done std H gen confirmed
            (by exact hdone e le_rfl (Fin.lt_def.mpr (by omega))), nextLinear, dif_pos hlt]
          rfl
        have hrest := ih ⟨e.val + 1, hlt⟩
          { w with current := some ⟨e.val + 1, hlt⟩, executed := w.executed + 1 }
          (by simp only; omega) rfl
          (fun j hj hji => hdone j (Fin.le_def.mpr (by
            have hle : e.val + 1 ≤ j.val := Fin.le_def.mp hj
            omega)) hji)
          (by simp only; omega)
        have hfirst : (advanceLoop std H d gen confirmed).Reaches w
            { w with current := some ⟨e.val + 1, hlt⟩, executed := w.executed + 1 } :=
          While.Reaches.step (.refl _ w) hstep
        have hsum : w.executed + 1 + n = w.executed + (n + 1) := by omega
        simp only [hsum] at hrest
        exact hfirst.trans hrest
  have hval : e.val ≤ i.val := hle
  exact hfrom (i.val - e.val) e w (by omega) hcurrent hdone (by omega)

/-! ## The resumed call -/

variable (std H gen) in
/-- No pass of the call from `w` is cut off by the limit. -/
def NotCutOff (confirmed : Bool) (w : Walk d σ) : Prop :=
  ∀ w' j, (advanceLoop std H d gen confirmed).Reaches w w' → w'.current = some j →
    w'.executed < maxStepsPerRun

variable (std H) in
/-- The pause of a run at step `i`, with the walk `w`, leaves no trace in its resume:

* the entry does not stand behind the pending step in the definition, and every step between them is
  done, so the way over the done steps comes to the pending step first;
* the host answers the resume as it answers the uninterrupted run, from states related by `R`; asked
  for the pending step again, it gives the action that it gave, and is left as if not asked;
* the attempt made for the pause decides nothing in the visit of the pending step;
* the passes made for the pause decide nothing: they are as many as those of the resume up to the
  pending step, or the uninterrupted run is not cut off by the limit. -/
structure Undisturbed (R : σ → σ → Prop) (gen gen' : UInt64) (workflowRunId : String) (host : σ)
    (w : Walk d σ) (i : Fin d.steps.length) : Prop where
  order : ∀ e, indexOf d (entryId d) = some e →
    e ≤ i ∧ ∀ j, e ≤ j → j < i → (w.run.steps j).status.isDone = true
  alike : Alike H R gen' true gen false
  again : ∀ r s calls,
    resolveStep H (d.steps.get i).action (inputAt std w i) s = (.ok r, w.host, calls) →
      ∃ s' calls', resolveStep H (d.steps.get i).action (inputAt std w i) w.host =
        (.ok r, s', calls') ∧ R s' w.host
  spared : Spared H d (d.steps.get i) (inputAt std w i) gen' true 1 ⟨w.run.steps i, w.host, []⟩
  limit : ∀ e, indexOf d (entryId d) = some e →
    w.executed + e.val = i.val + 1 ∨
      NotCutOff std H.unconfirmed gen false (freshWalk d.unconfirmed workflowRunId host).restart

variable {R : σ → σ → Prop} {gen' : UInt64} {workflowRunId : String} {host₀ : σ} {w : Walk d σ}
  {r : ResolvedStepAction} {b y : Attempt σ}

/-- **The resumed visit of the pending step** ends as the visit of the uninterrupted run does, and
has executed the step. -/
theorem resumed_visit (hp : PausedAt std H gen w v i r b y)
    (h : Undisturbed std H R gen gen' workflowRunId host₀ w i) :
    SameEnd R (visit std H gen' true w i) (visit std H.unconfirmed gen false v (sameStep i)) ∧
      (visit std H gen' true w i).2.calls.any HostCall.isExecute = true := by
  obtain ⟨s, calls, hs⟩ := hp.found
  obtain ⟨s', calls', hs', hR⟩ := h.again r s calls hs
  let a : Attempt σ := ⟨w.run.steps i, w.host, []⟩
  let x : Attempt σ := ⟨a.enter.sr, s', [] ++ calls'⟩
  have hx : (resolveLoop H d (d.steps.get i) (inputAt std w i)).run (0, a.enter) = (.ok r, x) :=
    (resolveLoop H d _ _).run_of_inr (resolveBody_ok H d _ _ hs')
  have hleft : attemptBody H d (d.steps.get i) (inputAt std w i) gen' true a =
      executeResolved H d (d.steps.get i) gen' true r x := by rw [attemptBody, hx]
  have hright : attemptBody H.unconfirmed d.unconfirmed (d.steps.get i).unconfirmed
      (inputAt std w i) gen false b = executeResolved H.unconfirmed d.unconfirmed
        (d.steps.get i).unconfirmed gen false r.unconfirmed y := by rw [attemptBody, hp.resolved]
  -- from the action found on, the resumed visit is one attempt ahead
  have hattempt : x.sr.attempt = y.sr.attempt + 1 := congrArg (· + 1) hp.attempt
  have hhost : R x.host y.host := hp.host ▸ hR
  have hfirst : Sum.LiftRel (Near R 1) (SameEnd R)
      (attemptBody H d (d.steps.get i) (inputAt std w i) gen' true a)
      (attemptBody H.unconfirmed d.unconfirmed (d.steps.get i).unconfirmed (inputAt std w i) gen
        false b) := by
    rw [hleft, hright]
    exact executeResolved_near h.alike hattempt hhost (Bool.and_false _) fun f =>
      h.spared.executing r x f ⟨a, .refl _ a, hx⟩
  refine ⟨?_, ?_⟩
  · have hright : visit std H.unconfirmed gen false v (sameStep i) =
        executeStep H.unconfirmed d.unconfirmed (d.steps.get i).unconfirmed (inputAt std w i) gen
          false b := (visit_sameStep hp.vars).trans hp.visiting.run_eq
    rw [hright]
    refine (attemptLoop H d _ _ gen' true).run_related (attemptLoop H.unconfirmed d.unconfirmed _ _
      gen false) hfirst fun a' b' ha _ hnear => ?_
    -- with the confirmation given, the visit does not stop
    rcases attemptBody_near h.alike h.spared ha hnear with hstops | hlift
    · obtain ⟨_, _, _, -, -, -, hgate⟩ := hstops
      simp at hgate
    · exact hlift
  · refine executeStep_ran ?_
    show (Attempt.ofResult
      (attemptBody H d (d.steps.get i) (inputAt std w i) gen' true a)).calls.any
        HostCall.isExecute = true
    rw [hleft]
    rcases executeResolved_cases H d (d.steps.get i) gen' true r x with ⟨-, ⟨⟩, -⟩ | ⟨-, hcalls, -⟩
    rw [hcalls]
    simp [HostCall.isExecute]

/-- The uninterrupted run has made a pass for each of the steps that the resumed call goes over. -/
theorem PausedAt.le_executed (hp : PausedAt std H gen w v i r b y) {e : Fin d.steps.length}
    (hdone : ∀ j, e ≤ j → j < i → (w.run.steps j).status.isDone = true)
    (hv : (advanceLoop std H.unconfirmed d.unconfirmed gen false).Reaches
      (freshWalk d.unconfirmed workflowRunId host₀).restart v) :
    i.val ≤ v.executed + e.val := by
  have hsub : (Finset.Ico e i).image sameStep ⊆ doneSteps v := by
    intro k hk
    obtain ⟨j, hj, rfl⟩ := Finset.mem_image.mp hk
    obtain ⟨hej, hji⟩ := Finset.mem_Ico.mp hj
    refine Finset.mem_filter.mpr ⟨Finset.mem_univ _, ?_⟩
    exact (hp.record j hji.ne).done.symm.trans (hdone j hej hji)
  have hcard := (Finset.card_le_card hsub).trans (card_doneSteps_le_executed hv)
  rw [Finset.card_image_of_injective _ sameStep_injective, Fin.card_Ico] at hcard
  omega

/-- The resumed walk when it has come from the entry `e` to the pending step. -/
def comesTo (w : Walk d σ) (e i : Fin d.steps.length) : Walk d σ :=
  { resumeWalk w with current := some i, executed := 0 + (i.val - e.val) }

/-- Over the steps that are done, the resumed call comes to the pending step. -/
theorem resume_eq_run_comesTo (hstatus : w.run.status = .paused) {e : Fin d.steps.length}
    (he : indexOf d (entryId d) = some e) (hle : e ≤ i)
    (hdone : ∀ j, e ≤ j → j < i → (w.run.steps j).status.isDone = true)
    (hlimit : i.val ≤ maxStepsPerRun + e.val) :
    WorkflowRunner.resume std H d gen' w = (advanceLoop std H d gen' true).run (comesTo w e i) := by
  have hreach : (advanceLoop std H d gen' true).Reaches (resumeWalk w) (comesTo w e i) :=
    passes_done (w := resumeWalk w) he hle hdone ((Nat.zero_add i.val).trans_le hlimit)
  unfold WorkflowRunner.resume
  rw [if_pos hstatus]
  exact hreach.run_eq

/-- The pass that visits the pending step again, against the pass of the uninterrupted run. -/
theorem resumed_pass (hp : PausedAt std H gen w v i r b y)
    (h : Undisturbed std H R gen gen' workflowRunId host₀ w i) {e : Fin d.steps.length}
    (hlimit : (comesTo w e i).executed < maxStepsPerRun) :
    Sum.LiftRel
      (fun u' v' => InStep R u' v' ∧ u'.executed = (comesTo w e i).executed + 1 ∧
        v'.executed = v.executed + 1)
      (SameSteps d) (advanceBody std H d gen' true (comesTo w e i))
      (advanceBody std H.unconfirmed d.unconfirmed gen false v) := by
  obtain ⟨hend, hexecuted⟩ := resumed_visit hp h
  obtain ⟨k, hk⟩ := hp.ran
  have hgate' : gate std (d.unconfirmed.steps.get (sameStep i)) v.run.variables = .pass := by
    rw [get_sameStep, ← hp.vars]
    exact hp.gate
  have hnot : (w.run.steps i).status.isDone = false := by
    rw [hp.waiting]
    rfl
  rw [advanceBody_of_some (w := comesTo w e i) rfl hlimit, advanceBody_of_some hp.current hp.limit]
  refine takeUp_paced
    (u := { comesTo w e i with executed := (comesTo w e i).executed + 1 })
    (v := { v with executed := v.executed + 1 }) ?_
  rw [takeUp_of_pass
      (w := { comesTo w e i with executed := (comesTo w e i).executed + 1 }) hnot hp.gate,
    takeUp_of_pass (w := { v with executed := v.executed + 1 }) hp.notDone hgate']
  refine perform_inStep (by rintro ⟨⟩) hp.vars hp.record rfl rfl hend fun id => ?_
  have hboth := hend.ran
  rw [hexecuted] at hboth
  show (executes d w.calls id || ((visit std H gen' true w i).2.calls.any _ && _)) =
    (executes d.unconfirmed v.calls id ||
      ((visit std H.unconfirmed gen false v (sameStep i)).2.calls.any _ && _))
  rw [hexecuted, ← hboth, hk id, Bool.or_assoc]
  cases k <;> simp

variable (std H gen workflowRunId host₀) in
/-- The limit cuts off both walks together, or neither. -/
def Paced (u : Walk d σ) (v : Walk d.unconfirmed σ) : Prop :=
  u.executed = v.executed ∨
    NotCutOff std H.unconfirmed gen false (freshWalk d.unconfirmed workflowRunId host₀).restart ∧
      u.executed ≤ v.executed

/-- **The resumed call**: from the pending step on it is in step with the uninterrupted run. -/
theorem resumed_call (hp : PausedAt std H gen w v i r b y)
    (h : Undisturbed std H R gen gen' workflowRunId host₀ w i) {e : Fin d.steps.length}
    (he : indexOf d (entryId d) = some e)
    (hv : (advanceLoop std H.unconfirmed d.unconfirmed gen false).Reaches
      (freshWalk d.unconfirmed workflowRunId host₀).restart v) :
    SameSteps d (WorkflowRunner.resume std H d gen' w)
      ((advanceLoop std H.unconfirmed d.unconfirmed gen false).run v) := by
  obtain ⟨hle, hdone⟩ := h.order e he
  have hcount := hp.le_executed hdone hv
  have hlimit := hp.limit
  have hexecuted : (comesTo w e i).executed = i.val - e.val := Nat.zero_add _
  have hpaced : ∀ (u' : Walk d σ) (v' : Walk d.unconfirmed σ),
      u'.executed = (comesTo w e i).executed + 1 → v'.executed = v.executed + 1 →
        Paced std H gen workflowRunId host₀ u' v' := by
    intro u' v' hu' hv'
    have hval : e.val ≤ i.val := hle
    have hwexecuted := hp.executed
    rcases h.limit e he with heq | hwithin
    · exact .inl (by omega)
    · exact .inr ⟨hwithin, by omega⟩
  rw [resume_eq_run_comesTo hp.status he hle hdone (by omega)]
  refine (advanceLoop std H d gen' true).run_related
    (advanceLoop std H.unconfirmed d.unconfirmed gen false)
    (I := fun u' v' => InStep R u' v' ∧ Paced std H gen workflowRunId host₀ u' v')
    ((resumed_pass hp h (by omega)).mono_left fun u' v' hI =>
      ⟨hI.1, hpaced u' v' hI.2.1 hI.2.2⟩) ?_
  rintro u' v' - hv' ⟨hinStep, hpace⟩
  have hsame : SamePace u' v' :=
    hpace.imp_right fun hle' => ⟨hle'.2, fun j => hle'.1 v' j (hv.trans hv')⟩
  rcases advanceBody_inStep std h.alike hinStep hsame with ⟨j, -, -, hwaits⟩ | hlift
  · obtain ⟨_, _, -, -, -, _, _, _, -, -, -, hgate⟩ := hwaits.stops
    simp at hgate
  · refine hlift.mono_left fun u'' v'' hI => ⟨hI.1, hpace.imp ?_ ?_⟩
    · intro heq
      rw [hI.2.1, hI.2.2, heq]
    · rintro ⟨hwithin, hle'⟩
      exact ⟨hwithin, by rw [hI.2.1, hI.2.2]; omega⟩

/-! ## The whole run -/

/-- The walks with which the two runs start are in step. -/
theorem freshWalk_inStep (workflowRunId : String) (host : σ) :
    InStep (fun s t => s = t) (freshWalk d workflowRunId host).restart
      (freshWalk d.unconfirmed workflowRunId host).restart where
  like :=
    { running := by rintro ⟨⟩
      vars := rfl
      host := rfl
      record := fun _ => ⟨rfl, fun _ => rfl⟩
      ran := fun _ => rfl }
  current := by
    show indexOf d.unconfirmed (entryId d.unconfirmed) = (indexOf d (entryId d)).map sameStep
    rw [entryId_unconfirmed, indexOf_unconfirmed]

variable (std H d gen) in
/-- **A fresh run in step with the run without confirmations**: they end with the same steps
executed, or the fresh run stops for a confirmation. -/
theorem freshRun_inStep (workflowRunId : String) (host : σ) :
    SameSteps d ((advanceLoop std H d gen false).run (freshWalk d workflowRunId host).restart)
        ((advanceLoop std H.unconfirmed d.unconfirmed gen false).run
          (freshWalk d.unconfirmed workflowRunId host).restart) ∨
      ∃ w v i r b y,
        (advanceLoop std H d gen false).run (freshWalk d workflowRunId host).restart = (.ok (), w) ∧
        (advanceLoop std H.unconfirmed d.unconfirmed gen false).Reaches
          (freshWalk d.unconfirmed workflowRunId host).restart v ∧
        PausedAt std H gen w v i r b y := by
  have hpass : ∀ (u : Walk d σ) (v : Walk d.unconfirmed σ),
      InStep (fun s t => s = t) u v ∧ u.executed = v.executed →
      (∃ i, u.current = some i ∧ u.executed < maxStepsPerRun ∧
        Waits H (fun s t => s = t) gen gen false false std u v i) ∨
      Sum.LiftRel (fun u v => InStep (fun s t => s = t) u v ∧ u.executed = v.executed) (SameSteps d)
        (advanceBody std H d gen false u)
        (advanceBody std H.unconfirmed d.unconfirmed gen false v) := by
    rintro u v ⟨hinStep, hpace⟩
    refine (advanceBody_inStep std (.same H gen false) hinStep (.inl hpace)).imp_right
      fun hlift => ?_
    refine hlift.mono_left fun u' v' hI => ⟨hI.1, ?_⟩
    rw [hI.2.1, hI.2.2, hpace]
  rcases (advanceLoop std H d gen false).run_related_or
    (advanceLoop std H.unconfirmed d.unconfirmed gen false) (fun u v _ _ => hpass u v)
    ⟨freshWalk_inStep workflowRunId host, rfl⟩ with
    hsame | ⟨u, v, hu, hv, ⟨hinStep, hpace⟩, i, hcurrent, hlimit, hwaits⟩
  · exact .inl hsame
  · obtain ⟨w, r, b, y, hbody, hp⟩ := hwaits.pausedAt hinStep hcurrent hlimit hpace
    refine .inr ⟨w, v, i, r, b, y, ?_, hv, hp⟩
    rw [hu.run_eq]
    exact (advanceLoop std H d gen false).run_of_inr hbody

variable (std H) in
/-- A resumed run follows the path of the uninterrupted run: the resume ends the run, and over both
calls exactly the steps are executed that the run without confirmations executes. -/
structure FollowsUninterrupted (gen gen' : UInt64) (workflowRunId : String) (host : σ)
    (w : Walk d σ) : Prop where
  ended : (WorkflowRunner.resume std H d gen' w).2.run.status ≠ .paused
  same : ∀ id, executes d (WorkflowRunner.resume std H d gen' w).2.calls id =
    executes d.unconfirmed
      (WorkflowRunner.run std H.unconfirmed d.unconfirmed gen workflowRunId host).2.calls id

/-- A definition that passes the checks has its entry among its steps. -/
theorem exists_entry (h : admissible std d = .ok ()) : ∃ e, indexOf d (entryId d) = some e :=
  Option.isSome_iff_exists.mp (indexOf_isSome_iff.mpr (admissible_eq_ok_iff.mp h).2.1.entry)

variable (std H gen) in
/-- **A resumed run follows the path of the uninterrupted run where its pause leaves no trace.** -/
theorem resume_follows {workflowRunId : String} {host : σ} {w : Walk d σ}
    (hrun : (WorkflowRunner.run std H d gen workflowRunId host).2 = w)
    (hpaused : w.run.status = .paused)
    (h : ∀ i, (w.run.steps i).status = .waitingForConfirmation →
      Undisturbed std H R gen gen' workflowRunId host w i) :
    FollowsUninterrupted std H gen gen' workflowRunId host w := by
  have hok : admissible std d = .ok () := by
    cases hadm : admissible std d with
    | ok _ => rfl
    | error e =>
        rw [WorkflowRunner.run, hadm] at hrun
        rw [← hrun] at hpaused
        cases hpaused
  obtain ⟨e, he⟩ := exists_entry hok
  rw [WorkflowRunner.run, hok] at hrun
  have hright : WorkflowRunner.run std H.unconfirmed d.unconfirmed gen workflowRunId host =
      (advanceLoop std H.unconfirmed d.unconfirmed gen false).run
        (freshWalk d.unconfirmed workflowRunId host).restart := by
    rw [WorkflowRunner.run, admissible_unconfirmed hok]
    rfl
  rcases freshRun_inStep std H d gen workflowRunId host with
    hsame | ⟨w', v, i, r, b, y, hw', hv, hp⟩
  · exact absurd (hrun ▸ hpaused) hsame.ended
  · obtain rfl : w' = w := (congrArg Prod.snd hw').symm.trans hrun
    have hresume := resumed_call hp (h i hp.waiting) he hv
    refine ⟨hresume.ended, fun id => ?_⟩
    rw [hright, hv.run_eq]
    exact hresume.ran id

/-! ## A pause after two steps in order, and a pause after a jump -/

/-- The walk after the fresh run of a definition of two steps, the second of which asks for a
confirmation. -/
def linearWalk : Walk (plainDefinition [namedStep "a" none, namedStep "b" none]) Unit :=
  (WorkflowRunner.run .ascii (clickHost ["b"]) _ 0 "run" ()).2

theorem resume_follows_linear :
    linearWalk.run.status = .paused ∧
      FollowsUninterrupted .ascii (clickHost ["b"]) 0 0 "run" () linearWalk := by
  have hpaused : linearWalk.run.status = .paused := by decide +kernel
  refine ⟨hpaused, resume_follows .ascii (clickHost ["b"]) 0 (R := fun s t => s = t) rfl hpaused ?_⟩
  intro i hi
  have hpending : ∀ i, (linearWalk.run.steps i).status = .waitingForConfirmation →
      i = ⟨1, by decide⟩ := by
    decide +kernel
  obtain rfl := hpending i hi
  have hentry : indexOf (plainDefinition [namedStep "a" none, namedStep "b" none])
      (entryId (plainDefinition [namedStep "a" none, namedStep "b" none])) =
        some ⟨0, by decide⟩ := by
    decide +kernel
  have hfound : ∀ f, (resolveStep (clickHost ["b"]) (namedStep "b" none).action
      (inputAt .ascii linearWalk ⟨1, by decide⟩) ()).1 ≠ .error f := by
    have hok : (resolveStep (clickHost ["b"]) (namedStep "b" none).action
        (inputAt .ascii linearWalk ⟨1, by decide⟩) ()).1.isOk = true := by decide +kernel
    intro f herror
    rw [herror] at hok
    cases hok
  refine ⟨?_, ⟨fun _ _ _ => rfl, fun _ _ h _ => ⟨rfl, h⟩, fun _ _ h _ _ => ⟨rfl, h⟩⟩, ?_,
    ⟨?_, ?_⟩, ?_⟩
  · intro e he
    cases hentry.symm.trans he
    decide +kernel
  · exact fun r s calls h => ⟨s, calls, h, rfl⟩
  · intro a n c f _ _ herror
    exact absurd herror (hfound f)
  · intro r c f _ herror
    cases herror
  · intro e he
    cases hentry.symm.trans he
    exact .inl (by decide +kernel)

/-- A step that goes to `s3` when its condition holds, and to `s2` when it does not. -/
def branchStep : WorkflowStep :=
  { namedStep "s1" (some "s3") with
    condition := some ⟨"true"⟩
    onConditionFalse := some "s2" }

/-- A definition that starts with a branch. -/
def branchDefinition : WorkflowDefinition :=
  plainDefinition [branchStep, namedStep "s2" none, namedStep "s3" none]

/-- The walk after its fresh run, where the step `s3` asks for a confirmation. -/
def branchWalk : Walk branchDefinition Unit :=
  (WorkflowRunner.run .ascii (clickHost ["s3"]) _ 0 "run" ()).2

/-- The fresh run goes from `s1` to `s3` and pauses there; its resume executes `s2`, which the
uninterrupted run does not execute. -/
theorem branchWalk_executes_unselected :
    (admissible .ascii branchDefinition).isOk = true ∧
    branchWalk.run.status = .paused ∧
    executes branchDefinition branchWalk.calls "s2" = false ∧
    executes branchDefinition
      (WorkflowRunner.resume .ascii (clickHost ["s3"]) _ 0 branchWalk).2.calls "s2" = true ∧
    executes branchDefinition.unconfirmed
      (WorkflowRunner.run .ascii (clickHost ["s3"]).unconfirmed branchDefinition.unconfirmed 0 "run"
        ()).2.calls "s2" = false ∧
    ¬ FollowsUninterrupted .ascii (clickHost ["s3"]) 0 0 "run" () branchWalk := by
  have hresumed : executes branchDefinition
      (WorkflowRunner.resume .ascii (clickHost ["s3"]) _ 0 branchWalk).2.calls "s2" = true := by
    decide +kernel
  have huninterrupted : executes branchDefinition.unconfirmed
      (WorkflowRunner.run .ascii (clickHost ["s3"]).unconfirmed branchDefinition.unconfirmed 0 "run"
        ()).2.calls "s2" = false := by decide +kernel
  refine ⟨by decide +kernel, by decide +kernel, by decide +kernel, hresumed, huninterrupted,
    fun h => ?_⟩
  have hsame := h.same "s2"
  rw [hresumed, huninterrupted] at hsame
  cases hsame

end AuraLauncher.Runner
