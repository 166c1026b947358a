import AuraLauncher.Agent.Approved
import Mathlib.Data.List.Nodup

/-!
# Which steps a run repeats

A run of the agent goes over its plan at most twice; the second time it skips what succeeded. The
rule of `execution_semantics.rs` is that a failed call is repeated only if its effect did not start
or did not land. The loop looks for an unknown effect only, so it also repeats a call whose effect
is reported as completed or as started.

* `MayRepeat`, `RetrySafe` — the rule, for a call and for all calls of a run.
* `retrySafe_again_iff` — the rule for the calls of two passes, the second of which goes on with
  the step that failed.
* `CancelledIfLanded` — a first pass that fails with such an effect is followed by a cancellation.
* `runAgent_retrySafe_iff` — a run keeps the rule exactly under this.
* `runAgent_not_retrySafe` — a run that breaks it.
-/

namespace AuraLauncher.Agent

/-- A call that may be repeated: it failed, and its effect did not start or did not land. -/
def MayRepeat (c : Call) : Prop := c.FailedWith .notStarted ∨ c.FailedWith .failed

/-- The rule of `retryDecision`, for a call that is not known to be idempotent. -/
theorem mayRepeat_iff {c : Call} {effect : EffectState} (h : c.FailedWith effect) :
    MayRepeat c ↔ retryDecision .failed effect false = .allowed := by
  rw [retryDecision_failed_iff]
  unfold MayRepeat Call.FailedWith
  rw [h.2]
  simp [h.1]

/-- A step is called again only after calls that may be repeated, and no step more than twice. -/
structure RetrySafe (calls : List Call) : Prop where
  repeated : calls.Pairwise fun c c' => c.step.stepId = c'.step.stepId → MayRepeat c
  twice : ∀ stepId, (calls.map fun c => c.step.stepId).count stepId ≤ 2

/-- The effect is reported as completed or as started. -/
def EffectState.Landed (effect : EffectState) : Prop := effect = .completed ∨ effect = .started

/-- A failed call with a settled effect may be repeated unless its effect landed. -/
theorem mayRepeat_iff_not_landed {c : Call} {effect : EffectState} (h : c.FailedWith effect)
    (heffect : effect ≠ .unknown) : MayRepeat c ↔ ¬effect.Landed := by
  obtain ⟨hresult, hreport⟩ := h
  unfold MayRepeat EffectState.Landed Call.FailedWith
  rw [hreport]
  cases effect <;> simp [hresult] at heffect ⊢

theorem pairwise_of_nodup_ids {calls : List Call} {P : Call → Prop}
    (h : (calls.map fun c => c.step.stepId).Nodup) :
    calls.Pairwise fun c c' => c.step.stepId = c'.step.stepId → P c := by
  have hne := List.pairwise_map.mp h
  exact hne.imp fun hno heq => absurd heq hno

/-- Calls of different steps keep the rule. -/
theorem retrySafe_of_nodup {calls : List Call} (h : (calls.map fun c => c.step.stepId).Nodup) :
    RetrySafe calls where
  repeated := pairwise_of_nodup_ids h
  twice stepId := (List.nodup_iff_count_le_one.mp h stepId).trans (by omega)

/-- The calls of two passes, where the second goes on with the step that failed in the first, keep
the rule exactly if the second makes no call or the failed call may be repeated. -/
theorem retrySafe_again_iff {returned again : List Call} {c : Call}
    (hids : ((returned ++ [c]).map fun c => c.step.stepId).Nodup)
    (hids' : (again.map fun c => c.step.stepId).Nodup)
    (hfresh : ∀ d ∈ again, ∀ d' ∈ returned, d.step.stepId ≠ d'.step.stepId)
    (hfirst : ∀ d ∈ again.head?, d.step.stepId = c.step.stepId) :
    RetrySafe (returned ++ [c] ++ again) ↔ again = [] ∨ MayRepeat c := by
  cases again with
  | nil =>
      rw [List.append_nil]
      exact iff_of_true (retrySafe_of_nodup hids) (.inl rfl)
  | cons c' again =>
      constructor
      · intro hsafe
        have hpair := (List.pairwise_append.mp hsafe.repeated).2.2 c
          (List.mem_append_right _ (List.mem_singleton_self c)) c' List.mem_cons_self
        exact .inr (hpair (hfirst c' rfl).symm)
      · rintro (hnil | hmay)
        · cases hnil
        · refine ⟨List.pairwise_append.mpr ⟨pairwise_of_nodup_ids hids,
            pairwise_of_nodup_ids hids', fun d hd d' hd' heq => ?_⟩, fun stepId => ?_⟩
          · -- of the first pass only the failed step is called again
            rcases List.mem_append.mp hd with hd | hd
            · exact absurd heq.symm (hfresh d' hd' d hd)
            · obtain rfl := List.mem_singleton.mp hd
              exact hmay
          · rw [List.map_append, List.count_append]
            have hle := List.nodup_iff_count_le_one.mp hids stepId
            have hle' := List.nodup_iff_count_le_one.mp hids' stepId
            omega

variable {W F : Type} {env : Env W}

/-! ## The calls of a run -/

theorem Run.calls_move (r : Run W) (dst : AgentRunStatus) (consumesTurn : Bool) :
    (r.move dst consumesTurn).calls = r.calls := by
  unfold Run.calls Run.move
  rw [List.filterMap_append]
  exact List.append_nil _

theorem Run.calls_replan (r : Run W) : r.replan.calls = r.calls := by
  unfold Run.replan
  rw [Run.calls_move, Run.calls_move, Run.calls_move]

theorem Passed.calls_run {status : Statuses} {r : Run W} {steps : List PlanStep} {p : Pass W}
    {calls : List Call} (h : Passed status r steps p calls) : p.run.calls = r.calls ++ calls := by
  unfold Run.calls
  rw [h.events, List.filterMap_append, List.filterMap_map]
  exact congrArg _ (List.filterMap_some)

/-- The ids of the calls of a pass are different if those of the steps are. -/
theorem Passed.nodup {status : Statuses} {r : Run W} {steps : List PlanStep} {p : Pass W}
    {calls : List Call} (h : Passed status r steps p calls)
    (hnodup : (steps.map PlanStep.stepId).Nodup) : (calls.map fun c => c.step.stepId).Nodup :=
  hnodup.sublist h.ids

/-- If the pass failed with an effect that landed, the run is cancelled before it comes to the
failed step again. -/
def CancelledIfLanded (env : Env W) (plan : List PlanStep) (p : Pass W) : Prop :=
  ∀ stepId e effect, p.ending = .failed stepId e effect → effect.Landed →
    CancelledUpTo env stepId plan p.run.world

/-- **The passes over a plan** keep the rule exactly if the first did not fail with an effect that
landed, or the run is cancelled before the retry. -/
theorem LoopRun.retrySafe_iff {plan : List PlanStep} {r : Run W} {result : LoopStop × Run W}
    (h : LoopRun env plan r result) (hnodup : (plan.map PlanStep.stepId).Nodup)
    (hr : r.calls = []) :
    RetrySafe result.2.calls ↔ CancelledIfLanded env plan (runSteps env noStatus r plan) := by
  cases h with
  | once h _ hend =>
      rw [Run.calls_move, h.calls_run, hr]
      refine iff_of_true (retrySafe_of_nodup (h.nodup hnodup)) fun stepId e effect hfailed => ?_
      obtain rfl := hend _ _ _ hfailed
      rintro (hlanded | hlanded)
      · cases hlanded
      · cases hlanded
  | @twice stop p p' calls again stepId e effect h hp hend heffect h' hp' =>
      rw [← hp, Run.calls_move, h'.calls_run, Run.calls_replan, h.calls_run, hr, List.nil_append]
      obtain ⟨hstatus, before, step, after, hplan, rfl, hbefore⟩ := h.reached stepId e effect hend
      have hopen : ¬Settled p.status step.stepId := by
        unfold Settled
        rw [hstatus, failedStatus, if_neg heffect]
        simp
      have hnil : again = [] ↔ CancelledUpTo env step.stepId plan p.run.world := by
        subst hplan
        exact calls_eq_nil_iff hbefore hopen p.run.replan (hp' ▸ h'.events)
      have hafter := h.ending
      rw [hend] at hafter
      obtain ⟨returned, c, rfl, hreturned, hc, hid⟩ := hafter.exists_last
      rw [retrySafe_again_iff (h.nodup hnodup) (h'.nodup hnodup), hnil,
        mayRepeat_iff_not_landed hc heffect]
      · unfold CancelledIfLanded
        rw [hend]
        constructor
        · rintro hor _ _ _ ⟨⟩ hlanded
          exact hor.resolve_right (not_not.mpr hlanded)
        · intro hall
          by_cases hlanded : effect.Landed
          · exact .inl (hall _ _ _ rfl hlanded)
          · exact .inr hlanded
      · intro d hd d' hd' heq'
        refine (h'.of d hd).2.2 (heq' ▸ h.returned d' ?_ (hreturned d' hd'))
        exact List.mem_append_left _ hd'
      · intro d hd
        rw [h'.first before step after hplan hbefore hopen d hd, hid]

/-- Before the first step there are no calls. -/
theorem Run.calls_of_before {session : AgentSession} {w : W} {r : Run W} {events : List Event}
    (hevents : r.events = (Run.start session w).events ++ events)
    (hbefore : ∀ e ∈ events, e.isBefore = true) : r.calls = [] := by
  unfold Run.calls
  rw [hevents, List.filterMap_append, List.append_eq_nil_iff]
  refine ⟨by simp [Run.start, Run.move, Event.call?], List.filterMap_eq_nil_iff.mpr fun e he => ?_⟩
  have hkind := hbefore e he
  cases e <;> first | rfl | cases hkind

/-- Up to the first step there are no calls, and the plan has different step ids. -/
theorem calls_of_prepare {std : AgentStd F} {session : AgentSession}
    {input context catalog : String} {policy : ClarificationPolicy F} {contextBudget : ℕ} {w : W}
    {outcome : LoopStop ⊕ List PlanStep} {r : Run W}
    (h : prepare env std session input context catalog policy contextBudget w = (outcome, r)) :
    r.calls = [] ∧ ∀ plan, outcome = .inr plan → (plan.map PlanStep.stepId).Nodup := by
  by_cases hbudget : session.transition .observing true = .error .stepBudgetExhausted
  · rw [prepare, if_pos hbudget] at h
    cases h
    refine ⟨Run.calls_move _ _ _, ?_⟩
    rintro plan ⟨⟩
  · have hprep := prepare_prepared env std input context catalog policy contextBudget w hbudget
    rw [h] at hprep
    cases hprep with
    | stopped stop events hsession hevents hbefore _ =>
        refine ⟨(Run.calls_move _ _ _).trans (Run.calls_of_before hevents hbefore), ?_⟩
        rintro plan ⟨⟩
    | ready events hsession hevents happroval _ hnodup =>
        refine ⟨Run.calls_of_before hevents happroval.isBefore, ?_⟩
        rintro plan ⟨⟩
        exact hnodup

/-- **Retry safety of a run.** A run calls a step again only after calls that may be repeated, and
no step more than twice, exactly if the first pass over its plan does not fail with an effect that
landed, or the run is cancelled before it comes to the failed step again. -/
theorem runAgent_retrySafe_iff (env : Env W) (std : AgentStd F) (session : AgentSession)
    (input context catalog : String) (policy : ClarificationPolicy F) (contextBudget : ℕ) (w : W) :
    RetrySafe (runAgent env std session input context catalog policy contextBudget w).2.calls ↔
      ∀ plan r, prepare env std session input context catalog policy contextBudget w =
        (.inr plan, r) →
        CancelledIfLanded env plan (runSteps env noStatus (r.move .executing true) plan) := by
  unfold runAgent
  rcases hp : prepare env std session input context catalog policy contextBudget w with
    ⟨stop | plan, r⟩
  · obtain ⟨hcalls, -⟩ := calls_of_prepare hp
    refine iff_of_true ?_ (by rintro plan r' ⟨⟩)
    dsimp only
    rw [hcalls]
    exact retrySafe_of_nodup List.nodup_nil
  · obtain ⟨hcalls, hnodup⟩ := calls_of_prepare hp
    have hloop := replanLoop_run env plan (r.move .executing true)
    refine (hloop.retrySafe_iff (hnodup plan rfl) ?_).trans ?_
    · rw [Run.calls_move, hcalls]
    · exact (forall_ready_iff (P := fun plan r => CancelledIfLanded env plan
        (runSteps env noStatus (r.move .executing true) plan))).symm

/-- A failed call whose effect is reported as completed is repeated. -/
theorem runAgent_not_retrySafe :
    ¬∀ (env : Env Unit) (std : AgentStd ℕ) (session : AgentSession)
      (input context catalog : String) (policy : ClarificationPolicy ℕ) (contextBudget : ℕ),
      RetrySafe
        (runAgent env std session input context catalog policy contextBudget ()).2.calls := by
  intro h
  have hsafe := h (.constant (.error "timed out") .completed) (.reading oneStepProposal)
    (.new "s" 10) "open app" "" "" ⟨0⟩ 64
  have hcalls : (runAgent (.constant (.error "timed out") .completed) (.reading oneStepProposal)
      (.new "s" 10) "open app" "" "" ⟨0⟩ 64 ()).2.calls.map (fun c => (c.step.stepId, c.effect)) =
        [("a", some .completed), ("a", some .completed)] := by decide
  obtain ⟨c, rest, hsplit, hc, hrest⟩ := List.map_eq_cons_iff.mp hcalls
  obtain ⟨c', rest', rfl, hc', -⟩ := List.map_eq_cons_iff.mp hrest
  rw [hsplit] at hsafe
  have hid : c.step.stepId = c'.step.stepId :=
    (congrArg Prod.fst hc).trans (congrArg Prod.fst hc').symm
  have heffect : c.effect = some .completed := congrArg Prod.snd hc
  rcases (List.pairwise_cons.mp hsafe.repeated).1 c' List.mem_cons_self hid with
    ⟨-, hno⟩ | ⟨-, hno⟩
  · cases hno.symm.trans heffect
  · cases hno.symm.trans heffect

end AuraLauncher.Agent
