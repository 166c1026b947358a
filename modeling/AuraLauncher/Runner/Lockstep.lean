import AuraLauncher.Runner.Confirmation
import AuraLauncher.Runner.Unconfirmed

/-!
# A run in step with the run without confirmations

`launcher-workflow/src/lib.rs`, `execute_step` and `advance`, run twice: on a definition and its
host, and on both with the requests for a confirmation taken out. The first run may stop for a
confirmation where the second goes on; up to there, and from there on once the confirmation is
given, the two make the same passes.

* `Alike` — host states from which the two runs get the same answers.
* `Near`, `SameEnd` — two visits of a step in step, and two visits that end alike.
* `Spared` — the attempts by which the first visit is ahead decide nothing.
* `executeStep_near` — visits in step end alike, or the first stops for a confirmation.
* `InStep`, `takeUp_inStep` — the same for the walks.
-/

namespace AuraLauncher.Runner

open AuraLauncher.Domain AuraLauncher.Lib
open AuraLauncher.Workflow (Json)

universe u

variable {σ : Type u} (H : Host σ) (R : σ → σ → Prop)

/-! ## Hosts that answer alike -/

/-- From states related by `R` the host answers alike, whichever of two generations and of two flags
for the confirmation it is given with an execution, and its states stay related. -/
structure Alike (gen : UInt64) (confirmed : Bool) (gen' : UInt64) (confirmed' : Bool) : Prop where
  session : ∀ s t, R s t → H.inSession s = H.inSession t
  query : ∀ s t, R s t → ∀ provider,
    (H.freshQuery s provider).1 = (H.freshQuery t provider).1 ∧
      R (H.freshQuery s provider).2 (H.freshQuery t provider).2
  execute : ∀ s t, R s t → ∀ action provider,
    (H.execute s action provider gen confirmed).1 =
        (H.execute t action provider gen' confirmed').1 ∧
      R (H.execute s action provider gen confirmed).2
        (H.execute t action provider gen' confirmed').2

/-- With the same generation and the same flag a host answers as it does. -/
theorem Alike.same (gen : UInt64) (confirmed : Bool) :
    Alike H (fun s t => s = t) gen confirmed gen confirmed where
  session := by
    rintro s _ ⟨⟩
    exact rfl
  query := by
    rintro s _ ⟨⟩ provider
    exact ⟨rfl, rfl⟩
  execute := by
    rintro s _ ⟨⟩ action provider
    exact ⟨rfl, rfl⟩

variable {H R} {d : WorkflowDefinition} {step : WorkflowStep} {input : Json} {gen gen' : UInt64}
  {confirmed confirmed' : Bool} {extra : UInt32} {a b : Attempt σ}

/-- A step is resolved alike, with the requests for a confirmation on one side only. -/
theorem resolveStep_alike (hR : Alike H R gen confirmed gen' confirmed') {s t : σ} (hst : R s t)
    (action : WorkflowAction) (input : Json) :
    (resolveStep H.unconfirmed action.unconfirmed input t).1 =
        (resolveStep H action input s).1.map ResolvedStepAction.unconfirmed ∧
      R (resolveStep H action input s).2.1
        (resolveStep H.unconfirmed action.unconfirmed input t).2.1 := by
  have hsame : (resolveStep H action input s).1 = (resolveStep H action input t).1 ∧
      R (resolveStep H action input s).2.1 (resolveStep H action input t).2.1 := by
    cases action with
    | «inline» d => exact ⟨rfl, hst⟩
    | reference r =>
        have hsession : sessionAction H r s = sessionAction H r t := by
          unfold sessionAction
          rw [hR.session s t hst]
        have href : (resolveReference H r s).1 = (resolveReference H r t).1 ∧
            R (resolveReference H r s).2.1 (resolveReference H r t).2.1 := by
          obtain ⟨hanswer, hnext⟩ := hR.query s t hst r.providerId
          unfold resolveReference
          rw [hsession]
          cases sessionAction H r t with
          | some found => exact ⟨rfl, hst⟩
          | none =>
              obtain ⟨⟨answer, s'⟩, hs⟩ : ∃ q, H.freshQuery s r.providerId = q := ⟨_, rfl⟩
              obtain ⟨⟨answer', t'⟩, ht⟩ : ∃ q, H.freshQuery t r.providerId = q := ⟨_, rfl⟩
              rw [hs, ht] at hanswer hnext
              obtain rfl : answer = answer' := hanswer
              simp only [hs, ht]
              cases answer with
              | error e => exact ⟨rfl, hnext⟩
              | ok commands => exact ⟨rfl, hnext⟩
        refine ⟨?_, href.2⟩
        simp only [resolveStep, href.1]
  obtain ⟨hanswer, hhost⟩ := resolveStep_unconfirmed H action input t
  rw [hanswer, hhost]
  exact ⟨congrArg _ hsame.1.symm, hsame.2⟩

/-! ## Resolution in step -/

variable (R extra) in
/-- Two visits in step: the first has made `extra` attempts more, the host is related, and both have
executed something or neither has. -/
structure Near (a b : Attempt σ) : Prop where
  attempt : a.sr.attempt = b.sr.attempt + extra
  host : R a.host b.host
  ran : a.calls.any HostCall.isExecute = b.calls.any HostCall.isExecute

theorem Near.attempt_sub (h : Near R extra a b) : a.sr.attempt - extra = b.sr.attempt := by
  rw [h.attempt, UInt32.add_sub_cancel]

theorem Near.succ (h : Near R extra a b) : a.sr.attempt + 1 = b.sr.attempt + 1 + extra := by
  rw [h.attempt, UInt32.add_assoc, UInt32.add_comm extra 1, UInt32.add_assoc]

variable (R extra) in
/-- Two resolutions that end alike: with the same action, or without one and with the same
status. -/
structure SameFound (x y : Except StepOutcome ResolvedStepAction × Attempt σ) : Prop where
  near : Near R extra x.2 y.2
  found : y.1 = x.1.map ResolvedStepAction.unconfirmed
  status : ∀ outcome, x.1 = .error outcome → x.2.sr.status = y.2.sr.status

/-- The policy answers two failed resolutions alike, where the attempts ahead do not decide. -/
theorem onResolveError_near (h : Near R extra a b) (n : ℕ) (p : FailureAction)
    (hretry : p = .retry →
      (a.sr.attempt < maxAttempts d step ↔ a.sr.attempt - extra < maxAttempts d step)) :
    Sum.LiftRel (fun x y => x.1 = y.1 ∧ Near R extra x.2 y.2) (SameFound R extra)
      (onResolveError d step n a p)
      (onResolveError d.unconfirmed step.unconfirmed n b p) := by
  have hfail : ∀ outcome status, Sum.LiftRel
      (fun x y : ℕ × Attempt σ => x.1 = y.1 ∧ Near R extra x.2 y.2) (SameFound R extra)
      (.inr (.error outcome, a.withStatus status)) (.inr (.error outcome, b.withStatus status)) :=
    fun outcome status => .inr ⟨⟨h.attempt, h.host, h.ran⟩, rfl, fun _ _ => rfl⟩
  cases p with
  | reResolve =>
      simp only [onResolveError]
      split_ifs
      · exact .inl ⟨rfl, h.attempt, h.host, h.ran⟩
      · exact hfail _ _
  | retry =>
      have hiff := hretry rfl
      rw [h.attempt_sub] at hiff
      simp only [onResolveError]
      by_cases hlt : a.sr.attempt < maxAttempts d step
      · rw [if_pos hlt, if_pos (show b.sr.attempt < maxAttempts d.unconfirmed step.unconfirmed from
          hiff.mp hlt)]
        exact .inl ⟨rfl, h.succ, h.host, h.ran⟩
      · have hlt' : ¬ b.sr.attempt < maxAttempts d.unconfirmed step.unconfirmed :=
          fun h' => hlt (hiff.mpr h')
        rw [if_neg hlt, if_neg hlt']
        exact hfail _ _
  | skip => exact hfail _ _
  | stop => exact hfail _ _

/-- One round of the resolutions in step. -/
theorem resolveBody_near (hR : Alike H R gen confirmed gen' confirmed') (h : Near R extra a b)
    (n : ℕ)
    (hretry : ∀ f, (resolveStep H step.action input a.host).1 = .error f →
      policyFor d step f.failureClass = .retry →
        (a.sr.attempt < maxAttempts d step ↔ a.sr.attempt - extra < maxAttempts d step)) :
    Sum.LiftRel (fun x y => x.1 = y.1 ∧ Near R extra x.2 y.2) (SameFound R extra)
      (resolveBody H d step input (n, a))
      (resolveBody H.unconfirmed d.unconfirmed step.unconfirmed input (n, b)) := by
  obtain ⟨hanswer, hhost⟩ := resolveStep_alike hR h.host step.action input
  have hno := resolveStep_calls H input step.action a.host
  have hno' := resolveStep_calls H.unconfirmed input step.action.unconfirmed b.host
  obtain ⟨⟨outcome, s, calls⟩, hs⟩ : ∃ res, resolveStep H step.action input a.host = res := ⟨_, rfl⟩
  obtain ⟨⟨outcome', t, calls'⟩, ht⟩ :
      ∃ res, resolveStep H.unconfirmed step.unconfirmed.action input b.host = res := ⟨_, rfl⟩
  rw [show resolveStep H.unconfirmed step.action.unconfirmed input b.host = _ from ht]
    at hanswer hhost hno'
  rw [hs] at hanswer hhost hno hretry
  obtain rfl : outcome' = outcome.map ResolvedStepAction.unconfirmed := hanswer
  -- a resolution executes nothing
  have hran : ∀ {xs : List HostCall}, (∀ c ∈ xs, c.isExecute = false) →
      xs.any HostCall.isExecute = false :=
    fun hxs => List.any_eq_false.mpr fun c hc => by simp [hxs c hc]
  have hnear : ∀ lastError, Near R extra ⟨{ a.sr with lastError := lastError }, s, a.calls ++ calls⟩
      ⟨{ b.sr with lastError := lastError }, t, b.calls ++ calls'⟩ := fun lastError =>
    ⟨h.attempt, hhost, by simp only [List.any_append, hran hno, hran hno', h.ran]⟩
  cases outcome with
  | ok r =>
      rw [resolveBody_ok H d step input hs,
        resolveBody_ok H.unconfirmed d.unconfirmed step.unconfirmed input ht]
      exact .inr ⟨⟨h.attempt, hhost, (hnear none).ran⟩, rfl, by rintro _ ⟨⟩⟩
  | error f =>
      rw [resolveBody_error H d step input hs,
        resolveBody_error H.unconfirmed d.unconfirmed step.unconfirmed input ht]
      exact onResolveError_near (hnear _) n _ (hretry f rfl)

/-- **Resolution in step**: where the attempts ahead do not decide, two resolutions end alike. -/
theorem resolveLoop_near (hR : Alike H R gen confirmed gen' confirmed') (h : Near R extra a b)
    (hretry : ∀ n c f, (resolveLoop H d step input).Reaches (0, a) (n, c) →
      (resolveStep H step.action input c.host).1 = .error f →
        policyFor d step f.failureClass = .retry →
          (c.sr.attempt < maxAttempts d step ↔ c.sr.attempt - extra < maxAttempts d step)) :
    SameFound R extra ((resolveLoop H d step input).run (0, a))
      ((resolveLoop H.unconfirmed d.unconfirmed step.unconfirmed input).run (0, b)) := by
  have hpass : ∀ (n : ℕ) (a' b' : Attempt σ), (resolveLoop H d step input).Reaches (0, a) (n, a') →
      Near R extra a' b' → Sum.LiftRel (fun x y => x.1 = y.1 ∧ Near R extra x.2 y.2)
        (SameFound R extra) (resolveBody H d step input (n, a'))
        (resolveBody H.unconfirmed d.unconfirmed step.unconfirmed input (n, b')) :=
    fun n a' b' hreach hnear => resolveBody_near hR hnear n fun f => hretry n a' f hreach
  refine (resolveLoop H d step input).run_related
    (resolveLoop H.unconfirmed d.unconfirmed step.unconfirmed input)
    (hpass 0 a b (.refl _ _) h) ?_
  rintro ⟨n, a'⟩ ⟨_, b'⟩ hreach - ⟨rfl, hnear⟩
  exact hpass n a' b' hreach hnear

/-! ## Visits in step -/

variable (R) in
/-- Two visits that end alike, neither of them paused. -/
structure SameEnd (x y : StepOutcome × Attempt σ) : Prop where
  outcome : x.1 = y.1
  goesOn : x.1 ≠ .paused
  status : x.2.sr.status = y.2.sr.status
  output : x.2.sr.status = .complete → x.2.sr.output = y.2.sr.output
  host : R x.2.host y.2.host
  ran : x.2.calls.any HostCall.isExecute = y.2.calls.any HostCall.isExecute

variable (d step extra) in
/-- Whether the answer of the policy to a failed execution is the same with `extra` attempts
less. -/
def SameAnswer (attempt : UInt32) : FailureAction → Prop
  | .retry => attempt < maxAttempts d step ↔ attempt - extra < maxAttempts d step
  | .reResolve => attempt ≤ 2 ↔ attempt - extra ≤ 2
  | _ => True

/-- The policy answers two failed executions alike, where the attempts ahead do not decide. -/
theorem onExecuteError_near (h : Near R extra a b) {p : FailureAction}
    (hsame : SameAnswer d step extra a.sr.attempt p) :
    Sum.LiftRel (Near R extra) (SameEnd R) (onExecuteError d step a p)
      (onExecuteError d.unconfirmed step.unconfirmed b p) := by
  have hend : ∀ outcome status, outcome ≠ .paused → status ≠ .complete →
      Sum.LiftRel (Near R extra) (SameEnd R) (.inr (outcome, a.withStatus status))
        (.inr (outcome, b.withStatus status)) :=
    fun outcome status ho hs => .inr ⟨rfl, ho, rfl, fun hc => absurd hc hs, h.host, h.ran⟩
  have hagain : Sum.LiftRel (Near R extra) (SameEnd R) (.inl (a.withStatus .resolving))
      (.inl (b.withStatus .resolving)) := .inl ⟨h.attempt, h.host, h.ran⟩
  cases p with
  | retry =>
      have hiff : a.sr.attempt < maxAttempts d step ↔ b.sr.attempt < maxAttempts d step :=
        h.attempt_sub ▸ hsame
      simp only [onExecuteError]
      by_cases hlt : a.sr.attempt < maxAttempts d step
      · rw [if_pos hlt, if_pos (show b.sr.attempt < maxAttempts d.unconfirmed step.unconfirmed from
          hiff.mp hlt)]
        exact hagain
      · have hlt' : ¬ b.sr.attempt < maxAttempts d.unconfirmed step.unconfirmed :=
          fun h' => hlt (hiff.mpr h')
        rw [if_neg hlt, if_neg hlt']
        exact hend _ _ (by decide) (by decide)
  | reResolve =>
      have hiff : a.sr.attempt ≤ 2 ↔ b.sr.attempt ≤ 2 := h.attempt_sub ▸ hsame
      simp only [onExecuteError]
      by_cases hle : a.sr.attempt ≤ 2
      · rw [if_pos hle, if_pos (hiff.mp hle)]
        exact hagain
      · rw [if_neg hle, if_neg fun h' => hle (hiff.mpr h')]
        exact hend _ _ (by decide) (by decide)
  | skip => exact hend _ _ (by decide) (by decide)
  | stop => exact hend _ _ (by decide) (by decide)

/-- A resolved action that is executed with success completes its step. -/
theorem executeResolved_ok {r : ResolvedStepAction} {outcome : ExecutionOutcome} {host : σ}
    (hopen : (r.action.confirmationRequired && !confirmed) = false)
    (h : H.execute a.host r.action.unconfirmed r.providerId gen confirmed = (.ok outcome, host)) :
    executeResolved H d step gen confirmed r a =
      .inr (.next,
        { sr :=
            { resolvedRecord gen r a.sr with
              status := .complete
              lastExecutionId := outcome.executionId
              resolvedContextGeneration := some gen
              output := outcome.pluginResult }
          host := host
          calls := a.calls ++ [.execute r.action r.providerId gen confirmed] }) := by
  unfold executeResolved
  unfold Action.unconfirmed at h
  simp only [hopen, Bool.false_eq_true, if_false, h]

/-- A resolved action whose execution fails leaves its step to the policy. -/
theorem executeResolved_error {r : ResolvedStepAction} {f : WfFailure} {host : σ}
    (hopen : (r.action.confirmationRequired && !confirmed) = false)
    (h : H.execute a.host r.action.unconfirmed r.providerId gen confirmed = (.error f, host)) :
    executeResolved H d step gen confirmed r a =
      onExecuteError d step
        { sr :=
            { resolvedRecord gen r a.sr with
              status := .executing
              lastError := some f.reason
              lastExecutionId := f.executionId }
          host := host
          calls := a.calls ++ [.execute r.action r.providerId gen confirmed] }
        (policyFor d step f.failureClass) := by
  unfold executeResolved
  unfold Action.unconfirmed at h
  simp only [hopen, Bool.false_eq_true, if_false, h]

/-- **An action found on both sides**: unless it waits for a confirmation, it is executed on both,
and the attempts go on in step or the visits end alike. -/
theorem executeResolved_near (hR : Alike H R gen confirmed gen' confirmed')
    (hattempt : a.sr.attempt = b.sr.attempt + extra) (hhost : R a.host b.host)
    {r : ResolvedStepAction} (hopen : (r.action.confirmationRequired && !confirmed) = false)
    (hsame : ∀ f,
      (H.execute a.host r.action.unconfirmed r.providerId gen confirmed).1 = .error f →
        SameAnswer d step extra a.sr.attempt (policyFor d step f.failureClass)) :
    Sum.LiftRel (Near R extra) (SameEnd R) (executeResolved H d step gen confirmed r a)
      (executeResolved H.unconfirmed d.unconfirmed step.unconfirmed gen' confirmed'
        r.unconfirmed b) := by
  obtain ⟨hanswer, hnext⟩ := hR.execute a.host b.host hhost r.action.unconfirmed r.providerId
  obtain ⟨⟨answer, s⟩, hs⟩ :
      ∃ res, H.execute a.host r.action.unconfirmed r.providerId gen confirmed = res := ⟨_, rfl⟩
  obtain ⟨⟨answer', t⟩, ht⟩ :
      ∃ res, H.execute b.host r.action.unconfirmed r.providerId gen' confirmed' = res := ⟨_, rfl⟩
  rw [hs, ht] at hanswer hnext
  rw [hs] at hsame
  obtain rfl : answer = answer' := hanswer
  have hran : ∀ (xs ys : List HostCall) (c c' : HostCall), c.isExecute = true →
      c'.isExecute = true → (xs ++ [c]).any HostCall.isExecute =
        (ys ++ [c']).any HostCall.isExecute := by
    intro xs ys c c' hc hc'
    simp [hc, hc']
  cases answer with
  | ok outcome =>
      rw [executeResolved_ok hopen hs,
        executeResolved_ok (H := H.unconfirmed) (r := r.unconfirmed) rfl ht]
      exact .inr ⟨rfl, by rintro ⟨⟩, rfl, fun _ => rfl, hnext, hran _ _ _ _ rfl rfl⟩
  | error f =>
      rw [executeResolved_error hopen hs,
        executeResolved_error (H := H.unconfirmed) (r := r.unconfirmed) rfl ht]
      refine onExecuteError_near ?_ (hsame f rfl)
      exact ⟨hattempt, hnext, hran _ _ _ _ rfl rfl⟩

/-- A resolved action that waits for a confirmation. -/
theorem executeResolved_paused {r : ResolvedStepAction}
    (hgate : (r.action.confirmationRequired && !confirmed) = true) :
    executeResolved H d step gen confirmed r a =
      .inr (.paused,
        { a with
          sr := { resolvedRecord gen r a.sr with
            status := .waitingForConfirmation
            lastError := some "confirmation required" } }) := by
  unfold executeResolved
  simp only [hgate, if_true]

variable (H d step input gen confirmed extra) in
/-- The attempts by which a visit is ahead decide nothing in it: of no failure of a resolution that
the policy retries, and of no failure of an execution, would the answer be another with `extra`
attempts less. -/
structure Spared (a₀ : Attempt σ) : Prop where
  resolving : ∀ a n c f, (attemptLoop H d step input gen confirmed).Reaches a₀ a →
    (resolveLoop H d step input).Reaches (0, a.enter) (n, c) →
      (resolveStep H step.action input c.host).1 = .error f →
        policyFor d step f.failureClass = .retry →
          (c.sr.attempt < maxAttempts d step ↔ c.sr.attempt - extra < maxAttempts d step)
  executing : ∀ r c f, Finds H d step input gen confirmed a₀ r c →
    (H.execute c.host r.action.unconfirmed r.providerId gen confirmed).1 = .error f →
      SameAnswer d step extra c.sr.attempt (policyFor d step f.failureClass)

/-- A visit that is not ahead has nothing to decide. -/
theorem Spared.zero (a₀ : Attempt σ) : Spared H d step input gen confirmed 0 a₀ := by
  refine ⟨fun a n c f _ _ _ _ => by simp, fun r c f _ _ => ?_⟩
  unfold SameAnswer
  split <;> simp

variable (H R d step input confirmed extra) in
/-- The first of two visits in step waits for a confirmation of the action that both have found. -/
def Stops (a b : Attempt σ) : Prop :=
  ∃ r x y, (resolveLoop H d step input).run (0, a.enter) = (.ok r, x) ∧
    (resolveLoop H.unconfirmed d.unconfirmed step.unconfirmed input).run (0, b.enter) =
      (.ok r.unconfirmed, y) ∧
    Near R extra x y ∧ (r.action.confirmationRequired && !confirmed) = true

/-- One attempt of two visits in step. -/
theorem attemptBody_near (hR : Alike H R gen confirmed gen' confirmed') {a₀ : Attempt σ}
    (hspared : Spared H d step input gen confirmed extra a₀)
    (ha : (attemptLoop H d step input gen confirmed).Reaches a₀ a) (h : Near R extra a b) :
    Stops H R d step input confirmed extra a b ∨
      Sum.LiftRel (Near R extra) (SameEnd R) (attemptBody H d step input gen confirmed a)
        (attemptBody H.unconfirmed d.unconfirmed step.unconfirmed input gen' confirmed' b) := by
  have henter : Near R extra a.enter b.enter := ⟨h.succ, h.host, h.ran⟩
  have hfound : SameFound R extra ((resolveLoop H d step input).run (0, a.enter))
      ((resolveLoop H.unconfirmed d.unconfirmed step.unconfirmed input).run (0, b.enter)) :=
    resolveLoop_near hR henter fun n c f hreach => hspared.resolving a n c f ha hreach
  obtain ⟨⟨found, x⟩, hx⟩ : ∃ res, (resolveLoop H d step input).run (0, a.enter) = res := ⟨_, rfl⟩
  obtain ⟨⟨found', y⟩, hy⟩ : ∃ res,
      (resolveLoop H.unconfirmed d.unconfirmed step.unconfirmed input).run (0, b.enter) = res :=
    ⟨_, rfl⟩
  rw [hx, hy] at hfound
  obtain ⟨hnear, hfound, hstatus⟩ := hfound
  obtain rfl : found' = found.map ResolvedStepAction.unconfirmed := hfound
  cases found with
  | error outcome =>
      -- without an action the step is skipped or has failed
      have hend := (resolveLoop_spec H d step input hx).2 outcome rfl
      have hpaused : outcome ≠ .paused := by
        rcases hend with ⟨rfl, -⟩ | ⟨rfl, -⟩ <;> decide
      have hcomplete : x.sr.status ≠ .complete := by
        rcases hend with ⟨-, hst⟩ | ⟨-, hst⟩ <;> rw [hst] <;> decide
      refine .inr ?_
      simp only [attemptBody, hx, hy, Except.map]
      exact .inr ⟨rfl, hpaused, hstatus outcome rfl, fun hc => absurd hc hcomplete, hnear.host,
        hnear.ran⟩
  | ok r =>
      cases hgate : r.action.confirmationRequired && !confirmed with
      | true => exact .inl ⟨r, x, y, hx, hy, hnear, hgate⟩
      | false =>
          refine .inr ?_
          simp only [attemptBody, hx, hy, Except.map]
          exact executeResolved_near hR hnear.attempt hnear.host hgate fun f =>
            hspared.executing r x f ⟨a, ha, hx⟩

/-- **Two visits in step** end alike, or the first stops for a confirmation. -/
theorem executeStep_near (hR : Alike H R gen confirmed gen' confirmed')
    (hspared : Spared H d step input gen confirmed extra a) (h : Near R extra a b) :
    SameEnd R (executeStep H d step input gen confirmed a)
        (executeStep H.unconfirmed d.unconfirmed step.unconfirmed input gen' confirmed' b) ∨
      ∃ a' b', (attemptLoop H d step input gen confirmed).Reaches a a' ∧
        (attemptLoop H.unconfirmed d.unconfirmed step.unconfirmed input gen' confirmed').Reaches b
          b' ∧ Near R extra a' b' ∧ Stops H R d step input confirmed extra a' b' :=
  (attemptLoop H d step input gen confirmed).run_related_or
    (attemptLoop H.unconfirmed d.unconfirmed step.unconfirmed input gen' confirmed')
    (fun _ _ ha _ hnear => attemptBody_near hR hspared ha hnear) h

/-- What the first attempt of a visit executes, the visit has executed. -/
theorem executeStep_ran {a : Attempt σ}
    (h : (Attempt.ofResult (attemptBody H d step input gen confirmed a)).calls.any
      HostCall.isExecute = true) :
    (executeStep H d step input gen confirmed a).2.calls.any HostCall.isExecute = true := by
  cases hb : attemptBody H d step input gen confirmed a with
  | inl a' =>
      rw [hb] at h
      obtain ⟨c, hc, hexecute⟩ := List.any_eq_true.mp h
      have hrun : executeStep H d step input gen confirmed a =
          executeStep H d step input gen confirmed a' :=
        (attemptLoop H d step input gen confirmed).run_of_inl hb
      have hprefix := executeStep_prefix H d step input gen confirmed a'
      rw [hrun]
      exact List.any_eq_true.mpr ⟨c, hprefix.subset hc, hexecute⟩
  | inr r =>
      rw [hb] at h
      have hrun : executeStep H d step input gen confirmed a = r :=
        (attemptLoop H d step input gen confirmed).run_of_inr hb
      rw [hrun]
      exact h

/-! ## Walks in step -/

/-- Whether the step with an id is executed among some calls. -/
def executes (d : WorkflowDefinition) (calls : List (Fin d.steps.length × HostCall))
    (id : String) : Bool :=
  calls.any fun c => c.2.isExecute && (d.steps.get c.1).stepId == id

theorem executes_append_map (calls : List (Fin d.steps.length × HostCall))
    (i : Fin d.steps.length) (added : List HostCall) (id : String) :
    executes d (calls ++ added.map fun c => (i, c)) id =
      (executes d calls id || (added.any HostCall.isExecute && (d.steps.get i).stepId == id)) := by
  unfold executes
  rw [List.any_append, List.any_map]
  congr 1
  induction added with
  | nil => rfl
  | cons c added ih =>
      rw [List.any_cons, ih, List.any_cons, Bool.and_or_distrib_right]
      rfl

/-- The records of a step on both sides: done together, and before that with the same attempts. -/
structure SameRecord (sr sr' : StepRun) : Prop where
  done : sr.status.isDone = sr'.status.isDone
  attempt : sr.status.isDone = false → sr.attempt = sr'.attempt

variable (R) in
/-- Two walks in step, but for where they stand: the same variables, related hosts, the same records
of the steps, and the same steps executed. -/
structure Like (u : Walk d σ) (v : Walk d.unconfirmed σ) : Prop where
  running : u.run.status ≠ .paused
  vars : u.run.variables = v.run.variables
  host : R u.host v.host
  record : ∀ j, SameRecord (u.run.steps j) (v.run.steps (sameStep j))
  ran : ∀ id, executes d u.calls id = executes d.unconfirmed v.calls id

variable (R) in
/-- Two walks in step at the same step. -/
structure InStep (u : Walk d σ) (v : Walk d.unconfirmed σ) : Prop where
  like : Like R u v
  current : v.current = u.current.map sameStep

variable (d) in
/-- Two calls that end with the same steps executed, the first of them not paused. -/
structure SameSteps (x : Except String Unit × Walk d σ)
    (y : Except String Unit × Walk d.unconfirmed σ) : Prop where
  ended : x.2.run.status ≠ .paused
  ran : ∀ id, executes d x.2.calls id = executes d.unconfirmed y.2.calls id

variable {std : RustStd} {u : Walk d σ} {v : Walk d.unconfirmed σ} {i : Fin d.steps.length}

/-- The steps before a visit is over: all but the one that is visited are in step. -/
theorem SameRecord.update {f : Fin d.steps.length → StepRun}
    {g : Fin d.unconfirmed.steps.length → StepRun}
    (h : ∀ j, j ≠ i → SameRecord (f j) (g (sameStep j))) {sr sr' : StepRun} (hi : SameRecord sr sr')
    (j : Fin d.steps.length) :
    SameRecord (Function.update f i sr j) (Function.update g (sameStep i) sr' (sameStep j)) := by
  by_cases hj : j = i
  · subst hj
    rwa [Function.update_self, Function.update_self]
  · rw [Function.update_of_ne hj, Function.update_of_ne fun heq => hj (sameStep_injective heq)]
    exact h j hj

/-- A visit that goes on is followed by the binding of its output and the transition. -/
theorem perform_next {w : Walk d σ} (h : (visit std H gen confirmed w i).1 = .next) :
    perform std H d gen confirmed i w =
      afterStep std d i (w.executedStep i (visit std H gen confirmed w i).2) := by
  unfold visit at h ⊢
  simp only [perform, h]

/-- A visit that fails ends the call. -/
theorem perform_failed {w : Walk d σ} (h : (visit std H gen confirmed w i).1 = .failed) :
    perform std H d gen confirmed i w =
      .inr (.ok (), (w.executedStep i (visit std H gen confirmed w i).2).setStatus .failed) := by
  unfold visit at h ⊢
  simp only [perform, h]

/-- A visit that pauses ends the call. -/
theorem perform_paused {w : Walk d σ} {z : Attempt σ}
    (h : visit std H gen confirmed w i = (.paused, z)) :
    ∃ w', perform std H d gen confirmed i w = .inr (.ok (), w') ∧
      w'.run.status = .paused ∧ w'.run.variables = w.run.variables ∧
      w'.run.steps = Function.update w.run.steps i z.sr ∧ w'.host = z.host ∧
      w'.executed = w.executed ∧ w'.calls = w.calls ++ z.calls.map fun c => (i, c) := by
  unfold visit at h
  simp only [perform, h]
  exact ⟨_, rfl, rfl, rfl, rfl, rfl, rfl, rfl⟩

/-- The binding of the output and the transition, in step. -/
theorem afterStep_inStep (h : Like R u v)
    (hstatus : (u.run.steps i).status = (v.run.steps (sameStep i)).status)
    (houtput : (u.run.steps i).status = .complete →
      (u.run.steps i).output = (v.run.steps (sameStep i)).output) :
    Sum.LiftRel (InStep R) (SameSteps d) (afterStep std d i u)
      (afterStep std d.unconfirmed (sameStep i) v) := by
  unfold afterStep
  dsimp only
  rw [get_sameStep, ← hstatus]
  by_cases hc : (u.run.steps i).status = .complete
  · have hbind : bindOutput std (d.steps.get i).unconfirmed (v.run.steps (sameStep i))
        v.run.variables = bindOutput std (d.steps.get i) (u.run.steps i) u.run.variables := by
      unfold bindOutput
      rw [houtput hc, h.vars]
      rfl
    rw [if_pos hc, if_pos hc, hbind]
    cases bindOutput std (d.steps.get i) (u.run.steps i) u.run.variables with
    | error e => exact .inr ⟨by rintro ⟨⟩, h.ran⟩
    | ok vars =>
        exact .inl ⟨⟨h.running, rfl, h.host, h.record, h.ran⟩, transition_unconfirmed i _⟩
  · rw [if_neg hc, if_neg hc]
    exact .inl ⟨⟨h.running, h.vars, h.host, h.record, h.ran⟩, transition_unconfirmed i _⟩

/-- Two visits that end alike leave walks in step. -/
theorem perform_inStep (hrunning : u.run.status ≠ .paused)
    (hvars : u.run.variables = v.run.variables)
    (hrecord : ∀ j, j ≠ i → SameRecord (u.run.steps j) (v.run.steps (sameStep j)))
    {x y : StepOutcome × Attempt σ} (hx : visit std H gen confirmed u i = x)
    (hy : visit std H.unconfirmed gen' confirmed' v (sameStep i) = y) (hend : SameEnd R x y)
    (hran : ∀ id,
      (executes d u.calls id ||
        (x.2.calls.any HostCall.isExecute && (d.steps.get i).stepId == id)) =
      (executes d.unconfirmed v.calls id ||
        (y.2.calls.any HostCall.isExecute && (d.steps.get i).stepId == id))) :
    Sum.LiftRel (InStep R) (SameSteps d) (perform std H d gen confirmed i u)
      (perform std H.unconfirmed d.unconfirmed gen' confirmed' (sameStep i) v) := by
  have hmatches : x.1.Matches x.2.sr.status := hx ▸ executeStep_status H d _ _ gen confirmed _
  obtain ⟨outcome, a⟩ := x
  obtain ⟨_, b⟩ := y
  obtain ⟨rfl, hgoes, hstatus, houtput, hhost, -⟩ := hend
  have hcalls : ∀ id, executes d (u.calls ++ a.calls.map fun c => (i, c)) id =
      executes d.unconfirmed (v.calls ++ b.calls.map fun c => (sameStep i, c)) id := by
    intro id
    rw [executes_append_map, executes_append_map, stepId_sameStep]
    exact hran id
  cases outcome with
  | paused => exact absurd rfl hgoes
  | failed =>
      rw [perform_failed (congrArg Prod.fst hx), perform_failed (congrArg Prod.fst hy), hx, hy]
      exact .inr ⟨by rintro ⟨⟩, hcalls⟩
  | next =>
      rw [perform_next (congrArg Prod.fst hx), perform_next (congrArg Prod.fst hy), hx, hy]
      have hdone : a.sr.status.isDone = true := by
        rcases hmatches with h | h <;> exact h ▸ rfl
      have hsame : SameRecord a.sr b.sr :=
        ⟨congrArg StepRunStatus.isDone hstatus, fun h => absurd hdone (by simp [h])⟩
      have hself : ∀ (n : ℕ) (f : Fin n → StepRun) (j : Fin n) (sr : StepRun),
          Function.update f j sr j = sr := fun _ _ _ _ => Function.update_self _ _ _
      refine afterStep_inStep
        ⟨hrunning, hvars, hhost, SameRecord.update hrecord hsame, hcalls⟩ ?_ ?_
      · simpa only [Walk.executedStep, WorkflowRun.setStep_steps, hself] using hstatus
      · simpa only [Walk.executedStep, WorkflowRun.setStep_steps, hself] using houtput

/-- The visit of a step on the other side. -/
theorem visit_sameStep (hvars : u.run.variables = v.run.variables) :
    visit std H.unconfirmed gen' confirmed' v (sameStep i) =
      executeStep H.unconfirmed d.unconfirmed (d.steps.get i).unconfirmed
        (materialized std (d.steps.get i) u.run.variables) gen' confirmed'
        ⟨v.run.steps (sameStep i), v.host, []⟩ := by
  unfold visit
  rw [get_sameStep, ← hvars]
  rfl

variable (H R gen gen' confirmed confirmed' std) in
/-- The first of two walks in step is about to stop at step `i` for a confirmation. -/
structure Waits (u : Walk d σ) (v : Walk d.unconfirmed σ) (i : Fin d.steps.length) : Prop where
  notDone : (u.run.steps i).status.isDone = false
  gate : gate std (d.steps.get i) u.run.variables = .pass
  stops : ∃ a b,
    (attemptLoop H d (d.steps.get i) (materialized std (d.steps.get i) u.run.variables) gen
      confirmed).Reaches ⟨u.run.steps i, u.host, []⟩ a ∧
    (attemptLoop H.unconfirmed d.unconfirmed (d.steps.get i).unconfirmed
      (materialized std (d.steps.get i) u.run.variables) gen' confirmed').Reaches
        ⟨v.run.steps (sameStep i), v.host, []⟩ b ∧
    Near R 0 a b ∧
    Stops H R d (d.steps.get i) (materialized std (d.steps.get i) u.run.variables) confirmed 0 a b

/-- A pass for a step whose condition holds performs it. -/
theorem takeUp_of_pass {w : Walk d σ} (hdone : (w.run.steps i).status.isDone = false)
    (hgate : gate std (d.steps.get i) w.run.variables = .pass) :
    takeUp std H d gen confirmed i w =
      perform std H d gen confirmed i (w.enterStep (d.steps.get i)) := by
  unfold takeUp
  simp only [hdone, Bool.false_eq_true, if_false]
  rw [show gate std (d.steps.get i) (w.enterStep (d.steps.get i)).run.variables = .pass from hgate]

variable (std i) in
/-- **One pass in step**: two walks in step at the same step stay in step, or their calls end with
the same steps executed, or the first stops for a confirmation. -/
theorem takeUp_inStep (hR : Alike H R gen confirmed gen' confirmed') (h : Like R u v) :
    Waits H R gen gen' confirmed confirmed' std u v i ∨
      Sum.LiftRel (InStep R) (SameSteps d) (takeUp std H d gen confirmed i u)
        (takeUp std H.unconfirmed d.unconfirmed gen' confirmed' (sameStep i) v) := by
  have hdone := (h.record i).done
  have hgu : gate std (d.steps.get i) (u.enterStep (d.steps.get i)).run.variables =
      gate std (d.steps.get i) u.run.variables := rfl
  have hgv : gate std (d.unconfirmed.steps.get (sameStep i))
      (v.enterStep (d.unconfirmed.steps.get (sameStep i))).run.variables =
        gate std (d.steps.get i) u.run.variables := by
    rw [get_sameStep, h.vars]
    rfl
  cases hd : (u.run.steps i).status.isDone with
  | true =>
      rw [takeUp_of_done std H gen confirmed hd,
        takeUp_of_done std H.unconfirmed gen' confirmed' (hdone.symm.trans hd)]
      exact .inr (.inl ⟨⟨h.running, h.vars, h.host, h.record, h.ran⟩, nextLinear_unconfirmed i⟩)
  | false =>
      rw [hd] at hdone
      cases hg : gate std (d.steps.get i) u.run.variables with
      | pass =>
          have henter : Near R 0 (⟨u.run.steps i, u.host, []⟩ : Attempt σ)
              ⟨v.run.steps (sameStep i), v.host, []⟩ :=
            ⟨by simpa using (h.record i).attempt hd, h.host, rfl⟩
          rcases executeStep_near hR (.zero _) henter (d := d) with hend | hstops
          · refine .inr ?_
            rw [takeUp_of_pass hd hg, takeUp_of_pass hdone.symm (hgv.trans hg)]
            exact perform_inStep h.running h.vars (fun j _ => h.record j) rfl
              (visit_sameStep h.vars) hend fun id =>
                congrArg₂ or (h.ran id) (congrArg (and · _) hend.ran)
          · exact .inl ⟨hd, hg, hstops⟩
      | skip =>
          refine .inr ?_
          unfold takeUp
          simp only [hd, ← hdone, Bool.false_eq_true, if_false]
          rw [hgu, hgv, hg, get_sameStep]
          refine .inl ⟨⟨h.running, h.vars, h.host, ?_, h.ran⟩, transition_unconfirmed i _⟩
          exact SameRecord.update (fun j _ => h.record j) ⟨rfl, by rintro ⟨⟩⟩
      | parseError e =>
          refine .inr ?_
          unfold takeUp
          simp only [hd, ← hdone, Bool.false_eq_true, if_false]
          rw [hgu, hgv, hg]
          exact .inr ⟨by rintro ⟨⟩, h.ran⟩
      | evalError e =>
          refine .inr ?_
          unfold takeUp
          simp only [hd, ← hdone, Bool.false_eq_true, if_false]
          rw [hgu, hgv, hg]
          exact .inr ⟨h.running, h.ran⟩

/-- A pass within the limit takes up its step. -/
theorem advanceBody_of_some {w : Walk d σ} (h : w.current = some i)
    (hlimit : w.executed < maxStepsPerRun) :
    advanceBody std H d gen confirmed w =
      takeUp std H d gen confirmed i { w with executed := w.executed + 1 } := by
  unfold advanceBody
  split
  · rename_i hnone
    cases hnone.symm.trans h
  · rename_i j hj
    obtain rfl : i = j := Option.some.inj (h.symm.trans hj)
    exact if_neg (Nat.not_lt.mpr hlimit)

/-- A pass over the limit ends the call. -/
theorem advanceBody_overLimit {w : Walk d σ} (h : w.current = some i)
    (hlimit : ¬ w.executed < maxStepsPerRun) :
    advanceBody std H d gen confirmed w =
      .inr (.ok (), overLimit d i { w with executed := w.executed + 1 }) := by
  unfold advanceBody
  split
  · rename_i hnone
    cases hnone.symm.trans h
  · rename_i j hj
    obtain rfl : i = j := Option.some.inj (h.symm.trans hj)
    exact if_pos (Nat.lt_succ_of_le (Nat.not_lt.mp hlimit))

/-- A pass without a step to take up closes the run. -/
theorem advanceBody_of_none {w : Walk d σ} (h : w.current = none) :
    advanceBody std H d gen confirmed w = .inr (.ok (), { w with run := closeRun w.run }) := by
  unfold advanceBody
  split
  · rfl
  · rename_i j hj
    cases hj.symm.trans h

/-- Passes for a step count no pass of their own. -/
theorem takeUp_paced {j : Fin d.unconfirmed.steps.length}
    (h : Sum.LiftRel (InStep R) (SameSteps d) (takeUp std H d gen confirmed i u)
      (takeUp std H.unconfirmed d.unconfirmed gen' confirmed' j v)) :
    Sum.LiftRel
      (fun u' v' => InStep R u' v' ∧ u'.executed = u.executed ∧ v'.executed = v.executed)
      (SameSteps d) (takeUp std H d gen confirmed i u)
      (takeUp std H.unconfirmed d.unconfirmed gen' confirmed' j v) := by
  cases hx : takeUp std H d gen confirmed i u with
  | inl u' =>
      cases hy : takeUp std H.unconfirmed d.unconfirmed gen' confirmed' j v with
      | inl v' =>
          rw [hx, hy, Sum.liftRel_inl_inl] at h
          exact .inl ⟨h, (takeUp_counters std H d gen confirmed hx).1,
            (takeUp_counters std H.unconfirmed d.unconfirmed gen' confirmed' hy).1⟩
      | inr y =>
          rw [hx, hy] at h
          cases h
  | inr x =>
      cases hy : takeUp std H.unconfirmed d.unconfirmed gen' confirmed' j v with
      | inl v' =>
          rw [hx, hy] at h
          cases h
      | inr y =>
          rw [hx, hy, Sum.liftRel_inr_inr] at h
          exact .inr h

/-- The two calls are cut off together: they have made the same passes, or the second, which has
made no fewer, is within the limit. -/
def SamePace (u : Walk d σ) (v : Walk d.unconfirmed σ) : Prop :=
  u.executed = v.executed ∨
    u.executed ≤ v.executed ∧ ∀ j, v.current = some j → v.executed < maxStepsPerRun

variable (std) in
/-- **One pass of two calls in step**: the walks stay in step, or the calls end with the same steps
executed, or the first stops for a confirmation. -/
theorem advanceBody_inStep (hR : Alike H R gen confirmed gen' confirmed') (h : InStep R u v)
    (hpace : SamePace u v) :
    (∃ i, u.current = some i ∧ u.executed < maxStepsPerRun ∧
      Waits H R gen gen' confirmed confirmed' std u v i) ∨
    Sum.LiftRel
      (fun u' v' => InStep R u' v' ∧ u'.executed = u.executed + 1 ∧ v'.executed = v.executed + 1)
      (SameSteps d) (advanceBody std H d gen confirmed u)
      (advanceBody std H.unconfirmed d.unconfirmed gen' confirmed' v) := by
  have hcurrent := h.current
  cases hu : u.current with
  | none =>
      rw [hu] at hcurrent
      rw [advanceBody_of_none hu, advanceBody_of_none hcurrent]
      refine .inr (.inr ⟨?_, h.like.ran⟩)
      simp only [closeRun]
      split_ifs <;> rintro ⟨⟩
  | some i =>
      rw [hu] at hcurrent
      have hlimit : u.executed < maxStepsPerRun ↔ v.executed < maxStepsPerRun := by
        rcases hpace with heq | ⟨hle, hwithin⟩
        · rw [heq]
        · have hlt := hwithin _ hcurrent
          exact ⟨fun _ => hlt, fun _ => hle.trans_lt hlt⟩
      by_cases hlt : u.executed < maxStepsPerRun
      · rw [advanceBody_of_some hu hlt, advanceBody_of_some hcurrent (hlimit.mp hlt)]
        have hlike : Like R ({ u with executed := u.executed + 1 } : Walk d σ)
            { v with executed := v.executed + 1 } :=
          ⟨h.like.running, h.like.vars, h.like.host, h.like.record, h.like.ran⟩
        rcases takeUp_inStep std i hR hlike with hwaits | hlift
        · exact .inl ⟨i, rfl, hlt, hwaits.notDone, hwaits.gate, hwaits.stops⟩
        · exact .inr (takeUp_paced hlift)
      · rw [advanceBody_overLimit hu hlt, advanceBody_overLimit hcurrent (hlimit.not.mp hlt)]
        exact .inr (.inr ⟨by rintro ⟨⟩, h.like.ran⟩)

end AuraLauncher.Runner
