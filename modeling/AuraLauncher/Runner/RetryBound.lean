import AuraLauncher.Runner.Calls

/-!
# How often a step is executed

The calls one visit of a step makes to the host, as a host with a log has them, against the number
of attempts the policy grants. A retry is counted against `max_attempts` and a re-resolution after
an execution against `re_resolve_budget` of `lib.rs`, both on the attempt counter of the step.

* `Host.logged`, `visitAnswers` — a host that keeps what it was asked and whether an execution
  succeeded; its log of one visit.
* `RetryBounded` — what is asked of that log.
* `attemptBody_log` — what one attempt adds to the log; `visit_within` — what a visit adds.
* `Executable` — the steps that some host lets come to an execution.
* `retryBounded_iff` — the steps that are within the bound on every host.
-/

namespace AuraLauncher.Runner

open AuraLauncher.Domain AuraLauncher.Lib
open AuraLauncher.Workflow (Json)

universe u

/-! ## A host with a log -/

/-- What a host was asked, and whether an execution succeeded. -/
inductive Answer
  | query
  | execution (succeeded : Bool)
  deriving DecidableEq, Repr

/-- The answer is to an execution. -/
def Answer.isExecution : Answer → Bool
  | .query => false
  | .execution _ => true

/-- The host with the log of its answers. -/
def Host.logged {σ : Type u} (H : Host σ) : Host (σ × List Answer) where
  inSession s := H.inSession s.1
  freshQuery s provider :=
    let (commands, t) := H.freshQuery s.1 provider
    (commands, t, s.2 ++ [.query])
  execute s action provider gen confirmed :=
    let (outcome, t) := H.execute s.1 action provider gen confirmed
    (outcome, t, s.2 ++ [.execution outcome.isOk])

variable {σ : Type u} (H : Host σ) (d : WorkflowDefinition) (step : WorkflowStep) (input : Json)
  (gen : UInt64) (confirmed : Bool)

/-- The answers of the host in one visit of a step with the record `sr`. -/
def visitAnswers (sr : StepRun) (s : σ) : List Answer :=
  (executeStep H.logged d step input gen confirmed ⟨sr, (s, []), []⟩).2.host.2

/-- What is asked of the retries of a visit: no more executions than attempts and one, and no call
after the first success. -/
structure RetryBounded (sr : StepRun) (s : σ) : Prop where
  executions_le : (visitAnswers H d step input gen confirmed sr s).countP Answer.isExecution ≤
    max (maxAttempts d step).toNat 1 + 1
  nothing_after : ∀ before after, visitAnswers H d step input gen confirmed sr s =
    before ++ .execution true :: after → after = []

/-- Some host lets the step come to an execution: it refers to an action of the host, or its own
descriptor gives an action that is enabled and needs no confirmation or has it. -/
def Executable : Prop :=
  match step.action with
  | .reference _ => True
  | .inline desc => ∃ r, (resolveInline input desc).bind refuseDisabled = .ok r ∧
      (r.action.confirmationRequired && !confirmed) = false

/-! ## What an attempt adds -/

/-- A log with queries at its end. -/
def AddsQueries (log log' : List Answer) : Prop :=
  ∃ tail, log' = log ++ tail ∧ ∀ x ∈ tail, x = .query

theorem AddsQueries.countP {log log' : List Answer} (h : AddsQueries log log') :
    log'.countP Answer.isExecution = log.countP Answer.isExecution := by
  obtain ⟨tail, rfl, hquery⟩ := h
  have htail : tail.countP Answer.isExecution = 0 :=
    List.countP_eq_zero.mpr fun x hx => by rw [hquery x hx]; decide
  rw [List.countP_append, htail, Nat.add_zero]

theorem AddsQueries.trans {log log' log'' : List Answer} (h : AddsQueries log log')
    (h' : AddsQueries log' log'') : AddsQueries log log'' := by
  obtain ⟨tail, rfl, hquery⟩ := h
  obtain ⟨tail', rfl, hquery'⟩ := h'
  exact ⟨tail ++ tail', List.append_assoc _ _ _, fun x hx =>
    (List.mem_append.mp hx).elim (hquery x) (hquery' x)⟩

theorem AddsQueries.not_mem {log log' : List Answer} (h : AddsQueries log log')
    (hno : .execution true ∉ log) : .execution true ∉ log' := by
  obtain ⟨tail, rfl, hquery⟩ := h
  intro hmem
  rcases List.mem_append.mp hmem with hmem | hmem
  · exact hno hmem
  · cases hquery _ hmem

/-- Resolution asks queries only. -/
theorem resolveLoop_log (a : Attempt (σ × List Answer)) :
    AddsQueries a.host.2 ((resolveLoop H.logged d step input).run (0, a.enter)).2.host.2 := by
  refine resolveLoop_host (P := fun host : σ × List Answer => AddsQueries a.host.2 host.2) ?_
    ⟨[], (List.append_nil _).symm, fun x hx => absurd hx List.not_mem_nil⟩
  rintro s provider ⟨tail, htail, hquery⟩
  refine ⟨tail ++ [.query], ?_, ?_⟩
  · rw [← List.append_assoc, ← htail]
    rfl
  · intro x hx
    rcases List.mem_append.mp hx with hx | hx
    · exact hquery x hx
    · exact List.mem_singleton.mp hx

/-- The attempt that follows on a failed execution, in state `a`, is one the policy grants. -/
def Grants (n : ℕ) : Prop :=
  n < (maxAttempts d step).toNat ∨ (∃ c, policyFor d step c = .reResolve) ∧ n ≤ 2

variable {d step} in
/-- The counter does not wrap on its way to a granted attempt. -/
theorem Grants.toNat_succ {attempt : UInt32} (h : Grants d step attempt.toNat) :
    (attempt + 1).toNat = attempt.toNat + 1 := by
  have hmax : (maxAttempts d step).toNat < 2 ^ 32 := (maxAttempts d step).toNat_lt
  have hlt : attempt.toNat + 1 < 2 ^ 32 := by
    rcases h with hlt | ⟨-, hle⟩ <;> omega
  rw [UInt32.toNat_add]
  exact Nat.mod_eq_of_lt hlt

theorem grants_of_onExecuteError {a a' : Attempt σ} {c : WorkflowFailureClass}
    (h : onExecuteError d step a (policyFor d step c) = .inl a') :
    Grants d step a.sr.attempt.toNat ∧ a' = a.withStatus .resolving := by
  obtain ⟨rfl, hgrant⟩ := onExecuteError_inl d step h
  refine ⟨?_, rfl⟩
  rcases hgrant with ⟨-, hlt⟩ | ⟨hc, hle⟩
  · exact .inl (UInt32.lt_iff_toNat_lt.mp hlt)
  · exact .inr ⟨⟨c, hc⟩, UInt32.le_iff_toNat_le.mp hle⟩

theorem host_of_onExecuteError_inr {a a' : Attempt σ} {p : FailureAction} {o : StepOutcome}
    (h : onExecuteError d step a p = .inr (o, a')) : a'.host = a.host := by
  have hhost : (Attempt.ofResult (onExecuteError d step a p)).host = a.host :=
    onExecuteError_host a p
  rwa [h] at hhost

/-- **What a resolved action adds to the log**: nothing when it waits for a confirmation, and the
answer to its execution otherwise, which has failed if another attempt follows. -/
theorem executeResolved_log (r : ResolvedStepAction) (b : Attempt (σ × List Answer)) :
    (∃ c, executeResolved H.logged d step gen confirmed r b = .inr (.paused, c) ∧
        c.host = b.host) ∨
      (r.action.confirmationRequired && !confirmed) = false ∧
      ((∃ o c ok, executeResolved H.logged d step gen confirmed r b = .inr (o, c) ∧
        c.host.2 = b.host.2 ++ [.execution ok]) ∨
      (∃ a', executeResolved H.logged d step gen confirmed r b = .inl a' ∧
        a'.host.2 = b.host.2 ++ [.execution false] ∧ a'.sr.attempt = b.sr.attempt ∧
        Grants d step b.sr.attempt.toNat)) := by
  unfold executeResolved
  dsimp only
  split_ifs with hgate
  · exact .inl ⟨_, rfl, rfl⟩
  · refine .inr ⟨eq_false_of_ne_true hgate, ?_⟩
    obtain ⟨outcome, t, hexec⟩ : ∃ outcome t, H.execute b.host.1
        { r.action with confirmationRequired := false } r.providerId gen confirmed =
          (outcome, t) := ⟨_, _, rfl⟩
    have hlog : H.logged.execute b.host { r.action with confirmationRequired := false }
        r.providerId gen confirmed = (outcome, t, b.host.2 ++ [.execution outcome.isOk]) := by
      simp only [Host.logged, hexec]
    rw [hlog]
    cases outcome with
    | ok outcome => exact .inl ⟨_, _, true, rfl, rfl⟩
    | error f =>
        dsimp only
        rcases hres : onExecuteError d step _ (policyFor d step f.failureClass) with a' | ⟨o, c⟩
        · obtain ⟨hgrant, rfl⟩ := grants_of_onExecuteError d step hres
          exact .inr ⟨_, rfl, rfl, rfl, hgrant⟩
        · exact .inl ⟨o, c, false, rfl, by rw [host_of_onExecuteError_inr d step hres]; rfl⟩

/-- An action that is found and passes the gate makes the step executable. -/
theorem executable_of_resolveStep {τ : Type u} {H : Host τ} {s : τ} {r : ResolvedStepAction}
    (h : (resolveStep H step.action input s).1 = .ok r)
    (hgate : (r.action.confirmationRequired && !confirmed) = false) :
    Executable step input confirmed := by
  unfold Executable
  cases haction : step.action with
  | reference ref => trivial
  | «inline» desc =>
      rw [haction] at h
      exact ⟨r, h, hgate⟩

/-- **What an attempt adds to the log**: queries, and then nothing or the answer to an execution,
which has failed if another attempt follows; that one is granted by the policy. -/
theorem attemptBody_log (a : Attempt (σ × List Answer)) :
    (∃ o c, attemptBody H.logged d step input gen confirmed a = .inr (o, c) ∧
        AddsQueries a.host.2 c.host.2) ∨
      Executable step input confirmed ∧
      ((∃ o c log ok, attemptBody H.logged d step input gen confirmed a = .inr (o, c) ∧
        AddsQueries a.host.2 log ∧ c.host.2 = log ++ [.execution ok]) ∨
      (∃ a' log, attemptBody H.logged d step input gen confirmed a = .inl a' ∧
        AddsQueries a.host.2 log ∧ a'.host.2 = log ++ [.execution false] ∧
        (a.sr.attempt + 1).toNat ≤ a'.sr.attempt.toNat ∧
        Grants d step a'.sr.attempt.toNat)) := by
  have hlog := resolveLoop_log H d step input a
  have hattempt := resolveLoop_attempt_le H.logged d step input a.enter
  rcases attemptBody_cases H.logged d step input gen confirmed a with
    ⟨o, b, hrun, heq⟩ | ⟨r, b, hrun, heq⟩
  · rw [hrun] at hlog
    exact .inl ⟨o, b, heq, hlog⟩
  · obtain ⟨s, hfound⟩ := resolveLoop_ok H.logged d step input hrun
    rw [hrun] at hlog hattempt
    rcases executeResolved_log H d step gen confirmed r b with
      ⟨c, hexec, hhost⟩ | ⟨hgate, ⟨o, c, ok, hexec, hc⟩ | ⟨a', hexec, ha', hsame, hgrant⟩⟩
    · exact .inl ⟨.paused, c, heq.trans hexec, hhost ▸ hlog⟩
    · exact .inr ⟨executable_of_resolveStep step input confirmed hfound hgate,
        .inl ⟨o, c, b.host.2, ok, heq.trans hexec, hlog, hc⟩⟩
    · exact .inr ⟨executable_of_resolveStep step input confirmed hfound hgate,
        .inr ⟨a', b.host.2, heq.trans hexec, hlog, ha', hsame ▸ hattempt, hsame ▸ hgrant⟩⟩

/-! ## What a visit adds -/

/-- The executions that are left from attempt `n` on, when no attempt from `top` on is granted a
successor. -/
def executionsLeft (top n : ℕ) : ℕ := max 1 (top - n)

/-- The success of an execution is the last answer of a log. -/
theorem eq_nil_of_append_true {log before after : List Answer} {ok : Bool}
    (hno : .execution true ∉ log)
    (h : log ++ [.execution ok] = before ++ .execution true :: after) : after = [] := by
  rcases List.eq_nil_or_concat after with rfl | ⟨after, x, rfl⟩
  · rfl
  · rw [List.concat_eq_append, ← List.cons_append, ← List.append_assoc] at h
    have hlog := (List.append_inj' h rfl).1
    exact absurd (hlog ▸ List.mem_append_right _ List.mem_cons_self) hno

/-- A log without a success has nothing after one. -/
theorem nothing_after_of_not_mem {log : List Answer} (hno : .execution true ∉ log)
    (before after : List Answer) (h : log = before ++ .execution true :: after) :
    after = [] :=
  absurd (h ▸ List.mem_append_right before List.mem_cons_self) hno

/-- What holds between the attempts of a visit that may make `left` executions: no success yet,
and the executions so far and those that are left are within `left`. -/
def WithinLeft (top left : ℕ) (a : Attempt (σ × List Answer)) : Prop :=
  .execution true ∉ a.host.2 ∧
    a.host.2.countP Answer.isExecution + executionsLeft top (a.sr.attempt + 1).toNat ≤ left

/-- An attempt that is followed by another spends one of the executions that are left. -/
theorem WithinLeft.next {top left : ℕ} (htop : ∀ n, Grants d step n → n + 2 ≤ top)
    {a a' : Attempt (σ × List Answer)} (ha : WithinLeft top left a)
    (hbody : attemptBody H.logged d step input gen confirmed a = .inl a') :
    WithinLeft top left a' := by
  obtain ⟨hno, hcount⟩ := ha
  rcases attemptBody_log H d step input gen confirmed a with
    ⟨o, c, heq, -⟩ | ⟨-, ⟨o, c, log, ok, heq, -, -⟩ | ⟨a'', log, heq, hadds, ha', hle, hgrant⟩⟩
  · cases heq.symm.trans hbody
  · cases heq.symm.trans hbody
  · obtain rfl : a'' = a' := Sum.inl.inj (heq.symm.trans hbody)
    have htwo := htop _ hgrant
    have hsucc := hgrant.toNat_succ
    rw [WithinLeft, ha']
    refine ⟨?_, ?_⟩
    · intro hmem
      rcases List.mem_append.mp hmem with hmem | hmem
      · exact hadds.not_mem hno hmem
      · cases List.mem_singleton.mp hmem
    · rw [List.countP_append, hadds.countP, hsucc]
      have hone : [Answer.execution false].countP Answer.isExecution = 1 := rfl
      unfold executionsLeft at hcount ⊢
      omega

/-- The last attempt stays within what is left, and a success is its last answer. -/
theorem WithinLeft.stop {top left : ℕ} {a : Attempt (σ × List Answer)}
    (ha : WithinLeft top left a) {o : StepOutcome} {c : Attempt (σ × List Answer)}
    (hbody : attemptBody H.logged d step input gen confirmed a = .inr (o, c)) :
    c.host.2.countP Answer.isExecution ≤ left ∧
      ∀ before after, c.host.2 = before ++ .execution true :: after → after = [] := by
  obtain ⟨hno, hcount⟩ := ha
  have hpos : 1 ≤ executionsLeft top (a.sr.attempt + 1).toNat := Nat.le_max_left _ _
  rcases attemptBody_log H d step input gen confirmed a with
    ⟨o', c', heq, hadds⟩ | ⟨-, ⟨o', c', log, ok, heq, hadds, hc⟩ | ⟨a'', log, heq, -⟩⟩
  · obtain ⟨rfl, rfl⟩ := Prod.mk.inj (Sum.inr.inj (heq.symm.trans hbody))
    refine ⟨?_, nothing_after_of_not_mem (hadds.not_mem hno)⟩
    rw [hadds.countP]
    omega
  · obtain ⟨rfl, rfl⟩ := Prod.mk.inj (Sum.inr.inj (heq.symm.trans hbody))
    rw [hc]
    refine ⟨?_, fun before after => eq_nil_of_append_true (hadds.not_mem hno)⟩
    rw [List.countP_append, hadds.countP]
    have hone : [Answer.execution ok].countP Answer.isExecution = 1 := rfl
    omega
  · cases heq.symm.trans hbody

/-- **A whole visit** makes no more executions than there were left, and none after a success. -/
theorem visit_within (sr : StepRun) (s : σ) {top : ℕ}
    (htop : ∀ n, Grants d step n → n + 2 ≤ top) :
    (visitAnswers H d step input gen confirmed sr s).countP Answer.isExecution ≤
        executionsLeft top (sr.attempt + 1).toNat ∧
      ∀ before after, visitAnswers H d step input gen confirmed sr s =
        before ++ .execution true :: after → after = [] := by
  refine (attemptLoop H.logged d step input gen confirmed).run_induct
    (I := WithinLeft top (executionsLeft top (sr.attempt + 1).toNat))
    (P := fun x => x.2.host.2.countP Answer.isExecution ≤
        executionsLeft top (sr.attempt + 1).toNat ∧
      ∀ before after, x.2.host.2 = before ++ .execution true :: after → after = [])
    ?_ ?_ ⟨sr, (s, []), []⟩ ⟨List.not_mem_nil, le_of_eq (Nat.zero_add _)⟩
  · intro a a' ha hbody
    exact ha.next H d step input gen confirmed htop hbody
  · rintro a ⟨o, c⟩ ha hbody
    exact ha.stop H d step input gen confirmed hbody

/-- A step that cannot come to an execution makes none. -/
theorem visit_idle (h : ¬Executable step input confirmed) (sr : StepRun) (s : σ) :
    AddsQueries [] (visitAnswers H d step input gen confirmed sr s) := by
  refine (attemptLoop H.logged d step input gen confirmed).run_induct
    (I := fun a => AddsQueries [] a.host.2) (P := fun x => AddsQueries [] x.2.host.2) ?_ ?_
    ⟨sr, (s, []), []⟩ ⟨[], rfl, fun x hx => absurd hx List.not_mem_nil⟩
  · intro a a' _ hbody
    rcases attemptBody_log H d step input gen confirmed a with ⟨o, c, heq, -⟩ | ⟨hexec, -⟩
    · cases heq.symm.trans hbody
    · exact absurd hexec h
  · rintro a ⟨o, c⟩ hlog hbody
    rcases attemptBody_log H d step input gen confirmed a with ⟨o', c', heq, hadds⟩ | ⟨hexec, -⟩
    · obtain ⟨rfl, rfl⟩ := Prod.mk.inj (Sum.inr.inj (heq.symm.trans hbody))
      exact hlog.trans hadds
    · exact absurd hexec h

/-! ## A host that always fails -/

/-- The action the failing host offers. -/
def offeredAction (actionId : String) : Action :=
  ⟨.copy, none, some actionId, none, none, none, false⟩

/-- A host that has every command, with one action, and fails every execution with class `c`. -/
def failingHost (c : WorkflowFailureClass) (actionId : String) : Host PUnit.{u + 1} where
  inSession _ provider command := some ⟨command, provider, [offeredAction actionId]⟩
  freshQuery s _ := (.ok [], s)
  execute s _ _ _ _ := (.error (.new c ""), s)

theorem refuseDisabled_of_enabled {r : ResolvedStepAction} (h : r.action.disabledReason = none) :
    refuseDisabled r = .ok r := by
  unfold refuseDisabled
  rw [h]

theorem runtimeAction_confirmationRequired (a : Action) :
    (runtimeAction a input).confirmationRequired = a.confirmationRequired := by
  unfold runtimeAction
  split_ifs <;> rfl

theorem runtimeAction_disabledReason (a : Action) :
    (runtimeAction a input).disabledReason = a.disabledReason := by
  unfold runtimeAction
  split_ifs <;> rfl

variable {step input confirmed} in
/-- A step that can come to an execution comes to one on a failing host. -/
theorem exists_failingHost (h : Executable step input confirmed) (c : WorkflowFailureClass) :
    ∃ actionId r calls, (r.action.confirmationRequired && !confirmed) = false ∧
      ∀ s, resolveStep (failingHost.{u} c actionId).logged step.action input s =
        (.ok r, s, calls) := by
  unfold Executable at h
  cases haction : step.action with
  | reference ref =>
      refine ⟨ref.actionId, ⟨some ⟨ref.commandId, ref.providerId, [offeredAction ref.actionId]⟩,
        runtimeAction (offeredAction ref.actionId) input, none⟩, [], ?_, fun s => ?_⟩
      · rw [runtimeAction_confirmationRequired]
        rfl
      · have hfind : commandAction
            ⟨ref.commandId, ref.providerId, [offeredAction ref.actionId]⟩ ref =
              some (offeredAction ref.actionId) := by
          unfold commandAction
          exact List.find?_cons_of_pos (beq_self_eq_true _)
        have hsession : sessionAction (failingHost.{u} c ref.actionId).logged ref s =
            some (⟨ref.commandId, ref.providerId, [offeredAction ref.actionId]⟩,
              offeredAction ref.actionId) := by
          simp only [sessionAction, Host.logged, failingHost, Option.bind_some, hfind,
            Option.map_some]
        have hfound : resolveReference (failingHost.{u} c ref.actionId).logged ref s =
            (.ok (⟨ref.commandId, ref.providerId, [offeredAction ref.actionId]⟩,
              offeredAction ref.actionId), s, []) := by
          unfold resolveReference
          rw [hsession]
        have henabled : (runtimeAction (offeredAction ref.actionId) input).disabledReason = none :=
          runtimeAction_disabledReason input _
        unfold resolveStep
        dsimp only
        rw [hfound]
        exact Prod.ext (refuseDisabled_of_enabled henabled) rfl
  | «inline» desc =>
      rw [haction] at h
      obtain ⟨r, hr, hgate⟩ := h
      exact ⟨"", r, _, hgate, fun s => Prod.ext hr rfl⟩

section
variable {d step input confirmed} {c : WorkflowFailureClass} {actionId : String}
  {r : ResolvedStepAction} {calls : List HostCall}
  (hgate : (r.action.confirmationRequired && !confirmed) = false)
  (hres : ∀ s, resolveStep (failingHost.{u} c actionId).logged step.action input s =
    (.ok r, s, calls))
  (hc : policyFor d step c = .reResolve)
include hgate hres hc

/-- An attempt on a failing host is an execution that fails. -/
theorem attemptBody_failingHost (a : Attempt (PUnit.{u + 1} × List Answer)) :
    ∃ b, b.sr.attempt = a.sr.attempt + 1 ∧ b.host.2 = a.host.2 ++ [.execution false] ∧
      attemptBody (failingHost c actionId).logged d step input gen confirmed a =
        onExecuteError d step b .reResolve := by
  have hrun := (resolveLoop (failingHost.{u} c actionId).logged d step input).run_of_inr
    (resolveBody_ok _ d step input (n := 0) (a := a.enter) (hres a.enter.host))
  have hno : ¬(r.action.confirmationRequired && !confirmed) = true := by
    rw [hgate]
    decide
  unfold attemptBody
  rw [hrun]
  dsimp only
  unfold executeResolved
  dsimp only
  rw [if_neg hno, ← hc]
  exact ⟨_, rfl, rfl, rfl⟩

/-- **A visit on a failing host** executes as often as three attempts allow, whatever the maximum
is. -/
theorem countP_visitAnswers_failingHost (sr : StepRun) :
    (visitAnswers (failingHost.{u} c actionId) d step input gen confirmed sr ⟨⟩).countP
      Answer.isExecution = executionsLeft 4 (sr.attempt + 1).toNat := by
  refine (attemptLoop (failingHost.{u} c actionId).logged d step input gen confirmed).run_induct
    (I := fun a => a.host.2.countP Answer.isExecution + executionsLeft 4 (a.sr.attempt + 1).toNat =
      executionsLeft 4 (sr.attempt + 1).toNat)
    (P := fun x => x.2.host.2.countP Answer.isExecution =
      executionsLeft 4 (sr.attempt + 1).toNat)
    ?_ ?_ ⟨sr, (⟨⟩, []), []⟩ (Nat.zero_add _)
  · intro a a' hcount hbody
    obtain ⟨b, hattempt, hlog, heq⟩ := attemptBody_failingHost gen hgate hres hc a
    obtain ⟨rfl, ⟨⟨⟩, -⟩ | ⟨-, hle⟩⟩ := onExecuteError_inl d step (heq.symm.trans hbody)
    have htwo : b.sr.attempt.toNat ≤ 2 := UInt32.le_iff_toNat_le.mp hle
    have hgrant : Grants d step b.sr.attempt.toNat := .inr ⟨⟨c, hc⟩, htwo⟩
    rw [← hattempt] at hcount
    show b.host.2.countP Answer.isExecution + executionsLeft 4 (b.sr.attempt + 1).toNat = _
    rw [hlog, List.countP_append, hgrant.toNat_succ, ← hcount]
    have hone : [Answer.execution false].countP Answer.isExecution = 1 := rfl
    unfold executionsLeft
    omega
  · rintro a ⟨o, b'⟩ hcount hbody
    obtain ⟨b, hattempt, hlog, heq⟩ := attemptBody_failingHost gen hgate hres hc a
    have hend : onExecuteError d step b .reResolve = .inr (o, b') := heq.symm.trans hbody
    have htwo : ¬b.sr.attempt ≤ 2 := by
      intro hle
      unfold onExecuteError at hend
      rw [if_pos hle] at hend
      cases hend
    have htwo : ¬b.sr.attempt.toNat ≤ 2 := fun hle => htwo (UInt32.le_iff_toNat_le.mpr hle)
    have hone : [Answer.execution false].countP Answer.isExecution = 1 := rfl
    rw [← hattempt] at hcount
    show b'.host.2.countP Answer.isExecution = _
    rw [host_of_onExecuteError_inr d step hend, hlog, List.countP_append, ← hcount]
    unfold executionsLeft
    omega

end

/-! ## The bound -/

/-- **The retry bound, exactly.** A visit of the step is within the bound on every host if and only
if the step cannot come to an execution, or no failure is answered by a re-resolution, or the
attempts granted and the counter the visit begins with make three: the budget for re-resolutions is
read off the counter that the retries use as well. -/
theorem retryBounded_iff (sr : StepRun) :
    (∀ (σ : Type u) (H : Host σ) (s : σ), RetryBounded H d step input gen confirmed sr s) ↔
      ¬Executable step input confirmed ∨ (∀ c, policyFor d step c ≠ .reResolve) ∨
        3 ≤ (sr.attempt + 1).toNat + max (maxAttempts d step).toNat 1 := by
  constructor
  · intro hall
    by_contra hno
    rw [not_or, not_or, not_not] at hno
    obtain ⟨hexec, hpolicy, hlt⟩ := hno
    obtain ⟨c, hc⟩ := not_forall.mp hpolicy
    have hc : policyFor d step c = .reResolve := not_not.mp hc
    obtain ⟨actionId, r, calls, hgate, hres⟩ := exists_failingHost.{u} hexec c
    have hcount := (hall _ (failingHost.{u} c actionId) ⟨⟩).executions_le
    rw [countP_visitAnswers_failingHost gen hgate hres hc] at hcount
    unfold executionsLeft at hcount
    omega
  · rintro (hno | hpolicy | hthree) σ H s
    · have hidle := visit_idle H d step input gen confirmed hno sr s
      refine ⟨?_, nothing_after_of_not_mem (hidle.not_mem List.not_mem_nil)⟩
      rw [hidle.countP]
      exact Nat.zero_le _
    · have htop : ∀ n, Grants d step n → n + 2 ≤ (maxAttempts d step).toNat + 1 := by
        rintro n (hlt | ⟨⟨c, hc⟩, -⟩)
        · omega
        · exact absurd hc (hpolicy c)
      obtain ⟨hcount, hafter⟩ := visit_within H d step input gen confirmed sr s htop
      refine ⟨hcount.trans ?_, hafter⟩
      unfold executionsLeft
      omega
    · have htop : ∀ n, Grants d step n → n + 2 ≤ max ((maxAttempts d step).toNat + 1) 4 := by
        rintro n (hlt | ⟨-, hle⟩) <;> omega
      obtain ⟨hcount, hafter⟩ := visit_within H d step input gen confirmed sr s htop
      refine ⟨hcount.trans ?_, hafter⟩
      unfold executionsLeft
      omega

/-- A step that is attempted once: its timeouts have one attempt, and its failures of a stale
context are answered by a re-resolution. -/
def onceStep : WorkflowStep where
  stepId := "send"
  action := .reference ⟨"mail", "mail.send", "send"⟩
  input := .null
  failurePolicy := { FailurePolicy.inherited with timeout := some 1 }
  condition := none
  output := none
  onSuccess := none
  onFailure := none
  onConditionFalse := none

/-- A workflow of the one step. -/
def onceDefinition : WorkflowDefinition := ⟨"once", 1, [onceStep], .inherited, none⟩

/-- The bound fails: the step with one attempt is executed three times. -/
theorem not_retryBounded :
    ¬∀ (d : WorkflowDefinition) (step : WorkflowStep) (input : Json) (gen : UInt64)
        (confirmed : Bool) (sr : StepRun) (σ : Type) (H : Host σ) (s : σ),
      RetryBounded H d step input gen confirmed sr s := by
  intro hall
  have hcount := (hall onceDefinition onceStep .null 0 true
    ⟨"send", .pending, 0, none, none, none, none, none⟩ PUnit (failingHost .staleContext "send")
    ⟨⟩).executions_le
  revert hcount
  decide

end AuraLauncher.Runner
