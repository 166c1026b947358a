import AuraLauncher.Agent.Loop
import AuraLauncher.Lib.Log

/-!
# Approval before execution

What a run of the agent does before it calls the executor.

* `NeedsApproval` — a step that asks for approval or whose risk does.
* `Approval` — the events that let a plan be executed: no step needs approval, or the sink answered
  the request for exactly this plan, in time, with a decision that stands for steps.
* `approve_spec`, `prepare_prepared` — how a run gets to its first step, or does not.
* `runAgent_log` — a run makes no calls, or its calls come after an approval and are of the steps
  that were approved.
* `runAgent_approved` — no call without an approval, and no call after a refusal.
-/

namespace AuraLauncher.Agent

open AuraLauncher.Lib

/-- The step asks for approval, or its risk does. -/
def NeedsApproval (s : PlanStep) : Prop :=
  s.requiresApproval = true ∨ (classify s).requiresApproval = true

/-- The events that let the steps of a plan be executed. -/
inductive Approval (sessionId input : String) : List Event → List PlanStep → Prop
  | unneeded {plan : List PlanStep} (h : ∀ s ∈ plan, ¬NeedsApproval s) :
      Approval sessionId input [.planned plan] plan
  | granted {plan steps : List PlanStep} {createdMs nowMs : Int64} {request : ApprovalRequest}
      {decision : ApprovalDecision}
      (hrequest : request = mintRequest 1 defaultTtlMs sessionId input plan createdMs)
      (hid : decision.requestId = request.requestId) (htime : ¬request.expiresAtMs < nowMs)
      (hgrants : request.Grants decision.decision steps) :
      Approval sessionId input [.planned plan, .asked request (some decision), .decided nowMs] steps

/-- What happens before the first step, the moves of the session apart. -/
def Event.isBefore : Event → Bool
  | .planned _ | .asked _ _ | .decided _ => true
  | _ => false

/-- The moves of the session. -/
def Event.isMove : Event → Bool
  | .session _ => true
  | _ => false

theorem Approval.isBefore {sessionId input : String} {events : List Event} {steps : List PlanStep}
    (h : Approval sessionId input events steps) : ∀ e ∈ events, e.isBefore = true := by
  cases h <;> simp [Event.isBefore]

/-- The steps a decision stands for have different ids if those of the request have. -/
theorem ApprovalRequest.Grants.nodup {request : ApprovalRequest} {decision : Decision}
    {steps : List PlanStep} (h : request.Grants decision steps)
    (hnodup : (request.steps.map PlanStep.stepId).Nodup) :
    (steps.map PlanStep.stepId).Nodup := by
  cases h with
  | approve => exact hnodup
  | edited valid => exact (PlanDocument.nodup_of_validate valid).2

variable {W F : Type} {env : Env W}

/-! ## Before the first step -/

/-- The gate of a plan from the pipeline: it lets steps pass only with an approval, and these are
the steps of a valid plan. -/
theorem approve_spec (env : Env W) (input : String) {plan : List PlanStep} (hne : plan ≠ [])
    (hnodup : (plan.map PlanStep.stepId).Nodup)
    (hrisk : ∀ s ∈ plan, (classify s).requiresApproval = true → s.requiresApproval = true)
    (r : Run W) :
    (approve env input plan r).2.session = r.session ∧
      ∃ events, (approve env input plan r).2.events = r.events ++ events ∧
        (∀ e ∈ events, e.isBefore = true) ∧
        ∀ steps ∈ (approve env input plan r).1,
          Approval r.session.sessionId input (.planned plan :: events) steps ∧ steps ≠ [] ∧
            (steps.map PlanStep.stepId).Nodup := by
  unfold approve
  by_cases hflag : plan.any PlanStep.requiresApproval = true
  · rw [if_pos hflag]
    dsimp only [Run.clock, ApprovalGate.request]
    rw [if_neg (not_not.mpr hflag)]
    dsimp only [Run.ask]
    generalize hrequest : mintRequest (ApprovalGate.default.seq + 1) ApprovalGate.default.ttlMs
      r.session.sessionId input plan (env.now r.world).1 = request
    cases hanswer : (env.requestApproval request (env.now r.world).2).1 with
    | none =>
        dsimp only
        refine ⟨rfl, [.asked request none], rfl, by simp [Event.isBefore], ?_⟩
        rintro steps ⟨⟩
    | some decision =>
        dsimp only
        by_cases hid : decision.requestId = request.requestId
        · rw [if_pos hid]
          generalize (env.now (env.requestApproval request (env.now r.world).2).2).1 = nowMs
          rcases hdecide : (ApprovalGate.decide ⟨ApprovalGate.default.ttlMs,
              ApprovalGate.default.seq + 1, some ⟨request, false⟩⟩ request.requestId
              decision.decision nowMs).1 with e | (_ | ⟨step, steps⟩)
          · refine ⟨rfl, [.asked request (some decision), .decided nowMs], ?_,
              by simp [Event.isBefore], ?_⟩
            · simp
            · rintro steps ⟨⟩
          · refine ⟨rfl, [.asked request (some decision), .decided nowMs], ?_,
              by simp [Event.isBefore], ?_⟩
            · simp
            · rintro steps ⟨⟩
          · obtain ⟨-, htime, hgrants | ⟨-, hnil⟩⟩ := (decide_eq_ok_iff rfl).mp hdecide
            · refine ⟨rfl, [.asked request (some decision), .decided nowMs], ?_,
                by simp [Event.isBefore], ?_⟩
              · simp
              · rintro _ ⟨⟩
                exact ⟨.granted hrequest.symm hid htime hgrants, List.cons_ne_nil _ _,
                  hgrants.nodup (by rw [← hrequest]; exact hnodup)⟩
            · cases hnil
        · rw [if_neg hid]
          refine ⟨rfl, [.asked request (some decision)], rfl, by simp [Event.isBefore], ?_⟩
          rintro steps ⟨⟩
  · rw [if_neg hflag]
    refine ⟨rfl, [], (List.append_nil _).symm, fun e he => absurd he List.not_mem_nil, ?_⟩
    rintro steps ⟨⟩
    refine ⟨.unneeded fun s hs hneeds => ?_, hne, hnodup⟩
    have hno : s.requiresApproval ≠ true := fun hs' => hflag (List.any_eq_true.mpr ⟨s, hs, hs'⟩)
    exact hneeds.elim hno fun h => hno (hrisk s hs h)

/-- A run up to its first step: it stops after nothing but questions, or it has a plan. -/
inductive Prepared (sessionId input : String) (r₀ : Run W) :
    (LoopStop ⊕ List PlanStep) × Run W → Prop
  | stopped (stop : LoopStop) {r : Run W} (events : List Event) (hsession : r.session = r₀.session)
      (hevents : r.events = r₀.events ++ events) (hbefore : ∀ e ∈ events, e.isBefore = true)
      (hstop : stop.status = .failed ∨ stop.status = .cancelled) :
      Prepared sessionId input r₀ (.inl stop, r.move stop.status false)
  | ready {plan : List PlanStep} {r : Run W} (events : List Event)
      (hsession : r.session = r₀.session) (hevents : r.events = r₀.events ++ events)
      (happroval : Approval sessionId input events plan) (hne : plan ≠ [])
      (hnodup : (plan.map PlanStep.stepId).Nodup) : Prepared sessionId input r₀ (.inr plan, r)

variable {std : AgentStd F} {session : AgentSession} {input context catalog : String}
  {policy : ClarificationPolicy F} {contextBudget : ℕ} {w : W}

theorem afterPipeline_prepared {r₀ r : Run W} {outcome : Except String (PipelineOutcome F)}
    (hsession : r.session = r₀.session) (hevents : r.events = r₀.events)
    (hplan : ∀ p risks prompt, outcome = .ok (.proposal p risks prompt) →
      p.plan ≠ [] ∧ (p.plan.map PlanStep.stepId).Nodup ∧
        ∀ s ∈ p.plan, (classify s).requiresApproval = true → s.requiresApproval = true) :
    Prepared r₀.session.sessionId input r₀ (afterPipeline env input r outcome) := by
  have hquiet : r.events = r₀.events ++ [] := by rw [hevents, List.append_nil]
  rcases outcome with e | ⟨p, risks, prompt⟩ | ⟨question, prompt⟩
  · exact .stopped (.failed "(plan)" e) [] hsession hquiet
      (fun e he => absurd he List.not_mem_nil) (.inl rfl)
  · obtain ⟨hne, hnodup, hrisk⟩ := hplan p risks prompt rfl
    obtain ⟨hs, events, hes, hbefore, happroval⟩ := approve_spec env input hne hnodup
      hrisk { r with events := r.events ++ [.planned p.plan] }
    unfold afterPipeline
    dsimp only
    rcases happrove : approve env input p.plan { r with events := r.events ++ [.planned p.plan] }
      with ⟨_ | steps, r'⟩
    · rw [happrove] at hs hes
      refine .stopped .cancelled (.planned p.plan :: events)
        (hs.trans hsession) ?_ ?_ (.inr rfl)
      · rw [hes, hevents, List.append_assoc]
        rfl
      · exact List.forall_mem_cons.mpr ⟨rfl, hbefore⟩
    · rw [happrove] at hs hes happroval
      obtain ⟨happ, hne', hnodup'⟩ := happroval steps rfl
      refine .ready (.planned p.plan :: events) (hs.trans hsession) ?_ ?_ hne' hnodup'
      · rw [hes, hevents, List.append_assoc]
        rfl
      · rw [← hsession]
        exact happ
  · exact .stopped (.failed "(clarify)" question) [] hsession hquiet
      (fun e he => absurd he List.not_mem_nil) (.inl rfl)

theorem prepare_prepared (env : Env W) (std : AgentStd F) (input context catalog : String)
    (policy : ClarificationPolicy F) (contextBudget : ℕ) (w : W)
    (hbudget : session.transition .observing true ≠ .error .stepBudgetExhausted) :
    Prepared session.sessionId input (.start session w)
      (prepare env std session input context catalog policy contextBudget w) := by
  have hid : (Run.start session w).session.sessionId = session.sessionId :=
    (AgentSession.attempt_sessionId _ _ _).trans (AgentSession.attempt_sessionId _ _ _)
  unfold prepare
  rw [if_neg hbudget]
  rcases hpoll : (Run.start session w).poll env with ⟨flag, r₁⟩
  obtain ⟨hsession, hevents⟩ : r₁.session = (Run.start session w).session ∧
      r₁.events = (Run.start session w).events := by
    cases hpoll
    exact ⟨rfl, rfl⟩
  cases flag with
  | true =>
      exact .stopped .cancelled [] hsession (by rw [hevents, List.append_nil])
        (fun e he => absurd he List.not_mem_nil) (.inr rfl)
  | false =>
      dsimp only
      rcases hpipe : runPipeline std env.llm input context catalog policy contextBudget r₁.world
        with ⟨outcome, world⟩
      rw [← hid]
      refine afterPipeline_prepared hsession hevents fun p risks prompt hok => ?_
      have hout : (runPipeline std env.llm input context catalog policy contextBudget r₁.world).1 =
          .ok (.proposal p risks prompt) := by rw [hpipe, hok]
      exact runPipeline_proposal hout

/-! ## The log of a run -/

/-- What happens from the first step on: moves of the session, and calls of the steps. -/
def After (plan : List PlanStep) (events : List Event) : Prop :=
  ∀ e ∈ events, e.isMove = true ∨ ∃ c, e = .called c ∧ c.Of plan

/-- The run goes on with moves of the session and calls of the steps. -/
def GoesOn (plan : List PlanStep) (r r' : Run W) : Prop :=
  ∃ after, r'.events = r.events ++ after ∧ After plan after

variable {plan : List PlanStep} {r r' r'' : Run W}

theorem GoesOn.trans (h : GoesOn plan r r') (h' : GoesOn plan r' r'') : GoesOn plan r r'' := by
  obtain ⟨after, hr', hafter⟩ := h
  obtain ⟨after', hr'', hafter'⟩ := h'
  refine ⟨after ++ after', by rw [hr'', hr', List.append_assoc], fun e he => ?_⟩
  rcases List.mem_append.mp he with he | he
  · exact hafter e he
  · exact hafter' e he

theorem Run.goesOn_move (plan : List PlanStep) (r : Run W) (dst : AgentRunStatus)
    (consumesTurn : Bool) : GoesOn plan r (r.move dst consumesTurn) := by
  refine ⟨[.session (r.session.attempt dst consumesTurn)], rfl, fun e he => .inl ?_⟩
  obtain rfl := List.mem_singleton.mp he
  rfl

theorem Run.goesOn_replan (plan : List PlanStep) (r : Run W) : GoesOn plan r r.replan :=
  ((r.goesOn_move plan .replanning false).trans (Run.goesOn_move plan _ .planning true)).trans
    (Run.goesOn_move plan _ .executing false)

theorem Passed.goesOn {status : Statuses} {p : Pass W} {calls : List Call}
    (h : Passed status r plan p calls) : GoesOn plan r p.run := by
  refine ⟨_, h.events, fun e he => ?_⟩
  obtain ⟨c, hc, rfl⟩ := List.mem_map.mp he
  exact .inr ⟨c, rfl, (h.of c hc).1⟩

theorem LoopRun.goesOn {result : LoopStop × Run W} (h : LoopRun env plan r result) :
    GoesOn plan r result.2 := by
  cases h with
  | once h _ _ => exact h.goesOn.trans (Run.goesOn_move plan _ _ _)
  | twice h _ _ _ h' _ =>
      exact ((h.goesOn.trans (Run.goesOn_replan plan _)).trans h'.goesOn).trans
        (Run.goesOn_move plan _ _ _)

/-- A run: it has no turn at all, it stops before the first step, or it goes over an approved
plan. -/
inductive Ran (env : Env W) (session : AgentSession) (input : String) (w : W) :
    LoopStop × Run W → Prop
  | overBudget {stop : LoopStop} :
      Ran env session input w (stop, (⟨w, session, []⟩ : Run W).move .budgetExhausted false)
  | stopped {stop : LoopStop} {r : Run W} {events : List Event}
      (hevents : r.events = (Run.start session w).events ++ events)
      (hbefore : ∀ e ∈ events, e.isBefore = true) :
      Ran env session input w (stop, r.move stop.status false)
  | executed {plan : List PlanStep} {r : Run W} {events : List Event} {result : LoopStop × Run W}
      (hevents : r.events = (Run.start session w).events ++ events)
      (happroval : Approval session.sessionId input events plan)
      (hnodup : (plan.map PlanStep.stepId).Nodup)
      (hloop : LoopRun env plan (r.move .executing true) result) :
      Ran env session input w result

theorem runAgent_ran (env : Env W) (std : AgentStd F) (session : AgentSession)
    (input context catalog : String) (policy : ClarificationPolicy F) (contextBudget : ℕ) (w : W) :
    Ran env session input w
      (runAgent env std session input context catalog policy contextBudget w) := by
  unfold runAgent
  by_cases hbudget : session.transition .observing true = .error .stepBudgetExhausted
  · rw [prepare, if_pos hbudget]
    exact .overBudget
  · have hprep := prepare_prepared env std input context catalog policy contextBudget w hbudget
    cases hp : prepare env std session input context catalog policy contextBudget w with
    | mk outcome r =>
        rw [hp] at hprep
        cases hprep with
        | stopped _ _ _ hevents hbefore _ => exact .stopped hevents hbefore
        | ready _ _ hevents happroval _ hnodup =>
            exact .executed hevents happroval hnodup (replanLoop_run env _ _)

/-- **The log of a run**: no calls at all, or moves of the session, an approval, and then moves of
the session and calls of the steps that were approved. -/
theorem runAgent_log (env : Env W) (std : AgentStd F) (session : AgentSession)
    (input context catalog : String) (policy : ClarificationPolicy F) (contextBudget : ℕ) (w : W) :
    let r := (runAgent env std session input context catalog policy contextBudget w).2
    (∀ e ∈ r.events, e.call? = none) ∨
      ∃ before approval after steps, r.events = before ++ approval ++ after ∧
        (∀ e ∈ before, e.isMove = true) ∧ Approval session.sessionId input approval steps ∧
        After steps after := by
  have hno : ∀ {e : Event}, e.isMove = true ∨ e.isBefore = true → e.call? = none := by
    intro e he
    cases e <;> simp_all [Event.isMove, Event.isBefore, Event.call?]
  have hstart : ∀ e ∈ (Run.start session w).events, e.isMove = true := by
    simp [Run.start, Run.move, Event.isMove]
  have hran := runAgent_ran env std session input context catalog policy contextBudget w
  generalize runAgent env std session input context catalog policy contextBudget w = result at hran
  cases hran with
  | overBudget =>
      left
      simp [Run.move, Event.call?]
  | @stopped stop r events hevents hbefore =>
      left
      intro e he
      dsimp only [Run.move] at he
      rw [hevents, List.append_assoc] at he
      rcases List.mem_append.mp he with he | he
      · exact hno (.inl (hstart e he))
      · rcases List.mem_append.mp he with he | he
        · exact hno (.inr (hbefore e he))
        · obtain rfl := List.mem_singleton.mp he
          rfl
  | @executed plan r events result hevents happroval hnodup hloop =>
      right
      obtain ⟨after, hafter, hall⟩ := (r.goesOn_move plan .executing true).trans hloop.goesOn
      exact ⟨_, events, after, plan, by rw [hafter, hevents], hstart, happroval, hall⟩

/-! ## The law -/

/-- An answer that approves nothing: none at all, one to another request, a rejection, one that
comes when the request is over, or an edited plan that is not valid. -/
inductive Refused (events : List Event) (request : ApprovalRequest) :
    Option ApprovalDecision → Prop
  | unanswered : Refused events request none
  | otherRequest {d : ApprovalDecision} (h : d.requestId ≠ request.requestId) :
      Refused events request (some d)
  | rejected {d : ApprovalDecision} (h : d.decision = .reject) : Refused events request (some d)
  | expired {d : ApprovalDecision} {nowMs : Int64} (hnow : .decided nowMs ∈ events)
      (h : request.expiresAtMs < nowMs) : Refused events request (some d)
  | invalid {d : ApprovalDecision} {doc : PlanDocument} (hd : d.decision = .approveEdited doc)
      (h : doc.validate ≠ .ok ()) : Refused events request (some d)

/-- The sink approved `steps`, for the request minted for `plan` and before it expired. -/
def ApprovedBefore (sessionId input : String) (before : List Event) (plan steps : List PlanStep) :
    Prop :=
  ∃ request decision createdMs nowMs,
    request = mintRequest 1 defaultTtlMs sessionId input plan createdMs ∧
      .asked request (some decision) ∈ before ∧ .decided nowMs ∈ before ∧
      decision.requestId = request.requestId ∧ nowMs ≤ request.expiresAtMs ∧
      request.Grants decision.decision steps

section

variable {sessionId input : String} {events moves approval rest : List Event}
  {steps : List PlanStep}

/-- What is neither a move nor a call happened as part of the approval. -/
theorem mem_approval_of_log (hevents : events = moves ++ approval ++ rest)
    (hmoves : ∀ e ∈ moves, e.isMove = true) (hrest : After steps rest) {e : Event} (he : e ∈ events)
    (hmove : e.isMove = false) (hcall : e.call? = none) : e ∈ approval := by
  rw [hevents] at he
  rcases List.mem_append.mp he with he | he
  · rcases List.mem_append.mp he with he | he
    · rw [hmoves e he] at hmove
      cases hmove
    · exact he
  · rcases hrest e he with hmove' | ⟨c, rfl, -⟩
    · rw [hmove'] at hmove
      cases hmove
    · cases hcall

/-- A call comes after the approval, and is of an approved step. -/
theorem approval_before_call (hevents : events = moves ++ approval ++ rest)
    (hmoves : ∀ e ∈ moves, e.isMove = true) (happroval : Approval sessionId input approval steps)
    (hrest : After steps rest) {before after : List Event} {c : Call}
    (hsplit : events = before ++ .called c :: after) :
    c.Of steps ∧ ∀ e ∈ approval, e ∈ before := by
  rw [hevents] at hsplit
  rcases append_eq_append_cons hsplit with ⟨after', hleft⟩ | ⟨before', rfl, hright⟩
  · have hc : Event.called c ∈ moves ++ approval := by
      rw [hleft]
      exact List.mem_append_right _ List.mem_cons_self
    rcases List.mem_append.mp hc with hc | hc
    · cases hmoves _ hc
    · cases happroval.isBefore _ hc
  · refine ⟨?_, fun e he => by simp [he]⟩
    rcases hrest (.called c) (by simp [hright]) with hmove | ⟨c', heq, hc'⟩
    · cases hmove
    · cases heq
      exact hc'

/-- The approval of steps, read off any events that contain it. -/
theorem Approval.approved (happroval : Approval sessionId input approval steps)
    {before : List Event} (hbefore : ∀ e ∈ approval, e ∈ before)
    (honly : ∀ plan, .planned plan ∈ events → .planned plan ∈ approval) :
    ∃ plan, .planned plan ∈ before ∧ (∀ plan', .planned plan' ∈ events → plan' = plan) ∧
      ((∀ s ∈ plan, ¬NeedsApproval s) ∧ steps = plan ∨
        ApprovedBefore sessionId input before plan steps) := by
  cases happroval with
  | unneeded h =>
      refine ⟨steps, hbefore _ (by simp), fun plan' hplan' => ?_, .inl ⟨h, rfl⟩⟩
      simpa using honly plan' hplan'
  | @granted plan steps createdMs nowMs request decision hrequest hid htime hgrants =>
      refine ⟨plan, hbefore _ (by simp), fun plan' hplan' => ?_, .inr ⟨request, decision,
        createdMs, nowMs, hrequest, hbefore _ (by simp), hbefore _ (by simp), hid,
        Int64.not_lt.mp htime, hgrants⟩⟩
      simpa using honly plan' hplan'

/-- What was approved was not refused. -/
theorem Approval.not_refused (happroval : Approval sessionId input approval steps)
    {request : ApprovalRequest} {answer : Option ApprovalDecision}
    (hasked : .asked request answer ∈ approval)
    (hdecided : ∀ nowMs, .decided nowMs ∈ events → .decided nowMs ∈ approval) :
    ¬Refused events request answer := by
  intro hrefused
  cases happroval with
  | unneeded h => simp at hasked
  | @granted plan steps createdMs nowMs request' decision hrequest hid htime hgrants =>
      obtain ⟨rfl, rfl⟩ : request = request' ∧ answer = some decision := by simpa using hasked
      cases hrefused with
      | otherRequest h => exact h hid
      | rejected h =>
          rw [h] at hgrants
          cases hgrants
      | @expired d nowMs' hnow h =>
          obtain rfl : nowMs' = nowMs := by simpa using hdecided _ hnow
          exact htime h
      | invalid hd h =>
          rw [hd] at hgrants
          cases hgrants with
          | edited valid => exact h valid

end

/-- **Approval before execution.** There is one list of steps from which all calls of the executor
come, each with the reference and the input of its step: the plan of the pipeline, if no step of it
needs approval, and else what the sink approved, before the call, on the request for this plan and
in time. If the sink refused, there are no calls. -/
theorem runAgent_approved (env : Env W) (std : AgentStd F) (session : AgentSession)
    (input context catalog : String) (policy : ClarificationPolicy F) (contextBudget : ℕ) (w : W) :
    let events := (runAgent env std session input context catalog policy contextBudget w).2.events
    (∃ steps, ∀ before c after, events = before ++ .called c :: after → c.Of steps ∧
      ∃ plan, .planned plan ∈ before ∧ (∀ plan', .planned plan' ∈ events → plan' = plan) ∧
        ((∀ s ∈ plan, ¬NeedsApproval s) ∧ steps = plan ∨
          ApprovedBefore session.sessionId input before plan steps)) ∧
    ∀ request answer, .asked request answer ∈ events → Refused events request answer →
      ∀ c, .called c ∉ events := by
  intro events
  rcases runAgent_log env std session input context catalog policy contextBudget w with
    hnone | ⟨moves, approval, rest, steps, hevents, hmoves, happroval, hrest⟩
  · have hno : ∀ c, .called c ∉ events := fun c hc => absurd (hnone _ hc) (by simp [Event.call?])
    refine ⟨⟨[], fun before c after hsplit => absurd ?_ (hno c)⟩, fun _ _ _ _ => hno⟩
    rw [hsplit]
    exact List.mem_append_right _ List.mem_cons_self
  · change events = _ at hevents
    have hmem := fun {e : Event} => mem_approval_of_log (e := e) hevents hmoves hrest
    refine ⟨⟨steps, fun before c after hsplit => ?_⟩, fun request answer hasked hrefused => ?_⟩
    · obtain ⟨hof, hbefore⟩ := approval_before_call hevents hmoves happroval hrest hsplit
      exact ⟨hof, happroval.approved hbefore fun plan hplan => hmem hplan rfl rfl⟩
    · exact absurd hrefused
        (happroval.not_refused (hmem hasked rfl rfl) fun nowMs hnow => hmem hnow rfl rfl)

end AuraLauncher.Agent
