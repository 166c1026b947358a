import AuraLauncher.Agent.Retries

/-!
# The session of a run

A run of the agent moves its session along and does not look at the answers. The move to `Executing`
takes a turn, so with a budget of one turn the session stays in `Planning` while the steps are
executed.

* `Agrees` — the executor is called in `Executing` only, the turns are within the budget, and the
  session ends in the state of the result.
* `InBudget` — the turns of all sessions of a run, which nothing takes out of the budget.
* `LoopRun.agrees` — a loop that begins in `Executing` agrees with its session.
* `runAgent_agrees_iff` — a run with a new session agrees with it if the budget has two turns, or if
  the run ends before its first step.
* `runAgent_not_agrees` — a run that does not.
-/

namespace AuraLauncher.Agent

/-- The terminal states that go with a result. -/
def LoopStop.Matches : LoopStop → AgentRunStatus → Prop
  | .completed, state => state = .completed
  | .failed _ _, state => state = .failed ∨ state = .budgetExhausted
  | .cancelled, state => state = .cancelled

variable {W F : Type} {env : Env W}

/-- All sessions of the run are within the budget. -/
structure InBudget (budget : ℕ) (r : Run W) : Prop where
  session : r.session.Within budget
  events : ∀ s, .session s ∈ r.events → s.Within budget

/-- The run agrees with its session. -/
structure Agrees (budget : ℕ) (result : LoopStop × Run W) : Prop where
  executing : ∀ c ∈ result.2.calls, c.session.state = .executing
  inBudget : InBudget budget result.2
  terminal : result.1.Matches result.2.session.state

/-! ## The budget -/

variable {budget : ℕ} {r : Run W}

theorem InBudget.move (h : InBudget budget r) (dst : AgentRunStatus) (consumesTurn : Bool) :
    InBudget budget (r.move dst consumesTurn) where
  session := h.session.attempt dst consumesTurn
  events s hs := by
    rcases List.mem_append.mp hs with hs | hs
    · exact h.events s hs
    · obtain rfl : s = r.session.attempt dst consumesTurn := by simpa using hs
      exact h.session.attempt dst consumesTurn

/-- What is no move of the session does not change it. -/
theorem InBudget.append (h : InBudget budget r) {r' : Run W} {events : List Event}
    (hsession : r'.session = r.session) (hevents : r'.events = r.events ++ events)
    (hno : ∀ e ∈ events, e.isMove = false) : InBudget budget r' where
  session := hsession ▸ h.session
  events s hs := by
    rw [hevents] at hs
    rcases List.mem_append.mp hs with hs | hs
    · exact h.events s hs
    · cases hno _ hs

theorem InBudget.passed (h : InBudget budget r) {status : Statuses} {steps : List PlanStep}
    {p : Pass W} {calls : List Call} (hp : Passed status r steps p calls) :
    InBudget budget p.run := by
  refine h.append hp.session hp.events fun e he => ?_
  obtain ⟨c, -, rfl⟩ := List.mem_map.mp he
  rfl

theorem InBudget.replan (h : InBudget budget r) : InBudget budget r.replan :=
  ((h.move _ _).move _ _).move _ _

theorem InBudget.loopRun (h : InBudget budget r) {plan : List PlanStep}
    {result : LoopStop × Run W} (hloop : LoopRun env plan r result) :
    InBudget budget result.2 := by
  cases hloop with
  | once hp _ _ => exact (h.passed hp).move _ _
  | twice hp _ _ _ hp' _ => exact ((h.passed hp).replan.passed hp').move _ _

/-! ## The loop -/

/-- A loop that begins in `Executing` ends in the state of its result. -/
theorem state_move_stop {stop : LoopStop} (hstate : r.session.state = .executing) :
    stop.Matches (r.move stop.status false).session.state := by
  have hmove : (r.move stop.status false).session = r.session.attempt stop.status false := rfl
  rw [hmove, AgentSession.attempt_of_legal]
  · cases stop with
    | completed => rfl
    | failed stepId e => exact .inl rfl
    | cancelled => rfl
  · rw [hstate]
    rfl
  · rw [hstate]
    cases stop <;> rfl

/-- From `Replanning` the session gets to `Executing`, with or without a turn for the plan. -/
theorem state_of_replanning {s : AgentSession} (h : s.state = .replanning) :
    ((s.attempt .planning true).attempt .executing false).state = .executing := by
  by_cases hturn : s.turns < s.maxTurns
  · rw [AgentSession.attempt_of_turn (by rw [h]; rfl) (by rw [h]; rfl) hturn,
      AgentSession.attempt_of_legal rfl rfl]
  · rw [AgentSession.attempt_of_no_turn (Nat.not_lt.mp hturn),
      AgentSession.attempt_of_legal (by rw [h]; rfl) (by rw [h]; rfl)]

/-- The second pass begins in `Executing` as the first does. -/
theorem state_replan (hstate : r.session.state = .executing) :
    r.replan.session.state = .executing := by
  refine state_of_replanning (s := r.session.attempt .replanning false) ?_
  rw [AgentSession.attempt_of_legal (by rw [hstate]; rfl) (by rw [hstate]; rfl)]

theorem LoopRun.agrees {plan : List PlanStep} {result : LoopStop × Run W}
    (h : LoopRun env plan r result) (hstate : r.session.state = .executing) (hcalls : r.calls = [])
    (hbudget : InBudget budget r) : Agrees budget result := by
  refine ⟨?_, hbudget.loopRun h, ?_⟩
  · cases h with
    | once hp _ _ =>
        intro c hc
        rw [Run.calls_move, hp.calls_run, hcalls] at hc
        rw [(hp.of c hc).2.1, hstate]
    | twice hp _ _ _ hp' _ =>
        intro c hc
        rw [Run.calls_move, hp'.calls_run, Run.calls_replan, hp.calls_run, hcalls] at hc
        rcases List.mem_append.mp hc with hc | hc
        · rw [(hp.of c hc).2.1, hstate]
        · rw [(hp'.of c hc).2.1]
          exact state_replan (hp.session ▸ hstate)
  · cases h with
    | once hp _ _ => exact state_move_stop (hp.session ▸ hstate)
    | twice hp _ _ _ hp' _ =>
        exact state_move_stop (hp'.session ▸ state_replan (hp.session ▸ hstate))

/-! ## New sessions -/

variable {std : AgentStd F} {sessionId input context catalog : String} {maxTurns : ℕ}
  {policy : ClarificationPolicy F} {contextBudget : ℕ} {w : W}

/-- A new session begins to plan after one turn. -/
theorem start_new (sessionId : String) (maxTurns : ℕ) (w : W) :
    (Run.start (.new sessionId maxTurns) w).session =
      ⟨sessionId, .planning, 1, max maxTurns 1⟩ := by
  have hstart : (Run.start (.new sessionId maxTurns) w).session =
      ((AgentSession.new sessionId maxTurns).attempt .observing true).attempt .planning false := rfl
  have hturn : (AgentSession.new sessionId maxTurns).turns <
      (AgentSession.new sessionId maxTurns).maxTurns := Nat.lt_of_lt_of_le Nat.one_pos
        (Nat.le_max_right _ _)
  rw [hstart, AgentSession.attempt_of_turn rfl rfl hturn, AgentSession.attempt_of_legal rfl rfl]
  rfl

theorem inBudget_start_new (sessionId : String) (maxTurns : ℕ) (w : W) :
    InBudget (max maxTurns 1) (Run.start (.new sessionId maxTurns) w) := by
  have hnew : InBudget (max maxTurns 1) (⟨w, .new sessionId maxTurns, []⟩ : Run W) :=
    ⟨⟨rfl, Nat.zero_le _⟩, fun s hs => absurd hs List.not_mem_nil⟩
  exact (hnew.move _ _).move _ _

/-- A run that stops before its first step agrees with its session. -/
theorem agrees_of_stopped {stop : LoopStop} {events : List Event} {r₀ : Run W}
    (hstart : r₀.session.state = .planning) (hbudget : InBudget budget r₀) (hcalls : r.calls = [])
    (hsession : r.session = r₀.session) (hevents : r.events = r₀.events ++ events)
    (hbefore : ∀ e ∈ events, e.isBefore = true)
    (hstop : stop.status = .failed ∨ stop.status = .cancelled) :
    Agrees budget (stop, r.move stop.status false) := by
  have hquiet : ∀ e ∈ events, e.isMove = false := by
    intro e he
    have hkind := hbefore e he
    cases e <;> first | rfl | cases hkind
  refine ⟨fun c hc => ?_, (hbudget.append hsession hevents hquiet).move _ _, ?_⟩
  · rw [Run.calls_move, hcalls] at hc
    exact absurd hc List.not_mem_nil
  · have hmove : (r.move stop.status false).session = r.session.attempt stop.status false := rfl
    rw [hmove, hsession]
    cases stop with
    | completed => rcases hstop with h | h <;> cases h
    | failed stepId e =>
        rw [LoopStop.status, AgentSession.attempt_of_legal (by rw [hstart]; rfl)
          (by rw [hstart]; rfl)]
        exact .inl rfl
    | cancelled =>
        rw [LoopStop.status, AgentSession.attempt_of_legal (by rw [hstart]; rfl)
          (by rw [hstart]; rfl)]
        rfl

/-- The first call of a loop that is not cancelled before it is made in the state the loop begins
in. -/
theorem LoopRun.exists_call {step : PlanStep} {steps : List PlanStep} {result : LoopStop × Run W}
    (h : LoopRun env (step :: steps) r result) (hcalls : r.calls = [])
    (hflag : (env.cancelled r.world).1 = false) :
    ∃ c ∈ result.2.calls, c.session.state = r.session.state := by
  have hopen : ¬Settled noStatus step.stepId := by simp [Settled, noStatus]
  have hfirst : ∀ {calls : List Call}, Passed noStatus r (step :: steps)
      (runSteps env noStatus r (step :: steps)) calls →
      ∃ c ∈ calls, c.session.state = r.session.state := by
    intro calls hp
    have hsome := exists_call_of_runSteps hopen hflag hp.events
    obtain ⟨c, rest, rfl⟩ := List.exists_cons_of_ne_nil hsome
    exact ⟨c, List.mem_cons_self, congrArg _ (hp.of c List.mem_cons_self).2.1⟩
  cases h with
  | once hp _ _ =>
      rw [Run.calls_move, hp.calls_run, hcalls]
      exact hfirst hp
  | twice hp hpass _ _ hp' _ =>
      rw [Run.calls_move, hp'.calls_run, Run.calls_replan, hp.calls_run, hcalls]
      obtain ⟨c, hc, hstate⟩ := hfirst (hpass ▸ hp)
      exact ⟨c, List.mem_append_left _ hc, hstate⟩

/-- A loop that is cancelled before the first step makes no call and reports that it was
cancelled. -/
theorem LoopRun.eq_of_cancelled {plan : List PlanStep} {result : LoopStop × Run W}
    (h : LoopRun env plan r result) (hne : plan ≠ [])
    (hflag : (env.cancelled r.world).1 = true) :
    result.1 = .cancelled ∧ result.2.calls = r.calls ∧
      result.2.session = r.session.attempt .cancelled false := by
  have hpass := runSteps_cancelled noStatus hne hflag
  cases h with
  | @once stop calls hp hstop _ =>
      rw [hpass] at hstop ⊢
      cases stop with
      | cancelled => exact ⟨rfl, Run.calls_move _ _ _, rfl⟩
      | completed => cases hstop
      | failed stepId e => cases hstop
  | twice hp heq hend _ _ _ =>
      rw [heq, hpass] at hend
      cases hend

/-- A loop that begins in `Planning` agrees with its session exactly if it is cancelled before the
first step. -/
theorem LoopRun.agrees_iff {plan : List PlanStep} {result : LoopStop × Run W}
    (h : LoopRun env plan r result) (hstate : r.session.state = .planning) (hcalls : r.calls = [])
    (hbudget : InBudget budget r) (hne : plan ≠ []) :
    Agrees budget result ↔ (env.cancelled r.world).1 = true := by
  constructor
  · intro hagrees
    by_contra hflag
    obtain ⟨step, steps, rfl⟩ := List.exists_cons_of_ne_nil hne
    obtain ⟨c, hc, hcall⟩ := h.exists_call hcalls (Bool.eq_false_iff.mpr hflag)
    have hexecuting := hagrees.executing c hc
    rw [hcall, hstate] at hexecuting
    cases hexecuting
  · intro hflag
    obtain ⟨hstop, hnone, hsession⟩ := h.eq_of_cancelled hne hflag
    refine ⟨?_, hbudget.loopRun h, ?_⟩
    · rw [hnone, hcalls]
      exact fun c hc => absurd hc List.not_mem_nil
    · rw [hstop, hsession,
        AgentSession.attempt_of_legal (by rw [hstate]; rfl) (by rw [hstate]; rfl)]
      rfl

/-- **A run and its session.** A run with a new session agrees with it exactly if the budget has two
turns at least, or no step is executed: there is no approved plan, or the run is cancelled before
the first step. -/
theorem runAgent_agrees_iff (env : Env W) (std : AgentStd F) (sessionId : String) (maxTurns : ℕ)
    (input context catalog : String) (policy : ClarificationPolicy F) (contextBudget : ℕ) (w : W) :
    Agrees (max maxTurns 1) (runAgent env std (.new sessionId maxTurns) input context catalog policy
        contextBudget w) ↔
      2 ≤ maxTurns ∨ ∀ plan r, prepare env std (.new sessionId maxTurns) input context catalog
        policy contextBudget w = (.inr plan, r) → (env.cancelled r.world).1 = true := by
  have hstart := start_new sessionId maxTurns w
  have hplanning : (Run.start (.new sessionId maxTurns) w).session.state = .planning := by
    rw [hstart]
  have hbudget := inBudget_start_new sessionId maxTurns w
  have hturn : (AgentSession.new sessionId maxTurns).transition .observing true ≠
      .error .stepBudgetExhausted := by
    simp [AgentSession.transition, AgentSession.new, isTerminal, legal]
  have hprep := prepare_prepared env std input context catalog policy contextBudget w hturn
  unfold runAgent
  cases hp : prepare env std (.new sessionId maxTurns) input context catalog policy contextBudget
      w with
  | mk outcome r =>
      rw [hp] at hprep
      cases hprep with
      | @stopped stop r events hsession hevents hbefore hstop =>
          refine iff_of_true (agrees_of_stopped hplanning hbudget
            (Run.calls_of_before hevents hbefore) hsession hevents hbefore hstop) (.inr ?_)
          rintro plan r' ⟨⟩
      | @ready plan r events hsession hevents happroval hne hnodup =>
          have hquiet : ∀ e ∈ events, e.isMove = false := by
            intro e he
            have hkind := happroval.isBefore e he
            cases e <;> first | rfl | cases hkind
          have hin := (hbudget.append hsession hevents hquiet).move .executing true
          have hcalls : (r.move .executing true).calls = [] := by
            rw [Run.calls_move, Run.calls_of_before hevents happroval.isBefore]
          have hmove : (r.move .executing true).session = r.session.attempt .executing true := rfl
          have hloop := replanLoop_run env plan (r.move .executing true)
          rw [forall_ready_iff (P := fun _ r => (env.cancelled r.world).1 = true)]
          by_cases htwo : 2 ≤ maxTurns
          · refine iff_of_true (hloop.agrees ?_ hcalls hin) (.inl htwo)
            rw [hmove, hsession, hstart, AgentSession.attempt_of_turn rfl rfl]
            exact Nat.lt_of_lt_of_le htwo (Nat.le_max_left _ _)
          · have hstay : (r.move .executing true).session.state = .planning := by
              rw [hmove, hsession, hstart, AgentSession.attempt_of_no_turn]
              exact max_le (Nat.le_of_lt_succ (Nat.not_le.mp htwo)) le_rfl
            rw [hloop.agrees_iff hstay hcalls hin hne]
            exact ⟨.inr, fun h => h.resolve_left htwo⟩

/-- With a budget of one turn a run completes, and its session is left in `Planning`. -/
theorem runAgent_not_agrees :
    ¬∀ (env : Env Unit) (std : AgentStd ℕ) (sessionId : String) (maxTurns : ℕ)
      (input context catalog : String) (policy : ClarificationPolicy ℕ) (contextBudget : ℕ),
      Agrees (max maxTurns 1) (runAgent env std (.new sessionId maxTurns) input context catalog
        policy contextBudget ()) := by
  intro h
  have hagrees := h (.constant (.ok .null) .failed) (.reading oneStepProposal) "s" 1 "open app" ""
    "" ⟨0⟩ 64
  have hrun : (runAgent (.constant (.ok .null) .failed) (.reading oneStepProposal) (.new "s" 1)
      "open app" "" "" ⟨0⟩ 64 ()).1 = .completed ∧
      (runAgent (.constant (.ok .null) .failed) (.reading oneStepProposal) (.new "s" 1)
        "open app" "" "" ⟨0⟩ 64 ()).2.session.state = .planning := by decide
  have hterminal := hagrees.terminal
  rw [hrun.1, hrun.2] at hterminal
  cases hterminal

end AuraLauncher.Agent
