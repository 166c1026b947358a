import AuraLauncher.Agent.Approval
import AuraLauncher.Lib.Machine

/-!
# The approval gate over a run

`approval.rs` of `launcher-ai`: what requests, decisions and cancellations with any ids, in any
order, can do at one gate. A plan is given for the last request that was minted, once, in time, and
to its own id. A cancellation takes what is pending out of the gate before it compares the ids, and
does not put it back.

* `ApprovalCall`, `approvals` — the calls, and the gate under them.
* `Open` — a request that was minted and not superseded, decided or cancelled since.
* `OneShot` — what is asked of a run.
* `NoForeignCancel`, `oneShot_iff` — the cancellations that do no harm, and the runs with them.
* `not_oneShot_cancel` — a request that is lost to the cancellation of another one.
-/

namespace AuraLauncher.Agent

open AuraLauncher.Lib

/-! ## The calls -/

/-- A call of the gate. -/
inductive ApprovalCall
  | request (sessionId userGoal : String) (steps : List PlanStep) (nowMs : Int64)
  | decide (requestId : String) (decision : Decision) (nowMs : Int64)
  | cancel (requestId : String)

namespace ApprovalCall

/-- The gate after the call. -/
def act : ApprovalCall → ApprovalGate → ApprovalGate
  | .request sessionId userGoal steps nowMs, gate =>
      (gate.request sessionId userGoal steps nowMs).2
  | .decide requestId decision nowMs, gate => (gate.decide requestId decision nowMs).2
  | .cancel requestId, gate => (gate.cancel requestId).2

/-- The request that the call mints. -/
def minted (gate : ApprovalGate) : ApprovalCall → Option ApprovalRequest
  | .request sessionId userGoal steps nowMs => (gate.request sessionId userGoal steps nowMs).1
  | _ => none

/-- The call asks for a request of a plan that needs one. -/
def Mints : ApprovalCall → Prop
  | .request _ _ steps _ => steps.any PlanStep.requiresApproval = true
  | _ => False

/-- The plan that the call is answered with. -/
def plan (gate : ApprovalGate) : ApprovalCall → Option (List PlanStep)
  | .decide requestId decision nowMs => (gate.decide requestId decision nowMs).1.toOption
  | _ => none

/-- A decision or a cancellation with another id than that of the request. -/
def Foreign (r : ApprovalRequest) : ApprovalCall → Prop
  | .request _ _ _ _ => False
  | .decide requestId _ _ | .cancel requestId => requestId ≠ r.requestId

/-- The call does not mint a request, and neither decides nor cancels this one. -/
def Spares (r : ApprovalRequest) : ApprovalCall → Prop
  | .request _ _ steps _ => ¬ steps.any PlanStep.requiresApproval = true
  | .decide requestId _ _ | .cancel requestId => requestId ≠ r.requestId

end ApprovalCall

/-- The gate under its calls. -/
def approvals : Machine ApprovalGate ApprovalCall where
  step gate call := some (call.act gate)

/-- A fresh gate after calls. -/
def afterCalls (ttlMs : Int64) (calls : List ApprovalCall) : ApprovalGate :=
  calls.foldl (fun gate call => call.act gate) (.new ttlMs)

/-- The request was minted in the run, and no call since then minted another one, decided it or
cancelled it. -/
def Open (ttlMs : Int64) (past : List ApprovalCall) (r : ApprovalRequest) : Prop :=
  ∃ earlier call since, past = earlier ++ call :: since ∧
    call.minted (afterCalls ttlMs earlier) = some r ∧ ∀ c ∈ since, c.Spares r

/-- What is asked of a run of a fresh gate. -/
structure OneShot (ttlMs : Int64) (calls : List ApprovalCall) : Prop where
  /-- A plan is given for an open request, to its own id, in time. -/
  authorised : ∀ past requestId decision nowMs after steps,
    past ++ .decide requestId decision nowMs :: after = calls →
      ((afterCalls ttlMs past).decide requestId decision nowMs).1 = .ok steps →
        ∃ r, Open ttlMs past r ∧ r.requestId = requestId ∧ ¬ r.expiresAtMs < nowMs ∧
          (r.Grants decision steps ∨ decision = .reject ∧ steps = [])
  /-- Between two plans a request is minted. -/
  once : ∀ past call mid call' after, past ++ call :: (mid ++ call' :: after) = calls →
    call.plan (afterCalls ttlMs past) ≠ none →
      call'.plan (afterCalls ttlMs (past ++ call :: mid)) ≠ none → ∃ c ∈ mid, c.Mints
  /-- A call with another id leaves a request that waits, and all of the gate, as it was. -/
  robust : ∀ past call after r, past ++ call :: after = calls →
    (afterCalls ttlMs past).pending = some ⟨r, false⟩ → call.Foreign r →
      call.act (afterCalls ttlMs past) = afterCalls ttlMs past
  /-- An open request can be decided in time. -/
  decidable : ∀ past r, past <+: calls → Open ttlMs past r → ∀ decision nowMs,
    ¬ r.expiresAtMs < nowMs → (afterCalls ttlMs past).pendingRequest nowMs = some r ∧
      ((afterCalls ttlMs past).decide r.requestId decision nowMs).1 = r.answer decision

/-- A cancellation has the id of the request that waits, if one does. -/
def NoForeignCancel (gate : ApprovalGate) (call : ApprovalCall) : Prop :=
  match call with
  | .cancel requestId => ∀ p, gate.pending = some p → p.decided = false →
      p.request.requestId = requestId
  | _ => True

/-! ## One call -/

section call

variable {gate : ApprovalGate} {call : ApprovalCall} {r : ApprovalRequest}

theorem decide_of_ne {p : Pending} {requestId : String} {decision : Decision} {nowMs : Int64}
    (hp : gate.pending = some p) (hid : p.request.requestId ≠ requestId) :
    gate.decide requestId decision nowMs = (.error .unknown, gate) := by
  unfold ApprovalGate.decide
  rw [hp]
  exact if_pos hid

/-- A cancellation takes out what is pending, whatever its id. -/
theorem pending_cancel (requestId : String) : (gate.cancel requestId).2.pending = none := by
  unfold ApprovalGate.cancel
  split
  · split_ifs <;> rfl
  · next hnone => exact hnone

theorem minted_eq_none (h : ¬ call.Mints) : call.minted gate = none := by
  cases call with
  | request sessionId userGoal steps nowMs =>
      have hsteps : ¬ steps.any PlanStep.requiresApproval = true := h
      unfold ApprovalCall.minted ApprovalGate.request
      dsimp only
      rw [if_pos hsteps]
  | decide requestId decision nowMs => rfl
  | cancel requestId => rfl

/-- A request that is minted waits. -/
theorem pending_of_minted (h : call.minted gate = some r) :
    (call.act gate).pending = some ⟨r, false⟩ := by
  cases call with
  | request sessionId userGoal steps nowMs =>
      unfold ApprovalCall.minted ApprovalGate.request at h
      unfold ApprovalCall.act ApprovalGate.request
      dsimp only at h ⊢
      split_ifs at h ⊢
      rw [← Option.some.inj h]
  | decide requestId decision nowMs => cases h
  | cancel requestId => cases h

/-- A request that waits after a call was minted by it, or waited before and was spared. -/
theorem pending_act (h : (call.act gate).pending = some ⟨r, false⟩) :
    call.minted gate = some r ∨ gate.pending = some ⟨r, false⟩ ∧ call.Spares r := by
  cases call with
  | request sessionId userGoal steps nowMs =>
      unfold ApprovalCall.act ApprovalGate.request at h
      unfold ApprovalCall.minted ApprovalGate.request
      dsimp only at h ⊢
      split_ifs at h ⊢ with hsteps
      · have hminted := congrArg Pending.request (Option.some.inj h)
        exact .inl (congrArg some hminted)
      · exact .inr ⟨h, hsteps⟩
  | decide requestId decision nowMs =>
      unfold ApprovalCall.act ApprovalGate.decide at h
      dsimp only at h
      split at h
      · next hnone =>
          rw [hnone] at h
          cases h
      · next p hp =>
          split_ifs at h with hid hdecided hexpired
          · rw [hp] at h
            obtain rfl := Option.some.inj h
            exact .inr ⟨hp, Ne.symm hid⟩
          · rw [hp] at h
            obtain rfl := Option.some.inj h
            cases hdecided
          · cases h
          · cases h
  | cancel requestId => cases (pending_cancel requestId).symm.trans h

/-- A plan is given when a request waits. -/
theorem pending_of_plan (h : call.plan gate ≠ none) : ∃ r, gate.pending = some ⟨r, false⟩ := by
  cases call with
  | request sessionId userGoal steps nowMs => exact absurd rfl h
  | cancel requestId => exact absurd rfl h
  | decide requestId decision nowMs =>
      unfold ApprovalCall.plan ApprovalGate.decide at h
      dsimp only at h
      cases hp : gate.pending with
      | none => simp [hp, Except.toOption] at h
      | some p =>
          obtain ⟨r, decided⟩ := p
          cases decided with
          | false => exact ⟨r, rfl⟩
          | true =>
              rw [hp] at h
              simp only [if_true] at h
              split_ifs at h <;> exact absurd rfl h

/-- After a plan was given no request waits. -/
theorem not_pending_of_plan (h : call.plan gate ≠ none) (r : ApprovalRequest) :
    (call.act gate).pending ≠ some ⟨r, false⟩ := by
  intro hwaits
  rcases pending_act hwaits with hminted | ⟨hp, hspares⟩
  · cases call with
    | request sessionId userGoal steps nowMs => exact h rfl
    | decide requestId decision nowMs => cases hminted
    | cancel requestId => cases hminted
  · cases call with
    | request sessionId userGoal steps nowMs => exact h rfl
    | cancel requestId => exact h rfl
    | decide requestId decision nowMs =>
        refine h ?_
        simp only [ApprovalCall.plan, decide_of_ne hp (Ne.symm hspares)]
        rfl

/-- **What keeps a request that waits**: a foreign call does when it is no cancellation. -/
theorem act_eq_iff (hp : gate.pending = some ⟨r, false⟩) :
    (call.Foreign r → call.act gate = gate) ↔ NoForeignCancel gate call := by
  cases call with
  | request sessionId userGoal steps nowMs => exact iff_of_true False.elim trivial
  | decide requestId decision nowMs =>
      refine iff_of_true (fun hforeign => ?_) trivial
      exact congrArg Prod.snd (decide_of_ne hp (Ne.symm hforeign))
  | cancel requestId =>
      constructor
      · rintro hkept p hp' -
        obtain rfl := Option.some.inj (hp.symm.trans hp')
        by_contra hid
        have hsame := congrArg ApprovalGate.pending (hkept (Ne.symm hid))
        cases (pending_cancel requestId).symm.trans (hsame.trans hp)
      · intro hno hforeign
        exact absurd (hno _ hp rfl).symm hforeign

/-- A call that spares a request that waits leaves it, if it is no foreign cancellation. -/
theorem pending_act_of_spares (hp : gate.pending = some ⟨r, false⟩) (hspares : call.Spares r)
    (hno : NoForeignCancel gate call) : (call.act gate).pending = some ⟨r, false⟩ := by
  have hsame : call.act gate = gate := by
    cases call with
    | request sessionId userGoal steps nowMs =>
        have hsteps : ¬ steps.any PlanStep.requiresApproval = true := hspares
        unfold ApprovalCall.act ApprovalGate.request
        dsimp only
        rw [if_pos hsteps]
    | decide requestId decision nowMs => exact (act_eq_iff hp).mpr hno hspares
    | cancel requestId => exact (act_eq_iff hp).mpr hno hspares
  rw [hsame, hp]

/-- The request that waits is the one that is pending in time. -/
theorem pendingRequest_eq {nowMs : Int64} (hp : gate.pending = some ⟨r, false⟩)
    (htime : ¬ r.expiresAtMs < nowMs) : gate.pendingRequest nowMs = some r := by
  unfold ApprovalGate.pendingRequest
  have hle : nowMs ≤ r.expiresAtMs := Int64.not_lt.mp htime
  simp [hp, Option.filter, hle]

theorem decide_eq_answer {decision : Decision} {nowMs : Int64}
    (hp : gate.pending = some ⟨r, false⟩) (htime : ¬ r.expiresAtMs < nowMs) :
    (gate.decide r.requestId decision nowMs).1 = r.answer decision := by
  unfold ApprovalGate.decide
  simp [hp, htime]

end call

/-! ## The run -/

section run

variable {ttlMs : Int64} {past calls : List ApprovalCall} {r : ApprovalRequest}

theorem afterCalls_append (past since : List ApprovalCall) :
    afterCalls ttlMs (past ++ since) =
      since.foldl (fun gate call => call.act gate) (afterCalls ttlMs past) := by
  unfold afterCalls
  rw [List.foldl_append]

theorem afterCalls_concat (past : List ApprovalCall) (call : ApprovalCall) :
    afterCalls ttlMs (past ++ [call]) = call.act (afterCalls ttlMs past) :=
  afterCalls_append past [call]

/-- A request that waits is open. -/
theorem open_of_pending (h : (afterCalls ttlMs past).pending = some ⟨r, false⟩) :
    Open ttlMs past r := by
  induction past using List.reverseRecOn with
  | nil => cases h
  | append_singleton past call ih =>
      rw [afterCalls_concat] at h
      rcases pending_act h with hminted | ⟨hp, hspares⟩
      · exact ⟨past, call, [], rfl, hminted, fun c hc => absurd hc List.not_mem_nil⟩
      · obtain ⟨earlier, mint, since, rfl, hminted, hsince⟩ := ih hp
        refine ⟨earlier, mint, since ++ [call], by simp, hminted, fun c hc => ?_⟩
        rcases List.mem_append.mp hc with hc | hc
        · exact hsince c hc
        · exact List.mem_singleton.mp hc ▸ hspares

/-- An open request waits, if no cancellation was foreign. -/
theorem pending_of_open
    (hno : ∀ past call after, past ++ call :: after = calls →
      NoForeignCancel (afterCalls ttlMs past) call) (hpast : past <+: calls)
    (h : Open ttlMs past r) : (afterCalls ttlMs past).pending = some ⟨r, false⟩ := by
  obtain ⟨earlier, mint, since, rfl, hminted, hsince⟩ := h
  induction since using List.reverseRecOn with
  | nil =>
      rw [afterCalls_concat]
      exact pending_of_minted hminted
  | append_singleton since call ih =>
      have hsplit : earlier ++ mint :: (since ++ [call]) = earlier ++ mint :: since ++ [call] := by
        simp
      rw [hsplit] at hpast ⊢
      rw [afterCalls_concat]
      obtain ⟨after, hafter⟩ := hpast
      refine pending_act_of_spares (ih ?_ fun c hc => hsince c (List.mem_append_left _ hc)) ?_ ?_
      · exact ⟨call :: after, by rw [← hafter]; simp⟩
      · exact hsince call (List.mem_append_right _ (List.mem_singleton_self _))
      · exact hno _ call after (by rw [← hafter]; simp)

/-- Without a new request nothing waits again. -/
theorem not_pending_of_not_mints {gate : ApprovalGate} {mid : List ApprovalCall}
    (hgate : ∀ r, gate.pending ≠ some ⟨r, false⟩) (hmid : ∀ c ∈ mid, ¬ c.Mints)
    (r : ApprovalRequest) :
    (mid.foldl (fun gate call => call.act gate) gate).pending ≠ some ⟨r, false⟩ := by
  induction mid generalizing gate with
  | nil => exact hgate r
  | cons call mid ih =>
      refine ih (fun r' hwaits => ?_) fun c hc => hmid c (List.mem_cons_of_mem _ hc)
      rcases pending_act hwaits with hminted | ⟨hp, -⟩
      · rw [minted_eq_none (hmid call List.mem_cons_self)] at hminted
        cases hminted
      · exact hgate r' hp

theorem authorised (past : List ApprovalCall) {requestId : String} {decision : Decision}
    {nowMs : Int64} {steps : List PlanStep}
    (hok : ((afterCalls ttlMs past).decide requestId decision nowMs).1 = .ok steps) :
    ∃ r, Open ttlMs past r ∧ r.requestId = requestId ∧ ¬ r.expiresAtMs < nowMs ∧
      (r.Grants decision steps ∨ decision = .reject ∧ steps = []) := by
  have hplan : (ApprovalCall.decide requestId decision nowMs).plan (afterCalls ttlMs past) ≠
      none := by
    simp [ApprovalCall.plan, hok, Except.toOption]
  obtain ⟨r, hp⟩ := pending_of_plan hplan
  exact ⟨r, open_of_pending hp, (decide_eq_ok_iff hp).mp hok⟩

theorem once (past mid : List ApprovalCall) {call call' : ApprovalCall}
    (hplan : call.plan (afterCalls ttlMs past) ≠ none)
    (hplan' : call'.plan (afterCalls ttlMs (past ++ call :: mid)) ≠ none) :
    ∃ c ∈ mid, c.Mints := by
  by_contra hno
  push Not at hno
  obtain ⟨r, hp⟩ := pending_of_plan hplan'
  rw [afterCalls_append] at hp
  exact not_pending_of_not_mints (not_pending_of_plan hplan) hno r hp

theorem along_iff : approvals.Along NoForeignCancel (.new ttlMs) calls ↔
    ∀ past call after, past ++ call :: after = calls →
      NoForeignCancel (afterCalls ttlMs past) call := by
  rw [approvals.along_iff_forall_split]
  have hrun : ∀ past, approvals.run (.new ttlMs) past = some (afterCalls ttlMs past) :=
    approvals.run_eq_foldl (fun _ _ => rfl) _
  simp only [hrun, Option.some.injEq, forall_eq']

end run

/-- **The gate over a run** of a fresh one: plans are given for open requests, once each, and the
requests that wait are kept and can be decided, exactly when no cancellation is of another id than
that of the request that waits. -/
theorem oneShot_iff (ttlMs : Int64) (calls : List ApprovalCall) :
    OneShot ttlMs calls ↔ approvals.Along NoForeignCancel (.new ttlMs) calls := by
  rw [along_iff]
  constructor
  · intro h past call after hsplit
    cases call with
    | request sessionId userGoal steps nowMs => trivial
    | decide requestId decision nowMs => trivial
    | cancel requestId =>
        rintro ⟨r, decided⟩ hp rfl
        exact (act_eq_iff hp).mp (h.robust past _ after r hsplit hp) _ hp rfl
  · intro hno
    refine ⟨fun past _ _ _ _ _ _ hok => authorised past hok,
      fun past _ mid _ _ _ hplan hplan' => once past mid hplan hplan',
      fun past call after r hsplit hp => (act_eq_iff hp).mpr (hno past call after hsplit),
      fun past r hpast hopen decision nowMs htime => ?_⟩
    have hp := pending_of_open hno hpast hopen
    exact ⟨pendingRequest_eq hp htime, decide_eq_answer hp htime⟩

/-- A request is minted, and the cancellation of another one makes it unknown to the gate. -/
theorem not_oneShot_cancel : ¬ OneShot defaultTtlMs
    [.request "s" "goal" [⟨"a", "act", .null, none, true⟩] 0, .cancel "apr-other-1"] := by
  intro h
  have hforeign : "apr-other-1" ≠ "apr-" ++ "s" ++ "-" ++ toString 1 := by decide
  have hkept := h.robust [.request "s" "goal" [⟨"a", "act", .null, none, true⟩] 0]
    (.cancel "apr-other-1") [] _ rfl rfl hforeign
  have hnone : (none : Option Pending) = some _ := congrArg ApprovalGate.pending hkept
  cases hnone

end AuraLauncher.Agent
