import AuraLauncher.Workflow.Scheduler.Approvals
import AuraLauncher.Workflow.Scheduler.Settle

/-!
# Stopping and starting over

What a call that is stopped and started again comes to, compared with the call that goes on. A
checkpoint holds the sets and the variables of the loop, and not the rest of the round: a resume
forms a new batch from the checkpoint, with newer variables and newer skips.

* `Call.next`, `Session.drive` — one way to run a call with a given host to its end.
* `Session.Comes` — a call comes to an outcome: some run of it returns that outcome, and no run
  returns another. `comes_promise` — every call comes to its promise.
* `Survives`, `Call.Reforms` — the variables of a checkpoint read back as they were; a fresh pass
  over a checkpoint forms again what was left of the round.
* `crash_resume_equivalent`, `pause_transparent` — under these, the process can be ended right after
  a checkpoint, and a call can be paused, without a change of the outcome.
* `crash_resume_differs`, `pause_differs` — a checkpoint in the middle of a batch, and a pause after
  a rejection, that lead elsewhere.
-/

namespace AuraLauncher.Workflow

open AuraLauncher.Lib

/-! ## Running a call to its end -/

namespace Call

/-- A next step of a call, its executions answered by the host. -/
def next (H : Host) (c : Call) : Act :=
  match c.phase with
  | .top => .poll false 0
  | .gate [] none _ => .poll false 0
  | .batch slots =>
      match slots.findIdx? fun slot => slot.2.isNone with
      | none => .advance 0
      | some i =>
          match slots[i]? with
          | some (n, _) => .execute i (H.execute n c.st.vars)
          | none => .advance 0
  | _ => .advance 0

variable {sj : SerdeJson} {g : WorkflowGraph} {decision : NodeId → Option ApprovalStatus}

theorem next_obliging (H : Host) (c : Call) : c.Obliging H (c.next H) := by
  obtain ⟨st, phase⟩ := c
  cases phase with
  | top => rfl
  | gate todo gatedPending toExecute =>
      cases todo with
      | cons n todo => trivial
      | nil => cases gatedPending <;> trivial
  | batch slots =>
      simp only [next]
      cases hidx : slots.findIdx? fun slot => slot.2.isNone with
      | none => trivial
      | some i =>
          cases hslot : slots[i]? with
          | none =>
              simp only [hslot]
              trivial
          | some slot =>
              simp only [hslot]
              rintro slots' n r ⟨⟩ hslot'
              rw [hslot] at hslot'
              cases hslot'
              rfl
  | request => trivial
  | apply => trivial
  | stopped => trivial

/-- The next step is possible until the call returns. -/
theorem next_isSome (H : Host) {c : Call} (hmem : ∀ id ∈ c.phase.inFlight, id ∈ g.ids)
    (hrun : ∀ stop, c.phase ≠ .stopped stop) : (c.step sj g decision (c.next H)).isSome := by
  obtain ⟨st, phase⟩ := c
  cases phase with
  | top => rfl
  | gate todo gatedPending toExecute =>
      cases todo with
      | cons n todo => rfl
      | nil => cases gatedPending <;> rfl
  | request => rfl
  | batch slots =>
      simp only [next]
      cases hidx : slots.findIdx? fun slot => slot.2.isNone with
      | none =>
          have hall : slots.all (fun slot => slot.2.isSome) = true := by
            rw [List.findIdx?_eq_none_iff] at hidx
            rw [List.all_eq_true]
            intro slot hslot
            simpa [Option.isNone_iff_eq_none, Option.isSome_iff_ne_none] using hidx slot hslot
          simp [step, collect, hall]
      | some i =>
          obtain ⟨hi, hnone, -⟩ := List.findIdx?_eq_some_iff_getElem.mp hidx
          rcases hslot : slots[i] with ⟨n, r⟩
          have hr : r = none := by simpa [hslot] using hnone
          have hget : slots[i]? = some (n, none) := by
            rw [List.getElem?_eq_getElem hi, hslot, hr]
          simp [step, hget]
  | apply out =>
      cases out with
      | nil => rfl
      | cons head rest =>
          rcases @not_stuck sj g decision _ hmem hrun with h | h | ⟨i, h⟩
          · exact absurd (h false 0) (by simp [step])
          · exact h 0
          · exact absurd (h (.ok .null)) (by simp [step])
  | stopped stop => exact absurd rfl (hrun stop)

end Call

/-- Where a call finds its cancel flag set, and what it does then. -/
theorem Call.paused_of_moves {sj : SerdeJson} {g : WorkflowGraph}
    {decision : NodeId → Option ApprovalStatus} {c c' : Call} {eff : Effect} {nowMs : ℤ}
    (hm : Call.Moves sj g decision c (.poll true nowMs) c' eff) :
    c' = ⟨c.st, .stopped .paused⟩ ∧ eff = .checkpoint .paused nowMs ∧
      (c.phase = .top ∨ ∃ toExecute, c.phase = .gate [] none toExecute) := by
  cases hm with
  | pauseTop => exact ⟨rfl, rfl, .inl rfl⟩
  | pauseBatch st nowMs toExecute => exact ⟨rfl, rfl, .inr ⟨toExecute, rfl⟩⟩

/-- The outcome of a call that has returned. -/
def Session.outcome (s : Session) : Option Outcome :=
  match s.call with
  | some (_, ⟨st, .stopped stop⟩) => some (stop, st)
  | _ => none

/-- The host of a call whose executor is `f` and whose approvals are those of `world`. -/
def Host.fixed (f : WorkflowNode → VariableStore → StepResult) (world : World) (args : CallArgs) :
    Host :=
  ⟨f, gateVerdict (world.decision args)⟩

/-- The requests of a call change no verdict. -/
theorem verdict_perform (w : World) (args : CallArgs) (st : LoopState) (eff : Effect)
    (n : WorkflowNode) :
    gateVerdict ((w.perform args st eff).decision args) n = gateVerdict (w.decision args) n := by
  unfold gateVerdict World.decision
  rcases w.approvals_perform args st eff with hsame | ⟨m, nowMs, -, -, hreq⟩
  · rw [hsame]
  · rw [hreq]
    rcases ApprovalStore.decisionFor_request w.approvals (approvalKey args.runId m.nodeId)
      args.runId m.nodeId m.actionRef nowMs args.runId n.nodeId with hsame | ⟨hnone, hpend⟩
    · rw [hsame]
    · rw [hnone, hpend]
      cases args.approvals <;> rfl

namespace Session

variable {sj : SerdeJson} {H : Host} {args : CallArgs} {s s' : Session} {a : SessionAct}

/-- The steps of a call whose environment is the host. -/
def Obliging (H : Host) (s : Session) : SessionAct → Prop
  | .tick a => ∀ args c, s.call = some (args, c) → c.Obliging H a
  | _ => False

/-- The call with `args` is under way, and the gate decides and has decided as the host says. -/
structure Steady (sj : SerdeJson) (H : Host) (args : CallArgs) (s : Session) : Prop where
  call : ∃ c, s.call = some (args, c)
  verdict : ∀ n, gateVerdict (s.world.decision args) n = H.verdict n
  admitted : ∀ c, s.call = some (args, c) → ∀ n ∈ c.phase.admitted, H.verdict n = .pass
  sound : s.Sound sj args.graph args.runId

/-- **The step lemma.** A step with the host keeps its verdicts and what the call comes to. -/
theorem steady_of_moves (hnd : args.graph.ids.Nodup) (hobliging : Obliging H s a)
    (hm : Moves sj s a s') (h : Steady sj H args s) :
    Steady sj H args s' ∧ ∀ c, s.call = some (args, c) →
      ∃ c', s'.call = some (args, c') ∧
        promise sj args.graph H c' = promise sj args.graph H c := by
  cases hm with
  | tick world log args' c a c' eff hm =>
      obtain ⟨c₀, hcall⟩ := h.call
      cases hcall
      refine ⟨⟨⟨c', rfl⟩, fun n => ?_, ?_, sound_of_moves hnd
        (show SessionAct.Serves _ _ (.tick a) from trivial) (.tick _ _ _ _ _ _ _ hm) h.sound⟩,
        ?_⟩
      · rw [verdict_perform]
        exact h.verdict n
      · rintro c'' ⟨⟩ n hn
        rcases Call.admitted_of_moves hm hn with hn | hpass
        · exact h.admitted c rfl n hn
        · rw [← h.verdict, gateVerdict_of_pass hpass]
      · rintro c'' ⟨⟩
        exact ⟨c', rfl, promise_of_moves hm h.verdict (hobliging args c rfl)⟩
  | start => cases hobliging
  | crash => cases hobliging
  | op => cases hobliging
  | write => cases hobliging

/-- The call under way comes to an outcome, with the host as its environment: some run returns it,
and no run returns another. -/
def Comes (sj : SerdeJson) (H : Host) (s : Session) (outcome : Outcome) : Prop :=
  (∃ acts t, (session sj).Along (Obliging H) s acts ∧ (session sj).run s acts = some t ∧
    t.outcome = some outcome) ∧
  ∀ acts t outcome', (session sj).Along (Obliging H) s acts → (session sj).run s acts = some t →
    t.outcome = some outcome' → outcome' = outcome

/-- What a run with the host keeps. -/
theorem steady_of_run (hnd : args.graph.ids.Nodup) (h : Steady sj H args s) {c : Call}
    (hcall : s.call = some (args, c)) {acts : List SessionAct} {t : Session}
    (halong : (session sj).Along (Obliging H) s acts) (hrun : (session sj).run s acts = some t) :
    Steady sj H args t ∧ ∃ c', t.call = some (args, c') ∧
      promise sj args.graph H c' = promise sj args.graph H c := by
  refine (session sj).run_inv (I := fun t => Steady sj H args t ∧ ∃ c', t.call = some (args, c') ∧
    promise sj args.graph H c' = promise sj args.graph H c) ?_ ⟨h, c, hcall, rfl⟩ halong hrun
  rintro s a s' ⟨hsteady, c₀, hcall₀, hpromise⟩ hobliging hstep
  obtain ⟨hsteady', hgo⟩ := steady_of_moves hnd hobliging (moves_of_step hstep) hsteady
  obtain ⟨c', hcall', hpromise'⟩ := hgo c₀ hcall₀
  exact ⟨hsteady', c', hcall', hpromise'.trans hpromise⟩

/-- **A call comes to its promise.** -/
theorem comes_promise (hnd : args.graph.ids.Nodup) (h : Steady sj H args s) {c : Call}
    (hcall : s.call = some (args, c)) : Comes sj H s (promise sj args.graph H c) := by
  have hpromised : ∀ acts t outcome, (session sj).Along (Obliging H) s acts →
      (session sj).run s acts = some t → t.outcome = some outcome →
      outcome = promise sj args.graph H c := by
    intro acts t outcome halong hrun ht
    obtain ⟨-, c', hcall', hpromise⟩ := steady_of_run hnd h hcall halong hrun
    obtain ⟨st, phase⟩ := c'
    rw [← hpromise]
    unfold Session.outcome at ht
    rw [hcall'] at ht
    cases phase with
    | stopped stop =>
        cases ht
        rfl
    | _ => cases ht
  have hstep : ∀ s a s', Steady sj H args s → Obliging H s a → (session sj).step s a = some s' →
      Steady sj H args s' ∧ s'.rank args.graph < s.rank args.graph := by
    intro s a s' hI hobliging hstep
    have hm := moves_of_step hstep
    refine ⟨(steady_of_moves hnd hobliging hm hI).1, ?_⟩
    cases a with
    | tick a =>
        have hrank := rank_of_moves hnd rfl hm hI.sound
        simp only [SessionAct.isTick, if_true] at hrank
        omega
    | _ => cases hobliging
  have hprog : ∀ s, Steady sj H args s → ¬ s.outcome.isSome = true →
      ∃ a s', Obliging H s a ∧ (session sj).step s a = some s' := by
    intro s hI hnot
    obtain ⟨⟨st, phase⟩, hcall⟩ := hI.call
    have hsound := (hI.sound args _ hcall).2.2
    have hrun : ∀ stop, phase ≠ .stopped stop := by
      rintro stop rfl
      exact hnot (by simp [Session.outcome, hcall])
    have hsome : (Call.step sj args.graph (s.world.decision args) ⟨st, phase⟩
        (Call.next H ⟨st, phase⟩)).isSome :=
      Call.next_isSome H (fun id hid => (hsound.ready id hid).1) hrun
    obtain ⟨⟨c', eff⟩, hstep⟩ := Option.isSome_iff_exists.mp hsome
    refine ⟨_, _, ?_, step_tick hcall hstep⟩
    intro args' c'' hcall''
    rw [hcall] at hcall''
    cases hcall''
    exact Call.next_obliging H _
  obtain ⟨acts, t, hrun, halong, hout⟩ := (session sj).exists_run_to hstep hprog s h
  obtain ⟨outcome, ht⟩ := Option.isSome_iff_exists.mp hout
  have heq := hpromised acts t outcome halong hrun ht
  exact ⟨⟨acts, t, halong, hrun, heq ▸ ht⟩, hpromised⟩

end Session

/-! ## Checkpoints -/

/-- The variables read back from a checkpoint as they were. -/
def Survives (sj : SerdeJson) (vars : VariableStore) : Prop :=
  VariableStore.ofSnapshot ((sj.reread vars.snapshot).getD .null) = vars

/-- A fresh pass over the state of a checkpoint forms again what was left of the round: the results
still to be applied, or the stop the call returned with. -/
def Call.Reforms (sj : SerdeJson) (g : WorkflowGraph) (H : Host) (c : Call) : Prop :=
  match c.phase with
  | .apply rest =>
      (∃ toExecute, regate sj g H c.st = ⟨c.st, none, toExecute⟩ ∧
        H.results c.st.vars toExecute = rest) ∨
      (rest = [] ∧ c.st.mark sj g = c.st)
  | .stopped (.failed id e) =>
      ∃ toExecute rest, regate sj g H c.st = ⟨c.st, none, toExecute⟩ ∧
        H.results c.st.vars toExecute = (id, .error e) :: rest
  | .stopped (.awaitingApproval id) => ∃ toExecute, regate sj g H c.st = ⟨c.st, some id, toExecute⟩
  | _ => True

/-- Where a fresh pass forms the rest of the round again, the loop started over comes to what the
call comes to. -/
theorem settle_of_reforms {sj : SerdeJson} {g : WorkflowGraph} {H : Host}
    {decision : NodeId → Option ApprovalStatus} {c₀ c : Call} {a : Act} {status : RunStatus}
    {nowMs : ℤ} (hm : Call.Moves sj g decision c₀ a c (.checkpoint status nowMs))
    (hobliging : c₀.Obliging H a) (h : c.Reforms sj g H) :
    settle sj g H c.st = promise sj g H c := by
  cases hm with
  | pauseTop => cases hobliging
  | pauseBatch => cases hobliging
  | finish st nowMs hrun hrem => exact settle_finished hrem
  | stall st nowMs id rest hrun hrem hprog =>
      obtain ⟨toExecute, rest', hgate, hres⟩ := h
      rw [settle_of_regate hgate, hres]
      rfl
  | await st nowMs id toExecute =>
      obtain ⟨toExecute', hgate⟩ := h
      exact settle_of_regate_waits hgate
  | applyOk st nowMs id output rest node hnode =>
      rcases h with ⟨toExecute, hgate, hres⟩ | ⟨rfl, hmark⟩
      · rw [settle_of_regate hgate, hres]
        rfl
      · show settle sj g H _ = settle sj g H (LoopState.mark sj g _)
        rw [hmark]
  | applyErr st nowMs id e rest node hnode =>
      obtain ⟨toExecute, rest', hgate, hres⟩ := h
      rw [settle_of_regate hgate, hres]
      rfl

namespace Session

variable {sj : SerdeJson} {H : Host} {args : CallArgs}

/-- A call that starts is steady. -/
theorem steady_of_start {s s' : Session} (hverdict : ∀ n, gateVerdict (s.world.decision args) n =
    H.verdict n) (hstep : (session sj).step s (.start args) = some s') : Steady sj H args s' := by
  cases moves_of_step hstep with
  | start =>
      refine ⟨⟨_, rfl⟩, hverdict, ?_, ?_⟩
      · rintro c ⟨⟩ n hn
        cases hn
      · rintro args' c ⟨⟩
        exact ⟨rfl, rfl, Call.sound_of_idle rfl rfl⟩

/-- With an executor that is a function a call stays steady from its start on. -/
theorem steady_of_started {f : WorkflowNode → VariableStore → StepResult} {world : World}
    (hnd : args.graph.ids.Nodup) {s t : Session} {acts : List SessionAct}
    (hstart : (session sj).step ⟨world, none, []⟩ (.start args) = some s)
    (halong : (session sj).Along (Obliging (.fixed f world args)) s acts)
    (hrun : (session sj).run s acts = some t) : Steady sj (.fixed f world args) args t := by
  have hsteady : Steady sj (.fixed f world args) args s := steady_of_start (fun _ => rfl) hstart
  obtain ⟨c, hcall⟩ := hsteady.call
  exact (steady_of_run hnd hsteady hcall halong hrun).1

/-- A call that starts comes to what the loop comes to from the stored state. -/
theorem exists_start (hnd : args.graph.ids.Nodup) {s : Session} (hret : returned s.call = true)
    (hverdict : ∀ n, gateVerdict (s.world.decision args) n = H.verdict n) {st : LoopState}
    (hstored : s.stored sj args.graph args.runId = st) :
    ∃ s', (session sj).step s (.start args) = some s' ∧
      Comes sj H s' (settle sj args.graph H st) := by
  have hstep : (session sj).step s (.start args) =
      some { s with call := some (args, ⟨st, .top⟩) } := by
    simp [session, step, hret, hstored]
  exact ⟨_, hstep, comes_promise hnd (steady_of_start hverdict hstep) rfl⟩

end Session

/-- The step `a` of the call under way in `t` writes a checkpoint, after which the call is `c`. -/
def Session.Writes (sj : SerdeJson) (args : CallArgs) (t : Session) (a : Act) (c : Call) : Prop :=
  ∃ c₀ status nowMs, t.call = some (args, c₀) ∧
    c₀.step sj args.graph (t.world.decision args) a = some (c, .checkpoint status nowMs)

/-! ## Driving a call -/

theorem survives_withoutFloats (vars : VariableStore) : Survives .withoutFloats vars :=
  VariableStore.ofSnapshot_snapshot vars

/-- A fresh pass forms the rest of a batch again when the runnable nodes are admitted and have the
results still to be applied. -/
theorem Call.reforms_of_results {sj : SerdeJson} {g : WorkflowGraph} {H : Host} {c : Call}
    {rest : List (NodeId × StepResult)} (hphase : c.phase = .apply rest)
    (hpass : ∀ n ∈ runnable sj g c.st, H.verdict n = .pass)
    (hres : H.results c.st.vars (runnable sj g c.st) = rest) : c.Reforms sj g H := by
  unfold Call.Reforms
  rw [hphase]
  exact .inl ⟨runnable sj g c.st, gateAll_of_pass hpass c.st [], hres⟩

namespace Session

/-- The session after at most `k` more steps of its call with the host. -/
def drive (sj : SerdeJson) (H : Host) : ℕ → Session → Session
  | 0, s => s
  | k + 1, s =>
      match s.call with
      | none => s
      | some (_, c) =>
          match step sj s (.tick (c.next H)) with
          | none => s
          | some s' => drive sj H k s'

/-- The session in which a call with `args` has just started. -/
def started (world : World) (args : CallArgs) : Session :=
  ⟨world, some (args, ⟨stored .withoutFloats ⟨world, none, []⟩ args.graph args.runId, .top⟩), []⟩

/-- The session after at most `k` steps of a call with `args` and the executor `f`. -/
def driven (f : WorkflowNode → VariableStore → StepResult) (world : World) (args : CallArgs)
    (k : ℕ) : Session :=
  drive .withoutFloats (.fixed f world args) k (started world args)

/-- Whether the step `a` of the call under way writes a checkpoint. -/
def isCheckpoint (sj : SerdeJson) (s : Session) (a : Act) : Bool :=
  match s.call with
  | none => false
  | some (args, c) =>
      match c.step sj args.graph (s.world.decision args) a with
      | some (_, .checkpoint _ _) => true
      | _ => false

variable {sj : SerdeJson} {H : Host} {args : CallArgs} {s : Session} {outcome : Outcome}

theorem exists_run_drive (sj : SerdeJson) (H : Host) (k : ℕ) (s : Session) :
    ∃ acts, (session sj).Along (Obliging H) s acts ∧
      (session sj).run s acts = some (drive sj H k s) := by
  induction k generalizing s with
  | zero => exact ⟨[], trivial, rfl⟩
  | succ k ih =>
      obtain ⟨world, call, log⟩ := s
      cases call with
      | none => exact ⟨[], trivial, rfl⟩
      | some call =>
          obtain ⟨args, c⟩ := call
          simp only [drive]
          cases hstep : step sj ⟨world, some (args, c), log⟩ (.tick (c.next H)) with
          | none => exact ⟨[], trivial, rfl⟩
          | some s' =>
              obtain ⟨acts, halong, hrun⟩ := ih s'
              refine ⟨.tick (c.next H) :: acts, ⟨?_, fun r hr => ?_⟩,
                (session sj).run_cons_eq_some.mpr ⟨s', hstep, hrun⟩⟩
              · rintro args' c' ⟨⟩
                exact c.next_obliging H
              · obtain rfl : s' = r := Option.some.inj (hstep.symm.trans hr)
                exact halong

/-- What `drive` returns is what the call comes to. -/
theorem Comes.eq_of_drive (h : Comes sj H s outcome) {β : Type} {p : Outcome → β} {b : β} {k : ℕ}
    (hp : (drive sj H k s).outcome.map p = some b) : p outcome = b := by
  obtain ⟨acts, halong, hrun⟩ := exists_run_drive sj H k s
  obtain ⟨outcome', hout, rfl⟩ := Option.map_eq_some_iff.mp hp
  rw [h.2 acts _ outcome' halong hrun hout]

/-- A run that drives a call. -/
theorem exists_run_driven (f : WorkflowNode → VariableStore → StepResult) (world : World)
    (hnd : args.graph.ids.Nodup) (k : ℕ) :
    ∃ acts c, (session .withoutFloats).Along (Obliging (.fixed f world args)) (started world args)
        acts ∧
      (session .withoutFloats).run (started world args) acts = some (driven f world args k) ∧
      (driven f world args k).call = some (args, c) := by
  obtain ⟨acts, halong, hrun⟩ :=
    exists_run_drive .withoutFloats (.fixed f world args) k (started world args)
  have hstart : (session .withoutFloats).step ⟨world, none, []⟩ (.start args) =
      some (started world args) := rfl
  obtain ⟨c, hcall⟩ := (steady_of_started hnd hstart halong hrun).call
  exact ⟨acts, c, halong, hrun, hcall⟩

theorem exists_writes {c₀ : Call} {a : Act} (hcall : s.call = some (args, c₀))
    (h : s.isCheckpoint sj a = true) :
    ∃ c s', Writes sj args s a c ∧ (session sj).step s (.tick a) = some s' ∧
      s'.call = some (args, c) := by
  simp only [isCheckpoint, hcall] at h
  split at h
  · next c status nowMs hstep =>
      exact ⟨c, _, ⟨c₀, status, nowMs, hcall, hstep⟩, step_tick hcall hstep, rfl⟩
  · cases h

end Session

/-! ## Crashes -/

/-- **Crash and resume.** Take a graph that passes the validator, an executor that is a function of
the node and the variables, any stores, and a call that is not cancelled. Let the process end right
after a checkpoint of the call, and let a new call resume. If the variables of the checkpoint read
back as they were, and a fresh pass over the checkpoint forms again what was left of the round, the
interrupted call and the one that resumes come to the same outcome, with the same sets and the same
variables. -/
theorem crash_resume_equivalent (sj : SerdeJson) (f : WorkflowNode → VariableStore → StepResult)
    (world : World) (args : CallArgs) (s₁ : Session) (acts : List SessionAct) (t : Session)
    (a : Act) (c : Call) (s : Session) (hvalid : validate args.graph = .ok ())
    (hstart : (session sj).step ⟨world, none, []⟩ (.start args) = some s₁)
    (hobliging : (session sj).Along (Session.Obliging (.fixed f world args)) s₁ (acts ++ [.tick a]))
    (hrun : (session sj).run s₁ acts = some t) (hwrites : Session.Writes sj args t a c)
    (hstep : (session sj).step t (.tick a) = some s) (hsurvives : Survives sj c.st.vars)
    (hreforms : c.Reforms sj args.graph (.fixed f world args)) :
    ∃ s₂ outcome, (session sj).run s [.crash, .start args] = some s₂ ∧
      Session.Comes sj (.fixed f world args) s outcome ∧
      Session.Comes sj (.fixed f world args) s₂ outcome := by
  have hnd := ((validate_ok_iff_isDag args.graph).mp hvalid).nodup
  obtain ⟨halong, hlast, -⟩ := ((session sj).along_append hrun).mp hobliging
  have hsteady := Session.steady_of_started hnd hstart halong hrun
  have hsteady' := (Session.steady_of_moves hnd hlast (Session.moves_of_step hstep) hsteady).1
  obtain ⟨c₀, status, nowMs, hcall₀, hcstep⟩ := hwrites
  obtain rfl := Option.some.inj ((Session.step_tick hcall₀ hcstep).symm.trans hstep)
  let s' : Session := ⟨t.world.perform args c.st (.checkpoint status nowMs), none,
    t.log ++ Effect.executions args.runId c₀.st.vars (.checkpoint status nowMs)⟩
  have hstored : s'.stored sj args.graph args.runId = c.st := by
    rw [Session.stored_checkpoint, hsurvives]
  obtain ⟨s₂, hs₂, hcomes⟩ := Session.exists_start hnd (s := s') rfl hsteady'.verdict hstored
  refine ⟨s₂, promise sj args.graph (.fixed f world args) c, ?_,
    Session.comes_promise hnd hsteady' rfl, ?_⟩
  · exact (session sj).run_cons_eq_some.mpr
      ⟨s', rfl, (session sj).run_cons_eq_some.mpr ⟨s₂, hs₂, rfl⟩⟩
  · rwa [← settle_of_reforms (Call.moves_of_step hcstep) (hlast args c₀ hcall₀) hreforms]

/-- An executor that does nothing. -/
def idle : WorkflowNode → VariableStore → StepResult := fun _ _ => .ok .null

/-- The arguments of a call on `forkGraph`. -/
def forkArgs : CallArgs := ⟨forkGraph, "run", false⟩

/-- The node of a last result still to be applied, when it is `null`. -/
def lastNull : Phase → Option NodeId
  | .apply [(id, .ok .null)] => some id
  | _ => none

theorem apply_of_lastNull {phase : Phase} {id : NodeId} (h : lastNull phase = some id) :
    phase = .apply [(id, .ok .null)] := by
  unfold lastNull at h
  split at h
  · cases h
    rfl
  · cases h

/-- The theorem at the checkpoint of `b`, with the result of `c` still to be applied. -/
theorem crash_resume_equivalent_fork :
    ∃ c s s₂ outcome, Session.Writes .withoutFloats forkArgs
        (.driven idle ⟨.empty, .empty⟩ forkArgs 14) (.advance 0) c ∧
      c.phase = .apply [("c", .ok .null)] ∧
      (session .withoutFloats).step (.driven idle ⟨.empty, .empty⟩ forkArgs 14)
        (.tick (.advance 0)) = some s ∧
      (session .withoutFloats).run s [.crash, .start forkArgs] = some s₂ ∧
      Session.Comes .withoutFloats (.fixed idle ⟨.empty, .empty⟩ forkArgs) s outcome ∧
      Session.Comes .withoutFloats (.fixed idle ⟨.empty, .empty⟩ forkArgs) s₂ outcome := by
  obtain ⟨acts, c₀, halong, hrun, hcall₀⟩ :=
    Session.exists_run_driven idle ⟨.empty, .empty⟩ (show forkArgs.graph.ids.Nodup by decide) 14
  obtain ⟨c, s, hwrites, hstep, hcall⟩ := Session.exists_writes hcall₀
    (show Session.isCheckpoint .withoutFloats _ (.advance 0) = true by decide +kernel)
  have hprobe : ∀ s ∈ (session .withoutFloats).step (.driven idle ⟨.empty, .empty⟩ forkArgs 14)
      (.tick (.advance 0)), s.AtCall fun args c => lastNull c.phase = some "c" ∧
        runnable .withoutFloats args.graph c.st = [⟨"c", "cmd:c", [], none, false⟩] := by
    decide +kernel
  obtain ⟨hlast, hrunnable⟩ := hprobe s hstep forkArgs c hcall
  have hphase := apply_of_lastNull hlast
  have hreforms : c.Reforms .withoutFloats forkArgs.graph
      (.fixed idle ⟨.empty, .empty⟩ forkArgs) := by
    refine Call.reforms_of_results hphase ?_ ?_
    · rw [hrunnable]
      decide
    · rw [hrunnable]
      rfl
  obtain ⟨s₂, outcome, hrun₂, hcomes, hcomes₂⟩ := crash_resume_equivalent .withoutFloats idle
    ⟨.empty, .empty⟩ forkArgs _ acts _ (.advance 0) c s rfl rfl
    (((session .withoutFloats).along_append hrun).mpr ⟨halong, fun _ _ _ => trivial,
      fun _ _ => trivial⟩) hrun hwrites hstep (survives_withoutFloats _) hreforms
  exact ⟨c, s, s₂, outcome, hwrites, hphase, hstep, hrun₂, hcomes, hcomes₂⟩

/-- `forkGraph` with variables: `a` and `b` set `z`, and `c` sets `w`. -/
def copyArgs : CallArgs where
  graph := { forkGraph with
    nodes := [⟨"a", "cmd:a", ["z"], none, false⟩, ⟨"b", "cmd:b", ["z"], none, false⟩,
      ⟨"c", "cmd:c", ["w"], none, false⟩] }
  runId := "run"
  approvals := false

/-- The step `c` returns the variable `z`, the other steps their own id. -/
def copying (n : WorkflowNode) (vars : VariableStore) : StepResult :=
  if n.nodeId = "c" then .ok ((vars.get "z").getD .null) else .ok (.string n.nodeId)

/-- The text of the variable `w` that a call leaves. -/
def leftText (outcome : Outcome) : Option String :=
  (outcome.2.vars.get "w").map (Json.text .withoutFloats)

/-- In the batch of `b` and `c`, the step `c` reads the `z` of `a`. When the process ends after the
checkpoint of `b`, the resume executes `c` once more, and it reads the `z` of `b`. -/
theorem crash_resume_differs :
    ¬ ∀ (f : WorkflowNode → VariableStore → StepResult) (world : World) (args : CallArgs)
      (s₁ : Session) (acts : List SessionAct) (t : Session) (a : Act) (c : Call) (s : Session),
      validate args.graph = .ok () →
      (session .withoutFloats).step ⟨world, none, []⟩ (.start args) = some s₁ →
      (session .withoutFloats).Along (Session.Obliging (.fixed f world args)) s₁
        (acts ++ [.tick a]) →
      (session .withoutFloats).run s₁ acts = some t →
      Session.Writes .withoutFloats args t a c →
      (session .withoutFloats).step t (.tick a) = some s →
      ∃ s₂ outcome, (session .withoutFloats).run s [.crash, .start args] = some s₂ ∧
        Session.Comes .withoutFloats (.fixed f world args) s outcome ∧
        Session.Comes .withoutFloats (.fixed f world args) s₂ outcome := by
  intro h
  obtain ⟨acts, c₀, halong, hrun, hcall₀⟩ :=
    Session.exists_run_driven copying ⟨.empty, .empty⟩ (show copyArgs.graph.ids.Nodup by decide) 14
  obtain ⟨c, s, hwrites, hstep, hcall⟩ := Session.exists_writes hcall₀
    (show Session.isCheckpoint .withoutFloats _ (.advance 0) = true by decide +kernel)
  obtain ⟨s₂, outcome, hrun₂, hcomes, hcomes₂⟩ := h copying ⟨.empty, .empty⟩ copyArgs _ acts _
    (.advance 0) c s rfl rfl (((session .withoutFloats).along_append hrun).mpr
      ⟨halong, fun _ _ _ => trivial, fun _ _ => trivial⟩) hrun hwrites hstep
  have hon : ∀ s ∈ (session .withoutFloats).step (.driven copying ⟨.empty, .empty⟩ copyArgs 14)
      (.tick (.advance 0)), (s.drive .withoutFloats (.fixed copying ⟨.empty, .empty⟩ copyArgs)
        5).outcome.map leftText = some (some "\"a\"") := by
    decide +kernel
  have hover : ∀ s ∈ (session .withoutFloats).step (.driven copying ⟨.empty, .empty⟩ copyArgs 14)
      (.tick (.advance 0)), ∀ s₂ ∈ (session .withoutFloats).run s [.crash, .start copyArgs],
        (s₂.drive .withoutFloats (.fixed copying ⟨.empty, .empty⟩ copyArgs)
          15).outcome.map leftText = some (some "\"b\"") := by
    decide +kernel
  have heq : some "\"a\"" = some "\"b\"" :=
    (hcomes.eq_of_drive (hon s hstep)).symm.trans
      (hcomes₂.eq_of_drive (hover s hstep s₂ hrun₂))
  revert heq
  decide

/-! ## Pauses -/

/-- Where the flag is polled, a call comes to what the loop comes to from its state, when in front
of a batch the runnable nodes are just those admitted to it. -/
theorem promise_of_pause {sj : SerdeJson} {g : WorkflowGraph} {H : Host} {c : Call}
    (hphase : c.phase = .top ∨ ∃ toExecute, c.phase = .gate [] none toExecute)
    (hadmits : ∀ toExecute, c.phase = .gate [] none toExecute → runnable sj g c.st = toExecute)
    (hpass : ∀ n ∈ c.phase.admitted, H.verdict n = .pass) :
    promise sj g H c = settle sj g H c.st := by
  obtain ⟨st, phase⟩ := c
  rcases hphase with rfl | ⟨toExecute, rfl⟩
  · rfl
  · have hregate : regate sj g H st = ⟨st, none, toExecute⟩ := by
      rw [regate, hadmits toExecute rfl]
      exact gateAll_of_pass hpass st []
    rw [settle_of_regate hregate]
    rfl

/-- **Pause and resume.** Take a graph that passes the validator, an executor that is a function of
the node and the variables, and any stores. Let a call find the cancel flag set, at the top of the
loop or just before a batch, and let a new call resume. If the variables of the checkpoint read back
as they were, and in front of a batch the runnable nodes are just those admitted to it, the new call
comes to the same outcome as the call would have that was not paused, with the same sets and the
same variables. -/
theorem pause_transparent (sj : SerdeJson) (f : WorkflowNode → VariableStore → StepResult)
    (world : World) (args : CallArgs) (s₁ : Session) (acts : List SessionAct) (s : Session)
    (c : Call) (nowMs : ℤ) (s₂ : Session) (hvalid : validate args.graph = .ok ())
    (hstart : (session sj).step ⟨world, none, []⟩ (.start args) = some s₁)
    (hobliging : (session sj).Along (Session.Obliging (.fixed f world args)) s₁ acts)
    (hrun : (session sj).run s₁ acts = some s) (hcall : s.call = some (args, c))
    (hpause : (session sj).step s (.tick (.poll true nowMs)) = some s₂)
    (hsurvives : Survives sj c.st.vars)
    (hadmits : ∀ toExecute, c.phase = .gate [] none toExecute →
      runnable sj args.graph c.st = toExecute) :
    s₂.outcome = some (.paused, c.st) ∧
      ∃ s₃ outcome, (session sj).step s₂ (.start args) = some s₃ ∧
        Session.Comes sj (.fixed f world args) s outcome ∧
        Session.Comes sj (.fixed f world args) s₃ outcome := by
  have hnd := ((validate_ok_iff_isDag args.graph).mp hvalid).nodup
  have hsteady := Session.steady_of_started hnd hstart hobliging hrun
  have hcomes := Session.comes_promise hnd hsteady hcall
  cases Session.moves_of_step hpause with
  | tick world' log args' c₀ a c' eff hm =>
      cases hcall
      obtain ⟨rfl, rfl, hphase⟩ := Call.paused_of_moves hm
      have hpromise := promise_of_pause hphase hadmits (hsteady.admitted c rfl)
      have hstored : Session.stored sj ⟨world'.perform args c.st (.checkpoint .paused nowMs),
          some (args, ⟨c.st, .stopped .paused⟩), log ++ []⟩ args.graph args.runId = c.st := by
        rw [Session.stored_checkpoint, hsurvives]
      have hverdict : ∀ n, gateVerdict ((world'.perform args c.st
          (.checkpoint .paused nowMs)).decision args) n =
            (Host.fixed f world args).verdict n := by
        intro n
        rw [verdict_perform]
        exact hsteady.verdict n
      obtain ⟨s₃, hs₃, hcomes₃⟩ := Session.exists_start hnd rfl hverdict hstored
      rw [← hpromise] at hcomes₃
      exact ⟨rfl, s₃, _, hs₃, hcomes, hcomes₃⟩

/-- The theorem in front of the batch of `b` and `c`. -/
theorem pause_transparent_fork :
    ∃ c s₂ s₃ outcome, (Session.driven idle ⟨.empty, .empty⟩ forkArgs 10).call =
        some (forkArgs, c) ∧
      (session .withoutFloats).step (.driven idle ⟨.empty, .empty⟩ forkArgs 10)
        (.tick (.poll true 0)) = some s₂ ∧
      s₂.outcome = some (.paused, c.st) ∧
      (session .withoutFloats).step s₂ (.start forkArgs) = some s₃ ∧
      Session.Comes .withoutFloats (.fixed idle ⟨.empty, .empty⟩ forkArgs)
        (.driven idle ⟨.empty, .empty⟩ forkArgs 10) outcome ∧
      Session.Comes .withoutFloats (.fixed idle ⟨.empty, .empty⟩ forkArgs) s₃ outcome := by
  obtain ⟨acts, c, halong, hrun, hcall⟩ :=
    Session.exists_run_driven idle ⟨.empty, .empty⟩ (show forkArgs.graph.ids.Nodup by decide) 10
  obtain ⟨-, s₂, -, hpause, -⟩ := Session.exists_writes hcall
    (show Session.isCheckpoint .withoutFloats _ (.poll true 0) = true by decide +kernel)
  have hprobe : Session.AtCall (fun args c =>
      runnable .withoutFloats args.graph c.st = c.phase.taken)
        (.driven idle ⟨.empty, .empty⟩ forkArgs 10) := by
    decide +kernel
  obtain ⟨hpaused, s₃, outcome, hs₃, hcomes, hcomes₃⟩ := pause_transparent .withoutFloats idle
    ⟨.empty, .empty⟩ forkArgs _ acts _ c 0 s₂ rfl rfl halong hrun hcall hpause
    (survives_withoutFloats _) (by
      intro toExecute hphase
      simpa [hphase, Phase.taken] using hprobe forkArgs c hcall)
  exact ⟨c, s₂, s₃, outcome, hcall, hpause, hpaused, hs₃, hcomes, hcomes₃⟩

/-- An approval `r` beside `c`, after `a`. The node `d` comes after `r`, and its condition is that
`y` still is what `a` set it to. -/
def rejectArgs : CallArgs where
  graph := {
    id := "wf.reject"
    version := 1
    name := "Reject"
    entryNode := "a"
    nodes := [⟨"a", "cmd:a", ["y"], none, false⟩, ⟨"r", "cmd:r", [], none, true⟩,
      ⟨"c", "cmd:c", ["y"], none, false⟩, ⟨"d", "cmd:d", [], some ⟨"$y", .eq, "a"⟩, false⟩]
    edges := [⟨"a", "r", none⟩, ⟨"a", "c", none⟩, ⟨"r", "d", none⟩] }
  runId := "run"
  approvals := true

/-- The stores in which `r` has been rejected. -/
def rejectWorld : World :=
  ⟨.empty, .after .empty [.request "run:r" "run" "r" "cmd:r" 0, .decide "run:r" false 1]⟩

/-- A call pauses just before the batch of `c`, after the rejection of `r`. When it goes on, `c`
sets `y` anew before `d` is looked at, and `d` is skipped; when it is resumed, `d` is executed in
one batch with `c`. -/
theorem pause_differs :
    ¬ ∀ (f : WorkflowNode → VariableStore → StepResult) (world : World) (args : CallArgs)
      (s₁ : Session) (acts : List SessionAct) (s : Session) (c : Call) (nowMs : ℤ) (s₂ : Session),
      validate args.graph = .ok () →
      (session .withoutFloats).step ⟨world, none, []⟩ (.start args) = some s₁ →
      (session .withoutFloats).Along (Session.Obliging (.fixed f world args)) s₁ acts →
      (session .withoutFloats).run s₁ acts = some s → s.call = some (args, c) →
      (session .withoutFloats).step s (.tick (.poll true nowMs)) = some s₂ →
      s₂.outcome = some (.paused, c.st) ∧
        ∃ s₃ outcome, (session .withoutFloats).step s₂ (.start args) = some s₃ ∧
          Session.Comes .withoutFloats (.fixed f world args) s outcome ∧
          Session.Comes .withoutFloats (.fixed f world args) s₃ outcome := by
  intro h
  obtain ⟨acts, c, halong, hrun, hcall⟩ :=
    Session.exists_run_driven copying rejectWorld (show rejectArgs.graph.ids.Nodup by decide) 10
  obtain ⟨-, s₂, -, hpause, -⟩ := Session.exists_writes hcall
    (show Session.isCheckpoint .withoutFloats _ (.poll true 0) = true by decide +kernel)
  obtain ⟨-, s₃, outcome, hs₃, hcomes, hcomes₃⟩ := h copying rejectWorld rejectArgs _ acts _ c 0 s₂
    rfl rfl halong hrun hcall hpause
  have hon : ((Session.driven copying rejectWorld rejectArgs 10).drive .withoutFloats
      (.fixed copying rejectWorld rejectArgs) 15).outcome.map (fun outcome => outcome.2.finished) =
        some {"a", "c"} := by
    decide +kernel
  have hover : ∀ s₂ ∈ (session .withoutFloats).step (.driven copying rejectWorld rejectArgs 10)
      (.tick (.poll true 0)), ∀ s₃ ∈ (session .withoutFloats).step s₂ (.start rejectArgs),
        (s₃.drive .withoutFloats (.fixed copying rejectWorld rejectArgs) 20).outcome.map
          (fun outcome => outcome.2.finished) = some {"a", "c", "d"} := by
    decide +kernel
  have heq : ({"a", "c"} : Finset NodeId) = {"a", "c", "d"} :=
    (hcomes.eq_of_drive hon).symm.trans (hcomes₃.eq_of_drive (hover s₂ hpause s₃ hs₃))
  revert heq
  decide

end AuraLauncher.Workflow
