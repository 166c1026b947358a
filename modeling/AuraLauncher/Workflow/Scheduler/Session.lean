import AuraLauncher.Lib.Machine
import AuraLauncher.Workflow.Scheduler.Moves

/-!
# Calls, stores and their environment

A `Session` is the two databases with the call of `run_graph` that is under way. Its machine
interleaves the steps of calls with everything else that can happen between them: operations on the
approval store, checkpoints written by calls for other runs, the end of the process.

* `World`, `CallArgs`, `World.perform` — the stores, the arguments of a call, and what the effect of
  a step does to the stores.
* `Session`, `SessionAct`, `session` — the machine. A new call starts when none is under way and
  begins with the recovery of its checkpoint.
* `Execution`, `Session.log` — every execution of a node, in order; it is read by no step.
* `Session.AtCall` — a condition on the call under way, decidable where the condition is.
* `Session.Moves`, `Session.moves_of_step` — what one step of the session can do.
* `Session.stored` — the state that a new call would start from, and how each step changes it.
* `SessionAct.Serves`, `Session.Sound` — sessions whose calls are all for one run of one graph, and
  the invariant of the loop in them.
-/

namespace AuraLauncher.Workflow

open AuraLauncher.Lib

/-- The databases of a launcher. -/
structure World where
  runs : RunStore
  approvals : ApprovalStore

/-- The arguments of `run_graph`; the executor, the cancel flag and the clock are supplied step by
step. Source: `scheduler.rs`, `run_graph` (the parameters). -/
structure CallArgs where
  graph : WorkflowGraph
  runId : String
  /-- Whether an approval store is passed. -/
  approvals : Bool

namespace World

/-- The decision the gate reads. Source: `scheduler.rs`, `run_graph` (the gate). -/
def decision (w : World) (args : CallArgs) (id : NodeId) : Option ApprovalStatus :=
  if args.approvals then w.approvals.decisionFor args.runId id else none

/-- What the effect of a step, after which the loop has the variables `st`, does to the stores. -/
def perform (w : World) (args : CallArgs) (st : LoopState) : Effect → World
  | .silent => w
  | .checkpoint status nowMs =>
      { w with runs := w.runs.checkpoint (st.toCheckpoint args.graph args.runId status nowMs) }
  | .request node nowMs =>
      if args.approvals then
        { w with
          approvals := w.approvals.request (approvalKey args.runId node.nodeId) args.runId
            node.nodeId node.actionRef nowMs }
      else w
  | .execute _ _ => w

end World

/-- One execution of a node. -/
structure Execution where
  runId : String
  node : WorkflowNode
  vars : VariableStore
  out : StepResult

/-- The executions among the effects. -/
def Effect.executions (runId : String) (vars : VariableStore) : Effect → List Execution
  | .execute node out => [⟨runId, node, vars, out⟩]
  | _ => []

/-- The stores, the call under way, and the executions so far. -/
structure Session where
  world : World
  call : Option (CallArgs × Call)
  log : List Execution

/-- What can happen next. -/
inductive SessionAct
  /-- A call starts. -/
  | start (args : CallArgs)
  /-- The call under way makes a step. -/
  | tick (a : Act)
  /-- The process ends. -/
  | crash
  /-- An operation on the approval store. -/
  | op (o : ApprovalOp)
  /-- A checkpoint of another call. -/
  | write (cp : RunCheckpoint)

/-- Whether an action is the end of the process. -/
def SessionAct.isCrash : SessionAct → Bool
  | .crash => true
  | _ => false

/-- Whether an action goes on with the call under way, or is one of its environment. -/
def SessionAct.goesOn : SessionAct → Bool
  | .start _ => false
  | .crash => false
  | _ => true

/-- Whether an action is a step of the call under way. -/
def SessionAct.isTick : SessionAct → Bool
  | .tick _ => true
  | _ => false

namespace Session

/-- Whether the call has returned. -/
def returned : Option (CallArgs × Call) → Bool
  | some (_, ⟨_, .stopped _⟩) => true
  | some _ => false
  | none => true

/-- The variables that a call for a run of a graph would start with.
Source: `scheduler.rs`, `run_graph` (recovery). -/
def stored (sj : SerdeJson) (s : Session) (g : WorkflowGraph) (runId : String) : LoopState :=
  .resume g (RunStore.load sj s.world.runs runId)

/-- One step of a session. -/
def step (sj : SerdeJson) (s : Session) : SessionAct → Option Session
  | .start args =>
      if returned s.call then
        some { s with call := some (args, ⟨s.stored sj args.graph args.runId, .top⟩) }
      else none
  | .tick a =>
      match s.call with
      | none => none
      | some (args, c) =>
          (c.step sj args.graph (s.world.decision args) a).map fun (c', eff) =>
            { world := s.world.perform args c'.st eff
              call := some (args, c')
              log := s.log ++ eff.executions args.runId c.st.vars }
  | .crash => some { s with call := none }
  | .op o => some { s with world := { s.world with approvals := (s.world.approvals.perform o).1 } }
  | .write cp => some { s with world := { s.world with runs := s.world.runs.checkpoint cp } }

end Session

/-- The machine of sessions. -/
def session (sj : SerdeJson) : Machine Session SessionAct := ⟨Session.step sj⟩

namespace Session

/-- A step of the call under way is a step of the session. -/
theorem step_tick {sj : SerdeJson} {s : Session} {args : CallArgs} {c c' : Call} {a : Act}
    {eff : Effect} (hcall : s.call = some (args, c))
    (hstep : c.step sj args.graph (s.world.decision args) a = some (c', eff)) :
    (session sj).step s (.tick a) = some
      ⟨s.world.perform args c'.st eff, some (args, c'),
        s.log ++ eff.executions args.runId c.st.vars⟩ := by
  simp [session, step, hcall, hstep]

/-- A condition on the call under way, if there is one. -/
def AtCall (p : CallArgs → Call → Prop) (s : Session) : Prop :=
  ∀ args c, s.call = some (args, c) → p args c

instance {p : CallArgs → Call → Prop} [hp : ∀ args c, Decidable (p args c)] :
    DecidablePred (AtCall p)
  | ⟨_, none, _⟩ => .isTrue (by rintro _ _ ⟨⟩)
  | ⟨_, some (args, c), _⟩ =>
      decidable_of_iff (p args c) ⟨by rintro h _ _ ⟨⟩; exact h, fun h => h args c rfl⟩

/-! ## What one step does -/

/-- One step of a session, by what it is. -/
inductive Moves (sj : SerdeJson) : Session → SessionAct → Session → Prop
  | start (s args) (hret : returned s.call = true) :
      Moves sj s (.start args)
        { s with call := some (args, ⟨s.stored sj args.graph args.runId, .top⟩) }
  | tick (world log args c a c' eff)
      (hm : Call.Moves sj args.graph (world.decision args) c a c' eff) :
      Moves sj ⟨world, some (args, c), log⟩ (.tick a)
        ⟨world.perform args c'.st eff, some (args, c'), log ++ eff.executions args.runId c.st.vars⟩
  | crash (s) : Moves sj s .crash { s with call := none }
  | op (s o) :
      Moves sj s (.op o) { s with world := { s.world with approvals :=
        (s.world.approvals.perform o).1 } }
  | write (s cp) :
      Moves sj s (.write cp) { s with world := { s.world with runs := s.world.runs.checkpoint cp } }

variable {sj : SerdeJson} {s s' : Session} {a : SessionAct}

theorem moves_of_step (h : (session sj).step s a = some s') : Moves sj s a s' := by
  cases a with
  | start args =>
      simp only [session, step] at h
      split_ifs at h with hret
      cases h
      exact .start s args hret
  | tick a =>
      obtain ⟨world, call, log⟩ := s
      cases call with
      | none => cases h
      | some call =>
          obtain ⟨args, c⟩ := call
          obtain ⟨⟨c', eff⟩, hstep, heq⟩ := Option.map_eq_some_iff.mp h
          cases heq
          exact .tick world log args c a c' eff (Call.moves_of_step hstep)
  | crash =>
      cases h
      exact .crash s
  | op o =>
      cases h
      exact .op s o
  | write cp =>
      cases h
      exact .write s cp

/-- A move executes nothing, or fills a slot of a batch. -/
theorem executions_of_moves {sj : SerdeJson} {g : WorkflowGraph}
    {decision : NodeId → Option ApprovalStatus} {c c' : Call} {a : Act} {eff : Effect}
    (hm : Call.Moves sj g decision c a c' eff) :
    (∀ runId vars, eff.executions runId vars = []) ∨
      ∃ st i n out slots, c = ⟨st, .batch slots⟩ ∧ slots[i]? = some (n, none) ∧
        a = .execute i out ∧ c' = ⟨st, .batch (slots.set i (n, some out))⟩ ∧
        eff = .execute n out := by
  cases hm with
  | execute st i n out slots hslot => exact .inr ⟨st, i, n, out, slots, rfl, hslot, rfl, rfl, rfl⟩
  | _ => exact .inl fun _ _ => rfl

/-- A step leaves the log, or a call under way fills a slot of its batch and adds it to the log. -/
theorem log_of_moves (hm : Moves sj s a s') :
    s'.log = s.log ∨ ∃ args st i n out slots, s.call = some (args, ⟨st, .batch slots⟩) ∧
      slots[i]? = some (n, none) ∧ a = .tick (.execute i out) ∧
        s'.log = s.log ++ [⟨args.runId, n, st.vars, out⟩] := by
  cases hm with
  | start => exact .inl rfl
  | crash => exact .inl rfl
  | op => exact .inl rfl
  | write => exact .inl rfl
  | tick world log args c a c' eff hm =>
      rcases executions_of_moves hm with hnone | ⟨st, i, n, out, slots, rfl, hslot, rfl, -, rfl⟩
      · left
        simp only [hnone, List.append_nil]
      · exact .inr ⟨args, st, i, n, out, slots, rfl, hslot, rfl, rfl⟩

/-- The step that adds an execution to the log is a step of a batch. -/
theorem batch_of_log_append (hm : Moves sj s a s') {x : Execution} (hlog : s'.log = s.log ++ [x]) :
    ∃ args st slots, ∃ i : ℕ, s.call = some (args, ⟨st, .batch slots⟩) ∧
      slots[i]? = some (x.node, none) ∧ x.runId = args.runId ∧ x.vars = st.vars := by
  rcases log_of_moves hm with hsame | ⟨args, st, i, n, out, slots, hcall, hslot, -, hadd⟩
  · rw [hsame] at hlog
    simp at hlog
  · rw [hlog, List.append_cancel_left_eq, List.cons_eq_cons] at hadd
    obtain ⟨rfl, -⟩ := hadd
    exact ⟨args, st, slots, i, hcall, hslot, rfl, rfl⟩

/-! ## The stored state -/

/-- A checkpoint stores the sets of the loop, and its variables as they read back. -/
theorem stored_checkpoint (sj : SerdeJson) (w : World) (args : CallArgs) (st : LoopState)
    (status : RunStatus) (nowMs : ℤ) (call : Option (CallArgs × Call)) (log : List Execution) :
    stored sj ⟨w.perform args st (.checkpoint status nowMs), call, log⟩ args.graph args.runId =
      ⟨st.finished, st.skipped, .ofSnapshot ((sj.reread st.vars.snapshot).getD .null)⟩ := by
  have hload := RunStore.load_checkpoint_self sj w.runs
    (st.toCheckpoint args.graph args.runId status nowMs)
  unfold stored World.perform
  simp only
  rw [show (st.toCheckpoint args.graph args.runId status nowMs).runId = args.runId from rfl]
    at hload
  rw [hload]
  simp [LoopState.resume, LoopState.toCheckpoint]

/-- A session whose run store is the same has the same stored state. -/
theorem stored_congr {g : WorkflowGraph} {runId : String} (h : s'.world.runs = s.world.runs) :
    stored sj s' g runId = stored sj s g runId := by
  unfold stored
  rw [h]

/-- A checkpoint of another run leaves the stored state. -/
theorem stored_write {g : WorkflowGraph} {runId : String} {cp : RunCheckpoint}
    (h : cp.runId ≠ runId) :
    stored sj { s with world := { s.world with runs := s.world.runs.checkpoint cp } } g runId =
      stored sj s g runId := by
  unfold stored
  rw [RunStore.load_checkpoint_of_ne sj s.world.runs cp (Ne.symm h)]

end Session

/-! ## Sessions of one run -/

/-- The calls of a session are for one run of one graph, and other calls write other runs. -/
def SessionAct.Serves (g : WorkflowGraph) (runId : String) : SessionAct → Prop
  | .start args => args.graph = g ∧ args.runId = runId
  | .write cp => cp.runId ≠ runId
  | _ => True

instance (g : WorkflowGraph) (runId : String) : DecidablePred (SessionAct.Serves g runId)
  | .start args => inferInstanceAs (Decidable (args.graph = g ∧ args.runId = runId))
  | .write cp => inferInstanceAs (Decidable (cp.runId ≠ runId))
  | .tick _ | .crash | .op _ => .isTrue trivial

namespace Session

variable {sj : SerdeJson} {g : WorkflowGraph} {runId : String} {s s' : Session} {a : SessionAct}

/-- The call under way is for the run, and the invariant of the loop holds of it. -/
def Sound (sj : SerdeJson) (g : WorkflowGraph) (runId : String) (s : Session) : Prop :=
  ∀ args c, s.call = some (args, c) → args.graph = g ∧ args.runId = runId ∧ c.Sound sj g

theorem sound_of_no_call (h : s.call = none) : Sound sj g runId s := by
  intro args c hcall
  rw [h] at hcall
  cases hcall

theorem sound_of_moves (hnd : g.ids.Nodup) (hserves : a.Serves g runId) (hm : Moves sj s a s')
    (h : Sound sj g runId s) : Sound sj g runId s' := by
  cases hm with
  | start s args hret =>
      rintro args' c' ⟨⟩
      exact ⟨hserves.1, hserves.2, Call.sound_of_idle rfl rfl⟩
  | tick world log args c a c' eff hm =>
      rintro args' c'' ⟨⟩
      obtain ⟨rfl, hrun, hsound⟩ := h args c rfl
      exact ⟨rfl, hrun, Call.sound_of_moves hnd hm hsound⟩
  | crash => exact sound_of_no_call rfl
  | op => exact h
  | write => exact h

/-- In a session of one run, a step leaves the stored state or stores that of the call. -/
theorem stored_of_moves (hserves : a.Serves g runId) (hm : Moves sj s a s')
    (hsound : s'.Sound sj g runId) :
    s'.stored sj g runId = s.stored sj g runId ∨
      ∃ args c, s'.call = some (args, c) ∧
        s'.stored sj g runId = ⟨c.st.finished, c.st.skipped,
          .ofSnapshot ((sj.reread c.st.vars.snapshot).getD .null)⟩ := by
  cases hm with
  | start => exact .inl (stored_congr rfl)
  | crash => exact .inl (stored_congr rfl)
  | op => exact .inl (stored_congr rfl)
  | write s cp => exact .inl (stored_write hserves)
  | tick world log args c a c' eff hm =>
      cases eff with
      | silent => exact .inl (stored_congr rfl)
      | checkpoint status nowMs =>
          obtain ⟨rfl, rfl, -⟩ := hsound args c' rfl
          exact .inr ⟨args, c', rfl, stored_checkpoint _ _ _ _ _ _ _ _⟩
      | request node nowMs =>
          refine .inl (stored_congr ?_)
          unfold World.perform
          split_ifs <;> rfl
      | execute => exact .inl (stored_congr rfl)

end Session

/-! ## A graph with one batch of two nodes -/

/-- An entry `a` before two independent nodes `b` and `c`. -/
def forkGraph : WorkflowGraph where
  id := "wf.fork"
  version := 1
  name := "Fork"
  entryNode := "a"
  nodes := [⟨"a", "cmd:a", [], none, false⟩, ⟨"b", "cmd:b", [], none, false⟩,
    ⟨"c", "cmd:c", [], none, false⟩]
  edges := [⟨"a", "b", none⟩, ⟨"a", "c", none⟩]

/-- A call on `forkGraph` up to the end of the batch of `b` and `c`, with the result of `b`; `c`
succeeds. -/
def forkActs (b : StepResult) : List SessionAct :=
  [.start ⟨forkGraph, "run", false⟩, .tick (.poll false 0), .tick (.advance 0),
    .tick (.poll false 0), .tick (.execute 0 (.ok .null)), .tick (.advance 0), .tick (.advance 0),
    .tick (.advance 0), .tick (.poll false 0), .tick (.advance 0), .tick (.advance 0),
    .tick (.poll false 0), .tick (.execute 1 (.ok .null)), .tick (.execute 0 b),
    .tick (.advance 0), .tick (.advance 0)]

end AuraLauncher.Workflow
