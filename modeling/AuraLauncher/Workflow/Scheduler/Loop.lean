import AuraLauncher.Workflow.Approval
import AuraLauncher.Workflow.Durable

/-!
# The scheduling loop

`scheduler.rs`: `run_graph` drives one graph to completion. A call reads its checkpoint, then goes
around a loop: poll the cancel flag, compute the runnable nodes, pass them through the approval
gate, poll again, execute the admitted nodes as one batch, apply the results in id order with a
checkpoint after each, and mark the nodes whose condition is false as skipped.

* `LoopState` — the three local variables of the loop; `markConditionSkips`, `runnable`,
  `remaining`, `applyOutputs` — what it computes from them.
* `Phase`, `Call` — where a call stands in the loop, and a call with its variables.
* `Act`, `Effect`, `Call.step` — one step of a call: what the environment supplies for it (the
  cancel flag, the clock, the result of a step) and what it does to the stores.

A step is as long as the call runs without touching what others can touch: each poll of the flag,
each statement on a store and each execution is a step of its own, so operations of others fall
between any two of them. The threads of a batch share the executor behind a lock; they are the
empty slots of the batch, executed one at a time in any order.
-/

namespace AuraLauncher.Workflow

open AuraLauncher.Lib

/-- What a step execution returns. Source: `scheduler.rs`, `StepExecutor::execute`. -/
abbrev StepResult := Except String Json

/-- What the host must do after a call. Source: `scheduler.rs`, `SchedulerStop`. -/
inductive SchedulerStop
  | finished
  | paused
  | awaitingApproval (nodeId : NodeId)
  | failed (nodeId : NodeId) (error : String)
  deriving DecidableEq

/-- The output variables of a node. Source: `scheduler.rs`, `apply_outputs`. -/
def applyOutputs (vars : VariableStore) (node : WorkflowNode) (output : Json) : VariableStore :=
  node.outputVariables.foldl (fun vars name => vars.set name output) vars

/-- Source: `scheduler.rs`, `condition_holds`. -/
def conditionHolds (sj : SerdeJson) (cond : Option ConditionExpr) (vars : VariableStore) : Bool :=
  match cond with
  | some c => evaluate sj c vars
  | none => true

/-- The local variables of the loop. Source: `scheduler.rs`, `run_graph`. -/
@[ext] structure LoopState where
  finished : Finset NodeId
  skipped : Finset NodeId
  vars : VariableStore

/-- The loop of `mark_condition_skips` over the nodes, with its flag. It does not look at the
finished set. Source: `scheduler.rs`, `mark_condition_skips`. -/
def markFrom (sj : SerdeJson) (vars : VariableStore) :
    List WorkflowNode → Finset NodeId → Bool → Finset NodeId × Bool
  | [], skipped, progressed => (skipped, progressed)
  | n :: nodes, skipped, progressed =>
      if n.nodeId ∈ skipped then markFrom sj vars nodes skipped progressed
      else
        match n.condition with
        | none => markFrom sj vars nodes skipped progressed
        | some cond =>
            if conditionHolds sj (some cond) vars then markFrom sj vars nodes skipped progressed
            else markFrom sj vars nodes (insert n.nodeId skipped) true

/-- Source: `scheduler.rs`, `mark_condition_skips`. -/
def markConditionSkips (sj : SerdeJson) (g : WorkflowGraph) (skipped : Finset NodeId)
    (vars : VariableStore) : Finset NodeId × Bool :=
  markFrom sj vars g.nodes skipped false

namespace LoopState

/-- The variables of a call that found no checkpoint. Source: `scheduler.rs`, `run_graph`. -/
def init : LoopState := ⟨∅, ∅, .empty⟩

/-- The variables of a call that resumes from a checkpoint: those stored, when the checkpoint is of
this graph in this version. Source: `scheduler.rs`, `run_graph` (recovery). -/
def resume (g : WorkflowGraph) : Option RunCheckpoint → LoopState
  | none => init
  | some cp =>
      if cp.graphId = g.id ∧ cp.graphVersion = g.version then
        ⟨cp.finished, cp.skipped, .ofSnapshot cp.«variables»⟩
      else init

/-- The state after `mark_condition_skips`. -/
def mark (sj : SerdeJson) (g : WorkflowGraph) (st : LoopState) : LoopState :=
  { st with skipped := (markConditionSkips sj g st.skipped st.vars).1 }

/-- The checkpoint of a state. Source: `scheduler.rs`, `checkpoint`. -/
def toCheckpoint (st : LoopState) (g : WorkflowGraph) (runId : String) (status : RunStatus)
    (nowMs : ℤ) : RunCheckpoint where
  runId := runId
  graphId := g.id
  graphVersion := g.version
  status := status
  finished := st.finished
  skipped := st.skipped
  «variables» := st.vars.snapshot
  updatedAtMs := nowMs

end LoopState

/-- The nodes the loop takes up: ready, not skipped, and with a condition that holds.
Source: `scheduler.rs`, `run_graph` (`runnable`). -/
def runnable (sj : SerdeJson) (g : WorkflowGraph) (st : LoopState) : List WorkflowNode :=
  let ready := readyNodes g st.finished st.skipped
  g.nodes.filter fun n =>
    decide (n.nodeId ∈ ready) && decide (n.nodeId ∉ st.skipped) &&
      conditionHolds sj n.condition st.vars

/-- The ids of the nodes that are neither finished nor skipped.
Source: `scheduler.rs`, `run_graph` (`remaining`). -/
def remaining (g : WorkflowGraph) (st : LoopState) : List NodeId :=
  g.ids.filter fun id => decide (id ∉ st.finished) && decide (id ∉ st.skipped)

/-- The text of the failure of a loop that cannot go on. Source: `scheduler.rs`, `run_graph`. -/
def stallError : String := "no runnable node and no progress (scheduler stall)"

/-- The approval id of a run and a node. Source: `scheduler.rs`, `run_graph` (the gate). -/
def approvalKey (runId nodeId : String) : String := runId ++ ":" ++ nodeId

/-- The results of a batch in id order. Source: `scheduler.rs`, `run_graph` (`batch_out`). -/
def sortById (out : List (NodeId × StepResult)) : List (NodeId × StepResult) :=
  out.insertionSort fun a b => a.1 ≤ b.1

/-! ## What these compute -/

theorem mem_markFrom {sj : SerdeJson} {vars : VariableStore} {nodes : List WorkflowNode}
    {skipped : Finset NodeId} {progressed : Bool} {id : NodeId} :
    id ∈ (markFrom sj vars nodes skipped progressed).1 ↔
      id ∈ skipped ∨ ∃ n ∈ nodes, n.nodeId = id ∧ conditionHolds sj n.condition vars = false := by
  induction nodes generalizing skipped progressed with
  | nil => simp [markFrom]
  | cons n nodes ih =>
      unfold markFrom
      by_cases hmem : n.nodeId ∈ skipped
      · rw [if_pos hmem, ih]
        simp only [List.mem_cons, exists_eq_or_imp]
        constructor
        · exact Or.imp_right .inr
        · rintro (h | ⟨rfl, -⟩ | h)
          · exact .inl h
          · exact .inl hmem
          · exact .inr h
      · rw [if_neg hmem]
        simp only [List.mem_cons, exists_eq_or_imp]
        cases hcond : n.condition with
        | none => simpa [conditionHolds] using ih
        | some cond =>
            by_cases hholds : conditionHolds sj (some cond) vars = true
            · simpa [hholds] using ih
            · simp only [hholds, Bool.false_eq_true, if_false, ih, Finset.mem_insert, and_true]
              rw [eq_comm (a := id)]
              tauto

/-- The flag is raised exactly when a node outside the set has a false condition. -/
theorem markFrom_progressed {sj : SerdeJson} {vars : VariableStore} {nodes : List WorkflowNode}
    {skipped : Finset NodeId} {progressed : Bool} :
    (markFrom sj vars nodes skipped progressed).2 = true ↔
      progressed = true ∨
        ∃ n ∈ nodes, n.nodeId ∉ skipped ∧ conditionHolds sj n.condition vars = false := by
  induction nodes generalizing skipped progressed with
  | nil => simp [markFrom]
  | cons n nodes ih =>
      unfold markFrom
      simp only [List.mem_cons, exists_eq_or_imp]
      by_cases hmem : n.nodeId ∈ skipped
      · simpa [hmem] using ih
      · cases hcond : n.condition with
        | none => simpa [hmem, conditionHolds] using ih
        | some cond =>
            by_cases hholds : conditionHolds sj (some cond) vars = true
            · simpa [hmem, hholds] using ih
            · simp [hmem, hholds, ih]

/-- **What the marking skips**: every node whose condition is false, whatever has run. -/
theorem mem_mark_skipped {sj : SerdeJson} {g : WorkflowGraph} {st : LoopState} {id : NodeId} :
    id ∈ (st.mark sj g).skipped ↔
      id ∈ st.skipped ∨
        ∃ n ∈ g.nodes, n.nodeId = id ∧ conditionHolds sj n.condition st.vars = false :=
  mem_markFrom

theorem subset_mark_skipped (sj : SerdeJson) (g : WorkflowGraph) (st : LoopState) :
    st.skipped ⊆ (st.mark sj g).skipped :=
  fun _ h => mem_mark_skipped.mpr (.inl h)

theorem markConditionSkips_progressed {sj : SerdeJson} {g : WorkflowGraph} {st : LoopState} :
    (markConditionSkips sj g st.skipped st.vars).2 = true ↔
      ∃ n ∈ g.nodes, n.nodeId ∉ st.skipped ∧ conditionHolds sj n.condition st.vars = false := by
  simpa [markConditionSkips] using @markFrom_progressed sj st.vars g.nodes st.skipped false

/-- **What the loop takes up.** -/
theorem mem_runnable {sj : SerdeJson} {g : WorkflowGraph} {st : LoopState} {n : WorkflowNode} :
    n ∈ runnable sj g st ↔
      n ∈ g.nodes ∧ n.nodeId ∈ readyNodes g st.finished st.skipped ∧
        conditionHolds sj n.condition st.vars = true := by
  simp only [runnable, List.mem_filter, Bool.and_eq_true, decide_eq_true_eq]
  constructor
  · rintro ⟨hn, ⟨hready, -⟩, hcond⟩
    exact ⟨hn, hready, hcond⟩
  · rintro ⟨hn, hready, hcond⟩
    have hnot := (mem_readyNodes.mp hready).2.1
    exact ⟨hn, ⟨hready, fun h => hnot (done_iff.mpr (.inr h))⟩, hcond⟩

theorem mem_remaining {g : WorkflowGraph} {st : LoopState} {id : NodeId} :
    id ∈ remaining g st ↔ id ∈ g.ids ∧ ¬ Done st.finished st.skipped id := by
  simp [remaining, done_iff]

theorem sortById_perm (out : List (NodeId × StepResult)) : (sortById out).Perm out :=
  List.perm_insertionSort _ _

/-! ## Calls -/

/-- Where a call stands. -/
inductive Phase
  /-- At the top of the loop. -/
  | top
  /-- In the approval gate: the nodes still to pass, the last one that waits, those admitted. -/
  | gate (todo : List WorkflowNode) (gatedPending : Option NodeId) (toExecute : List WorkflowNode)
  /-- In the approval gate, about to request an approval for `node`. -/
  | request (node : WorkflowNode) (todo toExecute : List WorkflowNode)
  /-- In the batch, with a result for each node that was executed. -/
  | batch (slots : List (WorkflowNode × Option StepResult))
  /-- Applying the results of a batch. -/
  | apply (out : List (NodeId × StepResult))
  /-- Returned. -/
  | stopped (stop : SchedulerStop)

/-- A call of `run_graph` under way. -/
structure Call where
  st : LoopState
  phase : Phase

/-- What the environment supplies for a step. -/
inductive Act
  /-- The cancel flag is read. -/
  | poll (cancelled : Bool) (nowMs : ℤ)
  /-- The thread of the call goes on. -/
  | advance (nowMs : ℤ)
  /-- A thread of the batch has its turn and the executor returns `out`. -/
  | execute (slot : ℕ) (out : StepResult)

/-- What a step does to the world. -/
inductive Effect
  | silent
  | checkpoint (status : RunStatus) (nowMs : ℤ)
  | request (node : WorkflowNode) (nowMs : ℤ)
  | execute (node : WorkflowNode) (out : StepResult)

namespace Call

/-- The call returns `stop` after a checkpoint. -/
def halt (st : LoopState) (stop : SchedulerStop) (status : RunStatus) (nowMs : ℤ) : Call × Effect :=
  (⟨st, .stopped stop⟩, .checkpoint status nowMs)

/-- The top of the loop, once the flag was found clear: take up the runnable nodes, or mark skips
and finish, stall or go around. Source: `scheduler.rs`, `run_graph`. -/
def loopTop (sj : SerdeJson) (g : WorkflowGraph) (st : LoopState) (nowMs : ℤ) : Call × Effect :=
  if (runnable sj g st).isEmpty then
    match remaining g st with
    | [] => halt (st.mark sj g) .finished .finished nowMs
    | id :: _ =>
        if (markConditionSkips sj g st.skipped st.vars).2 then (⟨st.mark sj g, .top⟩, .silent)
        else halt (st.mark sj g) (.failed id stallError) .failed nowMs
  else (⟨st, .gate (runnable sj g st) none []⟩, .silent)

/-- One pass of the approval gate, with the decision it reads.
Source: `scheduler.rs`, `run_graph` (the loop over `runnable`). -/
def gateNode (decision : NodeId → Option ApprovalStatus) (st : LoopState) (n : WorkflowNode)
    (todo : List WorkflowNode) (gatedPending : Option NodeId) (toExecute : List WorkflowNode) :
    Call :=
  if n.approval then
    match decision n.nodeId with
    | some .approved => ⟨st, .gate todo gatedPending (toExecute ++ [n])⟩
    | some .rejected =>
        ⟨{ st with skipped := insert n.nodeId st.skipped }, .gate todo gatedPending toExecute⟩
    | _ => ⟨st, .request n todo toExecute⟩
  else ⟨st, .gate todo gatedPending (toExecute ++ [n])⟩

/-- The results of a batch, once every thread has ended.
Source: `scheduler.rs`, `run_graph` (`thread::scope`, `batch_out`). -/
def collect (slots : List (WorkflowNode × Option StepResult)) :
    Option (List (NodeId × StepResult)) :=
  if slots.all fun slot => slot.2.isSome then
    some (sortById (slots.filterMap fun slot => slot.2.map fun out => (slot.1.nodeId, out)))
  else none

/-- The application of one result. There is no step where the lookup of the node fails: the source
panics there. Source: `scheduler.rs`, `run_graph` (the loop over `batch_out`). -/
def applyResult (g : WorkflowGraph) (st : LoopState) (id : NodeId) (out : StepResult)
    (rest : List (NodeId × StepResult)) (nowMs : ℤ) : Option (Call × Effect) :=
  match g.nodes.find? fun n => decide (n.nodeId = id) with
  | none => none
  | some node =>
      match out with
      | .ok output =>
          some (⟨⟨insert id st.finished, st.skipped, applyOutputs st.vars node output⟩,
            .apply rest⟩, .checkpoint .running nowMs)
      | .error e => some (halt st (.failed id e) .failed nowMs)

/-- One step of a call. Source: `scheduler.rs`, `run_graph` (the loop). -/
def step (sj : SerdeJson) (g : WorkflowGraph) (decision : NodeId → Option ApprovalStatus)
    (c : Call) : Act → Option (Call × Effect)
  | .poll cancelled nowMs =>
      match c.phase with
      | .top =>
          if cancelled then some (halt c.st .paused .paused nowMs)
          else some (loopTop sj g c.st nowMs)
      | .gate [] none toExecute =>
          if cancelled then some (halt c.st .paused .paused nowMs)
          else some (⟨c.st, .batch (toExecute.map fun n => (n, none))⟩, .silent)
      | _ => none
  | .advance nowMs =>
      match c.phase with
      | .gate (n :: todo) gatedPending toExecute =>
          some (gateNode decision c.st n todo gatedPending toExecute, .silent)
      | .request n todo toExecute =>
          some (⟨c.st, .gate todo (some n.nodeId) toExecute⟩, .request n nowMs)
      | .gate [] (some id) _ => some (halt c.st (.awaitingApproval id) .awaitingApproval nowMs)
      | .batch slots => (collect slots).map fun out => (⟨c.st, .apply out⟩, .silent)
      | .apply ((id, out) :: rest) => applyResult g c.st id out rest nowMs
      | .apply [] => some (⟨c.st.mark sj g, .top⟩, .silent)
      | _ => none
  | .execute i out =>
      match c.phase with
      | .batch slots =>
          match slots[i]? with
          | some (n, none) => some (⟨c.st, .batch (slots.set i (n, some out))⟩, .execute n out)
          | _ => none
      | _ => none

end Call

end AuraLauncher.Workflow
