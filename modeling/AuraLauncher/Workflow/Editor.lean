import AuraLauncher.Domain.Std
import AuraLauncher.Workflow.Graph
import Mathlib.Data.List.Sort
import Mathlib.Logic.Function.Iterate

/-!
# The graph editor and its history

`editor.rs`: the editor works on a draft of a graph and keeps the earlier drafts on an undo stack of
at most `maxUndo`, and the drafts that were undone on a redo stack. The last element of a stack is
its top, as in the source. The five public methods of an edit are `edit` at the five operations.
`editor_surface.rs`: the rows that are shown of the draft, and the draft on disk.

* `GraphEditor`, `EditOp` — the editor and its operations; `edit`, `undo`, `redo`.
* `EditOp.Possible` — the operations that do not fail on a graph.
* `edit_failure_keeps_iff` — exactly which edits leave the editor as it was when they fail: the
  snapshot of the draft is pushed, and the redo stack cleared, before the edit is tried.
* `GraphEditor.timeline` — both stacks and the draft as the one sequence of drafts they stand for.
  Undo and redo move within it, and a timeline and a place in it determine the editor.
* `undo_redo_laws` — what undo and redo give back, and the bound on both stacks in every run.
* `timeline_foldl_act` — what every edit keeps, every draft of a run has.
* `EditorSurface`, `editorSurface_spec` — the rows in every run, and when the draft is saved.

Left out of the surface are the callbacks into the window, which passes no conditions, and the
errors of the file system.
-/

namespace AuraLauncher.Workflow

/-- How many drafts can be undone. Source: `editor.rs`, `MAX_UNDO`. -/
def maxUndo : ℕ := 100

/-- Source: `editor.rs`, `EditOp`. -/
inductive EditOp
  | addNode (nodeId : NodeId) (actionRef : String)
  | removeNode (nodeId : NodeId)
  | addEdge («from» «to» : NodeId)
  | removeEdge («from» «to» : NodeId)
  | setCondition (nodeId : NodeId) (condition : Option ConditionExpr)
  deriving DecidableEq

/-- The draft and the two stacks; a method of the same name as a stack works on it.
Source: `editor.rs`, `GraphEditor`. -/
structure GraphEditor where
  graph : WorkflowGraph
  /-- Field `undo` of the source. -/
  undoStack : List WorkflowGraph
  /-- Field `redo` of the source. -/
  redoStack : List WorkflowGraph
  deriving DecidableEq

/-! ## The operations -/

/-- `node.condition = condition` at the first node with the id; none if there is no such node. -/
def setFirstCondition (nodeId : NodeId) (condition : Option ConditionExpr) :
    List WorkflowNode → Option (List WorkflowNode)
  | [] => none
  | n :: nodes =>
      if n.nodeId = nodeId then some ({ n with condition } :: nodes)
      else (setFirstCondition nodeId condition nodes).map (n :: ·)

/-- What an operation makes of a copy of the draft.
Source: `editor.rs`, the closure of `GraphEditor::edit`. -/
def EditOp.apply (g : WorkflowGraph) : EditOp → Except String WorkflowGraph
  | .addNode nodeId actionRef =>
      if g.nodes.any fun n => n.nodeId == nodeId then .error s!"duplicate node: {nodeId}"
      else .ok { g with nodes := g.nodes ++ [{ nodeId, actionRef }] }
  | .removeNode nodeId =>
      -- the node and its edges are gone from the copy before the entry is looked at
      let g' := { g with
        nodes := g.nodes.filter fun n => n.nodeId != nodeId
        edges := g.edges.filter fun e => e.from != nodeId && e.to != nodeId }
      if g'.entryNode = nodeId then .error "cannot remove the entry node" else .ok g'
  | .addEdge «from» «to» => .ok { g with edges := g.edges ++ [{ «from», «to» }] }
  | .removeEdge «from» «to» =>
      .ok { g with edges := g.edges.filter fun e => !(e.from == «from» && e.to == «to») }
  | .setCondition nodeId condition =>
      match setFirstCondition nodeId condition g.nodes with
      | some nodes => .ok { g with nodes }
      | none => .error s!"unknown node: {nodeId}"

/-- The operation does not fail on a graph. -/
def EditOp.Possible (g : WorkflowGraph) : EditOp → Prop
  | .addNode nodeId _ => nodeId ∉ g.ids
  | .removeNode nodeId => g.entryNode ≠ nodeId
  | .addEdge _ _ => True
  | .removeEdge _ _ => True
  | .setCondition nodeId _ => nodeId ∈ g.ids

theorem setFirstCondition_isSome (nodeId : NodeId) (condition : Option ConditionExpr)
    (nodes : List WorkflowNode) :
    (setFirstCondition nodeId condition nodes).isSome ↔ ∃ n ∈ nodes, n.nodeId = nodeId := by
  induction nodes with
  | nil => simp [setFirstCondition]
  | cons n nodes ih =>
      unfold setFirstCondition
      split_ifs with hn
      · simp [hn]
      · simp [hn, ih]

theorem EditOp.apply_isOk_iff (g : WorkflowGraph) (op : EditOp) :
    (∃ g', op.apply g = .ok g') ↔ op.Possible g := by
  cases op with
  | addNode nodeId actionRef =>
      simp only [apply, Possible, WorkflowGraph.mem_ids, List.any_eq_true, beq_iff_eq]
      split_ifs with h
      · simp [h]
      · simp [h]
  | removeNode nodeId =>
      simp only [apply, Possible]
      split_ifs with h
      · simp [h]
      · simp [h]
  | addEdge «from» «to» => simp [apply, Possible]
  | removeEdge «from» «to» => simp [apply, Possible]
  | setCondition nodeId condition =>
      have hsome := setFirstCondition_isSome nodeId condition g.nodes
      simp only [apply, Possible, WorkflowGraph.mem_ids, ← hsome]
      cases setFirstCondition nodeId condition g.nodes with
      | none => simp
      | some nodes => simp

namespace GraphEditor

/-! ## The methods -/

/-- Source: `editor.rs`, `GraphEditor::new`. -/
def new (graph : WorkflowGraph) : GraphEditor := ⟨graph, [], []⟩

/-- The draft goes onto the undo stack, whose oldest draft is dropped when there are too many, and
the redo stack is cleared. Source: `editor.rs`, `GraphEditor::push_undo`. -/
def pushUndo (ed : GraphEditor) : GraphEditor :=
  let undoStack := ed.undoStack ++ [ed.graph]
  { ed with
    undoStack := if maxUndo < undoStack.length then undoStack.tail else undoStack
    redoStack := [] }

/-- One edit: its result, and the editor after it. Source: `editor.rs`, `GraphEditor::edit`. -/
def edit (ed : GraphEditor) (op : EditOp) : Except String Unit × GraphEditor :=
  -- the snapshot is taken before the edit is tried
  let pushed := ed.pushUndo
  match op.apply pushed.graph with
  | .ok g => (.ok (), { pushed with graph := g })
  | .error e => (.error e, pushed)

/-- One edit is rolled back, if there is one. Source: `editor.rs`, `GraphEditor::undo`. -/
def undo (ed : GraphEditor) : Bool × GraphEditor :=
  match ed.undoStack.getLast? with
  | some prev => (true, ⟨prev, ed.undoStack.dropLast, ed.redoStack ++ [ed.graph]⟩)
  | none => (false, ed)

/-- The last undone edit is applied again, if there is one. Source: `editor.rs`,
`GraphEditor::redo`. -/
def redo (ed : GraphEditor) : Bool × GraphEditor :=
  match ed.redoStack.getLast? with
  | some next => (true, ⟨next, ed.undoStack ++ [ed.graph], ed.redoStack.dropLast⟩)
  | none => (false, ed)

@[simp] theorem pushUndo_graph (ed : GraphEditor) : ed.pushUndo.graph = ed.graph := rfl

theorem edit_of_apply_ok {ed : GraphEditor} {op : EditOp} {g : WorkflowGraph}
    (h : op.apply ed.graph = .ok g) : ed.edit op = (.ok (), { ed.pushUndo with graph := g }) := by
  simp only [edit, pushUndo_graph, h]

theorem edit_of_apply_error {ed : GraphEditor} {op : EditOp} {e : String}
    (h : op.apply ed.graph = .error e) : ed.edit op = (.error e, ed.pushUndo) := by
  simp only [edit, pushUndo_graph, h]

/-- An edit succeeds on exactly the drafts on which its operation is possible. -/
theorem edit_isOk_iff (ed : GraphEditor) (op : EditOp) :
    (ed.edit op).1 = .ok () ↔ op.Possible ed.graph := by
  rw [← op.apply_isOk_iff]
  cases h : op.apply ed.graph with
  | ok g => simp [edit_of_apply_ok h]
  | error e => simp [edit_of_apply_error h]

/-! ## A failed edit -/

/-- Pushing at the end is pushing at the front when all elements are the same. -/
theorem concat_eq_cons_iff {α : Type*} (xs : List α) (a x : α) :
    xs ++ [a] = x :: xs ↔ x = a ∧ ∀ y ∈ xs, y = a := by
  induction xs generalizing x with
  | nil => simp [eq_comm]
  | cons y ys ih =>
      rw [List.cons_append, List.cons.injEq, ih, List.forall_mem_cons]
      constructor
      · rintro ⟨rfl, rfl, hys⟩
        exact ⟨rfl, rfl, hys⟩
      · rintro ⟨rfl, rfl, hys⟩
        exact ⟨rfl, rfl, hys⟩

/-- The snapshot leaves no trace when nothing can be redone, and the undo stack is full of drafts
that are all the present one. -/
theorem pushUndo_eq_self_iff (ed : GraphEditor) :
    ed.pushUndo = ed ↔
      ed.redoStack = [] ∧ maxUndo ≤ ed.undoStack.length ∧ ∀ g ∈ ed.undoStack, g = ed.graph := by
  obtain ⟨graph, us, rs⟩ := ed
  simp only [pushUndo, GraphEditor.mk.injEq, true_and, List.length_append, List.length_singleton,
    Nat.lt_succ_iff]
  by_cases hfull : maxUndo ≤ us.length
  · rw [if_pos hfull]
    cases us with
    | nil => exact absurd hfull (by decide)
    | cons x xs =>
        rw [List.cons_append, List.tail_cons, concat_eq_cons_iff, List.forall_mem_cons]
        simp only [hfull, true_and]
        rw [and_comm, eq_comm]
  · rw [if_neg hfull]
    simp [hfull]

/-- **When a failed edit changes nothing.** A failing edit leaves the draft and both stacks as they
were exactly when nothing could be redone and the undo stack is full of copies of the draft; so the
promise that a failure changes nothing is kept by the edits that do not fail, and by those. -/
theorem edit_failure_keeps_iff (ed : GraphEditor) (op : EditOp) :
    ((∃ e, (ed.edit op).1 = .error e) → (ed.edit op).2 = ed) ↔
      op.Possible ed.graph ∨
        (ed.redoStack = [] ∧ maxUndo ≤ ed.undoStack.length ∧
          ∀ g ∈ ed.undoStack, g = ed.graph) := by
  rw [← op.apply_isOk_iff, ← pushUndo_eq_self_iff]
  cases h : op.apply ed.graph with
  | ok g => simp [edit_of_apply_ok h]
  | error e => simp [edit_of_apply_error h]

/-- The editor of the source's tests after one edit was undone. -/
def afterUndo : GraphEditor :=
  let ed := new { id := "wf.e", version := 1, name := "Editor", entryNode := "a"
                  nodes := [{ nodeId := "a", actionRef := "cmd:a" }], edges := [] }
  (ed.edit (.addNode "b" "cmd:b")).2.undo.2

/-- Adding a node that exists fails, and the edit that was undone can no longer be redone. -/
theorem not_edit_failure_keeps :
    ¬ ∀ (ed : GraphEditor) (op : EditOp),
      (∃ e, (ed.edit op).1 = .error e) → (ed.edit op).2 = ed := by
  intro h
  have hredo : (afterUndo.edit (.addNode "a" "cmd:a")).2.redoStack = afterUndo.redoStack :=
    congrArg redoStack (h afterUndo (.addNode "a" "cmd:a") ⟨"duplicate node: a", rfl⟩)
  exact absurd hredo (by decide)

/-! ## The timeline -/

/-- All drafts that the editor keeps, the oldest first: those that can be undone, the present one,
and those that can be redone. -/
def timeline (ed : GraphEditor) : List WorkflowGraph :=
  ed.undoStack ++ ed.graph :: ed.redoStack.reverse

theorem length_timeline (ed : GraphEditor) :
    ed.timeline.length = ed.undoStack.length + ed.redoStack.length + 1 := by
  simp [timeline, Nat.add_assoc]

/-- A timeline and a place in it determine the editor. -/
theorem ext_timeline {ed ed' : GraphEditor} (h : ed.timeline = ed'.timeline)
    (hplace : ed.undoStack.length = ed'.undoStack.length) : ed = ed' := by
  obtain ⟨hundo, hrest⟩ := List.append_inj h hplace
  obtain ⟨hgraph, hredo⟩ := List.cons.inj hrest
  obtain ⟨graph, us, rs⟩ := ed
  obtain rfl : us = _ := hundo
  obtain rfl : graph = _ := hgraph
  obtain rfl : rs = _ := List.reverse_injective hredo
  rfl

/-- The stack with a top is the rest with that top on it. -/
theorem eq_dropLast_concat {xs : List WorkflowGraph} {x : WorkflowGraph}
    (h : xs.getLast? = some x) : xs = xs.dropLast ++ [x] :=
  (List.dropLast_append_getLast? x h).symm

/-- What undoing does when there is something to undo. -/
theorem undo_of_getLast? {ed : GraphEditor} {prev : WorkflowGraph}
    (h : ed.undoStack.getLast? = some prev) :
    ed.undo = (true, ⟨prev, ed.undoStack.dropLast, ed.redoStack ++ [ed.graph]⟩) := by
  simp only [undo, h]

theorem undo_of_nil {ed : GraphEditor} (h : ed.undoStack = []) : ed.undo = (false, ed) := by
  simp only [undo, h, List.getLast?_nil]

/-- What redoing does when there is something to redo. -/
theorem redo_of_getLast? {ed : GraphEditor} {next : WorkflowGraph}
    (h : ed.redoStack.getLast? = some next) :
    ed.redo = (true, ⟨next, ed.undoStack ++ [ed.graph], ed.redoStack.dropLast⟩) := by
  simp only [redo, h]

theorem redo_of_nil {ed : GraphEditor} (h : ed.redoStack = []) : ed.redo = (false, ed) := by
  simp only [redo, h, List.getLast?_nil]

/-- Undoing moves within the timeline. -/
theorem timeline_undo (ed : GraphEditor) : ed.undo.2.timeline = ed.timeline := by
  rcases h : ed.undoStack.getLast? with _ | prev
  · rw [undo_of_nil (List.getLast?_eq_none_iff.mp h)]
  · rw [undo_of_getLast? h]
    conv_rhs => rw [timeline, eq_dropLast_concat h]
    simp [timeline]

/-- Redoing moves within the timeline. -/
theorem timeline_redo (ed : GraphEditor) : ed.redo.2.timeline = ed.timeline := by
  rcases h : ed.redoStack.getLast? with _ | next
  · rw [redo_of_nil (List.getLast?_eq_none_iff.mp h)]
  · rw [redo_of_getLast? h]
    conv_rhs => rw [timeline, eq_dropLast_concat h]
    simp [timeline]

/-- Undoing moves one draft back, if there is one. -/
theorem length_undoStack_undo (ed : GraphEditor) :
    ed.undo.2.undoStack.length = ed.undoStack.length - 1 := by
  rcases h : ed.undoStack.getLast? with _ | prev
  · rw [undo_of_nil (List.getLast?_eq_none_iff.mp h), List.getLast?_eq_none_iff.mp h]
    rfl
  · rw [undo_of_getLast? h, List.length_dropLast]

/-- Redoing moves one draft forward, if there is one. -/
theorem length_undoStack_redo {ed : GraphEditor} (h : ed.redoStack ≠ []) :
    ed.redo.2.undoStack.length = ed.undoStack.length + 1 := by
  rw [redo_of_getLast? (List.getLast?_eq_some_getLast h), List.length_append]
  rfl

theorem timeline_iterate_undo (ed : GraphEditor) (k : ℕ) :
    ((fun ed => ed.undo.2)^[k] ed).timeline = ed.timeline := by
  induction k with
  | zero => rfl
  | succ k ih => rw [Function.iterate_succ_apply', timeline_undo, ih]

theorem timeline_iterate_redo (ed : GraphEditor) (k : ℕ) :
    ((fun ed => ed.redo.2)^[k] ed).timeline = ed.timeline := by
  induction k with
  | zero => rfl
  | succ k ih => rw [Function.iterate_succ_apply', timeline_redo, ih]

theorem length_undoStack_iterate_undo (ed : GraphEditor) (k : ℕ) :
    ((fun ed => ed.undo.2)^[k] ed).undoStack.length = ed.undoStack.length - k := by
  induction k with
  | zero => rfl
  | succ k ih => rw [Function.iterate_succ_apply', length_undoStack_undo, ih, Nat.sub_sub]

theorem length_undoStack_iterate_redo (ed : GraphEditor) (k : ℕ) (hk : k ≤ ed.redoStack.length) :
    ((fun ed => ed.redo.2)^[k] ed).undoStack.length = ed.undoStack.length + k := by
  induction k with
  | zero => rfl
  | succ k ih =>
      have hlen := ih (Nat.le_of_succ_le hk)
      rw [Function.iterate_succ_apply', length_undoStack_redo, hlen, Nat.add_assoc]
      -- the place is not yet the last of the timeline
      intro hnil
      have htotal := congrArg List.length (timeline_iterate_redo ed k)
      rw [length_timeline, length_timeline, hlen, hnil, List.length_nil] at htotal
      omega

/-- As many redos as undos lead back. -/
theorem iterate_redo_iterate_undo (ed : GraphEditor) (k : ℕ) (hk : k ≤ ed.undoStack.length) :
    (fun ed => ed.redo.2)^[k] ((fun ed => ed.undo.2)^[k] ed) = ed := by
  have hplace := length_undoStack_iterate_undo ed k
  have htotal := congrArg List.length (timeline_iterate_undo ed k)
  rw [length_timeline, length_timeline] at htotal
  apply ext_timeline
  · rw [timeline_iterate_redo, timeline_iterate_undo]
  · rw [length_undoStack_iterate_redo _ _ (by omega)]
    omega

/-! ## Runs -/

/-- What a user does with the editor. -/
inductive Action
  | edit (op : EditOp)
  | undo
  | redo

/-- The editor after one action, which may fail or find nothing to do. -/
def act (ed : GraphEditor) : Action → GraphEditor
  | .edit op => (ed.edit op).2
  | .undo => ed.undo.2
  | .redo => ed.redo.2

/-- Both stacks together are within the bound of the undo stack. -/
def Bounded (ed : GraphEditor) : Prop := ed.undoStack.length + ed.redoStack.length ≤ maxUndo

theorem bounded_of_timeline {ed ed' : GraphEditor} (h : ed'.timeline = ed.timeline)
    (hb : ed.Bounded) : ed'.Bounded := by
  have htotal := congrArg List.length h
  rw [length_timeline, length_timeline] at htotal
  unfold Bounded at hb ⊢
  omega

theorem pushUndo_bounded {ed : GraphEditor} (h : ed.Bounded) : ed.pushUndo.Bounded := by
  unfold Bounded at h ⊢
  simp only [pushUndo, List.length_append, List.length_singleton, List.length_nil]
  split_ifs with hfull
  · simp only [List.length_tail, List.length_append, List.length_singleton]
    omega
  · simp only [List.length_append, List.length_singleton]
    omega

/-- **One action** keeps both stacks within the bound. -/
theorem Bounded.act {ed : GraphEditor} (h : ed.Bounded) (a : Action) : (ed.act a).Bounded := by
  cases a with
  | undo => exact bounded_of_timeline (timeline_undo ed) h
  | redo => exact bounded_of_timeline (timeline_redo ed) h
  | edit op =>
      have hpushed := pushUndo_bounded h
      cases happly : op.apply ed.graph with
      | ok g => rwa [GraphEditor.act, edit_of_apply_ok happly]
      | error e => rwa [GraphEditor.act, edit_of_apply_error happly]

/-- **A whole run** keeps both stacks within the bound. -/
theorem Bounded.foldl {ed : GraphEditor} (h : ed.Bounded) (as : List Action) :
    (as.foldl GraphEditor.act ed).Bounded := by
  induction as generalizing ed with
  | nil => exact h
  | cons a as ih => exact ih (h.act a)

/-- The draft before an edit is on top of the undo stack. -/
theorem getLast?_pushUndo (ed : GraphEditor) :
    ed.pushUndo.undoStack.getLast? = some ed.graph := by
  simp only [pushUndo]
  split_ifs with hfull
  · cases hus : ed.undoStack with
    | nil => exact absurd hfull (by simp [hus, maxUndo])
    | cons x xs => simp
  · simp

/-- What is undone can be redone, which gives the editor back. -/
theorem redo_undo {ed : GraphEditor} {prev : WorkflowGraph}
    (h : ed.undoStack.getLast? = some prev) :
    ed.undo.1 = true ∧ ed.undo.2.graph = prev ∧ ed.undo.2.redo = (true, ed) := by
  have hback : ed.undo.2.redo.2 = ed := by
    apply iterate_redo_iterate_undo ed 1
    rw [eq_dropLast_concat h, List.length_append, List.length_singleton]
    exact Nat.le_add_left 1 _
  rw [undo_of_getLast? h] at hback ⊢
  refine ⟨rfl, rfl, Prod.ext ?_ hback⟩
  rw [redo_of_getLast? List.getLast?_concat]

/-- **The laws of undo and redo.** From every state a successful edit is undone to the draft before
it and then redone to the draft after it, and any number of undos up to the depth of the undo stack
is taken back, in the draft and in both stacks, by as many redos. In every run from a new editor the
two stacks together stay within the bound. -/
theorem undo_redo_laws :
    (∀ (ed : GraphEditor) (op : EditOp), (ed.edit op).1 = .ok () →
      (ed.edit op).2.undo.1 = true ∧ (ed.edit op).2.undo.2.graph = ed.graph ∧
      (ed.edit op).2.undo.2.redo.1 = true ∧
      (ed.edit op).2.undo.2.redo.2.graph = (ed.edit op).2.graph) ∧
    (∀ (g : WorkflowGraph) (as : List Action),
      let ed := as.foldl act (new g)
      ed.undoStack.length + ed.redoStack.length ≤ maxUndo) ∧
    ∀ (ed : GraphEditor) (k : ℕ), k ≤ ed.undoStack.length →
      (fun ed => ed.redo.2)^[k] ((fun ed => ed.undo.2)^[k] ed) = ed := by
  refine ⟨fun ed op h => ?_, fun g as => ?_, iterate_redo_iterate_undo⟩
  · obtain ⟨g, hg⟩ := (op.apply_isOk_iff ed.graph).mpr ((ed.edit_isOk_iff op).mp h)
    rw [edit_of_apply_ok hg]
    -- the edit itself leaves the stacks as the snapshot left them
    have htop : (GraphEditor.mk g ed.pushUndo.undoStack []).undoStack.getLast? = some ed.graph :=
      ed.getLast?_pushUndo
    obtain ⟨hundo, hbefore, hredo⟩ := redo_undo htop
    refine ⟨hundo, hbefore, congrArg Prod.fst hredo, ?_⟩
    exact congrArg (fun r => r.2.graph) hredo
  · exact Bounded.foldl (Nat.zero_le _) as

end GraphEditor

namespace GraphEditor

/-! ## The drafts of a run -/

theorem mem_timeline_pushUndo {ed : GraphEditor} {g : WorkflowGraph}
    (h : g ∈ ed.pushUndo.timeline) : g ∈ ed.timeline := by
  have hpushed : ∀ x, x ∈ ed.pushUndo.undoStack → x ∈ ed.undoStack ++ [ed.graph] := by
    intro x hx
    simp only [pushUndo] at hx
    split_ifs at hx
    · exact List.mem_of_mem_tail hx
    · exact hx
  simp only [timeline, pushUndo_graph, List.mem_append, List.mem_cons, List.mem_reverse] at h ⊢
  rcases h with h | h | h
  · rcases List.mem_append.mp (hpushed g h) with h | h
    · exact .inl h
    · exact .inr (.inl (List.mem_singleton.mp h))
  · exact .inr (.inl h)
  · exact absurd h (by simp [pushUndo])

/-- An action adds to the drafts what a successful edit makes of the present one, and no other. -/
theorem mem_timeline_act {ed : GraphEditor} {a : Action} {g : WorkflowGraph}
    (h : g ∈ (ed.act a).timeline) :
    g ∈ ed.timeline ∨ ∃ op, a = .edit op ∧ op.apply ed.graph = .ok g := by
  cases a with
  | undo =>
      rw [act, timeline_undo] at h
      exact .inl h
  | redo =>
      rw [act, timeline_redo] at h
      exact .inl h
  | edit op =>
      cases happly : op.apply ed.graph with
      | error e =>
          rw [act, edit_of_apply_error happly] at h
          exact .inl (mem_timeline_pushUndo h)
      | ok g' =>
          rw [act, edit_of_apply_ok happly] at h
          simp only [timeline, List.mem_append, List.mem_cons, List.mem_reverse] at h
          rcases h with h | rfl | h
          · exact .inl (mem_timeline_pushUndo (List.mem_append_left _ h))
          · exact .inr ⟨op, rfl, happly⟩
          · exact absurd h (by simp [pushUndo])

theorem graph_mem_timeline (ed : GraphEditor) : ed.graph ∈ ed.timeline :=
  List.mem_append_right _ List.mem_cons_self

/-- **What every edit keeps, every draft of a run has**, the present one and those on the stacks. -/
theorem timeline_foldl_act {P : WorkflowGraph → Prop}
    (hedit : ∀ g op g', P g → EditOp.apply g op = .ok g' → P g') {ed : GraphEditor}
    (h : ∀ g ∈ ed.timeline, P g) (as : List Action) :
    ∀ g ∈ (as.foldl act ed).timeline, P g := by
  induction as generalizing ed with
  | nil => exact h
  | cons a as ih =>
      refine ih fun g hg => ?_
      rcases mem_timeline_act hg with hold | ⟨op, -, happly⟩
      · exact h g hold
      · exact hedit _ op g (h _ ed.graph_mem_timeline) happly

end GraphEditor

/-! ## What every draft has -/

theorem ids_setFirstCondition {nodeId : NodeId} {condition : Option ConditionExpr}
    {nodes nodes' : List WorkflowNode}
    (h : setFirstCondition nodeId condition nodes = some nodes') :
    nodes'.map (·.nodeId) = nodes.map (·.nodeId) := by
  induction nodes generalizing nodes' with
  | nil => cases h
  | cons n nodes ih =>
      unfold setFirstCondition at h
      split_ifs at h
      · obtain rfl := Option.some.inj h
        rfl
      · obtain ⟨rest, hrest, rfl⟩ := Option.map_eq_some_iff.mp h
        rw [List.map_cons, ih hrest, List.map_cons]

/-- The ids of the nodes differ, and the entry is one of them. -/
structure WorkflowGraph.Editable (entry : NodeId) (g : WorkflowGraph) : Prop where
  nodup : g.ids.Nodup
  entryNode : g.entryNode = entry
  mem : entry ∈ g.ids

/-- **An edit** keeps the ids apart and the entry among them. -/
theorem WorkflowGraph.Editable.apply {entry : NodeId} {g g' : WorkflowGraph} {op : EditOp}
    (h : g.Editable entry) (hop : op.apply g = .ok g') : g'.Editable entry := by
  cases op with
  | addNode nodeId actionRef =>
      simp only [EditOp.apply] at hop
      split_ifs at hop with hany
      obtain rfl := Except.ok.inj hop
      have hfresh : nodeId ∉ g.ids := fun hmem => hany <| by
        obtain ⟨n, hn, hid⟩ := WorkflowGraph.mem_ids.mp hmem
        exact List.any_eq_true.mpr ⟨n, hn, by simpa using hid⟩
      have hids : WorkflowGraph.ids { g with nodes := g.nodes ++ [{ nodeId, actionRef }] } =
          g.ids ++ [nodeId] := by
        simp [WorkflowGraph.ids]
      refine ⟨?_, h.entryNode, ?_⟩
      · rw [hids]
        exact h.nodup.append (List.nodup_singleton nodeId)
          (by simpa using fun hmem => hfresh hmem)
      · rw [hids]
        exact List.mem_append_left _ h.mem
  | removeNode nodeId =>
      simp only [EditOp.apply] at hop
      split_ifs at hop with hentry
      obtain rfl := Except.ok.inj hop
      refine ⟨h.nodup.sublist (List.filter_sublist.map _), h.entryNode, ?_⟩
      obtain ⟨n, hn, hid⟩ := WorkflowGraph.mem_ids.mp h.mem
      refine WorkflowGraph.mem_ids.mpr ⟨n, List.mem_filter.mpr ⟨hn, ?_⟩, hid⟩
      rw [hid, ← h.entryNode]
      exact bne_iff_ne.mpr hentry
  | addEdge «from» «to» =>
      obtain rfl := Except.ok.inj hop
      exact ⟨h.nodup, h.entryNode, h.mem⟩
  | removeEdge «from» «to» =>
      obtain rfl := Except.ok.inj hop
      exact ⟨h.nodup, h.entryNode, h.mem⟩
  | setCondition nodeId condition =>
      simp only [EditOp.apply] at hop
      split at hop
      · rename_i nodes hset
        obtain rfl := Except.ok.inj hop
        have hids : WorkflowGraph.ids { g with nodes } = g.ids := ids_setFirstCondition hset
        exact ⟨hids ▸ h.nodup, h.entryNode, hids ▸ h.mem⟩
      · cases hop

/-! ## The surface -/

/-- Source: `editor_surface.rs`, `debug_op`. -/
def debugOp : ConditionOp → String
  | .eq => "=="
  | .ne => "!="
  | .gt => ">"
  | .lt => "<"

/-- Source: `editor_surface.rs`, `EditorRow`. -/
structure EditorRow where
  nodeId : String
  actionRef : String
  /-- Empty for a node without a condition. -/
  condition : String
  deriving DecidableEq, Repr

/-- The row of a node. Source: `editor_surface.rs`, `EditorSurface::refresh`. -/
def EditorRow.ofNode (n : WorkflowNode) : EditorRow where
  nodeId := n.nodeId
  actionRef := n.actionRef
  condition := n.condition.elim "" fun c => c.left ++ " " ++ debugOp c.op ++ " " ++ c.right

/-- The rows of a graph in the order of the ids. Source: `editor_surface.rs`,
`EditorSurface::refresh`. -/
def projectRows (g : WorkflowGraph) : List EditorRow :=
  (g.nodes.map EditorRow.ofNode).mergeSort fun a b => decide (a.nodeId ≤ b.nodeId)

/-- Source: `editor_surface.rs`, `EditorSurface`. -/
structure EditorSurface where
  editor : GraphEditor
  rows : List EditorRow
  deriving DecidableEq

namespace EditorSurface

/-- Source: `editor_surface.rs`, `EditorSurface::refresh`. -/
def refresh (s : EditorSurface) : EditorSurface := { s with rows := projectRows s.editor.graph }

/-- Source: `editor_surface.rs`, `EditorSurface::new`. -/
def new (editor : GraphEditor) : EditorSurface := refresh ⟨editor, []⟩

/-- One edit; the rows are made again if it succeeds. Source: `editor_surface.rs`, `add_node`,
`remove_node`, `add_edge` and `remove_edge` of `EditorSurface`. -/
def edit (s : EditorSurface) (op : EditOp) : Except String Unit × EditorSurface :=
  match s.editor.edit op with
  | (.ok (), editor) => (.ok (), refresh { s with editor })
  | (.error e, editor) => (.error e, { s with editor })

/-- Source: `editor_surface.rs`, `EditorSurface::undo`. -/
def undo (s : EditorSurface) : Bool × EditorSurface :=
  match s.editor.undo with
  | (true, editor) => (true, refresh { s with editor })
  | (false, editor) => (false, { s with editor })

/-- Source: `editor_surface.rs`, `EditorSurface::redo`. -/
def redo (s : EditorSurface) : Bool × EditorSurface :=
  match s.editor.redo with
  | (true, editor) => (true, refresh { s with editor })
  | (false, editor) => (false, { s with editor })

/-- The surface after one action. -/
def act (s : EditorSurface) : GraphEditor.Action → EditorSurface
  | .edit op => (s.edit op).2
  | .undo => s.undo.2
  | .redo => s.redo.2

/-- The rows are those of the draft. -/
def Fresh (s : EditorSurface) : Prop := s.rows = projectRows s.editor.graph

theorem Fresh.congr {s : EditorSurface} (h : s.Fresh) {editor : GraphEditor}
    (hgraph : editor.graph = s.editor.graph) : Fresh { s with editor } :=
  h.trans (congrArg projectRows hgraph.symm)

/-- **One action** does to the editor what it does without the surface, and leaves the rows those
of the draft. -/
theorem Fresh.act {s : EditorSurface} (h : s.Fresh) (a : GraphEditor.Action) :
    (s.act a).Fresh ∧ (s.act a).editor = s.editor.act a := by
  cases a with
  | edit op =>
      cases happly : op.apply s.editor.graph with
      | ok g =>
          simp only [EditorSurface.act, GraphEditor.act, edit,
            GraphEditor.edit_of_apply_ok happly]
          exact ⟨rfl, rfl⟩
      | error e =>
          simp only [EditorSurface.act, GraphEditor.act, edit,
            GraphEditor.edit_of_apply_error happly]
          exact ⟨h.congr (GraphEditor.pushUndo_graph _), trivial⟩
  | undo =>
      cases hlast : s.editor.undoStack.getLast? with
      | none =>
          simp only [EditorSurface.act, GraphEditor.act, undo,
            GraphEditor.undo_of_nil (List.getLast?_eq_none_iff.mp hlast)]
          exact ⟨h, trivial⟩
      | some prev =>
          simp only [EditorSurface.act, GraphEditor.act, undo,
            GraphEditor.undo_of_getLast? hlast]
          exact ⟨rfl, rfl⟩
  | redo =>
      cases hlast : s.editor.redoStack.getLast? with
      | none =>
          simp only [EditorSurface.act, GraphEditor.act, redo,
            GraphEditor.redo_of_nil (List.getLast?_eq_none_iff.mp hlast)]
          exact ⟨h, trivial⟩
      | some next =>
          simp only [EditorSurface.act, GraphEditor.act, redo,
            GraphEditor.redo_of_getLast? hlast]
          exact ⟨rfl, rfl⟩

/-- **A whole run.** -/
theorem Fresh.foldl {s : EditorSurface} (h : s.Fresh) (as : List GraphEditor.Action) :
    (as.foldl EditorSurface.act s).Fresh ∧
      (as.foldl EditorSurface.act s).editor = as.foldl GraphEditor.act s.editor := by
  induction as generalizing s with
  | nil => exact ⟨h, rfl⟩
  | cons a as ih =>
      obtain ⟨hfresh, heditor⟩ := h.act a
      obtain ⟨hrest, hrun⟩ := ih hfresh
      exact ⟨hrest, hrun.trans (by rw [heditor]; rfl)⟩

end EditorSurface

theorem mem_projectRows {g : WorkflowGraph} {row : EditorRow} :
    row ∈ projectRows g ↔ ∃ n ∈ g.nodes, EditorRow.ofNode n = row := by
  rw [projectRows, List.mem_mergeSort, List.mem_map]

/-- The rows of a graph whose ids differ stand in the order of the ids, each once. -/
theorem projectRows_sorted {g : WorkflowGraph} (h : g.ids.Nodup) :
    (projectRows g).Pairwise fun a b => a.nodeId < b.nodeId := by
  have hle : (projectRows g).Pairwise fun a b => decide (a.nodeId ≤ b.nodeId) := by
    apply List.pairwise_mergeSort
    · intro a b c hab hbc
      simp only [decide_eq_true_eq] at *
      exact le_trans hab hbc
    · intro a b
      simpa using le_total a.nodeId b.nodeId
  have hids : ((projectRows g).map EditorRow.nodeId).Nodup := by
    refine (List.Perm.nodup_iff ((List.mergeSort_perm _ _).map _)).mpr ?_
    rw [List.map_map]
    exact h
  have hne : (projectRows g).Pairwise fun a b => a.nodeId ≠ b.nodeId := List.pairwise_map.mp hids
  exact (hle.and hne).imp fun hab => lt_of_le_of_ne (of_decide_eq_true hab.1) hab.2

/-! ## The draft on disk -/

/-- The text of an error, with its lists as `Debug` writes them. Source: `graph.rs`, `Display` of
`GraphError`. -/
def GraphError.display (std : Domain.RustStd) : GraphError → String
  | .duplicateNode id => "duplicate node id: " ++ id
  | .missingEntryNode id => "entry node not found: " ++ id
  | .multipleEntry ids => "multiple entry candidates: " ++ debugIds ids
  | .danglingEdge «from» «to» => "dangling edge: " ++ «from» ++ " -> " ++ «to»
  | .selfLoop id => "self-loop on node: " ++ id
  | .cycle ids => "cycle detected (DAG-only policy): " ++ debugIds ids
  | .unreachableNode id => "unreachable node: " ++ id
  | .empty => "graph has no nodes"
where
  debugIds (ids : List NodeId) : String :=
    "[" ++ ", ".intercalate (ids.map std.strDebug) ++ "]"

/-- `serde_json` on graphs, with the texts of its errors. -/
structure GraphCodec where
  std : Domain.RustStd
  /-- `to_string_pretty`. -/
  encode : WorkflowGraph → Except String String
  /-- `from_str`. -/
  decode : String → Except String WorkflowGraph

variable (C : GraphCodec)

/-- Source: `editor.rs`, `export_json`. -/
def exportJson (g : WorkflowGraph) : Except String String :=
  match validate g with
  | .error e => .error (e.display C.std)
  | .ok () => C.encode g

/-- Source: `editor.rs`, `import_json`. -/
def importJson (json : String) : Except String WorkflowGraph :=
  match C.decode json with
  | .error e => .error e
  | .ok g =>
      match validate g with
      | .error e => .error (e.display C.std)
      | .ok () => .ok g

/-- The status line, empty for a valid graph. Source: `editor_surface.rs`, `status_text`. -/
def statusText (g : WorkflowGraph) : String :=
  match validate g with
  | .ok () => ""
  | .error e => "INVALID: " ++ e.display C.std

/-- The graph that an editor starts with. Source: `editor_surface.rs`, `ensure_editor`. -/
def freshGraph : WorkflowGraph where
  id := "wf.edited"
  version := 1
  name := "Edited Workflow"
  entryNode := "start"
  nodes := [{ nodeId := "start", actionRef := "cmd:open" }]
  edges := []

/-- The surface when the editor is opened for the first time: with the draft where there is one that
can be imported. Source: `editor_surface.rs`, `ensure_editor`. -/
def openEditor (draft : Option String) : EditorSurface :=
  .new (.new ((draft.bind fun json => (importJson C json).toOption).getD freshGraph))

/-- The answer to an export, and the draft on disk after it. Source: `editor_surface.rs`,
`export_draft`. -/
def exportDraft (s : EditorSurface) (draft : Option String) : Except String Unit × Option String :=
  match exportJson C s.editor.graph with
  | .error e => (.error e, draft)
  | .ok json => (.ok (), some json)

theorem importJson_eq_ok {json : String} {g : WorkflowGraph} (h : importJson C json = .ok g) :
    IsDag g := by
  unfold importJson at h
  split at h
  · cases h
  · split at h
    · cases h
    · rename_i hvalid
      obtain rfl := Except.ok.inj h
      exact (validate_ok_iff_isDag _).mp hvalid

/-- The editor is opened with a graph that passes the check. -/
theorem isDag_openEditor (draft : Option String) : IsDag (openEditor C draft).editor.graph := by
  have hfresh : IsDag freshGraph := (validate_ok_iff_isDag _).mp (by decide +kernel)
  change IsDag ((draft.bind fun json => (importJson C json).toOption).getD freshGraph)
  cases draft with
  | none => exact hfresh
  | some json =>
      cases himport : importJson C json with
      | error e =>
          rw [Option.bind_some, himport]
          exact hfresh
      | ok g =>
          rw [Option.bind_some, himport]
          exact importJson_eq_ok C himport

theorem statusText_eq_empty_iff (g : WorkflowGraph) : statusText C g = "" ↔ IsDag g := by
  rw [← validate_ok_iff_isDag, statusText]
  cases hvalid : validate g with
  | ok u => simp
  | error e => simp [String.append_eq_empty_iff]

/-- **The editor and what it shows.** However the editor was opened and whatever was done with it,
undone and redone, the rows are those of the draft, one for each node, in the order of the ids; the
entry that it was opened with is among them. The status is empty exactly for the drafts that pass
the check; a draft that does not is not saved, and one that is saved is shown in the same rows when
the editor is opened with it, where the text reads back. -/
theorem editorSurface_spec (draft : Option String) (as : List GraphEditor.Action) :
    let s := as.foldl EditorSurface.act (openEditor C draft)
    s.rows.Pairwise (fun a b => a.nodeId < b.nodeId) ∧
    (∀ row, row ∈ s.rows ↔ ∃ n ∈ s.editor.graph.nodes, EditorRow.ofNode n = row) ∧
    (∃ row ∈ s.rows, row.nodeId = (openEditor C draft).editor.graph.entryNode) ∧
    (statusText C s.editor.graph = "" ↔ IsDag s.editor.graph) ∧
    (∀ saved, ¬IsDag s.editor.graph → (exportDraft C s saved).2 = saved) ∧
    ∀ saved json, exportDraft C s saved = (.ok (), some json) →
      C.decode json = .ok s.editor.graph → (openEditor C (some json)).rows = s.rows := by
  intro s
  have hdag := isDag_openEditor C draft
  have hopen : (openEditor C draft).Fresh := rfl
  obtain ⟨hrows, heditor⟩ := hopen.foldl as
  have hstart : ∀ g ∈ (openEditor C draft).editor.timeline,
      g.Editable (openEditor C draft).editor.graph.entryNode := by
    intro g hg
    -- nothing has been undone or redone yet
    obtain rfl : g = (openEditor C draft).editor.graph := by
      simpa [GraphEditor.timeline, openEditor, EditorSurface.new, EditorSurface.refresh,
        GraphEditor.new] using hg
    exact ⟨hdag.nodup, rfl, hdag.entry_mem⟩
  have heditable : s.editor.graph.Editable (openEditor C draft).editor.graph.entryNode :=
    GraphEditor.timeline_foldl_act (fun _ _ _ h hop => h.apply hop) hstart as _
      (heditor ▸ GraphEditor.graph_mem_timeline _)
  have hmem : ∀ row, row ∈ s.rows ↔ ∃ n ∈ s.editor.graph.nodes, EditorRow.ofNode n = row :=
    fun row => by rw [show s.rows = projectRows s.editor.graph from hrows, mem_projectRows]
  refine ⟨?_, hmem, ?_, statusText_eq_empty_iff C _, fun saved hnot => ?_, ?_⟩
  · rw [show s.rows = projectRows s.editor.graph from hrows]
    exact projectRows_sorted heditable.nodup
  · obtain ⟨n, hn, hid⟩ := WorkflowGraph.mem_ids.mp heditable.mem
    exact ⟨_, (hmem _).mpr ⟨n, hn, rfl⟩, hid⟩
  · have hexport : ∃ e, exportJson C s.editor.graph = .error e := by
      unfold exportJson
      cases hvalid : validate s.editor.graph with
      | error e => exact ⟨_, rfl⟩
      | ok u => exact absurd ((validate_ok_iff_isDag _).mp hvalid) hnot
    obtain ⟨e, he⟩ := hexport
    rw [exportDraft, he]
  · intro saved json hsaved hdecode
    have hvalid : validate s.editor.graph = .ok () := by
      unfold exportDraft exportJson at hsaved
      cases hvalid : validate s.editor.graph with
      | ok u => rfl
      | error e => simp [hvalid] at hsaved
    have himport : importJson C json = .ok s.editor.graph := by
      simp only [importJson, hdecode, hvalid]
    have hopened : (openEditor C (some json)).rows = projectRows s.editor.graph := by
      change projectRows (((importJson C json).toOption).getD freshGraph) = _
      rw [himport]
      rfl
    rw [hopened]
    exact hrows.symm

/-- A node is added, joined to the entry, undone and redone. -/
def demoActions : List GraphEditor.Action :=
  [.edit (.addNode "a" "cmd:a"), .edit (.addEdge "start" "a"), .undo, .redo]

/-- What the four actions make of the first draft. -/
def demoDraft : WorkflowGraph :=
  { freshGraph with
    nodes := freshGraph.nodes ++ [{ nodeId := "a", actionRef := "cmd:a" }]
    edges := [{ «from» := "start", «to» := "a" }] }

/-- The crate on the text of one draft. -/
def demoCodec : GraphCodec where
  std := .ascii
  encode _ := .ok "draft"
  decode _ := .ok demoDraft

/-- The draft of the four actions, saved and opened. -/
theorem editorSurface_spec_demo :
    (openEditor demoCodec (some "draft")).rows =
      (demoActions.foldl EditorSurface.act (openEditor demoCodec none)).rows := by
  have hgraph : (demoActions.foldl EditorSurface.act (openEditor demoCodec none)).editor.graph =
      demoDraft := by
    decide +kernel
  have hsaved : exportDraft demoCodec
      (demoActions.foldl EditorSurface.act (openEditor demoCodec none)) none =
        (.ok (), some "draft") := by
    have hvalid : validate demoDraft = .ok () := by decide +kernel
    simp only [exportDraft, exportJson, hgraph, hvalid]
    rfl
  exact (editorSurface_spec demoCodec none demoActions).2.2.2.2.2 none "draft" hsaved
    (congrArg Except.ok hgraph.symm)

end AuraLauncher.Workflow
