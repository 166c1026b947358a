import AuraLauncher.Lib.Digraph
import Mathlib.Data.String.Basic

/-!
# The workflow graph and its validator

`graph.rs`: the persisted graph of a workflow and the check that runs before a save and before an
execution.

* `WorkflowNode`, `WorkflowEdge`, `WorkflowGraph` — the data model, with its conditions.
* `validate` — the check, in the order of the source: the cheap structural checks, reachability from
  the entry, cycle detection. The two loops are `Digraph.reach` and `Digraph.paintAll` of the graph
  library at the edges of the graph.
* `IsDag` — what the check is for, as a structure: the scheduler's results take it as a hypothesis
  and use its fields.
* `validate_ok_iff_isDag` — the check accepts exactly the graphs with `IsDag`.
-/

namespace AuraLauncher.Workflow

open AuraLauncher.Lib Relation

/-- A node id. Source: `graph.rs`, `NodeId`. -/
abbrev NodeId := String

/-- The comparison of a condition. Source: `graph.rs`, `ConditionOp`. -/
inductive ConditionOp
  | eq
  | ne
  | gt
  | lt
  deriving DecidableEq, Repr

/-- A condition `left OP right`; an operand with a leading `$` refers to a variable, any other
operand is a literal. Source: `graph.rs`, `ConditionExpr`. -/
structure ConditionExpr where
  left : String
  op : ConditionOp
  right : String
  deriving DecidableEq, Repr

/-- A node: an action reference with control data. Source: `graph.rs`, `WorkflowNode`. -/
structure WorkflowNode where
  nodeId : NodeId
  actionRef : String
  /-- The variables that receive the output of the node. -/
  outputVariables : List String := []
  /-- The node is skipped when its condition is false. -/
  condition : Option ConditionExpr := none
  /-- The node waits for a human approval before it runs. -/
  approval : Bool := false
  deriving DecidableEq, Repr

/-- An edge; its condition is documented as "branch taken only when true".
Source: `graph.rs`, `WorkflowEdge`. -/
structure WorkflowEdge where
  «from» : NodeId
  «to» : NodeId
  condition : Option ConditionExpr := none
  deriving DecidableEq, Repr

/-- A workflow definition. Source: `graph.rs`, `WorkflowGraph`. -/
structure WorkflowGraph where
  id : String
  version : UInt64
  name : String
  entryNode : NodeId
  nodes : List WorkflowNode
  edges : List WorkflowEdge
  deriving DecidableEq

namespace WorkflowGraph

/-- The node ids in node order. -/
def ids (g : WorkflowGraph) : List NodeId := g.nodes.map (·.nodeId)

/-- The edges of a graph as pairs of node ids; the validator reads no more of them. -/
def edgeList (g : WorkflowGraph) : List (NodeId × NodeId) := g.edges.map fun e => (e.from, e.to)

/-- The edges that end in `id`, in edge order. -/
def incoming (g : WorkflowGraph) (id : NodeId) : List WorkflowEdge :=
  g.edges.filter fun e => decide (e.to = id)

theorem mem_ids {g : WorkflowGraph} {id : NodeId} : id ∈ g.ids ↔ ∃ n ∈ g.nodes, n.nodeId = id :=
  List.mem_map

theorem nodeId_mem_ids {g : WorkflowGraph} {n : WorkflowNode} (h : n ∈ g.nodes) :
    n.nodeId ∈ g.ids :=
  List.mem_map_of_mem h

@[simp] theorem mem_incoming {g : WorkflowGraph} {id : NodeId} {e : WorkflowEdge} :
    e ∈ g.incoming id ↔ e ∈ g.edges ∧ e.to = id := by
  simp [incoming]

theorem edge_iff {g : WorkflowGraph} {x y : NodeId} :
    Digraph.Edge g.edgeList x y ↔ ∃ e ∈ g.edges, e.from = x ∧ e.to = y := by
  simp [Digraph.Edge, edgeList]

end WorkflowGraph

/-- Why a graph is refused. Source: `graph.rs`, `GraphError`. -/
inductive GraphError
  | duplicateNode (id : NodeId)
  | missingEntryNode (id : NodeId)
  | multipleEntry (ids : List NodeId)
  | danglingEdge («from» «to» : NodeId)
  | selfLoop (id : NodeId)
  | cycle (ids : List NodeId)
  | unreachableNode (id : NodeId)
  | empty
  deriving DecidableEq

/-! ## The check -/

/-- The first loop of `validate`: the set of node ids, or the first id met twice.
Source: `graph.rs`, `validate`. -/
def collectIds : List WorkflowNode → Finset NodeId → Except GraphError (Finset NodeId)
  | [], ids => .ok ids
  | n :: nodes, ids =>
      if n.nodeId ∈ ids then .error (.duplicateNode n.nodeId)
      else collectIds nodes (insert n.nodeId ids)

/-- The second loop of `validate`: both ends of every edge are nodes, and they differ. The adjacency
lists the source builds here are read back by `Digraph.succs`. Source: `graph.rs`, `validate`. -/
def checkEdges (ids : Finset NodeId) : List WorkflowEdge → Except GraphError Unit
  | [] => .ok ()
  | e :: edges =>
      if e.from ∉ ids ∨ e.to ∉ ids then .error (.danglingEdge e.from e.to)
      else if e.from = e.to then .error (.selfLoop e.from)
      else checkEdges ids edges

/-- The last part of `validate`: every node is reachable from the entry, and no search from a node
meets a node that it is still visiting. The payload of `cycle` is the reachable set, which the
source lists in hash order and the model in the order of the search.
Source: `graph.rs`, `validate`. -/
def checkShape (g : WorkflowGraph) : Except GraphError Unit :=
  let reachable := Digraph.reach g.edgeList g.entryNode
  match g.nodes.find? fun n => decide (n.nodeId ∉ reachable) with
  | some n => .error (.unreachableNode n.nodeId)
  | none =>
      match Digraph.paintAll g.edgeList g.ids with
      | .error _ => .error (.cycle reachable)
      | .ok _ => .ok ()

/-- The validation of a graph. Source: `graph.rs`, `validate`. -/
def validate (g : WorkflowGraph) : Except GraphError Unit :=
  if g.nodes.isEmpty then .error .empty
  else
    match collectIds g.nodes ∅ with
    | .error e => .error e
    | .ok ids =>
        if g.entryNode ∉ ids then .error (.missingEntryNode g.entryNode)
        else
          match checkEdges ids g.edges with
          | .error e => .error e
          | .ok () => checkShape g

/-! ## What the check is for -/

/-- A well-formed graph: one entry from which every node is reached, and no way back. -/
structure IsDag (g : WorkflowGraph) : Prop where
  nonempty : g.nodes ≠ []
  nodup : g.ids.Nodup
  entry_mem : g.entryNode ∈ g.ids
  endpoints : ∀ e ∈ g.edges, e.from ∈ g.ids ∧ e.to ∈ g.ids
  no_self_loop : ∀ e ∈ g.edges, e.from ≠ e.to
  reachable : ∀ id ∈ g.ids, ReflTransGen (Digraph.Edge g.edgeList) g.entryNode id
  acyclic : Digraph.Acyclic g.edgeList

theorem collectIds_ok_iff (nodes : List WorkflowNode) (ids ids' : Finset NodeId) :
    collectIds nodes ids = .ok ids' ↔
      (nodes.map (·.nodeId)).Nodup ∧ (∀ n ∈ nodes, n.nodeId ∉ ids) ∧
        ids' = ids ∪ (nodes.map (·.nodeId)).toFinset := by
  induction nodes generalizing ids with
  | nil => simp [collectIds, eq_comm]
  | cons n nodes ih =>
      unfold collectIds
      split_ifs with hn
      · simp [hn]
      · rw [ih]
        have hset : insert n.nodeId ids ∪ (nodes.map (·.nodeId)).toFinset =
            ids ∪ ((n :: nodes).map (·.nodeId)).toFinset := by
          ext x
          simp only [Finset.mem_union, Finset.mem_insert, List.mem_toFinset, List.map_cons,
            List.mem_cons]
          tauto
        rw [hset]
        simp only [List.map_cons, List.nodup_cons, List.mem_cons, forall_eq_or_imp, List.mem_map,
          Finset.mem_insert, not_or, not_exists, not_and]
        constructor
        · rintro ⟨hnd, hmem, rfl⟩
          exact ⟨⟨fun m hm => (hmem m hm).1, hnd⟩, ⟨hn, fun m hm => (hmem m hm).2⟩, rfl⟩
        · rintro ⟨⟨hnot, hnd⟩, ⟨-, hmem⟩, rfl⟩
          exact ⟨hnd, fun m hm => ⟨hnot m hm, hmem m hm⟩, rfl⟩

theorem checkEdges_ok_iff (ids : Finset NodeId) (edges : List WorkflowEdge) :
    checkEdges ids edges = .ok () ↔
      ∀ e ∈ edges, (e.from ∈ ids ∧ e.to ∈ ids) ∧ e.from ≠ e.to := by
  induction edges with
  | nil => simp [checkEdges]
  | cons e edges ih =>
      unfold checkEdges
      split_ifs with hends hloop
      · simp only [List.mem_cons, forall_eq_or_imp]
        tauto
      · simp [hloop]
      · rw [ih, List.forall_mem_cons]
        push Not at hends
        exact ⟨fun h => ⟨⟨hends, hloop⟩, h⟩, fun h => h.2⟩

theorem checkShape_ok_iff (g : WorkflowGraph) (hends : ∀ e ∈ g.edges, e.from ∈ g.ids) :
    checkShape g = .ok () ↔
      (∀ id ∈ g.ids, ReflTransGen (Digraph.Edge g.edgeList) g.entryNode id) ∧
        Digraph.Acyclic g.edgeList := by
  have hstarts : ∀ x y, Digraph.Edge g.edgeList x y → x ∈ g.ids := by
    intro x y hxy
    obtain ⟨e, he, rfl, -⟩ := WorkflowGraph.edge_iff.mp hxy
    exact hends e he
  have hcycle := Digraph.paintAll_isOk_iff hstarts
  unfold checkShape
  dsimp only
  cases hfind : g.nodes.find? fun n =>
      decide (n.nodeId ∉ Digraph.reach g.edgeList g.entryNode) with
  | some n =>
      have hn : n ∈ g.nodes := List.mem_of_find?_eq_some hfind
      have hnot := List.find?_some hfind
      rw [decide_eq_true_eq, Digraph.mem_reach_iff] at hnot
      constructor
      · intro h
        cases h
      · rintro ⟨hreach, -⟩
        exact absurd (hreach _ (WorkflowGraph.nodeId_mem_ids hn)) hnot
  | none =>
      have hreach : ∀ id ∈ g.ids, ReflTransGen (Digraph.Edge g.edgeList) g.entryNode id := by
        intro id hid
        obtain ⟨n, hn, rfl⟩ := WorkflowGraph.mem_ids.mp hid
        have hmem := List.find?_eq_none.mp hfind n hn
        simpa [Digraph.mem_reach_iff] using hmem
      cases hpaint : Digraph.paintAll g.edgeList g.ids with
      | error x =>
          rw [hpaint] at hcycle
          constructor
          · intro h
            cases h
          · rintro ⟨-, hac⟩
            obtain ⟨colour, hc⟩ := hcycle.mpr hac
            cases hc
      | ok colour => exact ⟨fun _ => ⟨hreach, hcycle.mp ⟨colour, hpaint⟩⟩, fun _ => rfl⟩

/-- The check accepts exactly the well-formed graphs. -/
theorem validate_ok_iff_isDag (g : WorkflowGraph) : validate g = .ok () ↔ IsDag g := by
  unfold validate
  by_cases hne : g.nodes = []
  · simp only [hne, List.isEmpty_nil, if_true]
    exact ⟨fun h => (nomatch h), fun h => absurd hne h.nonempty⟩
  · rw [if_neg (by simpa using hne)]
    have hids := collectIds_ok_iff g.nodes ∅
    cases hcollect : collectIds g.nodes ∅ with
    | error e =>
        refine ⟨fun h => (nomatch h), fun h => ?_⟩
        have hok := (hids g.ids.toFinset).mpr ⟨h.nodup, by simp, by simp [WorkflowGraph.ids]⟩
        rw [hok] at hcollect
        cases hcollect
    | ok ids =>
        obtain ⟨hnd, -, hset⟩ := (hids ids).mp hcollect
        have hmem : ∀ id, id ∈ ids ↔ id ∈ g.ids := by
          intro id
          simp [hset, WorkflowGraph.ids]
        have hedges := checkEdges_ok_iff ids g.edges
        simp only [hmem] at hedges
        simp only [hmem]
        by_cases hentry : g.entryNode ∈ g.ids
        · rw [if_neg (not_not.mpr hentry)]
          cases hcheck : checkEdges ids g.edges with
          | error e =>
              refine ⟨fun h => (nomatch h), fun h => ?_⟩
              rw [hedges.mpr fun e he => ⟨h.endpoints e he, h.no_self_loop e he⟩] at hcheck
              cases hcheck
          | ok _ =>
              have hends := hedges.mp hcheck
              have hshape := checkShape_ok_iff g fun e he => (hends e he).1.1
              refine hshape.trans ⟨?_, fun h => ⟨h.reachable, h.acyclic⟩⟩
              rintro ⟨hreach, hac⟩
              exact ⟨hne, hnd, hentry, fun e he => (hends e he).1, fun e he => (hends e he).2,
                hreach, hac⟩
        · rw [if_pos hentry]
          exact ⟨fun h => (nomatch h), fun h => absurd h.entry_mem hentry⟩

/-- **The validator is exact.** It returns `Ok` if and only if the graph has a node, node ids are
unique, the entry is a node, both ends of every edge are nodes, no edge is a self loop, every node
is reachable from the entry, and no node reaches itself along edges. -/
theorem validate_eq_ok_iff (g : WorkflowGraph) :
    validate g = .ok () ↔
      g.nodes ≠ [] ∧ (g.nodes.map (·.nodeId)).Nodup ∧
      (∃ n ∈ g.nodes, n.nodeId = g.entryNode) ∧
      (∀ e ∈ g.edges, (∃ n ∈ g.nodes, n.nodeId = e.from) ∧ ∃ n ∈ g.nodes, n.nodeId = e.to) ∧
      (∀ e ∈ g.edges, e.from ≠ e.to) ∧
      (∀ n ∈ g.nodes,
        ReflTransGen (fun x y => ∃ e ∈ g.edges, e.from = x ∧ e.to = y) g.entryNode n.nodeId) ∧
      ∀ x, ¬ TransGen (fun x y => ∃ e ∈ g.edges, e.from = x ∧ e.to = y) x x := by
  have hedge : (fun x y => ∃ e ∈ g.edges, e.from = x ∧ e.to = y) = Digraph.Edge g.edgeList := by
    funext x y
    exact propext WorkflowGraph.edge_iff.symm
  rw [validate_ok_iff_isDag, hedge]
  constructor
  · intro h
    exact ⟨h.nonempty, h.nodup, WorkflowGraph.mem_ids.mp h.entry_mem,
      fun e he => (h.endpoints e he).imp WorkflowGraph.mem_ids.mp WorkflowGraph.mem_ids.mp,
      h.no_self_loop, fun n hn => h.reachable _ (WorkflowGraph.nodeId_mem_ids hn), h.acyclic⟩
  · rintro ⟨hne, hnd, hentry, hends, hloop, hreach, hac⟩
    refine ⟨hne, hnd, WorkflowGraph.mem_ids.mpr hentry, fun e he => ?_, hloop, ?_, hac⟩
    · exact (hends e he).imp WorkflowGraph.mem_ids.mpr WorkflowGraph.mem_ids.mpr
    · intro id hid
      obtain ⟨n, hn, rfl⟩ := WorkflowGraph.mem_ids.mp hid
      exact hreach n hn

/-- The diamond of the source's test, `a` to `b` and `c`, both to `d`, is accepted. -/
example : validate
    { id := "wf.d", version := 1, name := "Diamond", entryNode := "a"
      nodes := [⟨"a", "cmd:a", [], none, false⟩, ⟨"b", "cmd:b", [], none, false⟩,
        ⟨"c", "cmd:c", [], none, false⟩, ⟨"d", "cmd:d", [], none, false⟩]
      edges := [⟨"a", "b", none⟩, ⟨"a", "c", none⟩, ⟨"b", "d", none⟩, ⟨"c", "d", none⟩] } =
    .ok () := by rfl

namespace IsDag

variable {g : WorkflowGraph}

/-- Every node other than the entry has an edge into it. -/
theorem incoming_ne_nil (h : IsDag g) {id : NodeId} (hid : id ∈ g.ids) (hne : id ≠ g.entryNode) :
    g.incoming id ≠ [] := by
  rcases ReflTransGen.cases_tail (h.reachable id hid) with heq | ⟨x, -, hx⟩
  · exact absurd heq hne
  · obtain ⟨e, he, -, hto⟩ := WorkflowGraph.edge_iff.mp hx
    exact List.ne_nil_of_mem (WorkflowGraph.mem_incoming.mpr ⟨he, hto⟩)

/-- Every nonempty set of nodes has a member whose incoming edges all come from outside the set. -/
theorem exists_source (h : IsDag g) (s : Finset NodeId) (hs : s.Nonempty) :
    ∃ id ∈ s, ∀ e ∈ g.incoming id, e.from ∉ s := by
  obtain ⟨id, hid, hmin⟩ := h.acyclic.exists_minimal s hs
  refine ⟨id, hid, fun e he hfrom => ?_⟩
  obtain ⟨hmem, hto⟩ := WorkflowGraph.mem_incoming.mp he
  exact hmin e.from hfrom (WorkflowGraph.edge_iff.mpr ⟨e, hmem, rfl, hto⟩)

end IsDag

end AuraLauncher.Workflow
