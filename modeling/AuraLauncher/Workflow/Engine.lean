import AuraLauncher.Workflow.Graph
import AuraLauncher.Workflow.Json
import Mathlib.Data.List.Sort
import Std.Data.ExtTreeMap

/-!
# Variables, conditions and readiness

`engine.rs`: what the scheduler asks about a graph and a set of variables.

* `VariableStore` — the run-scoped variables, with `set`, `get` and `snapshot`;
  `VariableStore.ofSnapshot` is the loop by which `run_graph` reads a snapshot back, and
  `ofSnapshot_snapshot` says that it restores the store.
* `evaluate` — the condition engine.
* `readyNodes` — the nodes whose incoming edges are all satisfied. `mem_readyNodes` is its meaning:
  every incoming edge comes from a node that is done, whatever the condition of the edge.
* `exists_ready` — in a well-formed graph some node is ready until all nodes are done.
-/

namespace AuraLauncher.Workflow

open AuraLauncher.Lib

/-! ## Variables -/

/-- The run-scoped variables. Source: `engine.rs`, `VariableStore`. -/
@[ext] structure VariableStore where
  vars : Std.ExtTreeMap String Json

namespace VariableStore

/-- No variables. Source: `engine.rs`, `VariableStore::default`. -/
def empty : VariableStore := ⟨∅⟩

/-- Source: `engine.rs`, `VariableStore::set`. -/
def set (s : VariableStore) (name : String) (value : Json) : VariableStore :=
  ⟨s.vars.insert name value⟩

/-- Source: `engine.rs`, `VariableStore::get`. -/
def get (s : VariableStore) (name : String) : Option Json := s.vars[name]?

/-- The variables as a JSON object. Source: `engine.rs`, `VariableStore::snapshot`. -/
def snapshot (s : VariableStore) : Json := .object s.vars.toList

/-- The variables of a checkpoint: the fields of an object, nothing for any other value.
Source: `scheduler.rs`, `run_graph` (the loop over `cp.variables`). -/
def ofSnapshot : Json → VariableStore
  | .object fields => fields.foldl (fun s field => s.set field.1 field.2) empty
  | _ => empty

@[simp] theorem get_empty (name : String) : empty.get name = none :=
  Std.ExtTreeMap.getElem?_empty

theorem get_set (s : VariableStore) (name : String) (value : Json) (k : String) :
    (s.set name value).get k = if name = k then some value else s.get k := by
  unfold set get
  rw [Std.ExtTreeMap.getElem?_insert]
  by_cases h : name = k <;> simp [h, Std.LawfulEqCmp.compare_eq_iff_eq]

/-- Two stores with the same variables are the same store. -/
theorem ext_get {s t : VariableStore} (h : ∀ k, s.get k = t.get k) : s = t :=
  VariableStore.ext (Std.ExtTreeMap.ext_getElem? h)

/-- Setting the fields of a list in turn: a name occurs with at most one value, so its order among
the fields does not matter. -/
theorem get_foldl_set (fields : List (String × Json)) (s : VariableStore) (k : String)
    (hfun : ∀ v v', (k, v) ∈ fields → (k, v') ∈ fields → v = v') :
    (∀ v, (k, v) ∈ fields →
      (fields.foldl (fun s field => s.set field.1 field.2) s).get k = some v) ∧
    ((∀ v, (k, v) ∉ fields) →
      (fields.foldl (fun s field => s.set field.1 field.2) s).get k = s.get k) := by
  induction fields generalizing s with
  | nil => simp
  | cons field fields ih =>
      obtain ⟨k', v'⟩ := field
      obtain ⟨hin, hout⟩ := ih (s.set k' v') fun v w hv hw =>
        hfun v w (List.mem_cons_of_mem _ hv) (List.mem_cons_of_mem _ hw)
      rw [List.foldl_cons]
      constructor
      · intro v hv
        by_cases hrest : ∃ w, (k, w) ∈ fields
        · obtain ⟨w, hw⟩ := hrest
          rw [hin w hw, hfun w v (List.mem_cons_of_mem _ hw) hv]
        · rw [not_exists] at hrest
          rcases List.mem_cons.mp hv with heq | hv
          · cases heq
            rw [hout hrest, get_set, if_pos rfl]
          · exact absurd hv (hrest v)
      · intro hnone
        have hne : k' ≠ k := by
          rintro rfl
          exact hnone v' List.mem_cons_self
        rw [hout fun w hw => hnone w (List.mem_cons_of_mem _ hw), get_set, if_neg hne]

/-- Reading a snapshot back restores the store. -/
@[simp] theorem ofSnapshot_snapshot (s : VariableStore) : ofSnapshot s.snapshot = s := by
  have hmem : ∀ k v, (k, v) ∈ s.vars.toList ↔ s.get k = some v := fun k v =>
    Std.ExtTreeMap.mem_toList_iff_getElem?_eq_some
  apply ext_get
  intro k
  obtain ⟨hin, hout⟩ := get_foldl_set s.vars.toList empty k fun v v' hv hv' =>
    Option.some.inj (((hmem k v).mp hv).symm.trans ((hmem k v').mp hv'))
  show (s.vars.toList.foldl (fun s field => s.set field.1 field.2) empty).get k = s.get k
  cases hk : s.get k with
  | some v => exact hin v ((hmem k v).mpr hk)
  | none =>
      rw [hout fun v hv => by simp [(hmem k v).mp hv] at hk, get_empty]

end VariableStore

/-! ## Conditions -/

/-- The value of an operand: a variable, `null` when it is missing, or the operand itself.
Source: `engine.rs`, `evaluate` (`resolve`). -/
def resolve (vars : VariableStore) (operand : String) : Json :=
  match operand.toList with
  | '$' :: name => (vars.get (String.ofList name)).getD .null
  | _ => .string operand

/-- The text a value is compared by outside the numeric path: a string as it is, any other value as
JSON. Source: `engine.rs`, `evaluate`. -/
def comparedText (sj : SerdeJson) : Json → String
  | .string s => s
  | v => v.text sj

/-- The condition engine: false on a missing or null operand, numeric when both operands are JSON
numbers, by text otherwise. Source: `engine.rs`, `evaluate`. -/
def evaluate (sj : SerdeJson) (cond : ConditionExpr) (vars : VariableStore) : Bool :=
  let left := resolve vars cond.left
  let right := resolve vars cond.right
  if left.isNull || right.isNull then false
  else
    match left.asF64, right.asF64 with
    | some l, some r =>
        match cond.op with
        | .eq => l == r
        | .ne => l != r
        | .gt => decide (l > r)
        | .lt => decide (l < r)
    | _, _ =>
        let ls := comparedText sj left
        let rs := comparedText sj right
        match cond.op with
        | .eq => ls == rs
        | .ne => ls != rs
        | .gt => decide (ls > rs)
        | .lt => decide (ls < rs)

/-- Three conditions of the source's test: a missing variable is false, a string and a boolean are
compared by text. -/
example (sj : SerdeJson) :
    let vars := (VariableStore.empty.set "status" (.string "ok")).set "flag" (.bool true)
    evaluate sj ⟨"$nope", .gt, "0"⟩ vars = false ∧ evaluate sj ⟨"$status", .eq, "ok"⟩ vars = true ∧
      evaluate sj ⟨"$flag", .eq, "true"⟩ vars = true :=
  ⟨rfl, rfl, rfl⟩

/-! ## Readiness -/

/-- Whether a node is done: it ran, or it was skipped. -/
def Done (finished skipped : Finset NodeId) (id : NodeId) : Prop := id ∈ finished ∪ skipped

instance (finished skipped : Finset NodeId) : DecidablePred (Done finished skipped) :=
  fun id => inferInstanceAs (Decidable (id ∈ finished ∪ skipped))

theorem done_iff {finished skipped : Finset NodeId} {id : NodeId} :
    Done finished skipped id ↔ id ∈ finished ∨ id ∈ skipped :=
  Finset.mem_union

/-- The loop body of `ready_nodes` for one node. The source also evaluates the node's condition
against no variables here, in a branch without effect. Source: `engine.rs`, `ready_nodes`. -/
def isReady (g : WorkflowGraph) (finished skipped : Finset NodeId) (n : WorkflowNode) : Bool :=
  if Done finished skipped n.nodeId then false
  else if g.incoming n.nodeId = [] then g.entryNode = n.nodeId
  else (g.incoming n.nodeId).all fun e => decide (Done finished skipped e.from)

/-- The ids of the nodes whose incoming edges are all satisfied, sorted.
Source: `engine.rs`, `ready_nodes`. -/
def readyNodes (g : WorkflowGraph) (finished skipped : Finset NodeId) : List NodeId :=
  ((g.nodes.filter (isReady g finished skipped)).map (·.nodeId)).insertionSort (· ≤ ·)

theorem isReady_iff {g : WorkflowGraph} {finished skipped : Finset NodeId} {n : WorkflowNode} :
    isReady g finished skipped n = true ↔
      ¬ Done finished skipped n.nodeId ∧ (g.incoming n.nodeId = [] → g.entryNode = n.nodeId) ∧
        ∀ e ∈ g.incoming n.nodeId, Done finished skipped e.from := by
  unfold isReady
  by_cases hdone : Done finished skipped n.nodeId
  · simp [hdone]
  · by_cases hin : g.incoming n.nodeId = []
    · simp [hdone, hin]
    · simp [hdone, hin, List.all_eq_true]

/-- **What readiness means**: the id of a node that is not done, that has incoming edges or is the
entry, and whose incoming edges all come from nodes that are done. The conditions of the edges do
not occur. -/
theorem mem_readyNodes {g : WorkflowGraph} {finished skipped : Finset NodeId} {id : NodeId} :
    id ∈ readyNodes g finished skipped ↔
      id ∈ g.ids ∧ ¬ Done finished skipped id ∧ (g.incoming id = [] → g.entryNode = id) ∧
        ∀ e ∈ g.incoming id, Done finished skipped e.from := by
  unfold readyNodes
  rw [List.mem_insertionSort, List.mem_map]
  constructor
  · rintro ⟨n, hn, rfl⟩
    obtain ⟨hmem, hready⟩ := List.mem_filter.mp hn
    exact ⟨WorkflowGraph.nodeId_mem_ids hmem, isReady_iff.mp hready⟩
  · rintro ⟨hid, hready⟩
    obtain ⟨n, hn, rfl⟩ := WorkflowGraph.mem_ids.mp hid
    exact ⟨n, List.mem_filter.mpr ⟨hn, isReady_iff.mpr hready⟩, rfl⟩

/-- In a well-formed graph some node is ready as long as some node is not done. -/
theorem exists_ready {g : WorkflowGraph} (h : IsDag g) {finished skipped : Finset NodeId}
    {id : NodeId} (hid : id ∈ g.ids) (hnot : ¬ Done finished skipped id) :
    ∃ id', id' ∈ readyNodes g finished skipped := by
  let remaining := g.ids.toFinset.filter fun x => ¬ Done finished skipped x
  have hmem : ∀ x, x ∈ remaining ↔ x ∈ g.ids ∧ ¬ Done finished skipped x := by
    intro x
    simp [remaining]
  obtain ⟨x, hx, hsource⟩ := h.exists_source remaining ⟨id, (hmem id).mpr ⟨hid, hnot⟩⟩
  obtain ⟨hxid, hxnot⟩ := (hmem x).mp hx
  refine ⟨x, mem_readyNodes.mpr ⟨hxid, hxnot, fun hin => ?_, fun e he => ?_⟩⟩
  · by_contra hne
    exact h.incoming_ne_nil hxid (Ne.symm hne) hin
  · by_contra hfrom
    have heid : e.from ∈ g.ids := (h.endpoints e (WorkflowGraph.mem_incoming.mp he).1).1
    exact hsource e he ((hmem e.from).mpr ⟨heid, hfrom⟩)

/-- On the diamond of the source's tests, `d` waits for both `b` and `c`, and a skipped branch
satisfies its edge. -/
example :
    let g : WorkflowGraph :=
      { id := "wf.d", version := 1, name := "Diamond", entryNode := "a"
        nodes := [⟨"a", "cmd:a", [], none, false⟩, ⟨"b", "cmd:b", [], none, false⟩,
          ⟨"c", "cmd:c", [], none, false⟩, ⟨"d", "cmd:d", [], none, false⟩]
        edges := [⟨"a", "b", none⟩, ⟨"a", "c", none⟩, ⟨"b", "d", none⟩, ⟨"c", "d", none⟩] }
    readyNodes g {"a"} ∅ = ["b", "c"] ∧ readyNodes g {"a", "b"} ∅ = ["c"] ∧
      readyNodes g {"a"} {"b", "c"} = ["d"] := by
  decide

end AuraLauncher.Workflow
