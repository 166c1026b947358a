import AuraLauncher.Domain.Workflow
import AuraLauncher.Lib.Digraph

/-!
# The validator of workflow definitions

`launcher-workflow/src/v2.rs`: `validate_graph`, the static check of the transitions of a
definition, with the ways by which both it and the runner read a definition.

* `entryId`, `indexOf`, `nextLinear`, `transition` — the entry and the successors of a step.
* `checkedEdges`, `markEdges` — the edges the validator looks at, for cycles and for reachability.
* `validateGraph`, `DefinitionError` — the check.
* `validateGraph_eq_ok_iff` — what is accepted: a well-formed definition whose checked edges are
  acyclic and reach every step.
-/

namespace AuraLauncher.Runner

open AuraLauncher.Domain AuraLauncher.Lib Relation

variable (std : RustStd) (d : WorkflowDefinition)

/-! ## Reading a definition -/

/-- The id of the entry step: as declared, else the first step's. Source: `lib.rs`, `advance` and
`v2.rs`, `validate_graph`. -/
def entryId : String := d.entryStep.getD ((d.steps.head?.map (·.stepId)).getD "")

/-- The step with an id; of several, the last one, as in a map filled in order. Source: `lib.rs`,
`advance` (`index`). -/
def indexOf (id : String) : Option (Fin d.steps.length) :=
  (List.finRange d.steps.length).reverse.find? fun i => (d.steps.get i).stepId == id

/-- The next step in the order of the definition. Source: `lib.rs`, `next_linear`. -/
def nextLinear (i : Fin d.steps.length) : Option (Fin d.steps.length) :=
  if h : i.val + 1 < d.steps.length then some ⟨i.val + 1, h⟩ else none

/-- Where a transition leads: nowhere from `end`, to the named step, or on in order when there is no
transition. Source: `lib.rs`, `advance`. -/
def transition (i : Fin d.steps.length) : Option String → Option (Fin d.steps.length)
  | some t => if t = "end" then none else indexOf d t
  | none => nextLinear d i

variable {d}

theorem stepId_of_indexOf {id : String} {i : Fin d.steps.length} (h : indexOf d id = some i) :
    (d.steps.get i).stepId = id := by
  simpa using List.find?_some h

theorem indexOf_isSome_iff {id : String} : (indexOf d id).isSome ↔ id ∈ d.ids := by
  unfold indexOf WorkflowDefinition.ids
  rw [List.find?_isSome, List.mem_map]
  constructor
  · rintro ⟨i, -, hi⟩
    exact ⟨d.steps.get i, List.get_mem d.steps i, by simpa using hi⟩
  · rintro ⟨s, hs, rfl⟩
    obtain ⟨i, rfl⟩ := List.get_of_mem hs
    exact ⟨i, by simp, by simp⟩

/-- With unique ids a step is found under its id. -/
theorem indexOf_stepId (hnodup : d.ids.Nodup) (i : Fin d.steps.length) :
    indexOf d (d.steps.get i).stepId = some i := by
  obtain ⟨j, hj⟩ := Option.isSome_iff_exists.mp
    (indexOf_isSome_iff.mpr (List.mem_map.mpr ⟨_, List.get_mem d.steps i, rfl⟩) :
      (indexOf d (d.steps.get i).stepId).isSome)
  have hid := stepId_of_indexOf hj
  have hlen : d.steps.length = d.ids.length := by simp [WorkflowDefinition.ids]
  have hget : d.ids.get (j.cast hlen) = d.ids.get (i.cast hlen) := by
    simp only [WorkflowDefinition.ids, List.get_eq_getElem, List.getElem_map]
    exact hid
  have hij : j.cast hlen = i.cast hlen := List.nodup_iff_injective_get.mp hnodup hget
  rw [hj, Fin.cast_injective hlen hij]

variable (d)

/-! ## The check -/

/-- Why a definition is refused. Source: `v2.rs`, `DefinitionError`. -/
inductive DefinitionError
  | duplicateStepId (id : String)
  | unknownStep (what : String)
  | cycleDetected (id : String)
  | unreachableStep (id : String)
  | entryNotFound (id : String)
  | invalidExpression (what : String)
  deriving DecidableEq

/-- The text of an error. Source: `v2.rs`, `DefinitionError` (`#[error]`). -/
def DefinitionError.text : DefinitionError → String
  | .duplicateStepId id => "duplicate step id: " ++ id
  | .unknownStep what => "unknown step id: " ++ what
  | .cycleDetected id => "cycle detected at step: " ++ id
  | .unreachableStep id => "unreachable step: " ++ id
  | .entryNotFound id => "entry step not found: " ++ id
  | .invalidExpression what => "invalid condition expression: " ++ what

/-- The complaint about one declared target. Source: `v2.rs`, `validate_graph`. -/
def targetError (s : WorkflowStep) (kind : String) : Option String → List DefinitionError
  | some t =>
      if t ≠ "end" ∧ t ∉ d.ids then
        [.unknownStep (s.stepId ++ " -> " ++ t ++ " (" ++ kind ++ ")")]
      else []
  | none => []

/-- The complaint about the condition of a step. Source: `v2.rs`, `validate_graph`. -/
def conditionError (s : WorkflowStep) : List DefinitionError :=
  match s.condition with
  | some c =>
      match c.parsed std with
      | .ok _ => []
      | .error _ => [.invalidExpression (s.stepId ++ ": " ++ c.expression)]
  | none => []

/-- The complaints about one step. Source: `v2.rs`, `validate_graph` (the first loop). -/
def stepErrors (s : WorkflowStep) : List DefinitionError :=
  targetError d s "success" s.onSuccess ++ targetError d s "failure" s.onFailure ++
    targetError d s "condition_false" s.onConditionFalse ++ conditionError std s

/-- The targets of a step in the adjacency of the validator: the declared successors, and the next
step in order when there is neither. Source: `v2.rs`, `validate_graph` (`adj`). -/
def checkedTargets (i : Fin d.steps.length) : List String :=
  let s := d.steps.get i
  s.onSuccess.toList ++ s.onConditionFalse.toList ++
    if s.onSuccess = none ∧ s.onConditionFalse = none then
      ((nextLinear d i).map fun j => (d.steps.get j).stepId).toList
    else []

/-- The targets of a node; a node that is no step has none. Source: `v2.rs`, `validate_graph`
(`adj.get`). -/
def adj (node : String) : List String := ((indexOf d node).map (checkedTargets d)).getD []

/-- The edges on which the validator looks for cycles. `end` is a node like any other here. Source:
`v2.rs`, `validate_graph` (`dfs`). -/
def checkedEdges : List (String × String) :=
  d.ids.dedup.flatMap fun id => (adj d id).map fun t => (id, t)

/-- The edges along which the validator marks steps as reachable. Source: `v2.rs`, `validate_graph`
(`mark`). -/
def markEdges : List (String × String) := (checkedEdges d).filter fun e => e.2 ≠ "end"

/-- Whether the search for cycles from the entry finds one. Source: `v2.rs`, `validate_graph`
(`dfs`). -/
def hasCycle : Bool :=
  match Digraph.paint (checkedEdges d) (fun _ => none) (entryId d) with
  | .ok _ => false
  | .error _ => true

/-- The complaints about steps that are not reachable. Source: `v2.rs`, `validate_graph`. -/
def unreachableErrors : List DefinitionError :=
  let reachable := Digraph.reach (markEdges d) (entryId d)
  (d.ids.filter fun id => decide (id ∉ reachable)).map .unreachableStep

/-- All complaints about a definition. Source: `v2.rs`, `validate_graph`. -/
def definitionErrors : List DefinitionError :=
  (if d.ids.dedup.length ≠ d.steps.length then [.duplicateStepId "(see steps)"] else []) ++
  (if entryId d ∉ d.ids then [.entryNotFound (entryId d)] else []) ++
  d.steps.flatMap (stepErrors std d) ++
  (if hasCycle d then [.cycleDetected (entryId d)] else []) ++
  unreachableErrors d

/-- Source: `v2.rs`, `validate_graph`. -/
def validateGraph : Except (List DefinitionError) Unit :=
  let errors := definitionErrors std d
  if errors.isEmpty then .ok () else .error errors

/-! ## What is accepted -/

/-- The targets a step declares. -/
def WorkflowStep.targets (s : WorkflowStep) : List String :=
  s.onSuccess.toList ++ s.onFailure.toList ++ s.onConditionFalse.toList

/-- A well-formed definition: step ids are unique, the entry is a step, every declared target is
`end` or a step, and every condition parses. -/
structure WellFormed : Prop where
  nodup : d.ids.Nodup
  entry : entryId d ∈ d.ids
  targets : ∀ s ∈ d.steps, ∀ t ∈ WorkflowStep.targets s, t = "end" ∨ t ∈ d.ids
  conditions : ∀ s ∈ d.steps, conditionError std s = []

/-- What the validator asks of the edges it looks at. -/
structure CheckedOk : Prop where
  acyclic : Digraph.Acyclic (checkedEdges d)
  reachable : ∀ id ∈ d.ids, ReflTransGen (Digraph.Edge (markEdges d)) (entryId d) id

variable {d}

theorem mem_checkedEdges {x y : String} :
    Digraph.Edge (checkedEdges d) x y ↔ x ∈ d.ids ∧ y ∈ adj d x := by
  simp [Digraph.Edge, checkedEdges]

theorem targetError_eq_nil_iff {s : WorkflowStep} {kind : String} {target : Option String} :
    targetError d s kind target = [] ↔ ∀ t ∈ target.toList, t = "end" ∨ t ∈ d.ids := by
  cases target with
  | none => simp [targetError]
  | some t =>
      simp only [targetError, Option.toList_some, List.mem_singleton, forall_eq]
      split_ifs with h
      · simp only [false_iff, not_or]
        exact h
      · simp only [true_iff]
        tauto

theorem stepErrors_eq_nil_iff {s : WorkflowStep} :
    stepErrors std d s = [] ↔
      (∀ t ∈ WorkflowStep.targets s, t = "end" ∨ t ∈ d.ids) ∧ conditionError std s = [] := by
  simp only [stepErrors, WorkflowStep.targets, List.append_eq_nil_iff, targetError_eq_nil_iff,
    List.mem_append]
  constructor
  · rintro ⟨⟨⟨hs, hf⟩, hc⟩, hcond⟩
    refine ⟨fun t ht => ?_, hcond⟩
    rcases ht with (ht | ht) | ht
    · exact hs t ht
    · exact hf t ht
    · exact hc t ht
  · rintro ⟨ht, hcond⟩
    exact ⟨⟨⟨fun t h => ht t (.inl (.inl h)), fun t h => ht t (.inl (.inr h))⟩,
      fun t h => ht t (.inr h)⟩, hcond⟩

theorem unreachableErrors_eq_nil_iff :
    unreachableErrors d = [] ↔
      ∀ id ∈ d.ids, ReflTransGen (Digraph.Edge (markEdges d)) (entryId d) id := by
  simp [unreachableErrors, List.filter_eq_nil_iff, Digraph.mem_reach_iff]

/-- When every step is marked, the search finds a cycle exactly when there is one. -/
theorem hasCycle_eq_false_iff
    (hreach : ∀ id ∈ d.ids, ReflTransGen (Digraph.Edge (markEdges d)) (entryId d) id) :
    hasCycle d = false ↔ Digraph.Acyclic (checkedEdges d) := by
  have hsub : ∀ x y, Digraph.Edge (markEdges d) x y → Digraph.Edge (checkedEdges d) x y :=
    fun x y h => List.mem_of_mem_filter h
  have hpaint : (∃ c, Digraph.paint (checkedEdges d) (fun _ => none) (entryId d) = .ok c) ↔
      Digraph.Acyclic (checkedEdges d) :=
    Digraph.paint_isOk_iff fun x y h =>
      ReflTransGen.mono hsub _ _ (hreach x (mem_checkedEdges.mp h).1)
  rw [← hpaint]
  unfold hasCycle
  cases Digraph.paint (checkedEdges d) (fun _ => none) (entryId d) with
  | ok colour => simp
  | error x => simp

/-- **What the validator accepts**: the well-formed definitions whose checked edges are acyclic and
reach every step. -/
theorem validateGraph_eq_ok_iff :
    validateGraph std d = .ok () ↔ WellFormed std d ∧ CheckedOk d := by
  have hdedup : d.ids.dedup.length = d.steps.length ↔ d.ids.Nodup := by
    have hlen : d.steps.length = d.ids.length := by simp [WorkflowDefinition.ids]
    rw [hlen, ← List.dedup_eq_self]
    exact ⟨fun h => (List.dedup_sublist d.ids).eq_of_length h, fun h => by rw [h]⟩
  have herrors : validateGraph std d = .ok () ↔ definitionErrors std d = [] := by
    unfold validateGraph
    cases definitionErrors std d <;> simp
  rw [herrors]
  simp only [definitionErrors, List.append_eq_nil_iff, ite_eq_right_iff, List.cons_ne_nil,
    imp_false, not_not, List.flatMap_eq_nil_iff, stepErrors_eq_nil_iff,
    unreachableErrors_eq_nil_iff, hdedup, Bool.not_eq_true]
  constructor
  · rintro ⟨⟨⟨⟨hnodup, hentry⟩, hsteps⟩, hcycle⟩, hreach⟩
    exact ⟨⟨hnodup, hentry, fun s hs => (hsteps s hs).1, fun s hs => (hsteps s hs).2⟩,
      (hasCycle_eq_false_iff hreach).mp hcycle, hreach⟩
  · rintro ⟨h, hacyclic, hreach⟩
    exact ⟨⟨⟨⟨h.nodup, h.entry⟩, fun s hs => ⟨h.targets s hs, h.conditions s hs⟩⟩,
      (hasCycle_eq_false_iff hreach).mpr hacyclic⟩, hreach⟩

end AuraLauncher.Runner
