import AuraLauncher.Agent.Bounded
import AuraLauncher.Agent.Pipeline
import AuraLauncher.Agent.ToolCatalog
import AuraLauncher.Domain.Splitting
import AuraLauncher.Lib.Decimals

/-!
# Refs and what they resolve to

`apps/launcher-app/src/agent_service.rs`, `CoreTurnExecutor::execute`: a plan step names its tool by
the ref of the catalog, and the executor takes the ref apart again. `plan_validator.rs` checks the
refs of a plan against the catalog, and `proposal_builder.rs` builds proposals without a model.

* `stepProposal`, `coreExecute` — the executor, over any host.
* `Tool`, `toolsOf`, `Tool.ref` — the tools behind a catalog, and the refs they get.
* `RefsRoundTrip` — distinct tools get distinct refs, none loses its entry to another, and every
  published ref resolves to the tool it stands for.
* `refsRoundTrip_iff` — they do exactly when no workflow is installed and no provider or command
  has the separator in its id; `not_refsRoundTrip` has a catalog of each kind.
* `validatePlan`, `Addresses`, `validatePlan_spec` — the check, and the plans that pass it.
* `buildProposal`, `Buildable`, `buildProposal_spec` — the proposals that are built, none of which
  has a plan that passes the check.

The status line of the runtime surface and the lock of the application state are left out.
-/

namespace AuraLauncher.Agent

open AuraLauncher.Lib
open AuraLauncher.Domain (splitN splitN_three)
open AuraLauncher.Workflow (Json)

/-! ## The executor -/

/-- The proposal for a plan step, or the error for a ref that has not three parts.
Source: `agent_service.rs`, `CoreTurnExecutor::execute`. -/
def stepProposal (actionRef : String) (input : Json) : Except String ActionProposal :=
  match splitN '|' 3 actionRef.toList with
  | [providerId, commandId, actionId] =>
      .ok
        { providerId := String.ofList providerId
          commandId := String.ofList commandId
          actionId := String.ofList actionId
          input }
  | _ => .error ("malformed action_ref: " ++ actionRef)

/-- What the executor reads of a record of the host. Source: `agent.rs`, `ExecutionRecord`. -/
structure StepRecord where
  ok : Bool
  error : Option String
  result : Option Json

/-- Source: `agent_service.rs`, `CoreTurnExecutor::execute`, over a host `CoreAgentHost::execute`
that changes a state `W`. -/
def coreExecute {W : Type} (host : List ActionProposal → W → List StepRecord × W)
    (actionRef : String) (input : Json) (w : W) : Except String Json × W :=
  match stepProposal actionRef input with
  | .error e => (.error e, w)
  | .ok proposal =>
      match host [proposal] w with
      | (r :: _, w) =>
          if r.ok then (.ok (r.result.getD .null), w)
          else (.error (r.error.getD "step failed"), w)
      | ([], w) => (.error "no execution record", w)

/-! ## Tools -/

/-- What a ref stands for. -/
inductive Tool where
  | action (providerId commandId actionId : String)
  | workflow (definitionId : String)
deriving DecidableEq, Repr

/-- The ref a tool gets in the catalog. -/
def Tool.ref : Tool → String
  | .action providerId commandId actionId => actionRef providerId commandId actionId
  | .workflow definitionId => workflowRef definitionId

/-- The tool of a catalog item. -/
def ActionCatalogItem.tool (a : ActionCatalogItem) : Tool :=
  .action a.providerId a.commandId a.actionId

/-- The tool of a workflow. -/
def WorkflowToolSummary.tool (w : WorkflowToolSummary) : Tool := .workflow w.definitionId

/-- The tools that are projected. -/
def toolsOf (actions : List ActionCatalogItem) (workflows : List WorkflowToolSummary) : List Tool :=
  actions.map ActionCatalogItem.tool ++ workflows.map WorkflowToolSummary.tool

/-- What the executor takes a ref for: the action it proposes. -/
def resolveRef (ref : String) : Except String Tool :=
  (stepProposal ref .null).map fun p => .action p.providerId p.commandId p.actionId

/-- Distinct tools have distinct refs, the catalog has an entry for each, and each ref that is
published resolves to the tool it stands for. -/
structure RefsRoundTrip (actions : List ActionCatalogItem) (workflows : List WorkflowToolSummary) :
    Prop where
  distinct : ∀ t ∈ toolsOf actions workflows, ∀ t' ∈ toolsOf actions workflows,
    t.ref = t'.ref → t = t'
  len_eq : (ToolCatalog.project actions workflows).len = (toolsOf actions workflows).dedup.length
  resolved : ∀ e ∈ (ToolCatalog.project actions workflows).entries.rows,
    ∀ t ∈ toolsOf actions workflows, t.ref = e.ref → resolveRef e.ref = .ok t

/-! ## The catalog of a projection -/

variable {actions : List ActionCatalogItem} {workflows : List WorkflowToolSummary}

/-- The entries are those of the items, later ones in the place of earlier ones. -/
theorem entries_project :
    (ToolCatalog.project actions workflows).entries =
      SortedMap.empty.insertAll
        (actions.map ActionCatalogItem.entry ++ workflows.map WorkflowToolSummary.entry) := by
  have hfold : ∀ (α : Type) (entry : α → ToolCatalogEntry) (xs : List α) (c : ToolCatalog),
      (xs.foldl (fun cat x => cat.insert (entry x)) c).entries =
        c.entries.insertAll (xs.map entry) := by
    intro α entry xs
    induction xs with
    | nil => exact fun c => rfl
    | cons x xs ih => exact fun c => ih (c.insert (entry x))
  unfold ToolCatalog.project
  rw [hfold, hfold, SortedMap.insertAll, SortedMap.insertAll, ← List.foldl_append]
  rfl

/-- The refs of the items are those of the tools. -/
theorem map_ref_entries :
    (actions.map ActionCatalogItem.entry ++ workflows.map WorkflowToolSummary.entry).map
        ToolCatalogEntry.ref =
      (toolsOf actions workflows).map Tool.ref := by
  simp only [toolsOf, List.map_append, List.map_map]
  rfl

/-- The refs that are published are those of the tools. -/
theorem mem_refs_iff {ref : String} :
    (∃ e ∈ (ToolCatalog.project actions workflows).entries.rows, e.ref = ref) ↔
      ∃ t ∈ toolsOf actions workflows, t.ref = ref := by
  have hkeys : ref ∈ (ToolCatalog.project actions workflows).entries.rows.map
      ToolCatalogEntry.ref ↔ ref ∈ (toolsOf actions workflows).map Tool.ref := by
    rw [entries_project, SortedMap.mem_keys_insertAll, map_ref_entries]
    simp [SortedMap.empty]
  simpa only [List.mem_map] using hkeys

/-- A catalog has an entry for each ref. -/
theorem len_project :
    (ToolCatalog.project actions workflows).len =
      ((toolsOf actions workflows).map Tool.ref).dedup.length := by
  rw [ToolCatalog.len, entries_project, SortedMap.length_insertAll_empty, map_ref_entries]

/-! ## What the executor resolves -/

theorem toList_actionRef (p c a : String) :
    (actionRef p c a).toList = p.toList ++ '|' :: (c.toList ++ '|' :: a.toList) := by
  simp [actionRef, refSep, Char.toString]

/-- A ref resolves to an action exactly if it was made from it and its provider and command are
free of the separator. -/
theorem resolveRef_eq_ok_iff {ref p c a : String} :
    resolveRef ref = .ok (.action p c a) ↔
      ref = actionRef p c a ∧ '|' ∉ p.toList ∧ '|' ∉ c.toList := by
  have hsplit : resolveRef ref = .ok (.action p c a) ↔
      splitN '|' 3 ref.toList = [p.toList, c.toList, a.toList] := by
    unfold resolveRef stepProposal
    split
    · next x y z hxyz =>
        rw [hxyz]
        simp only [Except.map, Except.ok.injEq, Tool.action.injEq, List.cons.injEq, and_true]
        simp only [← String.toList_inj, String.toList_ofList]
    · next hne =>
        refine iff_of_false (fun h => ?_) (hne _ _ _)
        cases h
  rw [hsplit, splitN_three, ← String.toList_inj, toList_actionRef]

/-- No ref resolves to a workflow. -/
theorem resolveRef_ne_workflow (ref definitionId : String) :
    resolveRef ref ≠ .ok (.workflow definitionId) := by
  unfold resolveRef
  cases stepProposal ref .null with
  | error e => exact fun h => by cases h
  | ok p => exact fun h => by cases h

/-- A tool whose ref resolves to it is an action without the separator in its provider and
command. -/
theorem resolves_iff (t : Tool) :
    resolveRef t.ref = .ok t ↔
      ∃ p c a, t = .action p c a ∧ '|' ∉ p.toList ∧ '|' ∉ c.toList := by
  cases t with
  | action p c a =>
      refine resolveRef_eq_ok_iff.trans ⟨fun h => ⟨p, c, a, rfl, h.2⟩, ?_⟩
      rintro ⟨p', c', a', heq, h⟩
      obtain ⟨rfl, rfl, rfl⟩ := Tool.action.inj heq
      exact ⟨rfl, h⟩
  | workflow definitionId =>
      refine iff_of_false (resolveRef_ne_workflow _ _) ?_
      rintro ⟨p, c, a, heq, -⟩
      cases heq

/-! ## The round trip -/

/-- **When refs make the round trip**: exactly when no workflow is installed, and the ids of the
providers and commands are free of the separator. The id of an action may have it. -/
theorem refsRoundTrip_iff (actions : List ActionCatalogItem)
    (workflows : List WorkflowToolSummary) :
    RefsRoundTrip actions workflows ↔
      workflows = [] ∧
        ∀ a ∈ actions, '|' ∉ a.providerId.toList ∧ '|' ∉ a.commandId.toList := by
  have hresolved : (∀ t ∈ toolsOf actions workflows, resolveRef t.ref = .ok t) ↔
      workflows = [] ∧
        ∀ a ∈ actions, '|' ∉ a.providerId.toList ∧ '|' ∉ a.commandId.toList := by
    simp only [resolves_iff, toolsOf, List.mem_append, List.mem_map]
    constructor
    · intro h
      constructor
      · refine List.eq_nil_iff_forall_not_mem.mpr fun w hw => ?_
        obtain ⟨p, c, a, heq, -⟩ := h w.tool (.inr ⟨w, hw, rfl⟩)
        cases heq
      · intro a ha
        obtain ⟨p, c, x, heq, hfree⟩ := h a.tool (.inl ⟨a, ha, rfl⟩)
        obtain ⟨rfl, rfl, rfl⟩ := Tool.action.inj heq
        exact hfree
    · rintro ⟨rfl, hfree⟩ t (⟨a, ha, rfl⟩ | ⟨w, hw, -⟩)
      · exact ⟨_, _, _, rfl, hfree a ha⟩
      · exact absurd hw List.not_mem_nil
  rw [← hresolved]
  constructor
  · intro h t ht
    obtain ⟨e, he, href⟩ := mem_refs_iff.mpr ⟨t, ht, rfl⟩
    exact href ▸ h.resolved e he t ht href.symm
  · intro h
    have hdistinct : ∀ t ∈ toolsOf actions workflows, ∀ t' ∈ toolsOf actions workflows,
        t.ref = t'.ref → t = t' := by
      intro t ht t' ht' href
      have hok := h t ht
      rw [href, h t' ht'] at hok
      exact (Except.ok.inj hok).symm
    constructor
    · exact hdistinct
    · have hperm : ((toolsOf actions workflows).map Tool.ref).dedup.Perm
          ((toolsOf actions workflows).dedup.map Tool.ref) := by
        refine (List.perm_ext_iff_of_nodup (List.nodup_dedup _) ?_).mpr fun ref => by simp
        refine (List.nodup_dedup _).map_on fun t ht t' ht' => ?_
        exact hdistinct t (List.mem_dedup.mp ht) t' (List.mem_dedup.mp ht')
      rw [len_project, hperm.length_eq, List.length_map]
    · intro e _ t ht href
      exact href ▸ h t ht

/-- An installed workflow. -/
def demoWorkflow : WorkflowToolSummary where
  definitionId := "wf.demo"
  name := "Demo"
  description := none

/-- A tool of a server that has the separator in its name. -/
def pipedTool : ActionCatalogItem where
  providerId := "mcp:files"
  commandId := "read|file"
  title := "Read file"
  description := none
  actionId := "invoke"
  actionTitle := none
  actionType := "plugin.mcp.invoke"
  inputSchema := none

/-- The ref of a workflow is refused by the executor, and that of a tool with the separator in its
name resolves to another action. -/
theorem not_refsRoundTrip :
    ¬ RefsRoundTrip [] [demoWorkflow] ∧ ¬ RefsRoundTrip [pipedTool] [] := by
  constructor
  · intro h
    have ht : demoWorkflow.tool ∈ toolsOf [] [demoWorkflow] := List.mem_cons_self
    obtain ⟨e, he, href⟩ := mem_refs_iff.mpr ⟨_, ht, rfl⟩
    exact resolveRef_ne_workflow _ _ (h.resolved e he _ ht href.symm)
  · intro h
    have ht : pipedTool.tool ∈ toolsOf [pipedTool] [] := List.mem_cons_self
    obtain ⟨e, he, href⟩ := mem_refs_iff.mpr ⟨_, ht, rfl⟩
    have hfree := (resolveRef_eq_ok_iff.mp (h.resolved e he _ ht href.symm)).2.2
    exact absurd hfree (by decide)

/-! ## The check of a plan -/

/-- Source: `plan_validator.rs`, `PlanValidationError`. -/
inductive PlanValidationError
  | unknownRef (stepId actionRef : String)
  | kindMismatch (stepId expected found : String)
  | invalidInput (stepId : String)
deriving DecidableEq, Repr

/-- The name of a kind. Source: `plan_validator.rs`, `validate_step`. -/
def ToolKind.name : ToolKind → String
  | .action => "action"
  | .workflow => "workflow"

/-- The kind that a ref asks for. Source: `plan_validator.rs`, `validate_step`. -/
def addressedKind (ref : String) : ToolKind :=
  if startsWith "workflow|" ref then .workflow else .action

/-- Source: `plan_validator.rs`, `validate_step`. -/
def validateStep (step : PlanStep) (catalog : ToolCatalog) : Except PlanValidationError Unit :=
  match catalog.get step.actionRef with
  | none => .error (.unknownRef step.stepId step.actionRef)
  | some entry =>
      let kindName := entry.kind.name
      let expected := (addressedKind step.actionRef).name
      if expected ≠ kindName then .error (.kindMismatch step.stepId expected kindName)
      else if !step.input.isNull && !step.input.isObject then .error (.invalidInput step.stepId)
      else .ok ()

/-- The steps in turn, up to the first that is refused. -/
def validateEach (catalog : ToolCatalog) : List PlanStep → Except PlanValidationError Unit
  | [] => .ok ()
  | step :: steps =>
      match validateStep step catalog with
      | .error e => .error e
      | .ok () => validateEach catalog steps

/-- Source: `plan_validator.rs`, `validate_plan`. -/
def validatePlan (doc : PlanDocument) (catalog : ToolCatalog) : Except PlanValidationError Unit :=
  validateEach catalog doc.steps

theorem validateEach_ok_iff (catalog : ToolCatalog) (steps : List PlanStep) :
    validateEach catalog steps = .ok () ↔ ∀ s ∈ steps, validateStep s catalog = .ok () := by
  induction steps with
  | nil => simp [validateEach]
  | cons s steps ih =>
      rw [validateEach, List.forall_mem_cons]
      cases hs : validateStep s catalog with
      | error e => simp
      | ok u => simpa using ih

/-- **The first step that is refused** gives the error. -/
theorem validateEach_error_iff (catalog : ToolCatalog) (steps : List PlanStep)
    (e : PlanValidationError) :
    validateEach catalog steps = .error e ↔ ∃ before s after, steps = before ++ s :: after ∧
      (∀ t ∈ before, validateStep t catalog = .ok ()) ∧ validateStep s catalog = .error e := by
  induction steps with
  | nil => simp [validateEach]
  | cons s steps ih =>
      rw [validateEach]
      constructor
      · intro h
        cases hs : validateStep s catalog with
        | error e' =>
            rw [hs] at h
            exact ⟨[], s, steps, rfl, fun _ ht => absurd ht List.not_mem_nil, hs.trans h⟩
        | ok u =>
            rw [hs] at h
            obtain ⟨before, t, after, rfl, hbefore, ht⟩ := ih.mp h
            exact ⟨s :: before, t, after, rfl, List.forall_mem_cons.mpr ⟨hs, hbefore⟩, ht⟩
      · rintro ⟨before, t, after, hsplit, hbefore, ht⟩
        cases before with
        | nil =>
            obtain ⟨rfl, rfl⟩ := List.cons.inj hsplit
            rw [ht]
        | cons b before =>
            obtain ⟨rfl, rfl⟩ := List.cons.inj hsplit
            obtain ⟨hs, hrest⟩ := List.forall_mem_cons.mp hbefore
            rw [hs]
            exact ih.mpr ⟨before, t, after, rfl, hrest, ht⟩

/-! ### Against a projected catalog -/

/-- One of the actions has the ref. -/
def ActionHas (actions : List ActionCatalogItem) (ref : String) : Prop :=
  ∃ a ∈ actions, actionRef a.providerId a.commandId a.actionId = ref

/-- One of the workflows has the ref. -/
def WorkflowHas (workflows : List WorkflowToolSummary) (ref : String) : Prop :=
  ∃ w ∈ workflows, workflowRef w.definitionId = ref

section project

variable {actions : List ActionCatalogItem} {workflows : List WorkflowToolSummary} {ref : String}

theorem get_project :
    (ToolCatalog.project actions workflows).get ref =
      ((workflows.map WorkflowToolSummary.entry).reverse.find? fun e => decide (e.ref = ref)).or
        ((actions.map ActionCatalogItem.entry).reverse.find? fun e => decide (e.ref = ref)) := by
  have hempty : (SortedMap.empty : SortedMap ToolCatalogEntry.ref).find? ref = none := rfl
  rw [ToolCatalog.get, entries_project, SortedMap.find?_insertAll, hempty, Option.or_none,
    List.reverse_append, List.find?_append]

/-- A workflow with the ref has the entry, whatever the actions are. -/
theorem get_project_workflow (h : WorkflowHas workflows ref) :
    ∃ e, (ToolCatalog.project actions workflows).get ref = some e ∧ e.kind = .workflow := by
  obtain ⟨w, hw, href⟩ := h
  have hsome : ((workflows.map WorkflowToolSummary.entry).reverse.find?
      fun e => decide (e.ref = ref)).isSome := by
    rw [List.find?_isSome]
    exact ⟨w.entry, by simpa using ⟨w, hw, rfl⟩, decide_eq_true href⟩
  obtain ⟨e, he⟩ := Option.isSome_iff_exists.mp hsome
  refine ⟨e, by rw [get_project, he]; rfl, ?_⟩
  obtain ⟨w', -, rfl⟩ := List.mem_map.mp (List.mem_reverse.mp (List.mem_of_find?_eq_some he))
  rfl

theorem find_workflow_none (h : ¬WorkflowHas workflows ref) :
    ((workflows.map WorkflowToolSummary.entry).reverse.find? fun e => decide (e.ref = ref)) =
      none := by
  refine List.find?_eq_none.mpr fun e he hdec => h ?_
  obtain ⟨w, hw, rfl⟩ := List.mem_map.mp (List.mem_reverse.mp he)
  exact ⟨w, hw, of_decide_eq_true hdec⟩

/-- Without such a workflow an action with the ref has it. -/
theorem get_project_action (hw : ¬WorkflowHas workflows ref) (h : ActionHas actions ref) :
    ∃ e, (ToolCatalog.project actions workflows).get ref = some e ∧ e.kind = .action := by
  obtain ⟨a, ha, href⟩ := h
  have hsome : ((actions.map ActionCatalogItem.entry).reverse.find?
      fun e => decide (e.ref = ref)).isSome := by
    rw [List.find?_isSome]
    exact ⟨a.entry, by simpa using ⟨a, ha, rfl⟩, decide_eq_true href⟩
  obtain ⟨e, he⟩ := Option.isSome_iff_exists.mp hsome
  refine ⟨e, by rw [get_project, find_workflow_none hw, he]; rfl, ?_⟩
  obtain ⟨a', -, rfl⟩ := List.mem_map.mp (List.mem_reverse.mp (List.mem_of_find?_eq_some he))
  rfl

theorem get_project_none (hw : ¬WorkflowHas workflows ref) (ha : ¬ActionHas actions ref) :
    (ToolCatalog.project actions workflows).get ref = none := by
  rw [get_project, find_workflow_none hw, Option.none_or]
  refine List.find?_eq_none.mpr fun e he hdec => ha ?_
  obtain ⟨a, hmem, rfl⟩ := List.mem_map.mp (List.mem_reverse.mp he)
  exact ⟨a, hmem, of_decide_eq_true hdec⟩

end project

theorem startsWith_iff (pre s : String) : startsWith pre s = true ↔ pre.toList <+: s.toList := by
  rw [startsWith, Domain.stripPrefix, ← List.isPrefixOf_iff_prefix]
  split_ifs with h
  · simp [h]
  · simp [h]

theorem addressedKind_eq_workflow_iff (ref : String) :
    addressedKind ref = .workflow ↔ "workflow|".toList <+: ref.toList := by
  rw [← startsWith_iff, addressedKind]
  split_ifs with h
  · simp [h]
  · simp [h]

/-- The ref of a workflow asks for one. -/
theorem addressedKind_workflowRef (definitionId : String) :
    addressedKind (workflowRef definitionId) = .workflow := by
  rw [addressedKind_eq_workflow_iff]
  refine ⟨definitionId.toList, ?_⟩
  rw [workflowRef, String.toList_append]
  rfl

/-- An action whose ref asks for a workflow is one of a provider with that name, up to the
separator. -/
theorem provider_of_addressedKind {p c a : String}
    (h : addressedKind (actionRef p c a) = .workflow) :
    p = "workflow" ∨ startsWith "workflow|" p = true := by
  have hprefix := (addressedKind_eq_workflow_iff _).mp h
  rw [toList_actionRef] at hprefix
  have hfront : p.toList <+: p.toList ++ '|' :: (c.toList ++ '|' :: a.toList) :=
    List.prefix_append _ _
  rcases List.prefix_or_prefix_of_prefix hprefix hfront with hp | hp
  · exact .inr ((startsWith_iff _ _).mpr hp)
  · -- the separator after the provider is the one at the end of the name
    obtain ⟨rest, hrest⟩ := hp
    rw [← hrest, List.prefix_append_right_inj] at hprefix
    cases rest with
    | nil =>
        refine .inr ((startsWith_iff _ _).mpr ?_)
        rw [← hrest, List.append_nil]
    | cons d rest =>
        obtain ⟨rfl, -⟩ := List.cons_prefix_cons.mp hprefix
        refine .inl (String.toList_inj.mp ?_)
        have hname : "workflow|".toList = "workflow".toList ++ ['|'] := by decide
        have hfree : '|' ∉ "workflow".toList := by decide
        rw [hname] at hrest
        rcases List.append_eq_append_iff.mp hrest with ⟨mid, hmid, hsep⟩ | ⟨mid, hmid, hsep⟩
        · cases mid with
          | nil => rw [hmid, List.append_nil]
          | cons e mid =>
              obtain ⟨rfl, -⟩ := List.cons.inj hsep
              exact absurd (hmid ▸ List.mem_append_right _ List.mem_cons_self) hfree
        · cases mid with
          | nil => rw [hmid, List.append_nil]
          | cons e mid => simp at hsep

/-- A step that the check lets pass: its input is an object or nothing, and there is a tool of the
kind that its ref asks for with this ref. -/
def Addresses (actions : List ActionCatalogItem) (workflows : List WorkflowToolSummary)
    (s : PlanStep) : Prop :=
  (s.input.isNull = true ∨ s.input.isObject = true) ∧
    match addressedKind s.actionRef with
    | .workflow => WorkflowHas workflows s.actionRef
    | .action => ActionHas actions s.actionRef

section project

variable {actions : List ActionCatalogItem} {workflows : List WorkflowToolSummary}

theorem addressedKind_of_workflowHas {ref : String} (h : WorkflowHas workflows ref) :
    addressedKind ref = .workflow := by
  obtain ⟨w, -, rfl⟩ := h
  exact addressedKind_workflowRef w.definitionId

/-- **One step** against a projected catalog: what the answer is, and when. -/
theorem validateStep_project (s : PlanStep) :
    (validateStep s (ToolCatalog.project actions workflows) = .ok () ↔
      Addresses actions workflows s) ∧
    ∀ id expected found,
      validateStep s (ToolCatalog.project actions workflows) =
        .error (.kindMismatch id expected found) →
      expected = "workflow" ∧ found = "action" ∧ ActionHas actions s.actionRef ∧
        addressedKind s.actionRef = .workflow := by
  have hinput : (!s.input.isNull && !s.input.isObject) = false ↔
      s.input.isNull = true ∨ s.input.isObject = true := by
    cases s.input.isNull <;> simp
  by_cases hw : WorkflowHas workflows s.actionRef
  · obtain ⟨e, hget, hkind⟩ : ∃ e,
        (ToolCatalog.project actions workflows).get s.actionRef = some e ∧ e.kind = .workflow :=
      get_project_workflow hw
    have hask := addressedKind_of_workflowHas hw
    rw [validateStep, hget]
    simp only [hkind, hask, Addresses, hw, and_true, ne_eq, not_true_eq_false, if_false, ← hinput]
    constructor
    · split_ifs with h
      · simp [h]
      · simp [h]
    · intro id expected found h
      split_ifs at h
      cases h
  · by_cases ha : ActionHas actions s.actionRef
    · obtain ⟨e, hget, hkind⟩ := get_project_action hw ha
      rw [validateStep, hget]
      cases hask : addressedKind s.actionRef with
      | workflow =>
          simp only [hkind, hask, Addresses, hw, ToolKind.name]
          refine ⟨by simp, fun id expected found h => ?_⟩
          have hnames : "workflow" ≠ "action" := by decide
          rw [if_pos hnames] at h
          cases h
          exact ⟨rfl, rfl, ha, trivial⟩
      | action =>
          simp only [hkind, hask, Addresses, ha, and_true, ne_eq, not_true_eq_false, if_false,
            ← hinput]
          constructor
          · split_ifs with h
            · simp [h]
            · simp [h]
          · intro id expected found h
            split_ifs at h
            cases h
    · rw [validateStep, get_project_none hw ha]
      cases hask : addressedKind s.actionRef <;> simp [Addresses, hask, hw, ha]

/-- **The check of a plan against a projected catalog.** A plan passes exactly if each step has an
object or nothing as input and addresses a tool that is there: a workflow if its ref begins as the
refs of workflows do, else an action. A plan that does not is refused for its first step that does
not. A wrong kind is found only where a ref that begins as those of workflows is the one of an
action, whose provider is then named like them. -/
theorem validatePlan_spec (doc : PlanDocument) :
    (validatePlan doc (ToolCatalog.project actions workflows) = .ok () ↔
      ∀ s ∈ doc.steps, Addresses actions workflows s) ∧
    (∀ e, validatePlan doc (ToolCatalog.project actions workflows) = .error e ↔
      ∃ before s after, doc.steps = before ++ s :: after ∧
        (∀ t ∈ before, Addresses actions workflows t) ∧
        validateStep s (ToolCatalog.project actions workflows) = .error e) ∧
    ∀ id expected found,
      validatePlan doc (ToolCatalog.project actions workflows) =
        .error (.kindMismatch id expected found) →
      expected = "workflow" ∧ found = "action" ∧
        ∃ a ∈ actions, a.providerId = "workflow" ∨ startsWith "workflow|" a.providerId = true := by
  have hok : ∀ s, validateStep s (ToolCatalog.project actions workflows) = .ok () ↔
      Addresses actions workflows s := fun s => (validateStep_project s).1
  have herror : ∀ e, validatePlan doc (ToolCatalog.project actions workflows) = .error e ↔
      ∃ before s after, doc.steps = before ++ s :: after ∧
        (∀ t ∈ before, Addresses actions workflows t) ∧
        validateStep s (ToolCatalog.project actions workflows) = .error e := fun e => by
    rw [validatePlan, validateEach_error_iff]
    simp only [hok]
  refine ⟨?_, herror, fun id expected found h => ?_⟩
  · rw [validatePlan, validateEach_ok_iff]
    simp only [hok]
  · obtain ⟨before, s, after, -, -, hs⟩ := (herror _).mp h
    obtain ⟨rfl, rfl, ⟨a, ha, href⟩, hask⟩ := (validateStep_project s).2 id expected found hs
    rw [← href] at hask
    exact ⟨rfl, rfl, a, ha, provider_of_addressedKind hask⟩

end project

/-- A tool of a provider that is named as the refs of workflows begin. -/
def workflowTool : ActionCatalogItem where
  providerId := "workflow"
  commandId := "run"
  title := "Run"
  description := none
  actionId := "invoke"
  actionTitle := none
  actionType := "plugin.invoke"
  inputSchema := none

/-- A plan with a step for a workflow, and one for this tool. -/
def demoPlan : PlanDocument where
  schemaVersion := planSchemaVersion
  proposalId := "p1"
  sessionId := "s1"
  userGoal := "run both"
  steps :=
    [⟨"a", "workflow|wf.demo", .null, none, false⟩,
      ⟨"b", "workflow|run|invoke", .null, none, false⟩]

/-- The step for the workflow addresses it; the ref of the tool asks for a workflow, which there is
not. -/
theorem validatePlan_spec_mismatch :
    validatePlan demoPlan (ToolCatalog.project [workflowTool] [demoWorkflow]) =
      .error (.kindMismatch "b" "workflow" "action") ∧
    ∃ a ∈ [workflowTool],
      a.providerId = "workflow" ∨ startsWith "workflow|" a.providerId = true := by
  have hmismatch : validatePlan demoPlan (ToolCatalog.project [workflowTool] [demoWorkflow]) =
      .error (.kindMismatch "b" "workflow" "action") := by
    decide
  exact ⟨hmismatch, (validatePlan_spec demoPlan |>.2.2 _ _ _ hmismatch).2.2⟩

/-! ## The proposals built without a model -/

/-- Source: `plan.rs`, `PlanDocument::from_proposal`. -/
def PlanDocument.fromProposal {F : Type} (p : AgentProposal F) : PlanDocument where
  schemaVersion := planSchemaVersion
  proposalId := p.proposalId
  sessionId := p.sessionId
  userGoal := p.userGoal
  steps := p.plan

/-- Source: `proposal_builder.rs`, `intent_label`. -/
def intentLabel : AgentIntent → String
  | .search => "search"
  | .open => "open"
  | .execute => "execute"
  | .workflow => "workflow"
  | .explain => "explain"
  | .unknown => "unknown"

/-- Source: `proposal_builder.rs`, `user_goal`. -/
def userGoal (parsed : ParsedRequest) : String :=
  match parsed.entities.query, parsed.entities.target, parsed.entities.workflowId with
  | some q, _, _ => intentLabel parsed.intent ++ ": " ++ q
  | none, some t, _ => intentLabel parsed.intent ++ ": " ++ t
  | none, none, some w => "run workflow: " ++ w
  | none, none, none => "unspecified"

/-- Source: `proposal_builder.rs`, `action_ref_for`. -/
def actionRefFor : AgentIntent → String
  | .search => "search:query"
  | .open => "command:open"
  | .execute => "command:execute"
  | .workflow => "workflow:run"
  | .explain => "explain:context"
  | .unknown => "noop"

/-- Source: `proposal_builder.rs`, `input_for`. -/
def inputFor (parsed : ParsedRequest) : Json :=
  match parsed.entities.query, parsed.entities.target, parsed.entities.workflowId with
  | some q, _, _ => .object [("query", .string q)]
  | none, some t, _ => .object [("target", .string t)]
  | none, none, some w => .object [("workflow_id", .string w)]
  | none, none, none => .object []

/-- Source: `proposal_builder.rs`, `requires_approval_for`. -/
def requiresApprovalFor (ref : String) : Bool :=
  !(startsWith "search:" ref || startsWith "explain:" ref)

section build

variable {F : Type} (std : AgentStd F)

/-- Source: `f32::clamp` between zero and one. -/
def clampUnit (x : F) : F :=
  let x := if std.lt x std.zero then std.zero else x
  if std.lt std.one x then std.one else x

/-- The one step of a proposal. Source: `proposal_builder.rs`, `build_proposal`. -/
def builtStep (proposalId : String) (parsed : ParsedRequest) : PlanStep where
  stepId := proposalId ++ "-s1"
  actionRef := actionRefFor parsed.intent
  input := inputFor parsed
  rationale := some ("derived from " ++ intentLabel parsed.intent ++
    " intent via deterministic rules")
  requiresApproval := requiresApprovalFor (actionRefFor parsed.intent)

/-- The id of a proposal. Source: `proposal_builder.rs`, `build_proposal`. -/
def builtId (sessionId : String) (proposalSeq : ℕ) : String :=
  sessionId ++ "-p" ++ toString proposalSeq

/-- The proposal before it is checked. Source: `proposal_builder.rs`, `build_proposal`. -/
def builtProposal (sessionId : String) (proposalSeq : ℕ) (parsed : ParsedRequest)
    (confidence : F) : AgentProposal F where
  proposalId := builtId sessionId proposalSeq
  sessionId := sessionId
  userGoal := userGoal parsed
  intent := parsed.intent
  plan := [builtStep (builtId sessionId proposalSeq) parsed]
  confidence := clampUnit std confidence
  explanation := some ("proposal built from parsed intent `" ++ intentLabel parsed.intent ++
    "` with deterministic rules")

/-- Source: `proposal_builder.rs`, `build_proposal`. -/
def buildProposal (sessionId : String) (proposalSeq : ℕ) (parsed : ParsedRequest) (confidence : F) :
    Except String (AgentProposal F) :=
  match validateProposal std (builtProposal std sessionId proposalSeq parsed confidence) with
  | .error e => .error e
  | .ok () => .ok (builtProposal std sessionId proposalSeq parsed confidence)

/-- No tool has the ref of a step that was built. -/
theorem not_has_actionRefFor (actions : List ActionCatalogItem)
    (workflows : List WorkflowToolSummary) (intent : AgentIntent) :
    ¬WorkflowHas workflows (actionRefFor intent) ∧ ¬ActionHas actions (actionRefFor intent) := by
  have hfree : '|' ∉ (actionRefFor intent).toList := by cases intent <;> decide
  constructor
  · rintro ⟨w, -, href⟩
    refine hfree (href ▸ ?_)
    rw [workflowRef, String.toList_append, String.toList_append]
    exact List.mem_append_left _ (List.mem_append_right _ (by decide))
  · rintro ⟨a, -, href⟩
    refine hfree (href ▸ ?_)
    rw [toList_actionRef]
    exact List.mem_append_right _ List.mem_cons_self

/-- What a proposal is built from is in order: there is a session, the id of the step and the goal
are not too long, and the confidence is one. -/
structure Buildable (sessionId : String) (proposalSeq : ℕ) (parsed : ParsedRequest)
    (confidence : F) : Prop where
  session : sessionId ≠ ""
  stepId : (builtId sessionId proposalSeq ++ "-s1").utf8ByteSize ≤ 128
  goal : (userGoal parsed).utf8ByteSize ≤ 4096
  confidence : std.le std.zero (clampUnit std confidence) = true ∧
    std.le (clampUnit std confidence) std.one = true

theorem userGoal_not_blank (parsed : ParsedRequest) :
    Domain.trim (userGoal parsed).toList ≠ [] := by
  have hlabel : ∀ (intent : AgentIntent) (rest : String),
      ':' ∈ (intentLabel intent ++ ": " ++ rest).toList := fun intent rest => by
    simp [String.toList_append]
  unfold userGoal
  split
  · exact Domain.trim_ne_nil (hlabel _ _) (by decide)
  · exact Domain.trim_ne_nil (hlabel _ _) (by decide)
  · refine Domain.trim_ne_nil (c := 'r') ?_ (by decide)
    rw [String.toList_append]
    exact List.mem_append_left _ (by decide)
  · decide

theorem not_exceeds_input (proposalId : String) (parsed : ParsedRequest) :
    ¬exceeds ((builtStep proposalId parsed).input.asStr.getD "") (64 * 1024) := by
  have hnone : (builtStep proposalId parsed).input.asStr = none := by
    simp only [builtStep, inputFor]
    split <;> rfl
  rw [hnone]
  decide

/-- The one step of a proposal passes the check of the contract if its id does. -/
theorem checkStep_builtStep {proposalId : String} (parsed : ParsedRequest)
    (hid : ¬badId (proposalId ++ "-s1")) : checkStep [] (builtStep proposalId parsed) = none := by
  have href : ¬((builtStep proposalId parsed).actionRef = "" ∨
      '/' ∈ (builtStep proposalId parsed).actionRef.toList ∨
      '\\' ∈ (builtStep proposalId parsed).actionRef.toList) := by
    change ¬(actionRefFor parsed.intent = "" ∨ '/' ∈ (actionRefFor parsed.intent).toList ∨
      '\\' ∈ (actionRefFor parsed.intent).toList)
    cases parsed.intent <;> decide
  have hstep : ¬(badId (builtStep proposalId parsed).stepId ∨
      (builtStep proposalId parsed).stepId ∈ ([] : List String)) := fun h =>
    h.elim hid List.not_mem_nil
  rw [checkStep, if_neg hstep, if_neg href, if_neg (not_exceeds_input proposalId parsed)]

/-- The step passes the check of the document if its id does. -/
theorem checkDocumentStep_builtStep {proposalId : String} (parsed : ParsedRequest)
    (hid : ¬badId (proposalId ++ "-s1")) :
    checkDocumentStep [] (builtStep proposalId parsed) = none := by
  have href : ¬(Domain.trim (builtStep proposalId parsed).actionRef.toList = [] ∨
      exceeds (builtStep proposalId parsed).actionRef 256) := by
    change ¬(Domain.trim (actionRefFor parsed.intent).toList = [] ∨
      exceeds (actionRefFor parsed.intent) 256)
    cases parsed.intent <;> decide
  have hstep : ¬badId (builtStep proposalId parsed).stepId := hid
  rw [checkDocumentStep, if_neg hstep, if_neg List.not_mem_nil, if_neg href]

/-- What the contract says of a proposal with one step that was built. -/
theorem buildProposal_eq_ok_iff {sessionId : String} {proposalSeq : ℕ} {parsed : ParsedRequest}
    {confidence : F} {p : AgentProposal F} :
    buildProposal std sessionId proposalSeq parsed confidence = .ok p ↔
      p = builtProposal std sessionId proposalSeq parsed confidence ∧
        validateProposal std (builtProposal std sessionId proposalSeq parsed confidence) =
          .ok () := by
  rw [buildProposal]
  cases validateProposal std (builtProposal std sessionId proposalSeq parsed confidence) with
  | error e => simp
  | ok u => simp [eq_comm]

/-- What is built passes the contract exactly if what it is built from is in order. -/
theorem validateProposal_built_iff (sessionId : String) (proposalSeq : ℕ) (parsed : ParsedRequest)
    (confidence : F) :
    validateProposal std (builtProposal std sessionId proposalSeq parsed confidence) = .ok () ↔
      Buildable std sessionId proposalSeq parsed confidence := by
  have hbytes : (builtId sessionId proposalSeq ++ "-s1").utf8ByteSize =
      (builtId sessionId proposalSeq).utf8ByteSize + 3 := String.utf8ByteSize_append
  have hsession : sessionId.utf8ByteSize ≤ (builtId sessionId proposalSeq).utf8ByteSize := by
    simp only [builtId, String.utf8ByteSize_append]
    omega
  have hstepId : builtId sessionId proposalSeq ++ "-s1" ≠ "" := fun h => by
    simpa using congrArg String.toList h
  have hid : builtId sessionId proposalSeq ≠ "" := fun h => by
    simpa [builtId] using congrArg String.toList h
  constructor
  · intro h
    unfold validateProposal at h
    split_ifs at h with _ hsid hgoal hconf _
    have hstep : checkStep [] (builtStep (builtId sessionId proposalSeq) parsed) = none := by
      cases hc : checkStep [] (builtStep (builtId sessionId proposalSeq) parsed) with
      | none => rfl
      | some e =>
          rw [builtProposal, validateSteps, hc] at h
          cases h
    unfold checkStep at hstep
    split_ifs at hstep with hbad _ _
    refine ⟨fun he => hsid (.inl he), ?_, ?_, ?_⟩
    · exact Nat.not_lt.mp fun hlt => hbad (.inl (.inr hlt))
    · exact Nat.not_lt.mp fun hlt => hgoal (.inr hlt)
    · simpa [builtProposal] using hconf
  · intro h
    have hsize := h.stepId
    have hbad : ¬badId (builtId sessionId proposalSeq) := fun hb =>
      hb.elim hid fun hlt => by unfold exceeds at hlt; omega
    have hbadSession : ¬badId sessionId := fun hb =>
      hb.elim h.session fun hlt => by unfold exceeds at hlt; omega
    have hgoal : ¬badGoal (userGoal parsed) := fun hb =>
      hb.elim (userGoal_not_blank parsed) (Nat.not_lt.mpr h.goal)
    have hstep : ¬badId (builtId sessionId proposalSeq ++ "-s1") := fun hb =>
      hb.elim hstepId (Nat.not_lt.mpr h.stepId)
    have hconf : ¬¬(std.le std.zero (clampUnit std confidence) &&
        std.le (clampUnit std confidence) std.one) = true := by
      rw [not_not, Bool.and_eq_true]
      exact h.confidence
    rw [builtProposal, validateProposal, if_neg hbad, if_neg hbadSession, if_neg hgoal,
      if_neg hconf, if_neg (List.cons_ne_nil _ _), validateSteps, checkStep_builtStep parsed hstep]
    rfl

/-- The document of what is built passes its own check. -/
theorem validate_fromProposal_built {sessionId : String} {proposalSeq : ℕ}
    {parsed : ParsedRequest} {confidence : F}
    (h : validateProposal std (builtProposal std sessionId proposalSeq parsed confidence) =
      .ok ()) :
    (PlanDocument.fromProposal
      (builtProposal std sessionId proposalSeq parsed confidence)).validate = .ok () := by
  have hstep : ¬badId (builtId sessionId proposalSeq ++ "-s1") := fun hb => hb.elim
    (fun he => by simpa using congrArg String.toList he)
    (Nat.not_lt.mpr ((validateProposal_built_iff std _ _ _ _).mp h).stepId)
  unfold validateProposal at h
  split_ifs at h with hid hsession hgoal hconf hne
  have hversion : ¬(PlanDocument.fromProposal
      (builtProposal std sessionId proposalSeq parsed confidence)).schemaVersion ≠
        planSchemaVersion := not_not.mpr rfl
  have hlength : ¬64 < (builtProposal std sessionId proposalSeq parsed confidence).plan.length :=
    by simp [builtProposal]
  rw [PlanDocument.validate, if_neg hversion]
  refine (if_neg hid).trans ((if_neg hsession).trans ((if_neg hgoal).trans
    ((if_neg hne).trans ((if_neg hlength).trans ?_))))
  change validateSteps _ [] [_] = _
  rw [validateSteps, checkDocumentStep_builtStep parsed hstep]
  rfl

/-- The step asks for approval wherever its risk requires it: without one there are only steps that
read. -/
theorem requiresApproval_builtStep {proposalId : String} {parsed : ParsedRequest}
    (h : (classify (builtStep proposalId parsed)).requiresApproval = true) :
    (builtStep proposalId parsed).requiresApproval = true := by
  by_contra hflag
  have hread : (startsWith "explain:" (builtStep proposalId parsed).actionRef ||
      startsWith "search:" (builtStep proposalId parsed).actionRef) = true := by
    rw [Bool.or_comm, Bool.or_eq_true]
    simpa [builtStep, requiresApprovalFor, or_iff_not_imp_left] using hflag
  rw [classify, if_pos hread] at h
  cases h

/-- The executor takes no ref of a step that was built. -/
theorem stepProposal_actionRefFor (intent : AgentIntent) (input : Json) :
    stepProposal (actionRefFor intent) input =
      .error ("malformed action_ref: " ++ actionRefFor intent) := by
  have hfree : '|' ∉ (actionRefFor intent).toList := by cases intent <;> decide
  have hone : splitN '|' 3 (actionRefFor intent).toList = [(actionRefFor intent).toList] := by
    rw [splitN, Domain.splitOnce_eq_none_iff.mpr hfree]
  rw [stepProposal, hone]

/-- The id of a proposal tells its session and its number. -/
theorem builtId_inj {sessionId sessionId' : String} {m n : ℕ}
    (h : builtId sessionId m = builtId sessionId' n) : sessionId = sessionId' ∧ m = n := by
  have hdigits : ∀ k : ℕ, 'p' ∉ (toString k).toList.reverse := fun k hmem => by
    have hmem : 'p' ∈ Nat.toDigits 10 k := by simpa [toString, Nat.repr] using hmem
    have hdigit : Char.isDigit 'p' = true :=
      Nat.isDigit_of_mem_toDigits (by decide) (by decide) hmem
    exact absurd hdigit (by decide)
  have hlast : ∀ (id : String) (k : ℕ), Domain.splitOnce 'p' (builtId id k).toList.reverse =
      some ((toString k).toList.reverse, '-' :: id.toList.reverse) := fun id k => by
    rw [← Domain.splitOnce_append (hdigits k)]
    simp [builtId]
  have hboth := (hlast sessionId m).symm.trans (h ▸ hlast sessionId' n)
  obtain ⟨hnumber, hsession⟩ := Prod.mk.inj (Option.some.inj hboth)
  exact ⟨String.toList_inj.mp (List.reverse_injective (List.cons.inj hsession).2),
    Decimals.toDigits_inj.mp (by simpa [toString, Nat.repr] using hnumber)⟩

/-- **A proposal that is built without a model.** One is built exactly if there is a session, the
ids and the goal are not too long, and the confidence is a number; no two have the same id. It has
one step, which asks for approval wherever its risk requires it, and its document passes the check
of documents. But no catalog has a tool that its step names, and the executor takes none of these
names: the check of plans refuses each of these documents, and a run of the step fails. -/
theorem buildProposal_spec (sessionId : String) (proposalSeq : ℕ) (parsed : ParsedRequest)
    (confidence : F) :
    ((∃ p, buildProposal std sessionId proposalSeq parsed confidence = .ok p) ↔
      Buildable std sessionId proposalSeq parsed confidence) ∧
    ∀ p, buildProposal std sessionId proposalSeq parsed confidence = .ok p →
      (∀ sessionId' proposalSeq' parsed' confidence' p',
        buildProposal std sessionId' proposalSeq' parsed' confidence' = .ok p' →
        p'.proposalId = p.proposalId → sessionId' = sessionId ∧ proposalSeq' = proposalSeq) ∧
      (PlanDocument.fromProposal p).validate = .ok () ∧
      ∃ s, p.plan = [s] ∧ s.stepId = p.proposalId ++ "-s1" ∧
        ((classify s).requiresApproval = true → s.requiresApproval = true) ∧
        (∀ actions workflows,
          validatePlan (PlanDocument.fromProposal p) (ToolCatalog.project actions workflows) =
            .error (.unknownRef s.stepId s.actionRef)) ∧
        stepProposal s.actionRef s.input = .error ("malformed action_ref: " ++ s.actionRef) := by
  constructor
  · simp only [buildProposal_eq_ok_iff, exists_eq_left, validateProposal_built_iff]
  · intro p h
    obtain ⟨rfl, hvalid⟩ := (buildProposal_eq_ok_iff std).mp h
    refine ⟨fun sessionId' proposalSeq' parsed' confidence' p' h' hids => ?_,
      validate_fromProposal_built std hvalid, _, rfl, rfl, requiresApproval_builtStep,
      fun actions workflows => ?_, stepProposal_actionRefFor parsed.intent _⟩
    · obtain ⟨rfl, -⟩ := (buildProposal_eq_ok_iff std).mp h'
      exact builtId_inj hids
    · obtain ⟨hw, ha⟩ := not_has_actionRefFor actions workflows parsed.intent
      have hget : (ToolCatalog.project actions workflows).get
          (builtStep (builtId sessionId proposalSeq) parsed).actionRef = none :=
        get_project_none hw ha
      change validateEach _ [_] = _
      rw [validateEach, validateStep, hget]

end build

/-- A request to open a program. -/
def openRequest : ParsedRequest := ⟨.open, none, some "chrome", none⟩

/-- The second proposal of a session, for a request to open a program, with a confidence of five. -/
theorem buildProposal_spec_open :
    let std := AgentStd.reading ⟨"p1", "s1", "open: chrome", .open, [], 0, none⟩
    ∃ p, buildProposal std "s1" 2 openRequest 5 = .ok p ∧ p.confidence = 1 ∧
      (PlanDocument.fromProposal p).validate = .ok () ∧
      validatePlan (PlanDocument.fromProposal p) (ToolCatalog.project [pipedTool] [demoWorkflow]) =
        .error (.unknownRef "s1-p2-s1" "command:open") := by
  intro std
  have hbuildable : Buildable std "s1" 2 openRequest 5 :=
    ⟨by decide, by decide, by decide, by decide⟩
  obtain ⟨hbuilt, hspec⟩ := buildProposal_spec std "s1" 2 openRequest 5
  obtain ⟨p, hp⟩ := hbuilt.mpr hbuildable
  obtain ⟨-, hvalid, s, hplan, hid, -, hrefused, -⟩ := hspec p hp
  obtain ⟨rfl, -⟩ := (buildProposal_eq_ok_iff std).mp hp
  obtain rfl := (List.cons.inj hplan).1
  exact ⟨_, hp, by decide, hvalid, hrefused [pipedTool] [demoWorkflow]⟩

end AuraLauncher.Agent
