import AuraLauncher.Runner.Session

/-!
# Runs without confirmations

What a resumed run is compared with is a run in which no step needs a confirmation. That run is a
run of the same runner: the definition and the commands of the host are what they were, with the
request for a confirmation taken out of every action.

* `WorkflowDefinition.unconfirmed`, `Host.unconfirmed` — the definition and the host of that run.
* `resolveStep_unconfirmed` — a step is resolved to the same action, without its request.
* `sameStep`, `transition_unconfirmed` — the definition is walked in the same way.
* `admissible_unconfirmed` — the definition passes the same checks.
-/

namespace AuraLauncher.Domain

/-! ## Actions that need no confirmation -/

/-- The action without its request for a confirmation. -/
def Action.unconfirmed (a : Action) : Action := { a with confirmationRequired := false }

/-- The command with actions that ask for no confirmation. -/
def Command.unconfirmed (c : Command) : Command :=
  { c with actions := c.actions.map Action.unconfirmed }

/-- The descriptor without its request for a confirmation. A required capability can ask for one as
well, but a workflow grants none, so a descriptor that requires one is refused. -/
def ActionDescriptor.unconfirmed (d : ActionDescriptor) : ActionDescriptor :=
  { d with confirmation := none }

/-- The action of a step without a request for a confirmation of its own. -/
def WorkflowAction.unconfirmed : WorkflowAction → WorkflowAction
  | .reference r => .reference r
  | .inline d => .inline d.unconfirmed

/-- The step with such an action. -/
def WorkflowStep.unconfirmed (s : WorkflowStep) : WorkflowStep :=
  { s with action := s.action.unconfirmed }

/-- The definition in which no step asks for a confirmation of its own. -/
def WorkflowDefinition.unconfirmed (d : WorkflowDefinition) : WorkflowDefinition :=
  { d with steps := d.steps.map WorkflowStep.unconfirmed }

variable {d : ActionDescriptor}

theorem ActionDescriptor.base_unconfirmed (h : d.requires = []) (kind : ActionKind)
    (payload : Option ActionPayload) :
    d.unconfirmed.base kind payload = (d.base kind payload).unconfirmed := by
  simp [ActionDescriptor.base, ActionDescriptor.unconfirmed, Action.unconfirmed, h]

theorem ActionDescriptor.fromField_unconfirmed (h : d.requires = []) (key : String)
    (kind : ActionKind) (payload : String → ActionPayload) :
    d.unconfirmed.fromField key kind payload =
      (d.fromField key kind payload).map Action.unconfirmed := by
  unfold ActionDescriptor.fromField
  rw [show d.unconfirmed.getStr key = d.getStr key from rfl]
  cases d.getStr key with
  | none => rfl
  | some s => simp [Except.map, ActionDescriptor.base_unconfirmed h]

/-- With nothing granted, a descriptor is made into the same action, less its request for a
confirmation. -/
theorem resolveSystem_unconfirmed {requires : List Capability}
    (hsub : requires = [] → d.requires = []) :
    resolveSystem d.unconfirmed [] requires =
      (resolveSystem d [] requires).map Action.unconfirmed := by
  by_cases hreq : requires = []
  · have h := hsub hreq
    subst hreq
    unfold resolveSystem
    simp only [List.filter_nil, List.isEmpty_nil, Bool.not_true, Bool.false_eq_true, if_false]
    rw [show d.unconfirmed.actionType = d.actionType from rfl]
    split
    · exact ActionDescriptor.fromField_unconfirmed h _ _ _
    · exact ActionDescriptor.fromField_unconfirmed h _ _ _
    · exact ActionDescriptor.fromField_unconfirmed h _ _ _
    · exact ActionDescriptor.fromField_unconfirmed h _ _ _
    · exact ActionDescriptor.fromField_unconfirmed h _ _ _
    · simp [Except.map, ActionDescriptor.base_unconfirmed h]
    · rw [show d.unconfirmed.input = d.input from rfl]
      split_ifs
      · simp [Except.map, ActionDescriptor.base_unconfirmed h]
      · rfl
      · rfl
  · have hmissing : (requires.filter fun c => !([] : List Capability).contains c) = requires :=
      List.filter_eq_self.mpr fun _ _ => rfl
    have hdenied : ∀ e : ActionDescriptor,
        resolveSystem e [] requires = .error (.capabilityDenied requires) := by
      intro e
      unfold resolveSystem
      rw [hmissing]
      simp [hreq]
    rw [hdenied, hdenied]
    rfl

theorem resolveDescriptor_unconfirmed :
    resolveDescriptor d.unconfirmed [] = (resolveDescriptor d []).map Action.unconfirmed := by
  have hrequiring : ∀ c, requiring c d.requires ≠ [] := by
    intro c hnil
    unfold requiring at hnil
    split_ifs at hnil with hmem
    · rw [hnil] at hmem
      cases hmem
    · simp at hnil
  unfold resolveDescriptor resolveDescriptorFor
  rw [show d.unconfirmed.actionType = d.actionType from rfl,
    show d.unconfirmed.requires = d.requires from rfl]
  split_ifs
  · exact resolveSystem_unconfirmed fun h => absurd h (hrequiring _)
  · rfl
  · exact resolveSystem_unconfirmed id

end AuraLauncher.Domain

namespace AuraLauncher.Runner

open AuraLauncher.Domain AuraLauncher.Lib Relation
open AuraLauncher.Workflow (Json)

universe u

/-! ## The host and what a step is resolved to -/

variable {σ : Type u} (H : Host σ)

/-- The host whose actions ask for no confirmation. -/
def Host.unconfirmed : Host σ where
  inSession s provider command := (H.inSession s provider command).map Command.unconfirmed
  freshQuery s provider :=
    let (answer, s) := H.freshQuery s provider
    (answer.map fun commands => commands.map Command.unconfirmed, s)
  execute := H.execute

/-- A resolved action without its request for a confirmation. -/
def ResolvedStepAction.unconfirmed (r : ResolvedStepAction) : ResolvedStepAction :=
  { r with command := r.command.map Command.unconfirmed, action := r.action.unconfirmed }

/-- A found action without its request for a confirmation. -/
def unconfirmedPair (found : Command × Action) : Command × Action :=
  (found.1.unconfirmed, found.2.unconfirmed)

theorem commandAction_unconfirmed (c : Command) (r : ActionReference) :
    commandAction c.unconfirmed r = (commandAction c r).map Action.unconfirmed :=
  List.find?_map

theorem sessionAction_unconfirmed (r : ActionReference) (s : σ) :
    sessionAction H.unconfirmed r s = (sessionAction H r s).map unconfirmedPair := by
  unfold sessionAction
  rw [show H.unconfirmed.inSession s r.providerId r.commandId =
    (H.inSession s r.providerId r.commandId).map Command.unconfirmed from rfl]
  cases H.inSession s r.providerId r.commandId with
  | none => rfl
  | some c =>
      simp only [Option.map_some, Option.bind_some, commandAction_unconfirmed]
      cases commandAction c r <;> rfl

theorem findAction_unconfirmed (r : ActionReference) (commands : List Command) :
    findAction r (commands.map Command.unconfirmed) =
      (findAction r commands).map unconfirmedPair := by
  have hsame : (fun c : Command => c.providerId == r.providerId && c.id == r.commandId) ∘
      Command.unconfirmed = fun c => c.providerId == r.providerId && c.id == r.commandId := rfl
  unfold findAction
  rw [List.find?_map, hsame]
  cases commands.find? fun c => c.providerId == r.providerId && c.id == r.commandId with
  | none => rfl
  | some c =>
      simp only [Option.map_some, commandAction_unconfirmed]
      cases commandAction c r <;> rfl

theorem resolveReference_unconfirmed (r : ActionReference) (s : σ) :
    (resolveReference H.unconfirmed r s).1 = (resolveReference H r s).1.map unconfirmedPair ∧
      (resolveReference H.unconfirmed r s).2.1 = (resolveReference H r s).2.1 := by
  unfold resolveReference
  rw [sessionAction_unconfirmed]
  cases sessionAction H r s with
  | some found => exact ⟨rfl, rfl⟩
  | none =>
      rw [Option.map_none]
      obtain ⟨⟨answer, s'⟩, hquery⟩ : ∃ q, H.freshQuery s r.providerId = q := ⟨_, rfl⟩
      have hquery' : H.unconfirmed.freshQuery s r.providerId =
          (answer.map fun commands => commands.map Command.unconfirmed, s') := by
        simp only [Host.unconfirmed, hquery]
      simp only [hquery, hquery']
      cases answer with
      | error e => exact ⟨rfl, rfl⟩
      | ok commands => exact ⟨findAction_unconfirmed r commands, rfl⟩

theorem bindReference_unconfirmed (input : Json) (c : Command) (a : Action) :
    bindReference input c.unconfirmed a.unconfirmed =
      (bindReference input c a).map ResolvedStepAction.unconfirmed := by
  have hruntime : runtimeAction a.unconfirmed input = (runtimeAction a input).unconfirmed := by
    unfold runtimeAction
    split_ifs <;> rfl
  have haltered : alteredIdentity a.unconfirmed input = alteredIdentity a input := by
    unfold alteredIdentity
    rw [hruntime]
    rfl
  unfold bindReference
  simp only [haltered, hruntime, show a.unconfirmed.kind = a.kind from rfl]
  split_ifs <;> rfl

theorem resolveInline_unconfirmed (input : Json) (d : ActionDescriptor) :
    resolveInline input d.unconfirmed =
      (resolveInline input d).map ResolvedStepAction.unconfirmed := by
  have hruntime : runtimeDescriptor d.unconfirmed input =
      (runtimeDescriptor d input).unconfirmed := by
    unfold runtimeDescriptor
    split_ifs <;> rfl
  unfold resolveInline
  rw [hruntime, resolveDescriptor_unconfirmed]
  cases resolveDescriptor (runtimeDescriptor d input) [] <;> rfl

theorem refuseDisabled_unconfirmed (r : ResolvedStepAction) :
    refuseDisabled r.unconfirmed = (refuseDisabled r).map ResolvedStepAction.unconfirmed := by
  unfold refuseDisabled
  rw [show r.unconfirmed.action.disabledReason = r.action.disabledReason from rfl]
  cases r.action.disabledReason <;> rfl

/-- **A step is resolved to the same action, without its request for a confirmation**, and the host
is left as it is left otherwise. -/
theorem resolveStep_unconfirmed (action : WorkflowAction) (input : Json) (s : σ) :
    (resolveStep H.unconfirmed action.unconfirmed input s).1 =
      (resolveStep H action input s).1.map ResolvedStepAction.unconfirmed ∧
    (resolveStep H.unconfirmed action.unconfirmed input s).2.1 =
      (resolveStep H action input s).2.1 := by
  cases action with
  | reference r =>
      obtain ⟨hfound, hhost⟩ := resolveReference_unconfirmed H r s
      refine ⟨?_, hhost⟩
      simp only [resolveStep, WorkflowAction.unconfirmed, hfound]
      cases (resolveReference H r s).1 with
      | error f => rfl
      | ok found =>
          obtain ⟨c, a⟩ := found
          simp only [Except.map, unconfirmedPair, Bind.bind, Except.bind, bindReference_unconfirmed]
          cases bindReference input c a with
          | error f => rfl
          | ok r => exact refuseDisabled_unconfirmed r
  | «inline» d =>
      refine ⟨?_, rfl⟩
      simp only [resolveStep, WorkflowAction.unconfirmed, resolveInline_unconfirmed]
      cases resolveInline input d with
      | error f => rfl
      | ok r => exact refuseDisabled_unconfirmed r

/-! ## The same walk through the definition -/

variable (std : RustStd) (d : WorkflowDefinition)

theorem length_unconfirmed : d.steps.length = d.unconfirmed.steps.length :=
  (List.length_map _).symm

variable {d}

/-- A step of the definition, as a step of the one without confirmations. -/
def sameStep (i : Fin d.steps.length) : Fin d.unconfirmed.steps.length :=
  i.cast (length_unconfirmed d)

theorem sameStep_injective : Function.Injective (sameStep (d := d)) :=
  Fin.cast_injective (length_unconfirmed d)

theorem get_sameStep (i : Fin d.steps.length) :
    d.unconfirmed.steps.get (sameStep i) = (d.steps.get i).unconfirmed :=
  List.getElem_map _

theorem stepId_sameStep (i : Fin d.steps.length) :
    (d.unconfirmed.steps.get (sameStep i)).stepId = (d.steps.get i).stepId := by
  rw [get_sameStep]
  rfl

variable (d)

theorem ids_unconfirmed : d.unconfirmed.ids = d.ids := by
  simp only [WorkflowDefinition.ids, WorkflowDefinition.unconfirmed, List.map_map]
  rfl

theorem entryId_unconfirmed : entryId d.unconfirmed = entryId d := by
  simp only [entryId, WorkflowDefinition.unconfirmed, List.head?_map, Option.map_map]
  rfl

theorem indexOf_unconfirmed (id : String) :
    indexOf d.unconfirmed id = (indexOf d id).map sameStep := by
  have hrange : ∀ {m n : ℕ} (h : m = n), List.finRange n = (List.finRange m).map (Fin.cast h) := by
    rintro m n rfl
    simp
  unfold indexOf
  rw [hrange (length_unconfirmed d), ← List.map_reverse, List.find?_map]
  congr 2
  funext i
  exact congrArg (· == id) (stepId_sameStep i)

variable {d}

theorem nextLinear_unconfirmed (i : Fin d.steps.length) :
    nextLinear d.unconfirmed (sameStep i) = (nextLinear d i).map sameStep := by
  have hlen := length_unconfirmed d
  unfold nextLinear
  by_cases h : i.val + 1 < d.steps.length
  · rw [dif_pos h, dif_pos (show (sameStep i).val + 1 < _ from h.trans_eq hlen)]
    rfl
  · have h' : ¬ (sameStep i).val + 1 < d.unconfirmed.steps.length :=
      fun h' => h (h'.trans_eq hlen.symm)
    rw [dif_neg h, dif_neg h']
    rfl

theorem transition_unconfirmed (i : Fin d.steps.length) (target : Option String) :
    transition d.unconfirmed (sameStep i) target = (transition d i target).map sameStep := by
  cases target with
  | none => exact nextLinear_unconfirmed i
  | some t =>
      simp only [transition]
      split_ifs
      · rfl
      · exact indexOf_unconfirmed d t

/-! ## The same checks -/

theorem checkedTargets_unconfirmed (i : Fin d.steps.length) :
    checkedTargets d.unconfirmed (sameStep i) = checkedTargets d i := by
  have hnext : ((nextLinear d.unconfirmed (sameStep i)).map fun j =>
      (d.unconfirmed.steps.get j).stepId) =
        (nextLinear d i).map fun j => (d.steps.get j).stepId := by
    rw [nextLinear_unconfirmed, Option.map_map]
    congr 1
    funext j
    exact stepId_sameStep j
  unfold checkedTargets
  dsimp only
  rw [hnext, get_sameStep]
  rfl

theorem checkedEdges_unconfirmed : checkedEdges d.unconfirmed = checkedEdges d := by
  have hadj : adj d.unconfirmed = adj d := by
    funext id
    unfold adj
    rw [indexOf_unconfirmed, Option.map_map]
    congr 2
    funext i
    exact checkedTargets_unconfirmed i
  unfold checkedEdges
  rw [ids_unconfirmed, hadj]

theorem validateIds_unconfirmed (seen : List String) (steps : List WorkflowStep) :
    validateIds seen (steps.map WorkflowStep.unconfirmed) = validateIds seen steps := by
  induction steps generalizing seen with
  | nil => rfl
  | cons s steps ih =>
      simp only [List.map_cons, validateIds, ih]
      rfl

variable {std}

/-- What the checks before a fresh run ask for. -/
theorem admissible_eq_ok_iff :
    admissible std d = .ok () ↔ d.validate = .ok () ∧ WellFormed std d ∧ CheckedOk d := by
  rw [← validateGraph_eq_ok_iff, admissible, bind_eq_ok]
  cases hgraph : validateGraph std d with
  | ok _ => exact ⟨fun ⟨_, hvalid, _⟩ => ⟨hvalid, rfl⟩, fun ⟨hvalid, _⟩ => ⟨(), hvalid, rfl⟩⟩
  | error errors => simp

/-- The definition without confirmations passes the checks that the definition passes. -/
theorem admissible_unconfirmed (h : admissible std d = .ok ()) :
    admissible std d.unconfirmed = .ok () := by
  obtain ⟨hvalid, hwf, hchecked⟩ := admissible_eq_ok_iff.mp h
  refine admissible_eq_ok_iff.mpr ⟨?_, ⟨?_, ?_, ?_, ?_⟩, ⟨?_, ?_⟩⟩
  · rw [← hvalid]
    unfold WorkflowDefinition.validate
    simp only [WorkflowDefinition.unconfirmed, List.isEmpty_map, validateIds_unconfirmed]
  · rw [ids_unconfirmed]
    exact hwf.nodup
  · rw [ids_unconfirmed, entryId_unconfirmed]
    exact hwf.entry
  · intro s' hs'
    obtain ⟨s, hs, rfl⟩ := List.mem_map.mp hs'
    rw [ids_unconfirmed]
    exact hwf.targets s hs
  · intro s' hs'
    obtain ⟨s, hs, rfl⟩ := List.mem_map.mp hs'
    exact hwf.conditions s hs
  · rw [checkedEdges_unconfirmed]
    exact hchecked.acyclic
  · rw [ids_unconfirmed, entryId_unconfirmed, markEdges, checkedEdges_unconfirmed]
    exact hchecked.reachable

end AuraLauncher.Runner
