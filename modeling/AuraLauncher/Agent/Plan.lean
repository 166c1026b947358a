import AuraLauncher.Domain.Std

/-!
# Proposals and plans of the agent

`launcher-ai`: what a language model may propose, and what of it passes. A proposal is data; it
never carries any authority.

* `PlanStep`, `AgentProposal`, `PlanDocument` — a step, a proposal of the model, and a plan that the
  host keeps or the user edits.
* `validateProposal`, `PlanDocument.validate` — the two validators. Both go through the steps with
  the ids seen so far, so the steps of a valid plan have different ids (`nodup_of_validateProposal`,
  `PlanDocument.nodup_of_validate`).
* `classify` — the risk of a step, by its action reference.
-/

namespace AuraLauncher.Agent

open AuraLauncher.Workflow (Json)
open AuraLauncher.Domain (RustStd trim stripPrefix hasSub)

/-! ## The contract -/

/-- Source: `agent_contract.rs`, `AgentIntent`. -/
inductive AgentIntent
  | search
  | «open»
  | execute
  | workflow
  | explain
  | unknown
  deriving DecidableEq, Repr

/-- Source: `agent_contract.rs`, `RiskLevel`. -/
inductive RiskLevel
  | l0Informational
  | l1ReadOnly
  | l2Reversible
  | l3Destructive
  | l4Sensitive
  deriving DecidableEq, Repr

/-- Source: `agent_contract.rs`, `RiskLevel::requires_approval`. -/
def RiskLevel.requiresApproval : RiskLevel → Bool
  | .l3Destructive | .l4Sensitive => true
  | _ => false

/-- A step: a logical reference, its input and whether it asks for approval.
Source: `agent_contract.rs`, `PlanStep`. -/
structure PlanStep where
  stepId : String
  actionRef : String
  input : Json
  rationale : Option String
  requiresApproval : Bool

/-- A plan for one goal; `F` stands for `f32`. Source: `agent_contract.rs`, `AgentProposal`. -/
structure AgentProposal (F : Type) where
  proposalId : String
  sessionId : String
  userGoal : String
  intent : AgentIntent
  plan : List PlanStep
  confidence : F
  explanation : Option String

/-- What the agent uses of Rust's standard library and of `serde_json` and Lean does not decide:
Unicode, `f32`, and the derived reader of proposals. -/
structure AgentStd (F : Type) where
  /-- `str::to_lowercase`. -/
  toLowercase : String → String
  /-- `char::is_control`. -/
  isControl : Char → Bool
  /-- `0.0`. -/
  zero : F
  /-- `1.0`. -/
  one : F
  /-- `<=` of two `f32`. -/
  le : F → F → Bool
  /-- `<` of two `f32`. -/
  lt : F → F → Bool
  /-- `serde_json::from_str::<AgentProposal>`, with the text of the error. -/
  fromStr : String → Except String (AgentProposal F)

/-- The standard library on ASCII texts, with natural numbers for `f32`, and a reader that reads the
same proposal from every text. -/
def AgentStd.reading (p : AgentProposal ℕ) : AgentStd ℕ where
  toLowercase s := String.ofList (s.toList.map Char.toLower)
  isControl c := decide (c.toNat < 32) || c.toNat == 127
  zero := 0
  one := 1
  le x y := decide (x ≤ y)
  lt x y := decide (x < y)
  fromStr _ := .ok p

/-- The text is longer than `n` bytes. -/
def exceeds (s : String) (n : ℕ) : Prop := n < s.utf8ByteSize

instance (s : String) (n : ℕ) : Decidable (exceeds s n) := inferInstanceAs (Decidable (_ < _))

/-- Not an id of 1 to 128 bytes. -/
def badId (s : String) : Prop := s = "" ∨ exceeds s 128

instance (s : String) : Decidable (badId s) := inferInstanceAs (Decidable (_ ∨ _))

/-- Not a goal with something in it, of 4096 bytes at most. -/
def badGoal (s : String) : Prop := trim s.toList = [] ∨ exceeds s 4096

instance (s : String) : Decidable (badGoal s) := inferInstanceAs (Decidable (_ ∨ _))

/-- The first step that `check` refuses, given the ids of the steps before it. Both validators go
through the steps in this way. -/
def validateSteps {ε : Type} (check : List String → PlanStep → Option ε) :
    List String → List PlanStep → Except ε Unit
  | _, [] => .ok ()
  | seen, s :: steps =>
      match check seen s with
      | some e => .error e
      | none => validateSteps check (s.stepId :: seen) steps

/-- What is wrong with a step of a proposal. Source: `agent_contract.rs`, `validate_proposal` (the
body of the loop). -/
def checkStep (seen : List String) (s : PlanStep) : Option String :=
  if badId s.stepId ∨ s.stepId ∈ seen then some ("invalid or duplicate step_id: " ++ s.stepId)
  else if s.actionRef = "" ∨ '/' ∈ s.actionRef.toList ∨ '\\' ∈ s.actionRef.toList then
    some ("invalid action_ref: " ++ s.actionRef)
  else if exceeds (s.input.asStr.getD "") (64 * 1024) then
    some ("step " ++ s.stepId ++ " input too large")
  else none

variable {F : Type} (std : AgentStd F)

/-- Source: `agent_contract.rs`, `validate_proposal`. -/
def validateProposal (p : AgentProposal F) : Except String Unit :=
  if badId p.proposalId then .error "invalid proposal_id"
  else if badId p.sessionId then .error "invalid session_id"
  else if badGoal p.userGoal then .error "invalid user_goal"
  else if ¬(std.le std.zero p.confidence && std.le p.confidence std.one) then
    .error "confidence must be in [0,1]"
  else if p.plan = [] then .error "plan must have at least one step"
  else validateSteps checkStep [] p.plan

/-! ## Plan documents -/

/-- Source: `plan.rs`, `PLAN_SCHEMA_VERSION`. -/
def planSchemaVersion : ℕ := 1

/-- Source: `plan.rs`, `PlanDocument`. -/
structure PlanDocument where
  schemaVersion : ℕ
  proposalId : String
  sessionId : String
  userGoal : String
  steps : List PlanStep

/-- Source: `plan.rs`, `PlanDocumentError`. -/
inductive PlanDocumentError
  | unknownVersion (got expected : ℕ)
  | invalid (reason : String)
  deriving DecidableEq, Repr

/-- What is wrong with a step of a document. Source: `plan.rs`, `PlanDocument::validate` (the body
of the loop). -/
def checkDocumentStep (seen : List String) (s : PlanStep) : Option PlanDocumentError :=
  if badId s.stepId then some (.invalid ("invalid step_id: " ++ s.stepId))
  else if s.stepId ∈ seen then some (.invalid ("duplicate step_id: " ++ s.stepId))
  else if trim s.actionRef.toList = [] ∨ exceeds s.actionRef 256 then
    some (.invalid ("invalid action_ref: " ++ s.actionRef))
  else none

/-- Source: `plan.rs`, `PlanDocument::validate`. -/
def PlanDocument.validate (doc : PlanDocument) : Except PlanDocumentError Unit :=
  if doc.schemaVersion ≠ planSchemaVersion then
    .error (.unknownVersion doc.schemaVersion planSchemaVersion)
  else if badId doc.proposalId then .error (.invalid "invalid proposal_id")
  else if badId doc.sessionId then .error (.invalid "invalid session_id")
  else if badGoal doc.userGoal then .error (.invalid "invalid user_goal")
  else if doc.steps = [] then .error (.invalid "plan must have at least one step")
  else if 64 < doc.steps.length then .error (.invalid "plan exceeds 64 steps")
  else validateSteps checkDocumentStep [] doc.steps

/-! ### What a valid plan has -/

/-- A check that refuses ids it has seen lets only different ids pass. -/
theorem nodup_of_validateSteps {ε : Type} {check : List String → PlanStep → Option ε}
    (hcheck : ∀ seen s, check seen s = none → s.stepId ∉ seen) {seen : List String}
    {steps : List PlanStep} (h : validateSteps check seen steps = .ok ()) :
    (steps.map PlanStep.stepId).Nodup ∧ ∀ s ∈ steps, s.stepId ∉ seen := by
  induction steps generalizing seen with
  | nil => simp
  | cons s steps ih =>
      unfold validateSteps at h
      cases hs : check seen s with
      | some e =>
          rw [hs] at h
          cases h
      | none =>
          rw [hs] at h
          obtain ⟨hnodup, hfresh⟩ := ih h
          have hlater : ∀ t ∈ steps, t.stepId ≠ s.stepId ∧ t.stepId ∉ seen := fun t ht => by
            simpa using hfresh t ht
          constructor
          · rw [List.map_cons, List.nodup_cons]
            refine ⟨fun hmem => ?_, hnodup⟩
            obtain ⟨t, ht, heq⟩ := List.mem_map.mp hmem
            exact (hlater t ht).1 heq
          · intro t ht
            rcases List.mem_cons.mp ht with rfl | ht
            · exact hcheck seen t hs
            · exact (hlater t ht).2

theorem checkStep_fresh {seen : List String} {s : PlanStep} (h : checkStep seen s = none) :
    s.stepId ∉ seen := by
  intro hmem
  rw [checkStep, if_pos (.inr hmem)] at h
  cases h

theorem checkDocumentStep_fresh {seen : List String} {s : PlanStep}
    (h : checkDocumentStep seen s = none) : s.stepId ∉ seen := by
  intro hmem
  unfold checkDocumentStep at h
  split_ifs at h

variable {std}

/-- The steps of a valid proposal have different ids, and there is one at least. -/
theorem nodup_of_validateProposal {p : AgentProposal F} (h : validateProposal std p = .ok ()) :
    p.plan ≠ [] ∧ (p.plan.map PlanStep.stepId).Nodup := by
  unfold validateProposal at h
  split_ifs at h with _ _ _ _ hne
  exact ⟨hne, (nodup_of_validateSteps (fun _ _ => checkStep_fresh) h).1⟩

/-- So do the steps of a valid document. -/
theorem PlanDocument.nodup_of_validate {doc : PlanDocument} (h : doc.validate = .ok ()) :
    doc.steps ≠ [] ∧ (doc.steps.map PlanStep.stepId).Nodup := by
  unfold PlanDocument.validate at h
  split_ifs at h with _ _ _ _ hne
  exact ⟨hne, (nodup_of_validateSteps (fun _ _ => checkDocumentStep_fresh) h).1⟩

/-! ## Risks -/

/-- The text starts with `pre`. -/
def startsWith (pre s : String) : Bool := (stripPrefix pre s).isSome

/-- The risk of a step; an unknown vocabulary is taken for the worst. Source: `risk_classifier.rs`,
`classify`. -/
def classify (step : PlanStep) : RiskLevel :=
  let r := step.actionRef
  if startsWith "explain:" r || startsWith "search:" r then .l0Informational
  else if startsWith "command:file:" r || startsWith "command:app:" r then
    if hasSub "copy".toList r.toList then .l2Reversible else .l1ReadOnly
  else if startsWith "clipboard:" r then .l2Reversible
  else if startsWith "workflow:" r then .l2Reversible
  else if startsWith "shell:" r || startsWith "power:" r then .l3Destructive
  else if startsWith "privileged:" r then .l4Sensitive
  else .l4Sensitive

end AuraLauncher.Agent
