import AuraLauncher.Agent.Plan

/-!
# From a request to a proposal

`intent.rs`, `clarification.rs`, `prompt.rs`, `structured_output.rs` and `pipeline.rs`: the one way
from a text of the user and an answer of the model to a proposal. The model is asked once; it is a
parameter, and so is what its answer depends on.

* `parseIntent`, `needsClarification` — the request by rules, and when the user is asked instead.
* `buildAgentPrompt` — the prompt; what is not trusted in it is bounded and stripped.
* `validateLlmOutput` — the reader of answers.
* `runPipeline` — all of it, with the approval flags that follow from the risks.
* `runPipeline_proposal` — what a proposal that comes out has: steps, with different ids, and a flag
  on each of them that is risky.
-/

namespace AuraLauncher.Agent

open AuraLauncher.Domain (trim stripPrefix findSub bind_eq_ok)

variable {F : Type} (std : AgentStd F)

/-! ## The request -/

/-- Source: `intent.rs`, `Entities`. -/
structure Entities where
  query : Option String
  target : Option String
  workflowId : Option String
  deriving DecidableEq, Repr

/-- Source: `intent.rs`, `ParsedRequest`. -/
structure ParsedRequest where
  intent : AgentIntent
  entities : Entities
  deriving DecidableEq, Repr

/-- `str::trim`, as a string. -/
def trimmed (s : String) : String := String.ofList (trim s.toList)

/-- The intent by the verb in front, and the text after the verb. Source: `intent.rs`,
`parse_intent` (the chain of prefixes). -/
def verbOf (lower : String) : AgentIntent × String :=
  match stripPrefix "find " lower, stripPrefix "search " lower, stripPrefix "open " lower,
    stripPrefix "run " lower, stripPrefix "workflow " lower with
  | some rest, _, _, _, _ => (.search, rest)
  | none, some rest, _, _, _ => (.search, rest)
  | none, none, some rest, _, _ => (.open, rest)
  | none, none, none, some rest, _ => (.execute, rest)
  | none, none, none, none, some rest => (.workflow, rest)
  | none, none, none, none, none => (.search, lower)

/-- Source: `intent.rs`, `parse_intent`. -/
def parseIntent (input : String) : ParsedRequest :=
  let (intent, rest) := verbOf (std.toLowercase (trimmed input))
  let rest := some (trimmed rest)
  ⟨intent,
    match intent with
    | .search => ⟨rest, none, none⟩
    | .open | .execute => ⟨none, rest, none⟩
    | .workflow => ⟨none, none, rest⟩
    | .explain | .unknown => ⟨none, none, none⟩⟩

/-- Source: `clarification.rs`, `ClarificationPolicy`. -/
structure ClarificationPolicy (F : Type) where
  minConfidence : F

/-- Source: `clarification.rs`, `ClarificationReason`. -/
inductive ClarificationReason
  | lowConfidence
  | ambiguousTarget
  | emptyInput
  deriving DecidableEq, Repr

/-- Source: `clarification.rs`, `Clarification`. -/
structure Clarification where
  question : String
  reason : ClarificationReason
  deriving DecidableEq, Repr

/-- The entity an intent is about. -/
def AgentIntent.subject (e : Entities) : AgentIntent → Option String
  | .search | .explain | .unknown => e.query
  | .open | .execute => e.target
  | .workflow => e.workflowId

/-- Source: `clarification.rs`, `needs_clarification`. -/
def needsClarification (intent : AgentIntent) (entities : Entities) (confidence : F)
    (policy : ClarificationPolicy F) : Option Clarification :=
  if trim ((intent.subject entities).getD "").toList = [] then
    some ⟨"你想做什么？请补充具体内容。", .emptyInput⟩
  else if intent = .execute ∧ entities.target.any (fun t => decide (t.utf8ByteSize < 3)) then
    some ⟨"`" ++ entities.target.getD "" ++ "` 不是一个明确的可执行目标——你想运行什么？",
      .ambiguousTarget⟩
  else if std.lt confidence policy.minConfidence then
    some ⟨"我不太确定你的意图——可以再说得具体一点吗？", .lowConfidence⟩
  else none

/-! ## The prompt -/

/-- Every occurrence of `sub` replaced, from the left; the bound is the length of the text.
Source: `str::replace`. -/
def replaceLoop (sub new : List Char) : ℕ → List Char → List Char
  | 0, s => s
  | n + 1, s =>
      match findSub sub s with
      | none => s
      | some (before, rest) => before ++ new ++ replaceLoop sub new n (rest.drop sub.length)

/-- A role marker with its colon escaped. -/
def escapeRole (role : String) (s : List Char) : List Char :=
  replaceLoop (role ++ ":").toList (role ++ "\\:").toList s.length s

/-- Source: `prompt.rs`, `sanitize_untrusted`. -/
def sanitizeUntrusted (text : String) : String :=
  String.ofList (escapeRole "assistant" (escapeRole "user" (escapeRole "system"
    (text.toList.filter fun c => !std.isControl c))))

/-- The longest prefix of whole characters that has `n` bytes at most. -/
def takeBytes : ℕ → List Char → List Char
  | _, [] => []
  | n, c :: cs => if c.utf8Size ≤ n then c :: takeBytes (n - c.utf8Size) cs else []

/-- Source: `prompt.rs`, `bound_chars`. -/
def boundChars (text : String) (max : ℕ) : String := String.ofList (takeBytes max text.toList)

/-- Source: `prompt.rs`, `build_agent_prompt`. -/
def buildAgentPrompt (goal : String) (entities : Entities) (untrustedContext catalogBlock : String)
    (contextBudget : ℕ) : String :=
  let ctx := boundChars (sanitizeUntrusted std untrustedContext) (max contextBudget 64)
  let line (label : String) (entity : Option String) :=
    entity.elim "" fun e => label ++ boundChars (sanitizeUntrusted std e) 256 ++ "\n"
  "GOAL: " ++ boundChars (sanitizeUntrusted std goal) 512 ++ "\n" ++
    line "QUERY: " entities.query ++ line "TARGET: " entities.target ++
    (if ctx = "" then "" else "<untrusted-context>\n" ++ ctx ++ "\n</untrusted-context>\n") ++
    "ACTION CATALOG (untrusted data):\n" ++ boundChars catalogBlock (max contextBudget 256)

/-! ## The answer -/

/-- The text from the first opening brace to the last closing one. Source: `structured_output.rs`,
`extract_json`. -/
def extractJson (raw : String) : Except String String :=
  let fromOpen := (trim raw.toList).dropWhile (· ≠ '\x7b')
  let span := (fromOpen.reverse.dropWhile (· ≠ '\x7d')).reverse
  if span = [] then .error "no JSON object found" else .ok (String.ofList span)

/-- Source: `structured_output.rs`, `validate_llm_output`. -/
def validateLlmOutput (raw : String) : Except String (AgentProposal F) := do
  let json ← extractJson raw
  let proposal ← (std.fromStr json).mapError ("not a valid proposal: " ++ ·)
  validateProposal std proposal
  return proposal

/-! ## The pipeline -/

/-- Source: `pipeline.rs`, `PipelineOutcome`. -/
inductive PipelineOutcome (F : Type)
  | proposal (proposal : AgentProposal F) (risks : List RiskLevel) (prompt : String)
  | clarify (question prompt : String)

/-- A step with the flag its risk asks for; a flag is never taken away. Source: `pipeline.rs`,
`run_pipeline` (the last loop). -/
def flagStep (step : PlanStep) (risk : RiskLevel) : PlanStep :=
  if risk.requiresApproval then { step with requiresApproval := true } else step

variable {W : Type}

/-- What follows the answer of the model. Source: `pipeline.rs`, `run_pipeline` (from the answer
on). -/
def proposalOf (intent : AgentIntent) (prompt : String) (raw : Except String String) :
    Except String (PipelineOutcome F) := do
  let raw ← raw.mapError ("LLM call failed: " ++ ·)
  let proposal ← validateLlmOutput std raw
  let risks := proposal.plan.map classify
  let proposal : AgentProposal F :=
    { proposal with intent, plan := List.zipWith flagStep proposal.plan risks }
  validateProposal std proposal
  return .proposal proposal risks prompt

/-- Source: `pipeline.rs`, `run_pipeline`. -/
def runPipeline (llm : String → W → Except String String × W) (input context catalog : String)
    (policy : ClarificationPolicy F) (contextBudget : ℕ) (w : W) :
    Except String (PipelineOutcome F) × W :=
  let parsed := parseIntent std input
  match needsClarification std parsed.intent parsed.entities std.one policy with
  | some clar => (.ok (.clarify clar.question ""), w)
  | none =>
      let prompt := buildAgentPrompt std input parsed.entities context catalog contextBudget
      let (raw, w) := llm prompt w
      (proposalOf std parsed.intent prompt raw, w)

/-! ### What a proposal has -/

theorem flagStep_actionRef (step : PlanStep) (risk : RiskLevel) :
    (flagStep step risk).actionRef = step.actionRef := by
  unfold flagStep
  split_ifs <;> rfl

/-- The risk of a step is that of its reference. -/
theorem classify_congr {s t : PlanStep} (h : s.actionRef = t.actionRef) :
    classify s = classify t := by
  simp only [classify, h]

/-- A flagged plan has a flag on every risky step. -/
theorem flagged_of_risky {plan : List PlanStep} {s : PlanStep}
    (h : s ∈ List.zipWith flagStep plan (plan.map classify))
    (hrisk : (classify s).requiresApproval = true) : s.requiresApproval = true := by
  rw [List.zipWith_map_right, List.zipWith_self, List.mem_map] at h
  obtain ⟨t, -, rfl⟩ := h
  rw [classify_congr (flagStep_actionRef t _)] at hrisk
  rw [flagStep, if_pos hrisk]

/-- **What comes out of the pipeline**: a plan with a step at least, whose steps have different ids,
and in which every risky step asks for approval. -/
theorem runPipeline_proposal {std : AgentStd F} {llm : String → W → Except String String × W}
    {input context catalog prompt : String} {policy : ClarificationPolicy F} {contextBudget : ℕ}
    {w : W} {p : AgentProposal F} {risks : List RiskLevel}
    (h : (runPipeline std llm input context catalog policy contextBudget w).1 =
      .ok (.proposal p risks prompt)) :
    p.plan ≠ [] ∧ (p.plan.map PlanStep.stepId).Nodup ∧
      ∀ s ∈ p.plan, (classify s).requiresApproval = true → s.requiresApproval = true := by
  dsimp only [runPipeline] at h
  cases hclar : needsClarification std (parseIntent std input).intent
      (parseIntent std input).entities std.one policy with
  | some clar =>
      rw [hclar] at h
      cases h
  | none =>
      rw [hclar] at h
      obtain ⟨raw, -, h⟩ := bind_eq_ok.mp h
      obtain ⟨proposal, -, h⟩ := bind_eq_ok.mp h
      obtain ⟨⟨⟩, hvalid, h⟩ := bind_eq_ok.mp h
      cases h
      obtain ⟨hne, hnodup⟩ := nodup_of_validateProposal hvalid
      exact ⟨hne, hnodup, fun s hs => flagged_of_risky hs⟩

end AuraLauncher.Agent
