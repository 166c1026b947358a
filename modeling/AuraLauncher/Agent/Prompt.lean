import AuraLauncher.Agent.Pipeline
import AuraLauncher.Agent.ToolCatalog
import AuraLauncher.Lib.Occurrences

/-!
# Prompts

`crates/launcher-ai/src/prompt.rs`: the texts that a model is asked with. The catalog of the
proposal planner stands between two markers, as does the metadata of each tool; the agent prompt of
`Agent.Pipeline` has its untrusted context between markers and the tool catalog at its end.

* `formatCatalog` — the catalog section; `itemText` is the part of one item.
* `promptHead`, `contextSection`, `promptTail` — the agent prompt in its parts
  (`toList_buildAgentPrompt`), with `catalogSection` at its end.

Texts are lists of characters.
-/

namespace AuraLauncher.Agent

open AuraLauncher.Lib
open AuraLauncher.Workflow (Json SerdeJson)

/-! ## The catalog section -/

/-- The marker that opens the section of actions. -/
def actionsOpen : List Char := "<AVAILABLE_ACTIONS>".toList

/-- The marker that closes the section of actions. -/
def actionsClose : List Char := "</AVAILABLE_ACTIONS>".toList

/-- The marker that opens the metadata of an item. -/
def metadataOpen : List Char := "<MCP_METADATA>".toList

/-- The marker that closes the metadata of an item. -/
def metadataClose : List Char := "</MCP_METADATA>".toList

/-- Source: `str::replace`. -/
def replaceText (sub new s : List Char) : List Char := replaceLoop sub new s.length s

/-- The markers of the section are taken out of a description, and what is left is cut.
Source: `prompt.rs`, `format_catalog`. -/
def sanitizeDescription (d : String) : List Char :=
  let sanitized := replaceText metadataClose "[/MCP_METADATA]".toList
    (replaceText actionsOpen "[AVAILABLE_ACTIONS]".toList
      (replaceText actionsClose "[/AVAILABLE_ACTIONS]".toList d.toList))
  sanitized.take 300

/-- The text of a schema, cut. Source: `prompt.rs`, `format_catalog`. -/
def schemaText (sj : SerdeJson) (schema : Json) : List Char := (schema.text sj).toList.take 500

/-- A line of an item: its label and its text. -/
def itemLine (label : String) (text : List Char) : List Char := label.toList ++ (text ++ ['\n'])

/-- The part of an item. Source: `prompt.rs`, `format_catalog`, the body of the loop. -/
def itemText (sj : SerdeJson) (item : ActionCatalogItem) : List Char :=
  itemLine "- provider_id: " item.providerId.toList ++
    (itemLine "  command_id: " item.commandId.toList ++
      (itemLine "  action_id: " item.actionId.toList ++
        (itemLine "  action_type: " item.actionType.toList ++
          (itemLine "  title: " item.title.toList ++
            (item.description.elim [] (fun d =>
                itemLine "  " (metadataOpen ++ (sanitizeDescription d ++ metadataClose))) ++
              item.inputSchema.elim [] fun schema =>
                itemLine "  input_schema: " (schemaText sj schema))))))

/-- The note on the items that are not shown. -/
def omittedText (items : List ActionCatalogItem) (maxItems : ℕ) : List Char :=
  if maxItems < items.length then
    ("(... " ++ toString (items.length - maxItems) ++
      " more actions omitted for brevity ...)\n").toList
  else []

/-- Source: `prompt.rs`, `format_catalog`. -/
def formatCatalog (sj : SerdeJson) (items : List ActionCatalogItem) (maxItems : ℕ) : List Char :=
  actionsOpen ++ ('\n' ::
    ((items.take maxItems).flatMap (itemText sj) ++ (omittedText items maxItems ++ actionsClose)))

/-! ## The agent prompt in its parts -/

variable {F : Type} (std : AgentStd F)

/-- An untrusted text as it is embedded in the agent prompt. -/
def embedded (text : String) (max : ℕ) : List Char :=
  (boundChars (sanitizeUntrusted std text) max).toList

/-- The section of the tool catalog. -/
def catalogSection (catalogBlock : String) (contextBudget : ℕ) : List Char :=
  (boundChars catalogBlock (max contextBudget 256)).toList

/-- The prompt in front of the context. -/
def promptHead (goal : String) (entities : Entities) : List Char :=
  itemLine "GOAL: " (embedded std goal 512) ++
    (entities.query.elim [] (fun q => itemLine "QUERY: " (embedded std q 256)) ++
      entities.target.elim [] fun t => itemLine "TARGET: " (embedded std t 256))

/-- The marker that opens the untrusted context. -/
def contextOpen : List Char := "<untrusted-context>".toList

/-- The marker that closes the untrusted context. -/
def contextClose : List Char := "</untrusted-context>".toList

/-- The context up to its closing marker; there is none for an empty context. -/
def contextSection (ctx : List Char) : List Char :=
  if ctx = [] then [] else contextOpen ++ ('\n' :: (ctx ++ ('\n' :: contextClose)))

/-- The prompt behind the context. -/
def promptTail (ctx : List Char) (catalogBlock : String) (contextBudget : ℕ) : List Char :=
  ((if ctx = [] then [] else ['\n']) ++ itemLine "ACTION CATALOG (untrusted data):" []) ++
    catalogSection catalogBlock contextBudget

/-- The agent prompt is made of these parts. -/
theorem toList_buildAgentPrompt (goal : String) (entities : Entities)
    (untrustedContext catalogBlock : String) (contextBudget : ℕ) :
    (buildAgentPrompt std goal entities untrustedContext catalogBlock contextBudget).toList =
      promptHead std goal entities ++
        (contextSection (embedded std untrustedContext (max contextBudget 64)) ++
          promptTail (embedded std untrustedContext (max contextBudget 64)) catalogBlock
            contextBudget) := by
  have hline : ∀ (label : String) (entity : Option String),
      (entity.elim "" fun e =>
          label ++ boundChars (sanitizeUntrusted std e) 256 ++ "\n").toList =
        entity.elim [] fun e => itemLine label (embedded std e 256) := by
    intro label entity
    cases entity with
    | none => rfl
    | some e =>
        simp only [Option.elim_some, String.toList_append, List.append_assoc]
        rfl
  have hctx : embedded std untrustedContext (max contextBudget 64) = [] ↔
      boundChars (sanitizeUntrusted std untrustedContext) (max contextBudget 64) = "" := by
    rw [embedded, String.toList_eq_nil_iff]
  have hgoal : itemLine "GOAL: " (embedded std goal 512) = "GOAL: ".toList ++
      ((boundChars (sanitizeUntrusted std goal) 512).toList ++ "\n".toList) := rfl
  have hopen : "<untrusted-context>\n".toList = contextOpen ++ ['\n'] := rfl
  have hclose : "\n</untrusted-context>\n".toList = '\n' :: (contextClose ++ ['\n']) := rfl
  have hcatalog : "ACTION CATALOG (untrusted data):\n".toList =
      itemLine "ACTION CATALOG (untrusted data):" [] := rfl
  unfold buildAgentPrompt promptHead promptTail catalogSection contextSection
  simp only [String.toList_append, hline, hctx, hgoal, hcatalog]
  by_cases hempty :
      boundChars (sanitizeUntrusted std untrustedContext) (max contextBudget 64) = ""
  · simp only [hempty, if_true, List.append_assoc, List.nil_append, String.toList_empty]
  · have hembedded : embedded std untrustedContext (max contextBudget 64) =
        (boundChars (sanitizeUntrusted std untrustedContext) (max contextBudget 64)).toList := rfl
    simp only [hempty, if_false, String.toList_append, hopen, hclose, hembedded,
      List.append_assoc, List.cons_append, List.nil_append]

end AuraLauncher.Agent
