import AuraLauncher.Plugin.Handle

/-!
# What a query may put before the user to run

The commands that `PluginHandle::query` returns, against what the plugin was granted
(`launcher-plugin-host/src/lib.rs`, `query_invocation`).

An action that runs something is to come from a plugin with `shell.execute` granted. A command line
that is given as a string is asked for no capability, and a descriptor of one only for those it
names itself.

* `Contained` — the bound on a returned command.
* `AnswersQuery` — the items in what the plugin answers; `query_eq_ok_iff` is that the commands are
  made of these.
* `query_contained_iff` — the answers of which every command keeps to the bound.
-/

namespace AuraLauncher.Plugin

open AuraLauncher.Domain AuraLauncher.Ipc AuraLauncher.Runtime
open AuraLauncher.Workflow (Json SerdeJson)

/-- The bound on a command of the plugin: it names the plugin as its provider, and what it runs
needs `shell.execute`. -/
def Contained (m : PluginManifest) (cmd : PluginCommand) : Prop :=
  cmd.providerId = "plugin:" ++ m.id ∧
    ∀ a ∈ cmd.actions, RunsSomething a → .shellExecute ∈ m.capabilities

/-- A command that is made of an item is contained when the plugin may run what it likes, or no
entry of the item gets around being asked. -/
theorem contained_commandOf_iff (m : PluginManifest) (item : PluginResultItem) :
    Contained m (m.commandOf item) ↔
      .shellExecute ∈ m.capabilities ∨ ∀ v ∈ item.actions, ¬ m.RunsUnchecked v := by
  have hmem : ∀ a, a ∈ (m.commandOf item).actions ↔
      ∃ v ∈ item.actions, m.resolveAction (classifyAction v) = some a := fun a =>
    List.mem_filterMap
  constructor
  · rintro ⟨-, hactions⟩
    by_contra hnot
    obtain ⟨hshell, v, hv, hruns⟩ : .shellExecute ∉ m.capabilities ∧
        ∃ v ∈ item.actions, m.RunsUnchecked v := by
      simpa only [not_or, not_forall, not_not, exists_prop] using hnot
    obtain ⟨a, ha, hsome⟩ := (PluginManifest.runsUnchecked_iff v).mpr hruns
    exact hshell (hactions a ((hmem a).mpr ⟨v, hv, ha⟩) hsome)
  · intro hcond
    refine ⟨rfl, ?_⟩
    intro a ha hsome
    obtain ⟨v, hv, hresolved⟩ := (hmem a).mp ha
    exact hcond.resolve_right fun hno =>
      hno v hv ((PluginManifest.runsUnchecked_iff v).mp ⟨a, hresolved, hsome⟩)

namespace PluginHandle

variable (serde : SerdeJson) (refusal : String → Json → String) {h : PluginHandle}

/-! ## The answer to a query -/

@[simp]
theorem manifest_request (req : Ipc.Request) (timeoutMs : ℕ) (x : Exchange) :
    (h.request req timeoutMs x).2.manifest = h.manifest := by
  unfold request
  dsimp only
  split
  · rfl
  · split <;> rfl

@[simp]
theorem manifest_askOrKill (method : String) (params : Json) (timeoutMs : ℕ) (x : Exchange) :
    (h.askOrKill method params timeoutMs x).2.manifest = h.manifest := by
  have hrequest := manifest_request (h := h.takeId) ⟨h.nextRequestId + 1, method, params⟩
    timeoutMs x
  unfold askOrKill ask
  dsimp only
  generalize h.takeId.request _ timeoutMs x = o at hrequest ⊢
  obtain ⟨e | resp, h'⟩ := o <;> exact hrequest

/-- The plugin answers the query, without an error, with the items. -/
def AnswersQuery (h : PluginHandle) (text queryId : String) (x : Exchange)
    (items : List PluginResultItem) : Prop :=
  ∃ resp, (h.askOrKill "query" (queryParams text queryId) h.manifest.timeoutMs x).1 = .ok resp ∧
    resp.error = none ∧ queryItems serde refusal h.manifest queryId resp = .ok items

/-- The commands of a query are made of the items in its answer, one of each. -/
theorem query_eq_ok_iff {text queryId : String} {x : Exchange} {c : Closing}
    {cmds : List PluginCommand} : (h.query serde refusal text queryId x c).1 = .ok cmds ↔
      ∃ items, h.AnswersQuery serde refusal text queryId x items ∧
        items.map h.manifest.commandOf = cmds := by
  have hmanifest := manifest_askOrKill (h := h) "query" (queryParams text queryId)
    h.manifest.timeoutMs x
  unfold query queryInvocation AnswersQuery
  dsimp only
  generalize h.askOrKill _ _ _ x = o at hmanifest ⊢
  obtain ⟨e | resp, h'⟩ := o
  · simp
  · dsimp only at hmanifest ⊢
    rw [hmanifest]
    cases herror : resp.error with
    | some err => simp [herror]
    | none =>
        cases hitems : queryItems serde refusal h.manifest queryId resp with
        | error e => simp [herror, hitems]
        | ok items => simp [herror, hitems]

/-! ## The bound -/

/-- **What a query lets through.** Every command a query returns is contained if and only if the
plugin has `shell.execute` granted, or nothing in the items of its answer is a command line as a
string, or a descriptor of one whose own requirements are granted. -/
theorem query_contained_iff (h : PluginHandle) (text queryId : String) (x : Exchange)
    (c : Closing) :
    (∀ cmds, (h.query serde refusal text queryId x c).1 = .ok cmds →
      ∀ cmd ∈ cmds, Contained h.manifest cmd) ↔
    .shellExecute ∈ h.manifest.capabilities ∨
      ∀ items, h.AnswersQuery serde refusal text queryId x items →
        ∀ item ∈ items, ∀ v ∈ item.actions, ¬ h.manifest.RunsUnchecked v := by
  constructor
  · intro hcontained
    by_contra hnot
    obtain ⟨hshell, items, hanswer, item, hitem, hruns⟩ : .shellExecute ∉ h.manifest.capabilities ∧
        ∃ items, h.AnswersQuery serde refusal text queryId x items ∧ ∃ item ∈ items,
          ¬ ∀ v ∈ item.actions, ¬ h.manifest.RunsUnchecked v := by
      simpa only [not_or, not_forall, exists_prop] using hnot
    have hcommand := hcontained _ ((query_eq_ok_iff serde refusal).mpr ⟨items, hanswer, rfl⟩) _
      (List.mem_map_of_mem hitem)
    exact ((contained_commandOf_iff _ item).mp hcommand).elim hshell hruns
  · intro hcond cmds hcmds cmd hcmd
    obtain ⟨items, hanswer, rfl⟩ := (query_eq_ok_iff serde refusal).mp hcmds
    obtain ⟨item, hitem, rfl⟩ := List.mem_map.mp hcmd
    exact (contained_commandOf_iff _ item).mpr
      (hcond.imp_right fun hno => hno items hanswer item hitem)

/-- A plugin that was granted nothing, and answers a query with a command line as a string. -/
theorem not_query_contained :
    ¬ ∀ (serde : SerdeJson) (refusal : String → Json → String) (h : PluginHandle)
      (text queryId : String) (x : Exchange) (c : Closing) (cmds : List PluginCommand),
      (h.query serde refusal text queryId x c).1 = .ok cmds →
        ∀ cmd ∈ cmds, Contained h.manifest cmd := by
  intro hall
  have hanswer : (started ⟨"p", some 1, [], 2000, .resident⟩).AnswersQuery .withoutFloats
      (fun _ _ => "") "" "q-1" (.inTime [] ⟨1, some (.object [
        ("commands", .array [.object [("actions", .array [.string "format c:"]),
          ("title", .string "t")]]),
        ("query_id", .string "q-1")]), none⟩)
      [⟨"t", none, none, [.string "format c:"], sanitizeScore 0, none⟩] := ⟨_, rfl, rfl, rfl⟩
  have hcontained := hall _ _ _ _ _ _ ⟨.outOfTime, []⟩ _
    ((query_eq_ok_iff _ _).mpr ⟨_, hanswer, rfl⟩) _ (List.mem_singleton.mpr rfl)
  exact absurd (hcontained.2 (legacyAction "format c:") (List.mem_singleton.mpr rfl)
    ⟨rfl, .inl rfl, rfl⟩) (by decide)

end PluginHandle

end AuraLauncher.Plugin
