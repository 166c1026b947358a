import AuraLauncher.Mcp.Invoke
import AuraLauncher.Runner.Calls

/-!
# The core as the host of the runner

`launcher-core/src/workflow_backend.rs`, `launcher-core/src/lib.rs` and
`launcher-action/src/lib.rs`: the backend that finds commands for the runner and routes the effects
of its actions.

What lies outside these crates is the parameter `Outside`: the providers, the Windows calls, the
plugin broker and the transport of the MCP executor. The executor's own calls are recorded in
`invocations`, which nothing reads.

* `engineValidate`, `engineExecute` — the gate in front of every effect.
* `executeMcpAction`, `executeEffect` — an invocation on its way to the executor.
* `coreHost` — the core as a `Host`.
* `invocations_identity` — a visit of a step whose reference resolves to a projected MCP command
  gives the executor the projected server and tool, whatever its input.
-/

namespace AuraLauncher.Mcp

open AuraLauncher.Domain AuraLauncher.Runner AuraLauncher.Lib
open AuraLauncher.Workflow (Json SerdeJson)

universe u

/-! ## The core -/

/-- A registered provider, with what the host maps references by. Source: `workflow_backend.rs`,
`fresh_query` (`id`, `plugin_identity`). -/
structure Provider where
  id : String
  pluginIdentity : Option String

/-- Source: `executor.rs`, `McpContent`. -/
structure McpContent where
  kind : String
  text : Option String

/-- Source: `executor.rs`, `McpToolResult`. -/
structure McpToolResult where
  content : List McpContent
  structuredContent : Option Json
  isError : Bool

/-- Source: `launcher-action/src/lib.rs`, `ActionError`. -/
inductive ActionError
  | missingTarget
  | invalidPath (p : String)
  | io (what : String)
  | unsupported
  | disabled (reason : String)
  | confirmationRequired
  | staleTarget
  | clipboard (what : String)

/-- Source: `launcher-action/src/lib.rs`, `ActionError` (`#[error]`). -/
def ActionError.text : ActionError → String
  | .missingTarget => "no target to act on"
  | .invalidPath p => "invalid path: " ++ p
  | .io what => "io error: " ++ what
  | .unsupported => "unsupported on this platform"
  | .disabled reason => "action disabled: " ++ reason
  | .confirmationRequired => "confirmation required"
  | .staleTarget => "stale target: identity changed since resolve"
  | .clipboard what => "clipboard error: " ++ what

/-- What the core reaches outside itself, over a state of the outside. -/
structure Outside (π : Type u) where
  /-- `SearchProvider::query` on the empty text. -/
  query : π → Provider → List Command × π
  /-- The Windows call for an action that is no invocation. -/
  perform : π → Action → Except ActionError Unit × π
  /-- `McpExecutor::execute`. -/
  callTool : π → McpInvokeInput → String → Except McpError McpToolResult × π
  /-- `Core::execute_plugin_action`: plugin, action, input, execution id and context generation. -/
  pluginAction : π → String → String → Json → String → UInt64 →
    Except (WorkflowFailureClass × String) Json × π
  /-- The text of `serde_json`'s error when an invocation input does not decode. -/
  decodeText : Json → String

/-- The part of the core that the backend uses. Source: `launcher-core/src/lib.rs`, `Core`. -/
structure Core (π : Type u) where
  outside : π
  providers : List Provider
  /-- The ids of the configured MCP servers. -/
  mcpServers : List String
  /-- Whether an executor was set in place of the default one. -/
  customExecutor : Bool
  executionCounter : UInt64
  /-- What the executor was given so far, with the execution ids. -/
  invocations : List (McpInvokeInput × String)

variable {π : Type u}

/-- Source: `launcher-core/src/lib.rs`, `next_execution_id`. -/
def Core.nextExecutionId (core : Core π) : String × Core π :=
  let n := core.executionCounter + 1
  ("e-" ++ toString n.toNat, { core with executionCounter := n })

/-- Whether there is an executor. Source: `launcher-core/src/lib.rs`, `mcp_executor`. -/
def Core.hasExecutor (core : Core π) : Bool := core.customExecutor || !core.mcpServers.isEmpty

/-! ## The engine -/

/-- Source: `launcher-action/src/lib.rs`, `normalize_path`. -/
def normalizePath (raw : String) : Except ActionError String :=
  if (trim raw.toList).isEmpty then .error (.invalidPath raw)
  else if raw.toList.contains '\x00' then .error (.invalidPath raw)
  else .ok raw

/-- The check of the payload of an action. Source: `launcher-action/src/lib.rs`, `validate` (the
match on the kind). -/
def validatePayload : ActionKind → Option ActionPayload → Except ActionError Unit
  | .paste, _ => .ok ()
  | .copy, some (.text _) | .copy, some (.path _) => .ok ()
  | .copy, _ => .error .missingTarget
  | .pluginInvoke, some (.json v) => if v.isObject then .ok () else .error .missingTarget
  | .pluginInvoke, _ => .error .missingTarget
  | _, some (.path p) | _, some (.commandLine p) => (normalizePath p).map fun _ => ()
  | _, _ => .error .missingTarget

/-- Source: `launcher-action/src/lib.rs`, `validate`. -/
def engineValidate (a : Action) : Except ActionError Unit :=
  match a.disabledReason with
  | some reason => .error (.disabled reason)
  | none =>
      if a.confirmationRequired then .error .confirmationRequired
      else validatePayload a.kind a.payload

/-- What the engine accepted: an invocation that the caller routes, or an effect of its own. Source:
`launcher-action/src/lib.rs`, `Effect`. -/
inductive Effect
  | pluginInvoked (actionId : Option String) (input : Json)
  | applied

variable (std : RustStd) (serde : SerdeJson) (ext : Outside π)

/-- The execution of an action on Windows. Source: `launcher-action/src/lib.rs`, `execute`. -/
def engineExecute (a : Action) (core : Core π) : Except ActionError Effect × Core π :=
  match engineValidate a with
  | .error e => (.error e, core)
  | .ok () =>
      if a.kind = .pluginInvoke then
        (.ok (.pluginInvoked a.id ((jsonPayload a).getD .null)), core)
      else
        let (result, outside) := ext.perform core.outside a
        (result.map fun _ => .applied, { core with outside := outside })

/-! ## The way to the executor -/

/-- The content of a result as JSON. Source: `launcher-core/src/lib.rs`, `execute_mcp_action`. -/
def contentJson (c : McpContent) : Json :=
  .object [("text", (c.text.map Json.string).getD .null), ("type", .string c.kind)]

/-- Source: `executor.rs`, `McpToolResult::business_error`. -/
def McpToolResult.businessError (r : McpToolResult) : Option String :=
  if r.isError then some ("\n".intercalate (r.content.filterMap (·.text))) else none

/-- The result of an invocation, with what the executor said of it. Source:
`launcher-core/src/lib.rs`, `execute_mcp_action`. -/
def invocationResult (parsed : McpInvokeInput) :
    Except McpError McpToolResult → Except (WorkflowFailureClass × String) Json
  | .error e => .error (e.failureClass, e.text)
  | .ok result =>
      match result.businessError with
      | some msg => .error (.businessError, msg)
      | none =>
          .ok (.object
            [("content", .array (result.content.map contentJson)),
              ("server_id", .string parsed.serverId),
              ("structured_content", result.structuredContent.getD .null),
              ("tool_name", .string parsed.toolName)])

/-- Source: `launcher-core/src/lib.rs`, `execute_mcp_action`. -/
def executeMcpAction (input : Json) (executionId : String) (core : Core π) :
    Except (WorkflowFailureClass × String) Json × Core π :=
  match McpInvokeInput.fromJson std serde ext.decodeText input with
  | .error e => (.error (e.failureClass, e.text), core)
  | .ok parsed =>
      if !core.mcpServers.contains parsed.serverId then
        (.error (.pluginUnavailable, "unknown mcp server: " ++ parsed.serverId), core)
      else if !core.hasExecutor then
        (.error (.pluginUnavailable, "no mcp executor configured"), core)
      else
        let (result, outside) := ext.callTool core.outside parsed executionId
        (invocationResult parsed result,
          { core with
            outside := outside
            invocations := core.invocations ++ [(parsed, executionId)] })

/-- The server id that an input claims. Source: `launcher-core/src/lib.rs`, `execute_effect`. -/
def claimedServer (input : Json) : Option String := (input.get "server_id").bind Json.asStr

/-- The dispatch of an effect by the namespace of its provider. Source: `launcher-core/src/lib.rs`,
`execute_effect`. -/
def executeEffect (providerId actionId : String) (input : Json) (executionId : String)
    (gen : UInt64) (core : Core π) : Except (WorkflowFailureClass × String) Json × Core π :=
  match stripPrefix "mcp:" providerId with
  | some server =>
      match claimedServer input with
      | some sid =>
          if sid ≠ server then
            (.error (.protocolViolation,
              "provider/server mismatch: " ++ providerId ++ " vs " ++ sid), core)
          else executeMcpAction std serde ext input executionId core
      | none => executeMcpAction std serde ext input executionId core
  | none =>
      match stripPrefix "plugin:" providerId with
      | some plugin =>
          let (result, outside) :=
            ext.pluginAction core.outside plugin actionId input executionId gen
          (result, { core with outside := outside })
      | none =>
          (.error (.protocolViolation,
            "effect has no host-assigned provider namespace: " ++ providerId), core)

/-! ## The backend -/

/-- Source: `workflow_backend.rs`, `provider_matches`. -/
def providerMatches (rawId want : String) : Bool :=
  rawId == want ||
    ((stripPrefix "plugin:" rawId).map fun pid => want == pid || "plugin:" ++ pid == want).getD
      false

/-- Whether a provider is asked for the commands of `want`. Source: `workflow_backend.rs`,
`fresh_query`. -/
def Provider.isFor (want : String) (p : Provider) : Bool :=
  providerMatches p.id want ||
    (p.pluginIdentity.map fun pid => (":" ++ pid).toList.isSuffixOf want.toList).getD false

/-- The commands kept of an answer, up to the limit. Source: `workflow_backend.rs`,
`fresh_query`. -/
def keepFound (want : String) (limit : ℕ) (found answer : List Command) : List Command :=
  answer.foldl
    (fun found c => if c.providerId == want && found.length < limit then found ++ [c] else found)
    found

/-- The discovery query over the providers that are left. Source: `workflow_backend.rs`,
`fresh_query` (the loop). -/
def discover (want : String) (limit : ℕ) :
    List Provider → List Command → Bool → Core π → (List Command × Bool) × Core π
  | [], found, matched, core => ((found, matched), core)
  | p :: ps, found, matched, core =>
      if p.isFor want then
        let (answer, outside) := ext.query core.outside p
        discover want limit ps (keepFound want limit found answer) true
          { core with outside := outside }
      else discover want limit ps found matched core

/-- The failure of an action that the engine refused. Source: `workflow_backend.rs`, `execute`. -/
def classifyActionError : ActionError → WfFailure
  | .confirmationRequired => .new .confirmationRequired "confirmation required"
  | .disabled reason => .new .capabilityDenied ("action disabled: " ++ reason)
  | e => .new .invalidInput e.text

/-- Source: `workflow_backend.rs`, `CoreWorkflowBackend::execute`. -/
def backendExecute (core : Core π) (a : Action) (providerId : Option String) (gen : UInt64) :
    Except WfFailure ExecutionOutcome × Core π :=
  match engineExecute ext a core with
  | (.error e, core) => (.error (classifyActionError e), core)
  | (.ok .applied, core) => (.ok ⟨none, none⟩, core)
  | (.ok (.pluginInvoked actionId input), core) =>
      let provider := providerId.getD ""
      let (executionId, core) := core.nextExecutionId
      match executeEffect std serde ext provider (actionId.getD "") input executionId gen core with
      | (.error (c, reason), core) => (.error (.new c reason), core)
      | (.ok result, core) =>
          (.ok ⟨some executionId,
            some (.object [("provider", .string provider), ("result", result)])⟩, core)

/-- The core as the host of the runner, with the results of the popup session and the limit of a
discovery query. The flag for the confirmation is not read. Source: `workflow_backend.rs`,
`CoreWorkflowBackend`. -/
def coreHost (session : List Command) (limit : ℕ) : Host (Core π) where
  inSession _ providerId commandId :=
    session.find? fun c => c.providerId == providerId && c.id == commandId
  freshQuery core providerId :=
    match discover ext providerId limit core.providers [] false core with
    | ((_, false), core) =>
        (.error (.pluginUnavailable, "provider not installed: " ++ providerId), core)
    | ((found, true), core) => (.ok found, core)
  execute core a providerId gen _ := backendExecute std serde ext core a providerId gen

/-! ## What the executor is given -/

theorem discover_invocations (want : String) (limit : ℕ) (ps : List Provider)
    (found : List Command) (matched : Bool) (core : Core π) :
    (discover ext want limit ps found matched core).2.invocations = core.invocations := by
  induction ps generalizing found matched core with
  | nil => rfl
  | cons p ps ih =>
      unfold discover
      split
      · rw [ih]
      · exact ih found matched core

/-- A discovery query gives the executor nothing. -/
theorem freshQuery_invocations (session : List Command) (limit : ℕ) (core : Core π)
    (providerId : String) :
    ((coreHost std serde ext session limit).freshQuery core providerId).2.invocations =
      core.invocations := by
  have h := discover_invocations ext providerId limit core.providers [] false core
  unfold coreHost
  dsimp only
  split <;> rename_i hres <;> rwa [hres] at h

/-- The executor is given what the input decodes to, once at most. -/
theorem executeMcpAction_invocations (input : Json) (executionId : String) (core : Core π) :
    (executeMcpAction std serde ext input executionId core).2.invocations = core.invocations ∨
      ∃ parsed, McpInvokeInput.decode input = some parsed ∧
        (executeMcpAction std serde ext input executionId core).2.invocations =
          core.invocations ++ [(parsed, executionId)] := by
  unfold executeMcpAction
  split
  · exact .inl rfl
  · rename_i parsed hparsed
    split_ifs
    · exact .inl rfl
    · exact .inl rfl
    · exact .inr ⟨parsed, McpInvokeInput.fromJson_eq_ok hparsed, rfl⟩

theorem executeEffect_invocations (providerId actionId : String) (input : Json)
    (executionId : String) (gen : UInt64) (core : Core π) :
    (executeEffect std serde ext providerId actionId input executionId gen core).2.invocations =
        core.invocations ∨
      ∃ parsed, McpInvokeInput.decode input = some parsed ∧
        (executeEffect std serde ext providerId actionId input executionId gen
          core).2.invocations = core.invocations ++ [(parsed, executionId)] := by
  have hmcp := executeMcpAction_invocations std serde ext input executionId core
  unfold executeEffect
  split
  · split
    · split_ifs
      · exact .inl rfl
      · exact hmcp
    · exact hmcp
  · split <;> exact .inl rfl

/-- An invocation that passes the engine has an object as its payload. -/
theorem payload_of_engineValidate {a : Action} (hkind : a.kind = .pluginInvoke)
    (h : engineValidate a = .ok ()) : ∃ fields, jsonPayload a = some (.object fields) := by
  unfold engineValidate at h
  split at h
  · cases h
  · split_ifs at h
    rw [hkind] at h
    unfold jsonPayload
    cases hp : a.payload with
    | none =>
        rw [hp] at h
        cases h
    | some p =>
        rw [hp] at h
        cases p with
        | json v =>
            cases v with
            | object fields => exact ⟨fields, rfl⟩
            | _ => cases h
        | _ => cases h

/-- The engine gives the executor nothing, and hands on an invocation with its payload. -/
theorem engineExecute_spec (a : Action) (core : Core π) :
    (engineExecute ext a core).2.invocations = core.invocations ∧
      ∀ actionId input, (engineExecute ext a core).1 = .ok (.pluginInvoked actionId input) →
        ∃ fields, input = .object fields ∧ jsonPayload a = some (.object fields) := by
  unfold engineExecute
  split
  · exact ⟨rfl, by rintro _ _ ⟨⟩⟩
  · rename_i hvalid
    split_ifs with hkind
    · refine ⟨rfl, ?_⟩
      rintro actionId input h
      obtain ⟨fields, hfields⟩ := payload_of_engineValidate hkind hvalid
      rw [hfields] at h
      cases h
      exact ⟨fields, rfl, hfields⟩
    · refine ⟨rfl, ?_⟩
      rintro actionId input h
      cases hperform : (ext.perform core.outside a).1 with
      | error e =>
          simp only [hperform] at h
          cases h
      | ok u =>
          simp only [hperform] at h
          cases h

/-- **The executor is given the payload of an action**: an object, which decodes to what it gets. -/
theorem backendExecute_invocations (core : Core π) (a : Action) (providerId : Option String)
    (gen : UInt64) :
    (backendExecute std serde ext core a providerId gen).2.invocations = core.invocations ∨
      ∃ fields parsed executionId, jsonPayload a = some (.object fields) ∧
        McpInvokeInput.decode (.object fields) = some parsed ∧
        (backendExecute std serde ext core a providerId gen).2.invocations =
          core.invocations ++ [(parsed, executionId)] := by
  obtain ⟨hkeep, hinvoked⟩ := engineExecute_spec ext a core
  obtain ⟨⟨result, core'⟩, hres⟩ : ∃ res, engineExecute ext a core = res := ⟨_, rfl⟩
  rw [hres] at hkeep hinvoked
  cases result with
  | error e =>
      left
      unfold backendExecute
      rw [hres]
      exact hkeep
  | ok effect =>
      cases effect with
      | applied =>
          left
          unfold backendExecute
          rw [hres]
          exact hkeep
      | pluginInvoked actionId input =>
          obtain ⟨fields, rfl, hpayload⟩ := hinvoked actionId input rfl
          have heffect := executeEffect_invocations std serde ext (providerId.getD "")
            (actionId.getD "") (.object fields) core'.nextExecutionId.1 gen
            core'.nextExecutionId.2
          have hcore : core'.nextExecutionId.2.invocations = core.invocations := hkeep
          have hresult : (backendExecute std serde ext core a providerId gen).2.invocations =
              (executeEffect std serde ext (providerId.getD "") (actionId.getD "")
                (.object fields) core'.nextExecutionId.1 gen
                core'.nextExecutionId.2).2.invocations := by
            unfold backendExecute
            rw [hres]
            dsimp only
            split <;> rename_i heq <;> rw [heq]
          rw [hresult]
          rw [hcore] at heffect
          rcases heffect with h | ⟨parsed, hdecode, h⟩
          · exact .inl h
          · exact .inr ⟨fields, parsed, _, hpayload, hdecode, h⟩

/-! ## The identity of a route -/

/-- The payload of a referenced action keeps the identity of the projection: what it decodes to
names the server and the tool of the command. -/
theorem identity_of_resolved {tool : McpTool} {serverId : String} {granted : List Capability}
    {a : Action} (ha : a ∈ (toolToCommand tool serverId granted).actions) {input : Json}
    (hidentity : alteredIdentity a input = []) {fields : List (String × Json)}
    (hpayload : jsonPayload (runtimeAction a input) = some (.object fields))
    {parsed : McpInvokeInput} (hdecode : McpInvokeInput.decode (.object fields) = some parsed) :
    parsed.serverId = serverId ∧ parsed.toolName = tool.name := by
  obtain ⟨-, hproj⟩ := mem_toolToCommand_actions ha
  obtain ⟨hserver, htool⟩ := McpInvokeInput.decode_object hdecode
  have hprojected : jsonPayload a = some (invokeInput serverId tool.name (.object [])) := by
    rw [jsonPayload, hproj]
  unfold alteredIdentity at hidentity
  rw [hprojected, hpayload] at hidentity
  have hs : Json.string parsed.serverId = .string serverId :=
    eq_of_identityMismatch_eq_nil hidentity (show "server_id" ∈ actionIdentityFields by decide) rfl
      hserver
  have ht : Json.string parsed.toolName = .string tool.name :=
    eq_of_identityMismatch_eq_nil hidentity (show "tool_name" ∈ actionIdentityFields by decide) rfl
      htool
  exact ⟨Json.string.inj hs, Json.string.inj ht⟩

variable (d : WorkflowDefinition) (step : WorkflowStep) (gen : UInt64) (confirmed : Bool)

/-- **The route of an MCP command is kept**: in a visit of a step whose reference resolves, whenever
it does, to a projection of the server and the tool, every invocation that the executor is given
names that server and that tool. The input is any JSON value, the one of the step with its templates
replaced among them. -/
theorem invocations_identity (session : List Command) (limit : ℕ) (ref : ActionReference)
    (haction : step.action = .reference ref) (input : Json) (sr : StepRun) (core : Core π)
    (serverId toolName : String)
    (hprojected : ∀ r b, Finds (coreHost std serde ext session limit) d step input gen confirmed
      ⟨sr, core, []⟩ r b → ∃ tool granted, tool.name = toolName ∧
        r.command = some (toolToCommand tool serverId granted)) :
    ∃ added, (executeStep (coreHost std serde ext session limit) d step input gen confirmed
        ⟨sr, core, []⟩).2.host.invocations = core.invocations ++ added ∧
      ∀ x ∈ added, x.1.serverId = serverId ∧ x.1.toolName = toolName := by
  refine executeStep_host
    (P := fun c : Core π => ∃ added, c.invocations = core.invocations ++ added ∧
      ∀ x ∈ added, x.1.serverId = serverId ∧ x.1.toolName = toolName)
    ?_ ?_ ⟨[], (List.append_nil _).symm, by simp⟩
  · rintro c provider ⟨added, hc, hadded⟩
    exact ⟨added, (freshQuery_invocations std serde ext session limit c provider).trans hc, hadded⟩
  · rintro r b hfinds ⟨added, hb, hadded⟩
    obtain ⟨tool, granted, rfl, hcommand⟩ := hprojected r b hfinds
    obtain ⟨a, -, hrun⟩ := hfinds
    obtain ⟨s, hs⟩ := resolveLoop_ok _ d step input hrun
    rw [haction] at hs
    obtain ⟨c, a', hfound, hc, hr, hidentity, -⟩ := resolveStep_reference _ hs
    have ha' := resolveReference_eq_ok _ hfound
    obtain rfl : c = toolToCommand tool serverId granted :=
      Option.some.inj (hc.symm.trans hcommand)
    rcases backendExecute_invocations std serde ext b.host
      { r.action with confirmationRequired := false } r.providerId gen with h | ⟨fields, parsed,
        executionId, hpayload, hdecode, h⟩
    · exact ⟨added, h.trans hb, hadded⟩
    · refine ⟨added ++ [(parsed, executionId)], ?_, fun x hx => ?_⟩
      · rw [show ((coreHost std serde ext session limit).execute b.host _ r.providerId gen
          confirmed).2.invocations = _ from h, hb, List.append_assoc]
      · rcases List.mem_append.mp hx with hx | hx
        · exact hadded x hx
        · obtain rfl := List.mem_singleton.mp hx
          refine identity_of_resolved ha' hidentity ?_ hdecode
          rw [← hr]
          exact hpayload

/-! ## A small run -/

/-- An outside without discovery, whose tools return nothing. -/
def quietOutside : Outside Unit where
  query s _ := ([], s)
  perform s _ := (.ok (), s)
  callTool s _ _ := (.ok ⟨[], none, false⟩, s)
  pluginAction s _ _ _ _ _ := (.ok .null, s)
  decodeText _ := ""

/-- The tool `read` of the server `fs`, granted. -/
def readCommand : Command := toolToCommand ⟨"read"⟩ "fs" [.mcpInvoke]

/-- A step that invokes it, with an input that names a server and a tool itself. -/
def readStep : WorkflowStep :=
  { namedStep "s" none with
    action := .reference ⟨"mcp:fs", "read", "invoke"⟩
    input := invokeInput "fs" "read" (.object [("path", .string "a.txt")]) }

/-- The visit of the step by a core that has the server. -/
def readVisit : StepOutcome × Attempt (Core Unit) :=
  executeStep (coreHost .ascii .withoutFloats quietOutside [readCommand] 50)
    (plainDefinition [readStep]) readStep readStep.input 0 false
    ⟨((plainDefinition [readStep]).freshRun "run").steps ⟨0, by decide⟩,
      ⟨(), [], ["fs"], false, 0, []⟩, []⟩

/-- The executor is given one invocation, of that tool on that server. -/
theorem invocations_identity_read :
    readVisit.2.host.invocations.length = 1 ∧
      ∃ added, readVisit.2.host.invocations = [] ++ added ∧
        ∀ x ∈ added, x.1.serverId = "fs" ∧ x.1.toolName = "read" := by
  refine ⟨by decide +kernel,
    invocations_identity .ascii .withoutFloats quietOutside _ readStep 0 false
      [readCommand] 50 ⟨"mcp:fs", "read", "invoke"⟩ rfl readStep.input _ _ "fs" "read" ?_⟩
  rintro r b ⟨a, -, hrun⟩
  obtain ⟨s, hs⟩ := resolveLoop_ok _ _ _ _ hrun
  obtain ⟨c, a', hfound, hc, -⟩ := resolveStep_reference _ hs
  have hmatch : (readCommand.providerId == "mcp:fs" && readCommand.id == "read") = true := by
    decide +kernel
  have hread : (coreHost .ascii .withoutFloats quietOutside [readCommand] 50).inSession s
      "mcp:fs" "read" = some readCommand := by
    show [readCommand].find? (fun c => c.providerId == "mcp:fs" && c.id == "read") = _
    simp only [List.find?_cons, hmatch]
  obtain ⟨act, hact⟩ := Option.isSome_iff_exists.mp
    (show (commandAction readCommand ⟨"mcp:fs", "read", "invoke"⟩).isSome by decide +kernel)
  have hsession : sessionAction (coreHost .ascii .withoutFloats quietOutside [readCommand] 50)
      ⟨"mcp:fs", "read", "invoke"⟩ s = some (readCommand, act) := by
    rw [sessionAction, hread, Option.bind_some, hact, Option.map_some]
  unfold resolveReference at hfound
  rw [hsession] at hfound
  obtain ⟨rfl, -⟩ := Prod.mk.inj (Except.ok.inj hfound)
  exact ⟨⟨"read"⟩, [.mcpInvoke], rfl, hc⟩

end AuraLauncher.Mcp
