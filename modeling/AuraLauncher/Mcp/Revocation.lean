import AuraLauncher.Domain.Std
import AuraLauncher.Mcp.Catalog
import AuraLauncher.Search.Rank

/-!
# Revoking the grant of a server

`launcher-core/src/providers/mcp.rs`: the provider of one server keeps the commands that its tools
were projected to, with the grant of the host in their actions. When the grant changes, the commands
are projected again from a new listing of the server; an error of that listing is dropped and the
old commands stay.

* `McpProvider`, `reproject`, `setInvokeGranted`, `setProfile`, `query` — the code.
* `projectCommand_disabled` — without the grant every projected action is disabled.
* `OffersNothing`, `HoldsNothing` — no action that is answered, or that is held, can be executed.
* `McpTransports.Lists`, `reproject_ok_iff` — the server answers a listing.
* `revoked_offersNothing_iff` — exactly when a revocation takes effect.
* `not_offersNothing_serverGone` — the server is gone when the grant is revoked.
-/

namespace AuraLauncher.Mcp

open AuraLauncher.Domain AuraLauncher.Search
open AuraLauncher.Workflow (Json)

universe u v

/-! ## The provider -/

/-- The command of a discovered tool. Source: `adapter.rs`, `tool_to_command_with_grants`. -/
def projectCommand (tool : CatalogTool) (serverId : String) (granted : List Capability) :
    SearchCommand where
  toCommand := toolToCommand tool.toMcpTool serverId granted
  title := (tool.title.orElse fun _ => tool.description).getD tool.name
  subtitle := tool.description
  icon := none
  score := 0
  keywords := [tool.name]
  category := .plugin
  target := none

/-- Source: `mcp.rs`, `McpProvider`; the endpoint of the server is with the transports. -/
structure McpProvider where
  serverId : String
  commands : List SearchCommand
  lastError : Option String
  discovered : Bool
  /-- The host lets the tools of the server be executed. -/
  invokeGranted : Bool
  profile : McpProtocolProfile

/-- A server can be reached and lists its tools. -/
def McpTransports.Lists {τ : Type u} {σ : Type v} (T : McpTransports τ σ) (s : σ)
    (id : String) : Prop :=
  ∃ t, T.opener s id = .ok t ∧ (∃ r, (T.initializeTransport s t).1 = .ok r) ∧
    ∃ listed, (T.listTools s (T.initializeTransport s t).2).1 = .ok listed

namespace McpProvider

/-- Source: `mcp.rs`, `McpProvider::new` and `McpProvider::new_http`. -/
def new (serverId : String) (profile : McpProtocolProfile) : McpProvider :=
  ⟨serverId, [], none, false, true, profile⟩

variable {τ : Type u} {σ : Type v} (T : McpProtocolProfile → McpTransports τ σ) (s : σ)
  (p : McpProvider)

/-- Source: `mcp.rs`, `McpProvider::grants`. -/
def grants : List Capability := if p.invokeGranted then [.mcpInvoke] else []

/-- A new listing over a new transport, projected under the grant. Source: `mcp.rs`,
`McpProvider::reproject`. -/
def reproject : Except McpError Unit × McpProvider :=
  match (T p.profile).opener s p.serverId with
  | .error e => (.error e, p)
  | .ok t =>
      match (McpCatalog.new p.serverId p.serverId).refreshFrom (T p.profile) s t with
      | (.error e, _, _) => (.error e, p)
      | (.ok _, _, catalog) =>
          (.ok (), { p with
            commands := catalog.tools.map fun tool => projectCommand tool p.serverId p.grants })

/-- Source: `mcp.rs`, `McpProvider::set_invoke_granted`. -/
def setInvokeGranted (granted : Bool) : McpProvider :=
  if p.invokeGranted ≠ granted then
    let p := { p with invokeGranted := granted }
    if p.discovered then (p.reproject T s).2 else p
  else p

/-- Source: `mcp.rs`, `McpProvider::set_profile`. -/
def setProfile (profile : McpProtocolProfile) : McpProvider :=
  if p.profile ≠ profile then
    let p := { p with profile := profile }
    if p.discovered then (p.reproject T s).2 else p
  else p

variable (lower : String → String)

/-- The commands that a query asks for. Source: `mcp.rs`, `McpProvider::query` (the filter). -/
def matching (q : QueryContext) : List SearchCommand :=
  let text := (lower q.normalized).toList
  p.commands.filter fun c =>
    text.isEmpty || hasSub text (lower c.title).toList || hasSub text (lower c.id).toList

/-- Source: `mcp.rs`, `McpProvider::query`; `lower` is `str::to_lowercase`. -/
def query (q : QueryContext) : List SearchCommand × McpProvider :=
  if p.discovered then (p.matching lower q, p)
  else
    match p.reproject T s with
    | (.error e, p) => ([], { p with lastError := some e.text })
    | (.ok _, p) =>
        let p := { p with discovered := true }
        (p.matching lower q, p)

/-! ## The projection -/

/-- Without the grant the action of a tool is disabled. -/
theorem projectCommand_disabled (tool : CatalogTool) (serverId : String) :
    ∀ a ∈ (projectCommand tool serverId []).actions, a.disabledReason.isSome = true := by
  intro a ha
  obtain rfl := List.mem_singleton.mp ha
  have hdenied : resolveDescriptorFor (invokeDescriptor tool.toMcpTool serverId) [] none =
      .error (.capabilityDenied [.mcpInvoke]) := rfl
  unfold resolveInvokeAction
  rw [hdenied]
  rfl

/-- With the grant the action of a tool can be executed. -/
theorem projectCommand_enabled (tool : CatalogTool) (serverId : String) :
    ∃ a ∈ (projectCommand tool serverId [.mcpInvoke]).actions,
      a.kind = .pluginInvoke ∧ a.disabledReason = none := by
  let d := invokeDescriptor tool.toMcpTool serverId
  have hgranted : resolveDescriptorFor d [.mcpInvoke] none =
      .ok (d.base .pluginInvoke (some (.json d.input))) := by
    simp [d, resolveDescriptorFor, invokeDescriptor, mcpActionType, resolveSystem, requiring,
      invokeInput, Json.isObject]
  refine ⟨resolveInvokeAction d [.mcpInvoke], List.mem_singleton_self _, ?_⟩
  unfold resolveInvokeAction
  rw [hgranted]
  exact ⟨rfl, rfl⟩

/-- What a projection gives: the provider as it is, or with the tools that were listed. -/
theorem reproject_cases (p : McpProvider) :
    (∃ e, p.reproject T s = (.error e, p)) ∨
      ∃ tools : List CatalogTool, p.reproject T s = (.ok (),
        { p with commands := tools.map fun tool => projectCommand tool p.serverId p.grants }) := by
  unfold reproject
  cases (T p.profile).opener s p.serverId with
  | error e => exact .inl ⟨e, rfl⟩
  | ok t =>
      dsimp only
      rcases (McpCatalog.new p.serverId p.serverId).refreshFrom (T p.profile) s t with
        ⟨e | listed, t', catalog⟩
      · exact .inl ⟨e, rfl⟩
      · exact .inr ⟨catalog.tools, rfl⟩

/-! ## What is offered -/

/-- Every action that a query is answered with and that invokes a tool is disabled. -/
def OffersNothing : Prop :=
  ∀ s q, ∀ c ∈ (p.query T s lower q).1, ∀ a ∈ c.actions, a.kind = .pluginInvoke →
    a.disabledReason.isSome = true

/-- The commands that the provider holds have no action that invokes a tool and is enabled. -/
def HoldsNothing : Prop :=
  ∀ c ∈ p.commands, ∀ a ∈ c.actions, a.kind = .pluginInvoke → a.disabledReason.isSome = true

theorem holdsNothing_of_projected {p : McpProvider} {tools : List CatalogTool}
    (hgrant : p.invokeGranted = false)
    (h : p.commands = tools.map fun tool => projectCommand tool p.serverId p.grants) :
    p.HoldsNothing := by
  intro c hc a ha _
  have hgrants : p.grants = [] := by
    unfold grants
    rw [hgrant]
    rfl
  rw [h, hgrants] at hc
  obtain ⟨tool, -, rfl⟩ := List.mem_map.mp hc
  exact projectCommand_disabled tool p.serverId a ha

/-- The title of a command finds it. -/
theorem mem_matching_title {c : SearchCommand} (h : c ∈ p.commands) :
    c ∈ p.matching lower ⟨c.title, c.title, []⟩ := by
  refine List.mem_filter.mpr ⟨h, ?_⟩
  have hsub : hasSub (lower c.title).toList (lower c.title).toList = true :=
    hasSub_iff.mpr List.infix_rfl
  rw [hsub, Bool.or_true, Bool.true_or]

/-- A provider that has discovered its tools offers what it holds. -/
theorem offersNothing_of_discovered {p : McpProvider} (s : σ) (h : p.discovered = true) :
    p.OffersNothing T lower ↔ p.HoldsNothing := by
  have hquery : ∀ s q, (p.query T s lower q).1 = p.matching lower q := by
    intro s q
    unfold query
    rw [if_pos h]
  constructor
  · intro hoffers c hc a ha
    refine hoffers s ⟨c.title, c.title, []⟩ c ?_ a ha
    rw [hquery]
    exact p.mem_matching_title lower hc
  · intro hholds s q c hc a ha
    rw [hquery] at hc
    exact hholds c (List.mem_of_mem_filter hc) a ha

/-- A provider without the grant that has not discovered its tools offers nothing. -/
theorem offersNothing_of_undiscovered {p : McpProvider} (hgrant : p.invokeGranted = false)
    (h : p.discovered = false) : p.OffersNothing T lower := by
  intro s q c hc a ha hkind
  unfold query at hc
  rw [if_neg (by rw [h]; exact Bool.false_ne_true)] at hc
  rcases reproject_cases T s p with ⟨e, heq⟩ | ⟨tools, heq⟩
  · rw [heq] at hc
    exact absurd hc List.not_mem_nil
  · rw [heq] at hc
    let renewed : McpProvider :=
      { p with commands := tools.map fun tool => projectCommand tool p.serverId p.grants }
    have hholds : renewed.HoldsNothing := holdsNothing_of_projected hgrant rfl
    exact hholds c (List.mem_of_mem_filter hc) a ha hkind

/-! ## A revocation -/

/-- The commands are projected again exactly when the server lists its tools. -/
theorem reproject_ok_iff {p : McpProvider} :
    (p.reproject T s).1 = .ok () ↔ (T p.profile).Lists s p.serverId := by
  unfold reproject McpTransports.Lists McpCatalog.refreshFrom
  cases hopen : (T p.profile).opener s p.serverId with
  | error e => simp
  | ok t =>
      cases hinit : (T p.profile).initializeTransport s t with
      | mk init t₁ =>
          cases init with
          | error e => simp [hinit]
          | ok r =>
              cases hlist : (T p.profile).listTools s t₁ with
              | mk result t₂ => cases result <;> simp [hinit, hlist]

/-- Without the grant a projection takes away what can be invoked if the server lists its tools.
Otherwise the old commands stay. -/
theorem reproject_offersNothing_iff {p : McpProvider} (hdiscovered : p.discovered = true)
    (hgrant : p.invokeGranted = false) :
    (p.reproject T s).2.OffersNothing T lower ↔
      (T p.profile).Lists s p.serverId ∨ p.HoldsNothing := by
  rcases reproject_cases T s p with ⟨e, heq⟩ | ⟨tools, heq⟩
  · have hnot : ¬ (T p.profile).Lists s p.serverId := by
      rw [← reproject_ok_iff, heq]
      nofun
    rw [heq, or_iff_right hnot]
    exact offersNothing_of_discovered T lower s hdiscovered
  · have hlists : (T p.profile).Lists s p.serverId := by rw [← reproject_ok_iff, heq]
    rw [heq]
    refine iff_of_true ?_ (.inl hlists)
    refine (offersNothing_of_discovered T lower s ?_).mpr ?_
    · exact hdiscovered
    · exact holdsNothing_of_projected hgrant rfl

theorem setInvokeGranted_of_undiscovered {p : McpProvider} (h : p.discovered = false) :
    p.setInvokeGranted T s false = { p with invokeGranted := false } := by
  unfold setInvokeGranted
  cases hgrant : p.invokeGranted with
  | false => simp [← hgrant]
  | true => simp [h]

/-- Nothing is done when the grant was not there. -/
theorem setInvokeGranted_of_denied {p : McpProvider} (h : p.invokeGranted = false) :
    p.setInvokeGranted T s false = p := by
  simp [setInvokeGranted, h]

theorem setInvokeGranted_of_discovered {p : McpProvider} (hdiscovered : p.discovered = true)
    (hgrant : p.invokeGranted = true) :
    p.setInvokeGranted T s false =
      (({ p with invokeGranted := false } : McpProvider).reproject T s).2 := by
  simp [setInvokeGranted, hdiscovered, hgrant]

/-- **When a revocation takes effect.** After the grant is revoked no action that a query answers
can invoke a tool when, and only when, the tools were not discovered yet, or the grant was there and
the server lists its tools again, or the provider held no enabled action in the first place. -/
theorem revoked_offersNothing_iff :
    (p.setInvokeGranted T s false).OffersNothing T lower ↔
      p.discovered = false ∨
        (p.invokeGranted = true ∧ (T p.profile).Lists s p.serverId) ∨ p.HoldsNothing := by
  cases hdiscovered : p.discovered with
  | false =>
      rw [setInvokeGranted_of_undiscovered T s hdiscovered]
      exact iff_of_true (offersNothing_of_undiscovered T lower rfl hdiscovered) (.inl rfl)
  | true =>
      cases hgrant : p.invokeGranted with
      | false =>
          rw [setInvokeGranted_of_denied T s hgrant,
            offersNothing_of_discovered T lower s hdiscovered]
          simp
      | true =>
          have hagain : (p.setInvokeGranted T s false).OffersNothing T lower ↔
              (T p.profile).Lists s p.serverId ∨ p.HoldsNothing := by
            rw [setInvokeGranted_of_discovered T s hdiscovered hgrant]
            exact reproject_offersNothing_iff T s lower hdiscovered rfl
          rw [hagain]
          simp

/-! ## A server that is gone -/

/-- A server with one tool that is there for as long as the outside says so. -/
def oneToolServer : McpProtocolProfile → McpTransports Unit Bool := fun _ =>
  { opener := fun up _ => if up then .ok () else .error (.serverUnavailable "down")
    initializeTransport := fun _ t => (.ok ⟨"2025-06-18", .null, none⟩, t)
    listTools := fun _ t => (.ok ⟨[⟨"delete", none, none, .null, .null⟩], none, none⟩, t)
    callTool := fun _ _ _ _ t => (.error (.unknownTool "delete"), t) }

/-- The server is asked once while it is up; the grant is revoked when it is down. -/
theorem not_offersNothing_serverGone :
    ¬ ∀ (p : McpProvider) (up : Bool),
      (p.setInvokeGranted oneToolServer up false).OffersNothing oneToolServer id := by
  intro hall
  let asked := ((new "fs" .v2026_07_28).query oneToolServer true id ⟨"", "", []⟩).2
  let tool : CatalogTool := ⟨⟨"delete"⟩, "fs", none, none, .null, .null⟩
  have hheld : (asked.setInvokeGranted oneToolServer false false).HoldsNothing :=
    (offersNothing_of_discovered oneToolServer id false rfl).mp (hall asked false)
  have hcommands : (asked.setInvokeGranted oneToolServer false false).commands =
      (McpCatalog.sortTools [tool]).map fun t => projectCommand t "fs" [.mcpInvoke] := rfl
  have hmem : projectCommand tool "fs" [.mcpInvoke] ∈
      (asked.setInvokeGranted oneToolServer false false).commands := by
    rw [hcommands, McpCatalog.sortTools, List.mergeSort_singleton]
    exact List.mem_singleton_self _
  obtain ⟨a, ha, hkind, henabled⟩ := projectCommand_enabled tool "fs"
  have hdisabled := hheld _ hmem a ha hkind
  rw [henabled] at hdisabled
  exact absurd hdisabled Bool.false_ne_true

end McpProvider

end AuraLauncher.Mcp
