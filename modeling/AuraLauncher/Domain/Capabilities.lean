import AuraLauncher.Domain.Action

/-!
# What a resolution is allowed to grant

A descriptor is untrusted; what it may become is bounded by the capabilities the host has granted.

* `ResolutionSound` — the bound: requirements are granted, a command line needs `shell.execute` and
  a confirmation, an MCP effect needs `mcp.invoke`, a plugin effect stays in the namespace of its
  producer, and more grants refuse nothing.
* `resolveDescriptorFor_cases` — which requirements stand behind a resolved action.
* `ExecutesGranted`, `ExecutesDeclared` — the condition on a command line, for given grants and
  for all.
* `resolveDescriptorFor_sound_iff` — the resolver keeps to the bound exactly under these.
-/

namespace AuraLauncher.Domain

theorem mem_requiring {c c' : Capability} {requires : List Capability} :
    c' ∈ requiring c requires ↔ c' ∈ requires ∨ c' = c := by
  unfold requiring
  split_ifs with hmem
  · have hc : c ∈ requires := by simpa using hmem
    refine ⟨.inl, ?_⟩
    rintro (h | rfl)
    · exact h
    · exact hc
  · simp

/-- The producer of a descriptor owns the namespace its type is in. -/
def InOwnNamespace (d : ActionDescriptor) (ownPlugin : Option String) : Prop :=
  ∃ own, ownPlugin = some own ∧
    ownsPluginNamespace own.toList (d.actionType.toList.drop "plugin.".length) = true

/-- The requirements that stand behind a resolved action, by the type of its descriptor: an MCP
invocation adds `mcp.invoke`, an invocation in the namespace of the producer adds `plugin.invoke`,
and everything else adds nothing. -/
theorem resolveDescriptorFor_cases {d : ActionDescriptor} {granted : List Capability}
    {ownPlugin : Option String} {a : Action}
    (h : resolveDescriptorFor d granted ownPlugin = .ok a) :
    ∃ requires, resolveSystem d granted requires = .ok a ∧ (∀ c ∈ d.requires, c ∈ requires) ∧
      (∀ granted', resolveDescriptorFor d granted' ownPlugin = resolveSystem d granted' requires) ∧
      (d.actionType = "plugin.mcp.invoke" ∧ .mcpInvoke ∈ requires ∨
        d.actionType ≠ "plugin.mcp.invoke" ∧
          "plugin.".toList.isPrefixOf d.actionType.toList = true ∧
          InOwnNamespace d ownPlugin ∧ .pluginInvoke ∈ requires ∨
        "plugin.".toList.isPrefixOf d.actionType.toList = false ∧ requires = d.requires) := by
  have hadd : ∀ c, (∀ c' ∈ d.requires, c' ∈ requiring c d.requires) ∧ c ∈ requiring c d.requires :=
    fun c => ⟨fun _ hc' => mem_requiring.mpr (.inl hc'), mem_requiring.mpr (.inr rfl)⟩
  by_cases hmcp : d.actionType = "plugin.mcp.invoke"
  · have heq : ∀ g, resolveDescriptorFor d g ownPlugin =
        resolveSystem d g (requiring .mcpInvoke d.requires) := fun g => if_pos hmcp
    exact ⟨_, heq granted ▸ h, (hadd _).1, heq, .inl ⟨hmcp, (hadd _).2⟩⟩
  · by_cases hplugin : "plugin.".toList.isPrefixOf d.actionType.toList = true
    · cases ownPlugin with
      | none =>
          rw [resolveDescriptorFor, if_neg hmcp, if_pos hplugin] at h
          cases h
      | some own =>
          by_cases hown : ownsPluginNamespace own.toList
              (d.actionType.toList.drop "plugin.".length) = true
          · have heq : ∀ g, resolveDescriptorFor d g (some own) =
                resolveSystem d g (requiring .pluginInvoke d.requires) := by
              intro g
              rw [resolveDescriptorFor, if_neg hmcp, if_pos hplugin]
              exact if_pos hown
            exact ⟨_, heq granted ▸ h, (hadd _).1, heq,
              .inr (.inl ⟨hmcp, hplugin, ⟨own, rfl, hown⟩, (hadd _).2⟩)⟩
          · rw [resolveDescriptorFor, if_neg hmcp, if_pos hplugin] at h
            rw [if_neg hown] at h
            cases h
    · have heq : ∀ g, resolveDescriptorFor d g ownPlugin = resolveSystem d g d.requires := by
        intro g
        unfold resolveDescriptorFor
        rw [if_neg hmcp, if_neg hplugin]
      exact ⟨_, heq granted ▸ h, fun _ => id, heq,
        .inr (.inr ⟨Bool.eq_false_iff.mpr hplugin, rfl⟩)⟩

/-- The bound on what a descriptor may become with the given grants. -/
structure ResolutionSound (d : ActionDescriptor) (granted : List Capability)
    (ownPlugin : Option String) (a : Action) : Prop where
  /-- Every declared requirement is granted. -/
  requires_granted : ∀ c ∈ d.requires, c ∈ granted
  /-- A command line needs `shell.execute` and a confirmation. -/
  execute_granted : a.kind = .execute → .shellExecute ∈ granted ∧ a.confirmationRequired = true
  /-- An MCP effect needs `mcp.invoke`. -/
  mcp_granted : d.actionType = "plugin.mcp.invoke" → .mcpInvoke ∈ granted
  /-- Another plugin effect is in the namespace of its producer, with `plugin.invoke`. -/
  plugin_owned : a.kind = .pluginInvoke → d.actionType ≠ "plugin.mcp.invoke" →
    InOwnNamespace d ownPlugin ∧ .pluginInvoke ∈ granted
  /-- More grants give the same action. -/
  monotone : ∀ granted', (∀ c ∈ granted, c ∈ granted') →
    resolveDescriptorFor d granted' ownPlugin = .ok a

/-- The descriptor is of the type that runs a command line, and its input has the line. -/
def ActionDescriptor.Executes (d : ActionDescriptor) : Prop :=
  d.actionType = "system.execute" ∧ (d.getStr "command_line").isSome = true

/-- A command line whose requirements are granted has `shell.execute` granted, and asks for a
confirmation or requires something that does. -/
def ExecutesGranted (d : ActionDescriptor) (granted : List Capability) : Prop :=
  d.Executes → (∀ c ∈ d.requires, c ∈ granted) →
    .shellExecute ∈ granted ∧
      (d.confirmation = some "confirm" ∨ .shellExecute ∈ d.requires ∨ .processSpawn ∈ d.requires)

/-- A command line declares `shell.execute`. -/
def ExecutesDeclared (d : ActionDescriptor) : Prop :=
  d.Executes → .shellExecute ∈ d.requires

theorem base_confirmationRequired_iff {d : ActionDescriptor} {kind : ActionKind}
    {p : Option ActionPayload} : (d.base kind p).confirmationRequired = true ↔
      d.confirmation = some "confirm" ∨ .shellExecute ∈ d.requires ∨
        .processSpawn ∈ d.requires := by
  simp only [ActionDescriptor.base, Bool.or_eq_true, beq_iff_eq, List.any_eq_true]
  constructor
  · rintro (h | ⟨c, hc, rfl | rfl⟩)
    · exact .inl h
    · exact .inr (.inl hc)
    · exact .inr (.inr hc)
  · rintro (h | h | h)
    · exact .inl h
    · exact .inr ⟨_, h, .inl rfl⟩
    · exact .inr ⟨_, h, .inr rfl⟩

/-- A command line is resolved whenever its declared requirements are granted. -/
theorem ActionDescriptor.Executes.resolve {d : ActionDescriptor} (h : d.Executes)
    {granted : List Capability} (hgranted : ∀ c ∈ d.requires, c ∈ granted)
    (ownPlugin : Option String) :
    ∃ p, resolveDescriptorFor d granted ownPlugin = .ok (d.base .execute p) := by
  obtain ⟨hty, hline⟩ := h
  obtain ⟨line, hline⟩ := Option.isSome_iff_exists.mp hline
  refine ⟨some (.commandLine line), ?_⟩
  have hsystem : resolveSystem d [] [] = d.fromField "command_line" .execute .commandLine := by
    simp [resolveSystem, hty]
  unfold resolveDescriptorFor
  rw [hty, if_neg (by decide), if_neg (by decide),
    resolveSystem_of_granted hgranted, hsystem, ActionDescriptor.fromField, hline]

/-- A resolved action keeps to the bound when a command line does. -/
theorem resolutionSound_of_executesGranted {d : ActionDescriptor} {granted : List Capability}
    {ownPlugin : Option String} {a : Action} (hexec : ExecutesGranted d granted)
    (ha : resolveDescriptorFor d granted ownPlugin = .ok a) :
    ResolutionSound d granted ownPlugin a := by
  obtain ⟨requires, hsystem, hrequires, heq, htype⟩ := resolveDescriptorFor_cases ha
  have hgranted := granted_of_resolveSystem hsystem
  obtain ⟨kind, p, rfl, hkind, hinvoke, -⟩ := eq_base_of_resolveSystem hsystem
  constructor
  case requires_granted => exact fun c hc => hgranted c (hrequires c hc)
  case execute_granted =>
    intro hk
    have hty : d.actionType = "system.execute" := hkind.mp hk
    have hline : (d.getStr "command_line").isSome = true := by
      rw [resolveSystem_of_granted hgranted] at hsystem
      cases hs : d.getStr "command_line" with
      | some line => rfl
      | none => simp [resolveSystem, hty, ActionDescriptor.fromField, hs] at hsystem
    obtain ⟨hshell, hconfirm⟩ :=
      hexec ⟨hty, hline⟩ fun c hc => hgranted c (hrequires c hc)
    exact ⟨hshell, base_confirmationRequired_iff.mpr hconfirm⟩
  case mcp_granted =>
    intro hmcp
    rcases htype with ⟨-, hmem⟩ | ⟨hne, -⟩ | ⟨hno, -⟩
    · exact hgranted _ hmem
    · exact absurd hmcp hne
    · rw [hmcp] at hno
      exact absurd hno (by decide)
  case plugin_owned =>
    intro hk hne
    rcases htype with ⟨hmcp, -⟩ | ⟨-, -, hown, hmem⟩ | ⟨hno, -⟩
    · exact absurd hmcp hne
    · exact ⟨hown, hgranted _ hmem⟩
    · exact absurd (hinvoke hk) (Bool.eq_false_iff.mp hno)
  case monotone =>
    intro granted' hsub
    rw [heq, resolveSystem_of_granted fun c hc => hsub c (hgranted c hc),
      ← resolveSystem_of_granted hgranted, hsystem]

/-- **What the resolver grants.** A resolved action keeps to the bound if and only if a command
line comes with `shell.execute` granted and a confirmation asked for; and it does so whatever is
granted if and only if a command line declares `shell.execute`. -/
theorem resolveDescriptorFor_sound_iff (d : ActionDescriptor) (ownPlugin : Option String) :
    (∀ granted,
      (∀ a, resolveDescriptorFor d granted ownPlugin = .ok a →
        ResolutionSound d granted ownPlugin a) ↔ ExecutesGranted d granted) ∧
      ((∀ granted a, resolveDescriptorFor d granted ownPlugin = .ok a →
        ResolutionSound d granted ownPlugin a) ↔ ExecutesDeclared d) := by
  have hiff : ∀ granted, (∀ a, resolveDescriptorFor d granted ownPlugin = .ok a →
      ResolutionSound d granted ownPlugin a) ↔ ExecutesGranted d granted := by
    intro granted
    constructor
    · intro hsound hexec hgranted
      obtain ⟨p, hp⟩ := hexec.resolve hgranted ownPlugin
      obtain ⟨hshell, hconfirm⟩ := (hsound _ hp).execute_granted rfl
      exact ⟨hshell, base_confirmationRequired_iff.mp hconfirm⟩
    · intro hexec a ha
      exact resolutionSound_of_executesGranted hexec ha
  refine ⟨hiff, ?_⟩
  rw [forall_congr' hiff]
  constructor
  · intro hall hexec
    exact (hall d.requires hexec fun _ => id).1
  · intro hdeclared granted hexec hgranted
    exact ⟨hgranted _ (hdeclared hexec), .inr (.inl (hdeclared hexec))⟩

/-- A descriptor of type `system.execute` that declares nothing is resolved with nothing granted
and asks for no confirmation. -/
theorem resolveDescriptorFor_not_sound :
    ¬ ∀ (d : ActionDescriptor) (granted : List Capability) (ownPlugin : Option String) (a : Action),
      resolveDescriptorFor d granted ownPlugin = .ok a →
        ResolutionSound d granted ownPlugin a := by
  intro h
  have hsound := h ⟨"run", none, "system.execute",
    .object [("command_line", .string "format c:")], [], none, none⟩ [] none _ rfl
  exact absurd (hsound.execute_granted rfl).1 (by decide)

end AuraLauncher.Domain
