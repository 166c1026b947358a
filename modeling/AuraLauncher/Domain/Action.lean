import AuraLauncher.Domain.Std

/-!
# Commands, actions and descriptors

`launcher-domain/src/lib.rs`: the actions a command offers, the untrusted descriptors they are made
from, and the identity check on the input of an action.

* `Action`, `Command`, `ActionDescriptor` — the data.
* `resolveDescriptor`, `resolveDescriptorFor`, `resolveSystem` — a descriptor becomes an action.
* `granted_of_resolveSystem`, `resolveSystem_of_granted` — requirements only ever refuse;
  `eq_base_of_resolveSystem` is what a resolved action looks like.
* `identityMismatch` — the identity fields in which a runtime input conflicts with the projected
  payload of a command; `eq_of_identityMismatch_eq_nil` is what an empty answer says.
-/

namespace AuraLauncher.Domain

open AuraLauncher.Workflow (Json)

/-- Source: `lib.rs`, `ActionKind`. -/
inductive ActionKind
  | openTarget
  | copy
  | reveal
  | openTerminalHere
  | execute
  | paste
  | pluginInvoke
  | runAsAdmin
  deriving DecidableEq, Repr

/-- Source: `lib.rs`, `ActionPayload`. -/
inductive ActionPayload
  | path (p : String)
  | text (t : String)
  | commandLine (c : String)
  | hwnd (h : Int64)
  | json (v : Json)
  | none

/-- One executable action of a command. Source: `lib.rs`, `Action`. -/
structure Action where
  kind : ActionKind
  payload : Option ActionPayload
  id : Option String
  title : Option String
  /-- The reason an action is shown but cannot be executed. -/
  disabledReason : Option String
  shortcut : Option String
  /-- The engine refuses the action until the host confirms it. -/
  confirmationRequired : Bool

/-- A command, with the fields by which it is found and the actions it offers. Source: `lib.rs`,
`Command`. -/
structure Command where
  id : String
  providerId : String
  actions : List Action

/-- Source: `lib.rs`, `Capability`. -/
inductive Capability
  | filesystemRead | filesystemWrite | clipboardRead | clipboardWrite | network | shellExecute
  | processSpawn | notifications | uiRender | contextProcessRead | contextWindowRead
  | contextLocationRead | contextSelectionRead | storeRead | storeWrite | pluginInvoke | mcpInvoke
  deriving DecidableEq, Repr

/-- The `Debug` text of a capability. -/
def Capability.debug : Capability → String
  | .filesystemRead => "FilesystemRead"
  | .filesystemWrite => "FilesystemWrite"
  | .clipboardRead => "ClipboardRead"
  | .clipboardWrite => "ClipboardWrite"
  | .network => "Network"
  | .shellExecute => "ShellExecute"
  | .processSpawn => "ProcessSpawn"
  | .notifications => "Notifications"
  | .uiRender => "UiRender"
  | .contextProcessRead => "ContextProcessRead"
  | .contextWindowRead => "ContextWindowRead"
  | .contextLocationRead => "ContextLocationRead"
  | .contextSelectionRead => "ContextSelectionRead"
  | .storeRead => "StoreRead"
  | .storeWrite => "StoreWrite"
  | .pluginInvoke => "PluginInvoke"
  | .mcpInvoke => "McpInvoke"

/-- An action as a plugin or a workflow declares it; untrusted. Source: `lib.rs`,
`ActionDescriptor`. -/
structure ActionDescriptor where
  id : String
  title : Option String
  actionType : String
  input : Json
  requires : List Capability
  shortcut : Option String
  confirmation : Option String

/-- Source: `lib.rs`, `DescriptorError`. -/
inductive DescriptorError
  | unknownActionType (actionType : String)
  | invalidInput (what : String)
  | capabilityDenied (missing : List Capability)

/-- Whether `target` is `owner` or extends it at a dot; false when either is empty. Source:
`lib.rs`, `owns_plugin_namespace`. -/
def ownsPluginNamespace (owner target : List Char) : Bool :=
  if owner.isEmpty || target.isEmpty then false
  else
    target == owner ||
      (owner.isPrefixOf target && (target.drop owner.length).head? == some '.')

/-- The action of a descriptor before its kind and payload are known. Source: `lib.rs`,
`resolve_system` (`base`). -/
def ActionDescriptor.base (d : ActionDescriptor) (kind : ActionKind)
    (payload : Option ActionPayload) : Action where
  kind := kind
  payload := payload
  id := none
  title := none
  disabledReason := none
  shortcut := d.shortcut
  confirmationRequired := d.confirmation == some "confirm" ||
    d.requires.any fun c => c == .shellExecute || c == .processSpawn

/-- A string field of the input. Source: `lib.rs`, `resolve_system` (`get_str`). -/
def ActionDescriptor.getStr (d : ActionDescriptor) (key : String) : Option String :=
  (d.input.get key).bind Json.asStr

/-- An action whose payload is made from one string field of the input, which must be there.
Source: `lib.rs`, `resolve_system`. -/
def ActionDescriptor.fromField (d : ActionDescriptor) (key : String) (kind : ActionKind)
    (payload : String → ActionPayload) : Except DescriptorError Action :=
  match d.getStr key with
  | some s => .ok (d.base kind (some (payload s)))
  | none => .error (.invalidInput d.actionType)

/-- Source: `lib.rs`, `resolve_system`. -/
def resolveSystem (d : ActionDescriptor) (granted effectiveRequires : List Capability) :
    Except DescriptorError Action :=
  let missing := effectiveRequires.filter fun c => !granted.contains c
  if !missing.isEmpty then .error (.capabilityDenied missing)
  else
    match d.actionType with
    | "system.copy_to_clipboard" => d.fromField "text" .copy .text
    | "system.open" => d.fromField "target" .openTarget .path
    | "system.reveal" => d.fromField "path" .reveal .path
    | "system.open_terminal_here" => d.fromField "path" .openTerminalHere .path
    | "system.execute" => d.fromField "command_line" .execute .commandLine
    | "system.paste" => .ok (d.base .paste none)
    | ty =>
        if "plugin.".toList.isPrefixOf ty.toList then
          if d.input.isObject then .ok (d.base .pluginInvoke (some (.json d.input)))
          else .error (.invalidInput d.actionType)
        else .error (.unknownActionType ty)

/-- With nothing missing, the requirements play no part. -/
theorem resolveSystem_of_granted {d : ActionDescriptor} {granted requires : List Capability}
    (h : ∀ c ∈ requires, c ∈ granted) :
    resolveSystem d granted requires = resolveSystem d [] [] := by
  have hmissing : (requires.filter fun c => !granted.contains c) = [] :=
    List.filter_eq_nil_iff.mpr fun c hc => by simpa using h c hc
  unfold resolveSystem
  rw [hmissing]
  rfl

/-- Nothing is resolved with a requirement missing. -/
theorem granted_of_resolveSystem {d : ActionDescriptor} {granted requires : List Capability}
    {a : Action} (h : resolveSystem d granted requires = .ok a) : ∀ c ∈ requires, c ∈ granted := by
  by_contra hmissing
  have hne : (requires.filter fun c => !granted.contains c) ≠ [] := by
    rw [ne_eq, List.filter_eq_nil_iff]
    simpa using hmissing
  have hsome : (!(requires.filter fun c => !granted.contains c).isEmpty) = true := by
    simpa using hne
  simp only [resolveSystem, hsome, ↓reduceIte] at h
  cases h

theorem ActionDescriptor.eq_base_of_fromField {d : ActionDescriptor} {key : String}
    {kind : ActionKind} {payload : String → ActionPayload} {a : Action}
    (h : d.fromField key kind payload = .ok a) : ∃ p, a = d.base kind p := by
  unfold ActionDescriptor.fromField at h
  cases hs : d.getStr key with
  | none => rw [hs] at h; cases h
  | some s =>
      rw [hs] at h
      exact ⟨some (payload s), (Except.ok.inj h).symm⟩

/-- What a resolved action is: only `system.execute` gives a command line, only the types under
`plugin.` give an invocation, and nothing gives elevation. -/
theorem eq_base_of_resolveSystem {d : ActionDescriptor} {granted requires : List Capability}
    {a : Action} (h : resolveSystem d granted requires = .ok a) :
    ∃ kind p, a = d.base kind p ∧ (kind = .execute ↔ d.actionType = "system.execute") ∧
      (kind = .pluginInvoke → "plugin.".toList.isPrefixOf d.actionType.toList = true) ∧
      kind ≠ .runAsAdmin := by
  rw [resolveSystem_of_granted (granted_of_resolveSystem h)] at h
  simp only [resolveSystem, List.filter_nil, List.isEmpty_nil, Bool.not_true, Bool.false_eq_true,
    ↓reduceIte] at h
  split at h
  case h_1 hty | h_2 hty | h_3 hty | h_4 hty | h_5 hty =>
    obtain ⟨p, rfl⟩ := ActionDescriptor.eq_base_of_fromField h
    exact ⟨_, p, rfl, by simp [hty], by simp, by simp⟩
  next hty =>
    obtain rfl := Except.ok.inj h
    exact ⟨_, none, rfl, by simp [hty], by simp, by simp⟩
  next hexec _ =>
    split_ifs at h with hplugin
    obtain rfl := Except.ok.inj h
    exact ⟨_, _, rfl, by simpa using hexec, fun _ => hplugin, by simp⟩

/-- A list with `c` at its end unless it is there already. -/
def requiring (c : Capability) (requires : List Capability) : List Capability :=
  if requires.contains c then requires else requires ++ [c]

/-- Source: `lib.rs`, `resolve_descriptor_for`. -/
def resolveDescriptorFor (d : ActionDescriptor) (granted : List Capability)
    (ownPlugin : Option String) : Except DescriptorError Action :=
  if d.actionType = "plugin.mcp.invoke" then
    resolveSystem d granted (requiring .mcpInvoke d.requires)
  else if "plugin.".toList.isPrefixOf d.actionType.toList then
    match ownPlugin with
    | none => .error (.unknownActionType d.actionType)
    | some own =>
        if ownsPluginNamespace own.toList (d.actionType.toList.drop "plugin.".length) then
          resolveSystem d granted (requiring .pluginInvoke d.requires)
        else
          .error (.invalidInput
            ("cross-plugin action denied: " ++ d.actionType ++ " (producer is " ++ own ++ ")"))
  else resolveSystem d granted d.requires

/-- Source: `lib.rs`, `resolve_descriptor`. -/
def resolveDescriptor (d : ActionDescriptor) (granted : List Capability) :
    Except DescriptorError Action :=
  resolveDescriptorFor d granted none

/-! ## The identity of a route -/

/-- Source: `lib.rs`, `ACTION_IDENTITY_FIELDS`. -/
def actionIdentityFields : List String := ["server_id", "tool_name"]

/-- Whether a field is in both objects with different values. -/
def conflicting (projected runtime : List (String × Json)) (field : String) : Bool :=
  match projected.lookup field, runtime.lookup field with
  | some a, some b => !a.beq b
  | _, _ => false

/-- The identity fields in which the runtime input conflicts with the projected payload; none when
either is not an object. Source: `lib.rs`, `identity_mismatch`. -/
def identityMismatch (projected runtime : Json) : List String :=
  match projected.asObject, runtime.asObject with
  | some proj, some rt => actionIdentityFields.filter (conflicting proj rt)
  | _, _ => []

/-- Where the projected object has a string in an identity field and nothing conflicts, the runtime
object has the same string there or no such field. -/
theorem eq_of_identityMismatch_eq_nil {proj rt : List (String × Json)}
    (h : identityMismatch (.object proj) (.object rt) = []) {field s : String}
    (hfield : field ∈ actionIdentityFields) (hproj : proj.lookup field = some (.string s))
    {v : Json}
    (hrt : rt.lookup field = some v) : v = .string s := by
  have hno : conflicting proj rt field = false := by
    have hnil : actionIdentityFields.filter (conflicting proj rt) = [] := h
    simpa using List.filter_eq_nil_iff.mp hnil field hfield
  have hbeq : (Json.string s).beq v = true := by simpa [conflicting, hproj, hrt] using hno
  exact Json.eq_of_string_beq hbeq

end AuraLauncher.Domain
