import AuraLauncher.Domain.Capabilities
import AuraLauncher.Ipc.Messages

/-!
# From the answers of a plugin to commands

`launcher-plugin-host/src/lib.rs`, `query_invocation` from the answer on, with the wire forms of
`launcher-domain/src/lib.rs` it decodes: what a plugin sends is untrusted, and becomes the actions
of a command here.

An entry of `actions` comes by one of three routes. A string is a command line as it stands; a
descriptor is resolved against the capabilities of the manifest, and shown without an effect when
one of them is missing; everything else is dropped. The rich part of an item, which is stored
elsewhere and drops nothing else, is left out, and so are the warnings.

* `PluginManifest`, `PluginCommand` — the data.
* `Capability.decode`, `ActionDescriptor.decode` — the decoders of a descriptor.
* `classifyAction`, `resolveAction` — the three routes.
* `commandOf` — a command is made of an item.
* `RunsUnchecked` — the entry becomes a command line without `shell.execute` being asked for;
  `runsUnchecked_iff` is that this is what the routes do.
-/

namespace AuraLauncher.Domain

open AuraLauncher.Mcp (structFields optionField defaultField decodeArray)
open AuraLauncher.Workflow (Json)

/-! ## Wire forms -/

/-- The name of a capability on the wire. Source:
`launcher-domain/src/lib.rs`, `Capability` (`rename`). -/
def Capability.wireName : Capability → String
  | .filesystemRead => "filesystem.read"
  | .filesystemWrite => "filesystem.write"
  | .clipboardRead => "clipboard.read"
  | .clipboardWrite => "clipboard.write"
  | .network => "network.connect"
  | .shellExecute => "shell.execute"
  | .processSpawn => "process.launch"
  | .notifications => "notification.send"
  | .uiRender => "ui.render"
  | .contextProcessRead => "context.process.read"
  | .contextWindowRead => "context.window.read"
  | .contextLocationRead => "context.location.read"
  | .contextSelectionRead => "context.selection.read"
  | .storeRead => "store.read"
  | .storeWrite => "store.write"
  | .pluginInvoke => "plugin.invoke"
  | .mcpInvoke => "mcp.invoke"

/-- Every capability. -/
def Capability.all : List Capability :=
  [.filesystemRead, .filesystemWrite, .clipboardRead, .clipboardWrite, .network, .shellExecute,
    .processSpawn, .notifications, .uiRender, .contextProcessRead, .contextWindowRead,
    .contextLocationRead, .contextSelectionRead, .storeRead, .storeWrite, .pluginInvoke, .mcpInvoke]

/-- The capability with the name. -/
def Capability.ofWireName (name : String) : Option Capability :=
  Capability.all.find? fun c => c.wireName == name

/-- Every capability is read back from its name. -/
theorem Capability.ofWireName_wireName (c : Capability) :
    Capability.ofWireName c.wireName = some c := by
  cases c <;> rfl

/-- A variant without data is its name, or an object with the name for its only field and null
for its value. Source:
`launcher-domain/src/lib.rs`, `Capability` (`Deserialize`). -/
def Capability.decode : Json → Option Capability
  | .string name => Capability.ofWireName name
  | .object [(name, .null)] => Capability.ofWireName name
  | _ => none

/-- Source: `launcher-domain/src/lib.rs`, `ActionDescriptor` (`Deserialize`). -/
def ActionDescriptor.decode (v : Json) : Option ActionDescriptor := do
  let fields ← structFields
    ["id", "title", "type", "input", "requires", "shortcut", "confirmation"] v
  let id ← (fields.lookup "id").bind Json.asStr
  let title ← optionField Json.asStr fields "title"
  let actionType ← (fields.lookup "type").bind Json.asStr
  let requires ← defaultField (decodeArray Capability.decode) [] fields "requires"
  let shortcut ← optionField Json.asStr fields "shortcut"
  let confirmation ← optionField Json.asStr fields "confirmation"
  return ⟨id, title, actionType, (fields.lookup "input").getD .null, requires, shortcut,
    confirmation⟩

end AuraLauncher.Domain

namespace AuraLauncher.Plugin

open AuraLauncher.Domain AuraLauncher.Ipc
open AuraLauncher.Workflow (Json)

/-! ## The data -/

/-- Source: `launcher-domain/src/lib.rs`, `PluginLifetime`. -/
inductive PluginLifetime
  | ephemeral
  | resident
  deriving DecidableEq, Repr

/-- The manifest of a plugin, as far as a running plugin is handled by it. Source:
`launcher-domain/src/lib.rs`, `PluginManifest`. -/
structure PluginManifest where
  id : String
  schemaVersion : Option ℕ
  capabilities : List Capability
  timeoutMs : ℕ
  /-- What `PluginManifest::lifetime` answers. -/
  lifetime : PluginLifetime

/-- A command with what a plugin says about it beyond its actions. The icon and the keywords are
empty, and the category is that of plugins. -/
structure PluginCommand extends Command where
  title : String
  subtitle : Option String
  score : Float32
  target : Option String

/-! ## The three routes of an action -/

/-- Source: `PluginActionRef`; the text with a malformed entry only goes to a warning. -/
inductive PluginActionRef
  | legacy (cmdline : String)
  | descriptor (d : ActionDescriptor)
  | malformed

/-- Source: `classify_action`. -/
def classifyAction : Json → PluginActionRef
  | .string s => .legacy s
  | .object fields =>
      match ActionDescriptor.decode (.object fields) with
      | some d => .descriptor d
      | none => .malformed
  | _ => .malformed

/-- A command line as an old plugin gives it. Source: `query_invocation` (`Legacy`). -/
def legacyAction (cmdline : String) : Action where
  kind := .execute
  payload := some (.commandLine cmdline)
  id := none
  title := none
  disabledReason := none
  shortcut := none
  confirmationRequired := false

/-- An action that is shown and cannot be executed. Source: `query_invocation`
(`CapabilityDenied`). -/
def deniedAction (d : ActionDescriptor) (missing : List Capability) : Action where
  kind := .execute
  payload := none
  id := some d.id
  title := some (d.title.getD d.id)
  disabledReason := some ("requires " ++ ", ".intercalate (missing.map Capability.wireName))
  shortcut := d.shortcut
  confirmationRequired := false

/-- A resolved action under the id and the title of its descriptor. Source: `query_invocation`
(`Descriptor`). -/
def namedAction (d : ActionDescriptor) (resolved : Action) : Action :=
  { resolved with id := some d.id, title := d.title.or resolved.title }

/-- An enabled action that runs something, with a payload. -/
def RunsSomething (a : Action) : Prop :=
  a.disabledReason = none ∧ (a.kind = .execute ∨ a.kind = .runAsAdmin) ∧ a.payload.isSome = true

namespace PluginManifest

variable (m : PluginManifest)

/-- The action an entry becomes, if it is not dropped. Source: `query_invocation`. -/
def resolveAction : PluginActionRef → Option Action
  | .legacy cmdline => some (legacyAction cmdline)
  | .descriptor d =>
      match resolveDescriptorFor d m.capabilities (some m.id) with
      | .ok resolved => some (namedAction d resolved)
      | .error (.capabilityDenied missing) => some (deniedAction d missing)
      | .error _ => none
  | .malformed => none

/-- The provider of every command of the plugin. Source: `query_invocation`. -/
def providerId : String := "plugin:" ++ m.id

/-- Source: `query_invocation` (one item). -/
def commandOf (item : PluginResultItem) : PluginCommand where
  id := m.id ++ ":" ++ item.id.getD item.title
  providerId := m.providerId
  actions := item.actions.filterMap fun a => m.resolveAction (classifyAction a)
  title := item.title
  subtitle := item.subtitle
  score := item.score
  target := item.actions.findSome? fun a =>
    match classifyAction a with
    | .legacy cmdline => some cmdline
    | _ => none

/-! ## What may run -/

/-- The entry becomes a command line, and the capabilities it is asked for are at most those it
names itself. -/
def RunsUnchecked (v : Json) : Prop :=
  match classifyAction v with
  | .legacy _ => True
  | .descriptor d => d.Executes ∧ ∀ c ∈ d.requires, c ∈ m.capabilities
  | .malformed => False

variable {m}

/-- No descriptor asks for elevation. -/
theorem kind_ne_runAsAdmin {d : ActionDescriptor} {granted requires : List Capability}
    {a : Action} (h : resolveSystem d granted requires = .ok a) : a.kind ≠ .runAsAdmin := by
  obtain ⟨kind, p, rfl, -, -, hne⟩ := eq_base_of_resolveSystem h
  exact hne

/-- Of the resolved actions only a command line runs something, and it has a payload. -/
theorem executes_of_resolveSystem {d : ActionDescriptor} {granted requires : List Capability}
    {a : Action} (h : resolveSystem d granted requires = .ok a)
    (hkind : a.kind = .execute ∨ a.kind = .runAsAdmin) :
    d.Executes ∧ a.payload.isSome = true := by
  rcases hkind with hkind | hkind
  · obtain ⟨kind, p, rfl, hexecute, -⟩ := eq_base_of_resolveSystem h
    rw [resolveSystem_of_granted (granted_of_resolveSystem h)] at h
    have hty : d.actionType = "system.execute" := hexecute.mp hkind
    have hsystem : resolveSystem d [] [] = d.fromField "command_line" .execute .commandLine := by
      simp [resolveSystem, hty]
    rw [hsystem, ActionDescriptor.fromField] at h
    cases hline : d.getStr "command_line" with
    | none =>
        rw [hline] at h
        cases h
    | some line =>
        rw [hline] at h
        obtain rfl : some (.commandLine line) = p :=
          congrArg Action.payload (Except.ok.inj h)
        exact ⟨⟨hty, by rw [hline]; rfl⟩, rfl⟩
  · exact absurd hkind (kind_ne_runAsAdmin h)

/-- A resolved descriptor runs something exactly when it is a command line whose own requirements
are granted. -/
theorem runsSomething_namedAction_iff {d : ActionDescriptor} {a : Action}
    (h : resolveDescriptorFor d m.capabilities (some m.id) = .ok a) :
    RunsSomething (namedAction d a) ↔ d.Executes ∧ ∀ c ∈ d.requires, c ∈ m.capabilities := by
  obtain ⟨requires, hsystem, hrequires, -⟩ := resolveDescriptorFor_cases h
  have hgranted := granted_of_resolveSystem hsystem
  constructor
  · rintro ⟨-, hkind, -⟩
    exact ⟨(executes_of_resolveSystem hsystem hkind).1, fun c hc => hgranted c (hrequires c hc)⟩
  · rintro ⟨hexecutes, hown⟩
    obtain ⟨p, hp⟩ := hexecutes.resolve hown (some m.id)
    obtain rfl : d.base .execute p = a := Except.ok.inj (hp.symm.trans h)
    exact ⟨rfl, .inl rfl, (executes_of_resolveSystem hsystem (.inl rfl)).2⟩

/-- What an entry becomes runs something exactly when the entry is a command line, or a descriptor
of one whose own requirements are granted. -/
theorem runsUnchecked_iff (v : Json) :
    (∃ a, m.resolveAction (classifyAction v) = some a ∧ RunsSomething a) ↔ m.RunsUnchecked v := by
  unfold RunsUnchecked
  cases classifyAction v with
  | legacy cmdline => exact iff_of_true ⟨legacyAction cmdline, rfl, rfl, .inl rfl, rfl⟩ trivial
  | malformed => exact iff_of_false (fun ⟨_, ha, _⟩ => by cases ha) fun h => h
  | descriptor d =>
      cases hresolved : resolveDescriptorFor d m.capabilities (some m.id) with
      | ok resolved =>
          change _ ↔ d.Executes ∧ ∀ c ∈ d.requires, c ∈ m.capabilities
          rw [← runsSomething_namedAction_iff hresolved]
          simp only [resolveAction, hresolved, Option.some.injEq, exists_eq_left']
      | error e =>
          -- what is refused is shown without a payload, or dropped
          refine iff_of_false ?_ ?_
          · rintro ⟨a, ha, hruns⟩
            cases e with
            | capabilityDenied missing =>
                simp only [resolveAction, hresolved, Option.some.injEq] at ha
                obtain rfl := ha
                cases hruns.1
            | _ => simp [resolveAction, hresolved] at ha
          · rintro ⟨hexecutes, hown⟩
            obtain ⟨p, hp⟩ := hexecutes.resolve hown (some m.id)
            rw [hresolved] at hp
            cases hp

end PluginManifest

end AuraLauncher.Plugin
