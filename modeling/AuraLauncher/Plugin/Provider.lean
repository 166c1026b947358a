import AuraLauncher.Domain.Action
import AuraLauncher.Plugin.Registry

/-!
# The plugin provider

`plugin.rs`: one external plugin as a provider of commands. It keeps the process of the plugin, its
own copy of the flags of the plugin, and the registry when one is attached.

* `PluginProvider`, `PluginHost` — the provider, and the provider with the registry behind it and
  the requests it has sent to the process so far.
* `Attempt` — what the outside answers during one call: the state of the process, the spawn, and
  the reply to the request. Everything the provider does not decide is there.
* `ensureRunning`, `discover`, `query`, `executeAction` — the calls.
* `request?`, `after` — the request a call sends, if any, and what its outcome does to the counts;
  `call_settle` is that a call does nothing else.

A spawn cooldown is read by `ensure_running` and never set, so it is left out, like the times and
the diagnostics of the calls.
-/

namespace AuraLauncher.Plugin

open AuraLauncher.Domain (Command)
open AuraLauncher.Workflow (Json)

/-- Source: `launcher-plugin-host`, `PluginError`; durations and exit codes as their texts. -/
inductive PluginError
  | spawn (error : String)
  | timeout (after : String)
  | crashed (code : String)
  | malformed (what : String)
  | noResponse
  | executableEscapesDir (path : String)
  | versionMismatch (what : String)
  /-- The plugin refused the action; not a protocol violation. -/
  | actionFailed (code : Int) (message : String)
  deriving DecidableEq, Repr

namespace PluginError

/-- The `Display` text. Source: `launcher-plugin-host`, `PluginError`. -/
def text : PluginError → String
  | spawn error => "spawn failed: " ++ error
  | timeout after => "plugin timeout after " ++ after
  | crashed code => "plugin crashed with exit code " ++ code
  | malformed what => "malformed response: " ++ what
  | noResponse => "no response"
  | executableEscapesDir path => "executable escapes plugin directory: " ++ path
  | versionMismatch what => "protocol version mismatch: " ++ what
  | actionFailed _ message => "action failed: " ++ message

/-- The plugin said so itself, and its process goes on. -/
def isActionFailed : PluginError → Bool
  | actionFailed _ _ => true
  | _ => false

end PluginError

/-- The classes of failure an execution reports. Source: `workflow.rs`, `WorkflowFailureClass`. -/
inductive FailureClass
  | timeout
  | businessError
  | protocolViolation
  | pluginUnavailable
  deriving DecidableEq, Repr

/-- The class of a failed execution. Source: `plugin.rs`, `execute_action`. -/
def executeClass : PluginError → FailureClass
  | .timeout _ => .timeout
  | .actionFailed _ _ => .businessError
  | .spawn _ => .pluginUnavailable
  | _ => .protocolViolation

/-- Source: `plugin.rs`, `PluginProvider`. -/
structure PluginProvider where
  /-- The id in the manifest. -/
  id : String
  /-- Whether a process is attached. -/
  handle : Bool
  /-- The last query failure, for the display. -/
  lastQueryError : Option String
  /-- Protocol failures in a row, as the provider counts them. -/
  protocolFailures : ℕ
  quarantined : Bool
  disabled : Bool
  /-- Whether a registry is attached. -/
  registry : Bool
  deriving DecidableEq, Repr

namespace PluginProvider

/-- Source: `plugin.rs`, `PluginProvider::from_manifest_file`. -/
def fromManifest (id : String) : PluginProvider :=
  ⟨id, false, none, 0, false, false, false⟩

/-- Source: `plugin.rs`, `PluginProvider::set_enabled`. -/
def setEnabled (p : PluginProvider) (enabled : Bool) : PluginProvider :=
  { p with disabled := !enabled, handle := p.handle && enabled }

/-- Attaches the registry and takes over what it has persisted. Source: `plugin.rs`,
`PluginProvider::set_registry`. -/
def setRegistry (p : PluginProvider) (reg : PluginRegistry) : PluginProvider :=
  let st := reg.state p.id
  { p with
    disabled := !st.enabled
    quarantined := st.quarantined
    protocolFailures := st.protocolFailures
    handle := p.handle && !st.quarantined
    registry := true }

end PluginProvider

/-- What the outside answers during one call. -/
structure Attempt where
  /-- Whether the attached process still runs when it is polled. -/
  running : Bool
  /-- Whether it has been idle for longer than its manifest allows. -/
  idleExpired : Bool
  /-- The answer to a spawn of a new process. -/
  spawn : Except PluginError Unit
  /-- The reply to a `query`. -/
  queryReply : Except PluginError (List Command)
  /-- The reply to an `execute_action`. -/
  executeReply : Except PluginError Json

/-- The calls routed through the provider. -/
inductive Call
  | query (text : String) (w : Attempt)
  | execute (actionId : String) (input : Json) (executionId : String) (contextGeneration : ℕ)
      (w : Attempt)

/-- The requests a provider sends to its process. -/
inductive RequestKind
  | discover
  | query (text : String)
  | execute (actionId : String) (input : Json) (executionId : String) (contextGeneration : ℕ)

/-- How a request ended. -/
inductive Outcome
  | success
  | protocolFailure
  /-- The plugin refused an action. -/
  | businessFailure
  deriving DecidableEq, Repr

/-- A request that was sent, how it ended, and what the registry said of the plugin when it was
sent. -/
structure Request where
  kind : RequestKind
  outcome : Outcome
  marks : PluginLifecycleState

/-- How a query ended; every error of a query is one of the protocol. -/
def queryOutcome : Except PluginError (List Command) → Outcome
  | .ok _ => .success
  | .error _ => .protocolFailure

/-- How an execution ended. -/
def executeOutcome : Except PluginError Json → Outcome
  | .ok _ => .success
  | .error e => if e.isActionFailed then .businessFailure else .protocolFailure

/-- A provider, the registry behind it, and the requests sent so far, newest first. -/
structure PluginHost where
  registry : PluginRegistry
  provider : PluginProvider
  sent : List Request

namespace PluginHost

/-- What the registry says of the plugin. -/
def marks (h : PluginHost) : PluginLifecycleState := h.registry.state h.provider.id

/-- Keeps the request in the history. -/
def send (h : PluginHost) (kind : RequestKind) (outcome : Outcome) : PluginHost :=
  { h with sent := ⟨kind, outcome, h.marks⟩ :: h.sent }

/-- Brings a process up: the attached one if it runs and is not to be reclaimed, else a new one.
Source: `plugin.rs`, `PluginProvider::ensure_running`. -/
def ensureRunning (h : PluginHost) (w : Attempt) : PluginHost × Except PluginError Unit :=
  if h.provider.handle && w.running && !w.idleExpired then (h, .ok ())
  else
    match w.spawn with
    | .ok () => ({ h with provider := { h.provider with handle := true } }, .ok ())
    | .error e => ({ h with provider := { h.provider with handle := false } }, .error e)

/-- Lets go of the process. -/
def dropHandle (h : PluginHost) : PluginHost :=
  { h with provider := { h.provider with handle := false } }

/-- Counts a protocol failure, with the registry and in the provider, and quarantines the plugin
at the threshold of either. Source: `plugin.rs`, `query`, `execute_action`. -/
def countFailure (h : PluginHost) : PluginHost :=
  let failures := h.provider.protocolFailures + 1
  let recorded := h.registry.recordFailure h.provider.id
  { h with
    registry := if h.provider.registry then recorded.1 else h.registry
    provider := { h.provider with
      protocolFailures := failures
      quarantined :=
        if quarantineThreshold ≤ failures then true
        else if h.provider.registry then recorded.2 else h.provider.quarantined } }

/-- The discovery an empty query asks for; its failures are local. Source: `plugin.rs`,
`PluginProvider::discover`. -/
def discover (h : PluginHost) (w : Attempt) : PluginHost × List Command :=
  match h.ensureRunning w with
  | (h, .error _) => (h, [])
  | (h, .ok ()) =>
      let h := h.send .discover (queryOutcome w.queryReply)
      match w.queryReply with
      | .ok commands => (h, commands)
      | .error _ => (h.dropHandle, [])

/-- The flags a query goes by: those of the registry when there is one, else the cached ones. -/
def queryRefused (h : PluginHost) : Bool :=
  if h.provider.registry then h.marks.quarantined || !h.marks.enabled
  else h.provider.disabled || h.provider.quarantined

/-- Source: `plugin.rs`, `query`. -/
def query (h : PluginHost) (text : String) (w : Attempt) : PluginHost × List Command :=
  if h.queryRefused then (h, [])
  else if text = "" then h.discover w
  else
    match h.ensureRunning w with
    | (h, .error e) =>
        ({ h with provider := { h.provider with lastQueryError := some e.text } }, [])
    | (h, .ok ()) =>
        let h := h.send (.query text) (queryOutcome w.queryReply)
        match w.queryReply with
        | .ok commands =>
            ({ h with provider := { h.provider with protocolFailures := 0 } }, commands)
        | .error e =>
            ({ h with provider := { h.provider with lastQueryError := some e.text } }
              |>.dropHandle.countFailure, [])

/-- Source: `plugin.rs`, `execute_action`. -/
def executeAction (h : PluginHost) (actionId : String) (input : Json) (executionId : String)
    (contextGeneration : ℕ) (w : Attempt) : PluginHost × Except (FailureClass × String) Json :=
  if h.provider.quarantined then (h, .error (.pluginUnavailable, "plugin quarantined"))
  else if h.provider.disabled then (h, .error (.pluginUnavailable, "plugin disabled"))
  else
    match h.ensureRunning w with
    | (h, .error (.spawn e)) => (h, .error (.pluginUnavailable, (PluginError.spawn e).text))
    | (h, .error e) => (h, .error (.protocolViolation, e.text))
    | (h, .ok ()) =>
        let h := h.send (.execute actionId input executionId contextGeneration)
          (executeOutcome w.executeReply)
        match w.executeReply with
        | .ok value => (h, .ok value)
        | .error e =>
            if e.isActionFailed then
              ({ h with
                  registry :=
                    if h.provider.registry then h.registry.recordSuccess h.provider.id
                    else h.registry
                  provider := { h.provider with protocolFailures := 0 } },
                .error (executeClass e, e.text))
            else (h.dropHandle.countFailure, .error (executeClass e, e.text))

/-! ## A call is at most one request -/

/-- The state after a call. -/
def call (h : PluginHost) : Call → PluginHost
  | .query text w => (h.query text w).1
  | .execute actionId input executionId generation w =>
      (h.executeAction actionId input executionId generation w).1

/-- Whether `ensureRunning` has a process in the end. -/
def starts (h : PluginHost) (w : Attempt) : Bool :=
  (h.provider.handle && w.running && !w.idleExpired) || w.spawn.isOk

/-- The request a call sends, and its outcome. -/
def request? (h : PluginHost) : Call → Option (RequestKind × Outcome)
  | .query text w =>
      if h.queryRefused || !h.starts w then none
      else some (if text = "" then .discover else .query text, queryOutcome w.queryReply)
  | .execute actionId input executionId generation w =>
      if h.provider.quarantined || h.provider.disabled || !h.starts w then none
      else some (.execute actionId input executionId generation, executeOutcome w.executeReply)

/-- The provider's own count starts again. -/
def resetCached (h : PluginHost) : PluginHost :=
  { h with provider := { h.provider with protocolFailures := 0 } }

/-- Both counts start again. -/
def resetBoth (h : PluginHost) : PluginHost :=
  { h.resetCached with
    registry :=
      if h.provider.registry then h.registry.recordSuccess h.provider.id else h.registry }

/-- What a request does to the counts: a discovery nothing; a query counts its failure and resets
the provider's own count; an execution counts its failure, resets both counts when the plugin
refuses the action, and does nothing when it succeeds. -/
def after (h : PluginHost) (kind : RequestKind) (outcome : Outcome) : PluginHost :=
  let h := h.send kind outcome
  match kind, outcome with
  | .discover, _ => h
  | .query _, .success => h.resetCached
  | _, .protocolFailure => h.countFailure
  | _, .businessFailure => h.resetBoth
  | .execute _ _ _ _, .success => h

/-- The state without the process and the last error. -/
def settle (h : PluginHost) : PluginHost :=
  { h with provider := { h.provider with handle := false, lastQueryError := none } }

/-- With or without a process, the state is the same otherwise. -/
def withHandle (h : PluginHost) (handle : Bool) : PluginHost :=
  { h with provider := { h.provider with handle := handle } }

theorem ensureRunning_of_starts {h : PluginHost} {w : Attempt} (hw : h.starts w = true) :
    h.ensureRunning w = (h.withHandle true, .ok ()) := by
  unfold starts at hw
  unfold ensureRunning
  by_cases hup : (h.provider.handle && w.running && !w.idleExpired) = true
  · rw [if_pos hup]
    have hhandle : h.provider.handle = true := by
      simp only [Bool.and_eq_true] at hup
      exact hup.1.1
    unfold withHandle
    rw [← hhandle]
  · rw [if_neg hup]
    rw [Bool.eq_false_iff.mpr hup, Bool.false_or] at hw
    cases hspawn : w.spawn with
    | ok u => rfl
    | error e =>
        rw [hspawn] at hw
        cases hw

theorem ensureRunning_of_not_starts {h : PluginHost} {w : Attempt} (hw : h.starts w = false) :
    ∃ e, h.ensureRunning w = (h.withHandle false, .error e) := by
  unfold starts at hw
  obtain ⟨hup, hspawn⟩ := Bool.or_eq_false_iff.mp hw
  unfold ensureRunning
  rw [hup]
  cases hs : w.spawn with
  | ok u =>
      rw [hs] at hspawn
      cases hspawn
  | error e => exact ⟨e, rfl⟩

theorem query_settle (h : PluginHost) (text : String) (w : Attempt) :
    (h.query text w).1.settle =
      (h.request? (.query text w)).elim h.settle fun r => (h.after r.1 r.2).settle := by
  by_cases hrefused : h.queryRefused = true
  · simp [query, request?, hrefused]
  by_cases hw : h.starts w = true
  · have hup := ensureRunning_of_starts hw
    by_cases htext : text = ""
    · cases hreply : w.queryReply <;>
        simp [query, request?, hrefused, hw, htext, discover, hup, hreply] <;> rfl
    · cases hreply : w.queryReply <;>
        simp [query, request?, hrefused, hw, htext, hup, hreply] <;> rfl
  · obtain ⟨e, hdown⟩ := ensureRunning_of_not_starts (Bool.eq_false_iff.mpr hw)
    by_cases htext : text = ""
    · simp [query, request?, hrefused, hw, htext, discover, hdown]
      rfl
    · simp [query, request?, hrefused, hw, htext, hdown]
      rfl

theorem executeAction_settle (h : PluginHost) (actionId : String) (input : Json)
    (executionId : String) (generation : ℕ) (w : Attempt) :
    (h.executeAction actionId input executionId generation w).1.settle =
      (h.request? (.execute actionId input executionId generation w)).elim h.settle fun r =>
        (h.after r.1 r.2).settle := by
  by_cases hquarantined : h.provider.quarantined = true
  · simp [executeAction, request?, hquarantined]
  by_cases hdisabled : h.provider.disabled = true
  · simp [executeAction, request?, hquarantined, hdisabled]
  by_cases hw : h.starts w = true
  · have hup := ensureRunning_of_starts hw
    cases hreply : w.executeReply with
    | ok value => simp [executeAction, request?, hquarantined, hdisabled, hw, hup, hreply]; rfl
    | error e =>
        by_cases he : e.isActionFailed = true
        · have hout : executeOutcome (.error e) = .businessFailure := if_pos he
          simp [executeAction, request?, hquarantined, hdisabled, hw, hup, hreply, he, hout]
          rfl
        · have hout : executeOutcome (.error e) = .protocolFailure := if_neg he
          simp [executeAction, request?, hquarantined, hdisabled, hw, hup, hreply, he, hout]
          rfl
  · obtain ⟨e, hdown⟩ := ensureRunning_of_not_starts (Bool.eq_false_iff.mpr hw)
    cases e <;> simp [executeAction, request?, hquarantined, hdisabled, hw, hdown] <;> rfl

/-- **A call is at most one request.** Up to the process and the last error, a call leaves the state
as it was, or as the request it sends leaves it. -/
theorem call_settle (h : PluginHost) (c : Call) :
    (h.call c).settle = (h.request? c).elim h.settle fun r => (h.after r.1 r.2).settle := by
  cases c with
  | query text w => exact h.query_settle text w
  | execute actionId input executionId generation w =>
      exact h.executeAction_settle actionId input executionId generation w

end PluginHost

end AuraLauncher.Plugin
