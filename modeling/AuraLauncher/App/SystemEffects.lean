import AuraLauncher.Agent.Loop
import AuraLauncher.Domain.System
import AuraLauncher.Mcp.Backend

/-!
# System effects

`launcher-action/src/lib.rs` and `system_adapter.rs`: a command on the system passes the policy, the
gate of confirmations and the check of its target, and then the Windows call is made; a probe asks
afterwards what became of a command. Between any two of these calls other programs may end
processes, start others under the same ids, and do the same with windows.

* `HandleEvent` — names that are given up and taken again.
* `Desktop`, `World` — the processes and windows, what others do with them before each call, and
  what was done to them.
* `SystemAuthorization`, `executeSystemEffect` — the token of a command that passed the gate, and
  the way of a command to the calls.
* `EffectOf`, `Recorded`, `Reused` — the effects of a command, those on what it recorded, and those
  on something that took over the name in the meantime.
* `Carried` — what a command does once it passed the gate; `went_windowHwnd` and
  `went_verifyProcessIdentity` have the checks.
* `systemRun_spec` — what a run of requests does to the system, and for which of them.
* `probeEffect`, `Found` — the probe, and what its answers stand for.
* `probe_spec` — what the probe tells of a run, and whether a command may be repeated on it.

The titles of windows and the log are not looked at, except that a log entry may check a window
again.
-/

namespace AuraLauncher.App

open AuraLauncher.Agent (CommandResult EffectState retryDecision)
open AuraLauncher.Domain
open AuraLauncher.Mcp (ActionError)

/-! ## Names that are reused -/

section handles

variable {κ ι : Type*}

/-- A name is taken for something new, or given up. -/
inductive HandleEvent (κ ι : Type*)
  | taken (k : κ) (i : ι)
  | freed (k : κ)
deriving DecidableEq

variable [DecidableEq κ]

/-- What has the names after an event; a name in use is not taken. -/
def HandleEvent.apply (f : κ → Option ι) : HandleEvent κ ι → κ → Option ι
  | .taken k i => fun k' => if k' = k ∧ f k = none then some i else f k'
  | .freed k => fun k' => if k' = k then none else f k'

/-- Who has a name now and had it not before took it. -/
theorem taken_mem {f : κ → Option ι} {es : List (HandleEvent κ ι)} {k : κ} {i : ι}
    (h : es.foldl HandleEvent.apply f k = some i) (hf : f k ≠ some i) : .taken k i ∈ es := by
  induction es generalizing f with
  | nil => exact absurd h hf
  | cons e es ih =>
      by_cases he : e.apply f k = some i
      · cases e with
        | freed k' =>
            simp only [HandleEvent.apply] at he
            split_ifs at he
            exact absurd he hf
        | taken k' j =>
            simp only [HandleEvent.apply] at he
            split_ifs at he with hk
            · obtain ⟨rfl, -⟩ := hk
              obtain rfl := Option.some.inj he
              exact List.mem_cons_self
            · exact absurd he hf
      · exact List.mem_cons_of_mem _ (ih h he)

/-- Who had a name and has it not now gave it up. -/
theorem freed_mem {f : κ → Option ι} {es : List (HandleEvent κ ι)} {k : κ} {i : ι}
    (hf : f k = some i) (h : es.foldl HandleEvent.apply f k ≠ some i) : .freed k ∈ es := by
  induction es generalizing f with
  | nil => exact absurd hf h
  | cons e es ih =>
      by_cases he : e.apply f k = some i
      · exact List.mem_cons_of_mem _ (ih he h)
      · cases e with
        | freed k' =>
            simp only [HandleEvent.apply] at he
            split_ifs at he with hk
            · subst hk
              exact List.mem_cons_self
            · exact absurd hf he
        | taken k' j =>
            simp only [HandleEvent.apply] at he
            split_ifs at he with hk
            · obtain ⟨rfl, hnone⟩ := hk
              rw [hf] at hnone
              cases hnone
            · exact absurd hf he

end handles

/-! ## The desktop -/

/-- Something that another program does with a process or a window. -/
inductive DesktopEvent
  | process (e : HandleEvent UInt32 Int64)
  | window (e : HandleEvent UInt64 UInt32)
deriving DecidableEq

/-- The processes that run, by their ids, with their creation times, and the windows that are there,
with the processes that own them. -/
structure Desktop where
  processes : UInt32 → Option Int64
  windows : UInt64 → Option UInt32

def Desktop.step (d : Desktop) : DesktopEvent → Desktop
  | .process e => { d with processes := e.apply d.processes }
  | .window e => { d with windows := e.apply d.windows }

/-- What happens to processes. -/
def DesktopEvent.process? : DesktopEvent → Option (HandleEvent UInt32 Int64)
  | .process e => some e
  | .window _ => none

/-- What happens to windows. -/
def DesktopEvent.window? : DesktopEvent → Option (HandleEvent UInt64 UInt32)
  | .process _ => none
  | .window e => some e

/-- The desktop after several events. -/
def Desktop.after (d : Desktop) (es : List DesktopEvent) : Desktop := es.foldl Desktop.step d

theorem Desktop.after_append (d : Desktop) (es es' : List DesktopEvent) :
    d.after (es ++ es') = (d.after es).after es' := List.foldl_append

theorem Desktop.processes_after (d : Desktop) (es : List DesktopEvent) :
    (d.after es).processes = (es.filterMap DesktopEvent.process?).foldl HandleEvent.apply
      d.processes := by
  induction es generalizing d with
  | nil => rfl
  | cons e es ih => cases e <;> exact ih _

theorem Desktop.windows_after (d : Desktop) (es : List DesktopEvent) :
    (d.after es).windows = (es.filterMap DesktopEvent.window?).foldl HandleEvent.apply
      d.windows := by
  induction es generalizing d with
  | nil => rfl
  | cons e es ih => cases e <;> exact ih _

/-- The calls on a window. -/
inductive WindowCall
  | show
  | restore
  | minimize
  | foreground
  | focus
  | close
deriving DecidableEq, Repr

/-- What was done to the system. -/
inductive SystemEffect
  /-- A process was ended, which had been created at that time. -/
  | terminated (pid : UInt32) (creationTimeFt : Int64)
  /-- A call on a window, which that process owned. -/
  | window (call : WindowCall) (hwnd : UInt64) (owner : UInt32)
  | power (operation : String)
  | opened (uri : String)
deriving DecidableEq, Repr

/-- The desktop after an effect: a process that is ended gives up its id. -/
def Desktop.undergo (d : Desktop) : SystemEffect → Desktop
  | .terminated pid _ => d.step (.process (.freed pid))
  | _ => d

/-- Effects only end processes. -/
theorem Desktop.processes_undergo {d : Desktop} {effects : List SystemEffect} {pid : UInt32}
    {ft : Int64} (h : (effects.foldl Desktop.undergo d).processes pid = some ft) :
    d.processes pid = some ft ∧ ∀ ft', .terminated pid ft' ∉ effects := by
  induction effects generalizing d with
  | nil => exact ⟨h, fun _ => List.not_mem_nil⟩
  | cons e es ih =>
      obtain ⟨hd, hes⟩ := ih h
      cases e with
      | terminated pid' _ =>
          simp only [Desktop.undergo, Desktop.step, HandleEvent.apply] at hd
          split_ifs at hd with hpid
          refine ⟨hd, fun ft' hmem => ?_⟩
          rcases List.mem_cons.mp hmem with heq | hmem
          · exact hpid (SystemEffect.terminated.inj heq).1
          · exact hes ft' hmem
      | _ => exact ⟨hd, fun ft' hmem => hes ft' ((List.mem_cons.mp hmem).resolve_left nofun)⟩

/-- Effects on windows leave the desktop as it is; what a window does about a call is up to its
program. -/
theorem Desktop.undergo_windows {effects : List SystemEffect} {d : Desktop}
    (h : ∀ e ∈ effects, ∃ call hwnd owner, e = .window call hwnd owner) :
    effects.foldl Desktop.undergo d = d := by
  induction effects with
  | nil => rfl
  | cons e es ih =>
      obtain ⟨call, hwnd, owner, rfl⟩ := h e List.mem_cons_self
      exact ih fun e he => h e (List.mem_cons_of_mem _ he)

/-- What happens before a call of the system, and what the system answers it where it has a
choice. -/
structure Turn where
  events : List DesktopEvent
  answer : Bool

/-- The desktop, the turns of the calls to come, and what was done. -/
structure World where
  desktop : Desktop
  turns : List Turn
  done : List SystemEffect

namespace World

/-- One turn; without one nothing happens, and the system does what it is asked. -/
def turn (w : World) : Bool × World :=
  match w.turns with
  | [] => (true, w)
  | t :: ts =>
      (t.answer, { w with desktop := w.desktop.after t.events, turns := ts })

/-- `OpenProcess`: the process that has the id. -/
def openProcess (pid : UInt32) (w : World) : Option (UInt32 × Int64) × World :=
  let (answer, w) := w.turn
  (if answer then (w.desktop.processes pid).map fun ft => (pid, ft) else none, w)

/-- `GetProcessTimes`: the creation time. -/
def getProcessTimes (handle : UInt32 × Int64) (w : World) : Option Int64 × World :=
  let (answer, w) := w.turn
  (if answer then some handle.2 else none, w)

/-- `TerminateProcess`. -/
def terminateProcess (handle : UInt32 × Int64) (w : World) : Bool × World :=
  let (answer, w) := w.turn
  if answer ∧ w.desktop.processes handle.1 = some handle.2 then
    (true,
      { w with
        desktop := w.desktop.step (.process (.freed handle.1))
        done := w.done ++ [.terminated handle.1 handle.2] })
  else (false, w)

/-- `IsWindow`. -/
def isWindow (hwnd : UInt64) (w : World) : Bool × World :=
  let (_, w) := w.turn
  ((w.desktop.windows hwnd).isSome, w)

/-- `GetWindowThreadProcessId`, into a variable that is zero. -/
def windowPid (hwnd : UInt64) (w : World) : UInt32 × World :=
  let (_, w) := w.turn
  ((w.desktop.windows hwnd).getD 0, w)

/-- `IsIconic`. -/
def isIconic (hwnd : UInt64) (w : World) : Bool × World :=
  let (answer, w) := w.turn
  (answer && (w.desktop.windows hwnd).isSome, w)

/-- `ShowWindow`, `SetForegroundWindow`, `SetFocus` and `PostMessageW`. -/
def windowCall (call : WindowCall) (hwnd : UInt64) (w : World) : World :=
  let (answer, w) := w.turn
  match w.desktop.windows hwnd with
  | some owner => if answer then { w with done := w.done ++ [.window call hwnd owner] } else w
  | none => w

/-- A call on the whole system. -/
def systemCall (effect : SystemEffect) (w : World) : Bool × World :=
  let (answer, w) := w.turn
  if answer then (true, { w with done := w.done ++ [effect] }) else (false, w)

end World

/-! ## The adapter -/

/-- Source: `system_adapter.rs`, `verify_process_identity`. -/
def verifyProcessIdentity (pid : UInt32) (creationTimeFt : Option Int64) (w : World) :
    Except ActionError Unit × World :=
  if pid = 0 then (.error .unsupported, w)
  else
    match w.openProcess pid with
    | (none, w) => (.error .staleTarget, w)
    | (some handle, w) =>
        match w.getProcessTimes handle with
        | (none, w) => (.error .staleTarget, w)
        | (some actual, w) =>
            match creationTimeFt with
            | none => (.ok (), w)
            | some expected => if actual ≠ expected then (.error .staleTarget, w) else (.ok (), w)

/-- Source: `isize::MAX` of 64 bits. -/
def isizeMax : UInt64 := 9223372036854775807

/-- Source: `system_adapter.rs`, `verify_window_identity`. -/
def verifyWindowIdentity (hwnd : UInt64) (expectedPid : Option UInt32) (w : World) :
    Except ActionError Unit × World :=
  if hwnd = 0 ∨ isizeMax < hwnd then (.error .unsupported, w)
  else
    match w.isWindow hwnd with
    | (false, w) => (.error .staleTarget, w)
    | (true, w) =>
        match expectedPid with
        | none => (.ok (), w)
        | some expected =>
            match w.windowPid hwnd with
            | (pid, w) => if pid ≠ expected then (.error .staleTarget, w) else (.ok (), w)

/-- Source: `system_adapter.rs`, `window_target` and `window_hwnd`. -/
def windowHwnd (cmd : SystemCommand) (w : World) : Except ActionError UInt64 × World :=
  match cmd.target with
  | .window hwnd _ pid =>
      match verifyWindowIdentity hwnd pid w with
      | (.error e, w) => (.error e, w)
      | (.ok (), w) => (.ok hwnd, w)
  | _ => (.error .unsupported, w)

/-- Source: `system_adapter.rs`, `window_focus`. -/
def windowFocus (cmd : SystemCommand) (w : World) : Except ActionError String × World :=
  match windowHwnd cmd w with
  | (.error e, w) => (.error e, w)
  | (.ok hwnd, w) =>
      match w.isIconic hwnd with
      | (iconic, w) =>
          let w := w.windowCall (if iconic then .restore else .show) hwnd
          let w := w.windowCall .foreground hwnd
          let w := w.windowCall .focus hwnd
          (.ok "window.focus", w)

/-- A window is shown in another way; the entry for the log checks it again, if the log takes
entries of its level. Source: `system_adapter.rs`, `window_show_minimize` and
`window_show_restore`. -/
def windowShow (call : WindowCall) (name : String) (logs : Bool) (cmd : SystemCommand) (w : World) :
    Except ActionError String × World :=
  match windowHwnd cmd w with
  | (.error e, w) => (.error e, w)
  | (.ok hwnd, w) =>
      let w := w.windowCall call hwnd
      if logs then
        match windowHwnd cmd w with
        | (.error e, w) => (.error e, w)
        | (.ok _, w) => (.ok name, w)
      else (.ok name, w)

/-- Source: `system_adapter.rs`, `window_show_minimize`. -/
def windowShowMinimize (logs : Bool) : SystemCommand → World → Except ActionError String × World :=
  windowShow .minimize "window.minimize" logs

/-- Source: `system_adapter.rs`, `window_show_restore`. -/
def windowShowRestore (logs : Bool) : SystemCommand → World → Except ActionError String × World :=
  windowShow .restore "window.restore" logs

/-- Source: `system_adapter.rs`, `window_close`. -/
def windowClose (cmd : SystemCommand) (w : World) : Except ActionError String × World :=
  match windowHwnd cmd w with
  | (.error e, w) => (.error e, w)
  | (.ok hwnd, w) => (.ok "window.close", w.windowCall .close hwnd)

/-- Source: `system_adapter.rs`, `process_kill`. -/
def processKill (cmd : SystemCommand) (w : World) : Except ActionError String × World :=
  match cmd.target with
  | .process pid _ creationTimeFt =>
      match verifyProcessIdentity pid creationTimeFt w with
      | (.error e, w) => (.error e, w)
      | (.ok (), w) =>
          match w.openProcess pid with
          | (none, w) => (.error .unsupported, w)
          | (some handle, w) =>
              match w.terminateProcess handle with
              | (false, w) => (.error .unsupported, w)
              | (true, w) => (.ok "process.kill", w)
  | _ => (.error .unsupported, w)

/-- One call for the whole system. Source: `system_adapter.rs`, `power_lock`, `power_sleep`,
`power_restart` and `power_shutdown`. -/
def powerCall (operation : String) (w : World) : Except ActionError String × World :=
  match w.systemCall (.power operation) with
  | (false, w) => (.error .unsupported, w)
  | (true, w) => (.ok ("power." ++ operation), w)

/-- The characters of a scheme. -/
def isSchemeChar (c : Char) : Bool := c.isAlphanum || c == '+' || c == '-' || c == '.'

/-- Source: `system_adapter.rs`, `open_uri` (`scheme_ok`). -/
def schemeOk (scheme : String) : Bool :=
  !scheme.isEmpty && decide (scheme.utf8ByteSize ≤ 32) && scheme.toList.all isSchemeChar &&
    scheme.toList.head?.any Char.isAlphanum

/-- Source: `system_adapter.rs`, `open_uri`. -/
def openUri (cmd : SystemCommand) (w : World) : Except ActionError String × World :=
  match cmd.target with
  | .uri scheme =>
      if !schemeOk scheme then (.error .unsupported, w)
      else
        let uri := scheme ++ ":"
        match w.systemCall (.opened uri) with
        | (false, w) => (.error .unsupported, w)
        | (true, w) => (.ok ("uri.open:" ++ uri), w)
  | _ => (.error .unsupported, w)

/-- What the token remembers of the decision. Source: `launcher-action/src/lib.rs`,
`SystemAuthorizationAudit`. -/
structure SystemAuthorizationAudit where
  origin : String
  risk : SystemRisk
  policyApproved : Bool
  confirmationConfirmed : Bool
  mintedAtMs : Int64

/-- The token of a command that passed the gate. Source: `launcher-action/src/lib.rs`,
`SystemAuthorization`. -/
structure SystemAuthorization where
  cmd : SystemCommand
  audit : SystemAuthorizationAudit
  /-- The command is valid. -/
  valid : cmd.validate = .ok ()
  /-- It was confirmed if it has to be. -/
  confirmed : cmd.risk.requiresConfirmation = true → audit.confirmationConfirmed = true

/-- Source: `system_adapter.rs`, `execute_authorized`. -/
def executeAuthorized (logs : Bool) (auth : SystemAuthorization) (w : World) :
    Except ActionError String × World :=
  match auth.cmd.capability, auth.cmd.operation with
  | .window, "focus" => windowFocus auth.cmd w
  | .window, "minimize" => windowShowMinimize logs auth.cmd w
  | .window, "restore" => windowShowRestore logs auth.cmd w
  | .window, "close" => windowClose auth.cmd w
  | .process, "kill" | .process, "terminate" => processKill auth.cmd w
  | .power, "lock" => powerCall "lock" w
  | .power, "sleep" => powerCall "sleep" w
  | .power, "restart" => powerCall "restart" w
  | .power, "shutdown" => powerCall "shutdown" w
  | .uri, "open_uri" | .shell, "open_uri" => openUri auth.cmd w
  | _, _ => (.error .unsupported, w)

/-- Source: `launcher-action/src/lib.rs`, `authorize_system_command`. -/
def authorizeSystemCommand (cmd : SystemCommand) (confirmed : Bool) (nowMs : Int64) :
    Except ActionError SystemAuthorization :=
  if hvalid : cmd.validate = .ok () then
    if hgate : cmd.risk.requiresConfirmation = true ∧ confirmed = false then
      .error .confirmationRequired
    else
      .ok
        { cmd
          audit :=
            { origin := cmd.origin
              risk := cmd.risk
              policyApproved := true
              confirmationConfirmed := confirmed
              mintedAtMs := nowMs }
          valid := hvalid
          confirmed := fun hrisk => by
            cases confirmed with
            | true => rfl
            | false => exact absurd ⟨hrisk, rfl⟩ hgate }
  else .error .unsupported

/-- Source: `launcher-action/src/lib.rs`, `execute_system_effect`. -/
def executeSystemEffect (resolver : SystemResolver) (logs : Bool) (cmd : SystemCommand)
    (confirmed : Bool) (nowMs : Int64) (w : World) : Except ActionError String × World :=
  match resolver.resolve cmd with
  | .error _ => (.error .unsupported, w)
  | .ok resolution =>
      if !resolution.approvedByPolicy then (.error .unsupported, w)
      else
        match authorizeSystemCommand cmd confirmed nowMs with
        | .error e => (.error e, w)
        | .ok auth => executeAuthorized logs auth w

/-! ## What the calls do -/

/-- The process that is ended, or the window of a call, is the one that the desktop has. -/
def SystemEffect.On (d : Desktop) : SystemEffect → Prop
  | .terminated pid creationTimeFt => d.processes pid = some creationTimeFt
  | .window _ hwnd owner => d.windows hwnd = some owner
  | _ => True

/-- On the way from one world to another these events happened and these effects were done, each
on what was there at the time. -/
structure Went (w w' : World) (events : List DesktopEvent) (effects : List SystemEffect) :
    Prop where
  turns : ∃ used, w.turns = used ++ w'.turns ∧ used.flatMap Turn.events = events
  desktop : w'.desktop = w.desktop.after events
  done : w'.done = w.done ++ effects
  on : ∀ e ∈ effects, ∃ before, before <+: events ∧ e.On (w.desktop.after before)

namespace Went

theorem refl (w : World) : Went w w [] [] :=
  ⟨⟨[], rfl, rfl⟩, rfl, (List.append_nil _).symm, fun _ h => absurd h List.not_mem_nil⟩

theorem trans {w w' w'' : World} {events events' : List DesktopEvent}
    {effects effects' : List SystemEffect} (h : Went w w' events effects)
    (h' : Went w' w'' events' effects') :
    Went w w'' (events ++ events') (effects ++ effects') := by
  obtain ⟨used, hturns, rfl⟩ := h.turns
  obtain ⟨used', hturns', rfl⟩ := h'.turns
  refine ⟨⟨used ++ used', ?_, List.flatMap_append⟩, ?_, ?_, fun e he => ?_⟩
  · rw [hturns, hturns', List.append_assoc]
  · rw [h'.desktop, h.desktop, Desktop.after_append]
  · rw [h'.done, h.done, List.append_assoc]
  · rcases List.mem_append.mp he with he | he
    · obtain ⟨before, hbefore, hon⟩ := h.on e he
      exact ⟨before, hbefore.trans (List.prefix_append _ _), hon⟩
    · obtain ⟨before, hbefore, hon⟩ := h'.on e he
      refine ⟨_, (List.prefix_append_right_inj _).mpr hbefore, ?_⟩
      rwa [Desktop.after_append, ← h.desktop]

end Went

namespace World

theorem went_turn (w : World) : ∃ events, Went w w.turn.2 events [] := by
  unfold turn
  cases hturns : w.turns with
  | nil => exact ⟨[], Went.refl w⟩
  | cons t ts =>
      refine ⟨t.events, ⟨⟨[t], hturns, List.append_nil _⟩, rfl, (List.append_nil _).symm,
        fun _ h => absurd h List.not_mem_nil⟩⟩

/-- A call that only asks. -/
theorem went_openProcess (pid : UInt32) (w : World) :
    ∃ events, Went w (w.openProcess pid).2 events [] ∧
      ∀ handle, (w.openProcess pid).1 = some handle →
        handle.1 = pid ∧ (w.openProcess pid).2.desktop.processes pid = some handle.2 := by
  obtain ⟨events, h⟩ := w.went_turn
  refine ⟨events, h, fun handle hopen => ?_⟩
  simp only [openProcess] at hopen ⊢
  split_ifs at hopen with hanswer
  obtain ⟨ft, hft, rfl⟩ := Option.map_eq_some_iff.mp hopen
  exact ⟨rfl, hft⟩

theorem went_getProcessTimes (handle : UInt32 × Int64) (w : World) :
    ∃ events, Went w (w.getProcessTimes handle).2 events [] ∧
      ∀ ft, (w.getProcessTimes handle).1 = some ft → ft = handle.2 := by
  obtain ⟨events, h⟩ := w.went_turn
  refine ⟨events, h, fun ft hft => ?_⟩
  simp only [getProcessTimes] at hft
  split_ifs at hft
  exact (Option.some.inj hft).symm

theorem went_isWindow (hwnd : UInt64) (w : World) :
    ∃ events, Went w (w.isWindow hwnd).2 events [] ∧
      ((w.isWindow hwnd).1 = true → ∃ o, (w.isWindow hwnd).2.desktop.windows hwnd = some o) := by
  obtain ⟨events, h⟩ := w.went_turn
  exact ⟨events, h, Option.isSome_iff_exists.mp⟩

theorem went_windowPid (hwnd : UInt64) (w : World) :
    ∃ events, Went w (w.windowPid hwnd).2 events [] ∧
      (w.windowPid hwnd).1 = ((w.windowPid hwnd).2.desktop.windows hwnd).getD 0 := by
  obtain ⟨events, h⟩ := w.went_turn
  exact ⟨events, h, rfl⟩

theorem went_isIconic (hwnd : UInt64) (w : World) :
    ∃ events, Went w (w.isIconic hwnd).2 events [] := w.went_turn

/-- A call on a window does it to the window that is there, or nothing. -/
theorem went_windowCall (call : WindowCall) (hwnd : UInt64) (w : World) :
    ∃ events effects, Went w (w.windowCall call hwnd) events effects ∧
      ∀ e ∈ effects, ∃ owner, e = .window call hwnd owner := by
  obtain ⟨events, h⟩ := w.went_turn
  have hnone : ∀ e ∈ ([] : List SystemEffect), ∃ owner, e = .window call hwnd owner :=
    fun _ he => absurd he List.not_mem_nil
  simp only [windowCall]
  cases howner : w.turn.2.desktop.windows hwnd with
  | none => exact ⟨events, [], h, hnone⟩
  | some owner =>
      split_ifs with hanswer
      · refine ⟨events, [.window call hwnd owner], ⟨h.turns, h.desktop, ?_, fun e he => ?_⟩,
          fun e he => ⟨owner, List.mem_singleton.mp he⟩⟩
        · simp [h.done]
        · obtain rfl := List.mem_singleton.mp he
          exact ⟨events, List.prefix_rfl, h.desktop ▸ howner⟩
      · exact ⟨events, [], h, hnone⟩

/-- A call on the whole system answers whether it was done. -/
theorem went_systemCall {effect : SystemEffect} (hon : ∀ d, effect.On d) (w : World) :
    ∃ events, Went w (w.systemCall effect).2 events
      (if (w.systemCall effect).1 then [effect] else []) := by
  obtain ⟨events, h⟩ := w.went_turn
  refine ⟨events, ?_⟩
  simp only [systemCall]
  by_cases hanswer : w.turn.1 = true
  · simp only [if_pos hanswer]
    refine ⟨h.turns, h.desktop, ?_, fun e he => ?_⟩
    · simp [h.done]
    · obtain rfl := List.mem_singleton.mp he
      exact ⟨[], List.nil_prefix, hon _⟩
  · simp only [if_neg hanswer]
    exact h

end World

/-! ## What the commands do -/

/-- The effects of the operation of a command, on what the command names. -/
def EffectOf (cmd : SystemCommand) : SystemEffect → Prop
  | .terminated pid _ =>
      cmd.capability = .process ∧ (cmd.operation = "kill" ∨ cmd.operation = "terminate") ∧
        ∃ name creationTimeFt, cmd.target = .process pid name creationTimeFt
  | .window call hwnd _ =>
      cmd.capability = .window ∧
        (cmd.operation = "focus" ∧ call ∈ [.restore, .show, .foreground, .focus] ∨
          cmd.operation = "minimize" ∧ call = .minimize ∨
          cmd.operation = "restore" ∧ call = .restore ∨
          cmd.operation = "close" ∧ call = .close) ∧
        ∃ title pid, cmd.target = .window hwnd title pid
  | .power operation => cmd.capability = .power ∧ cmd.operation = operation
  | .opened uri =>
      (cmd.capability = .uri ∨ cmd.capability = .shell) ∧ cmd.operation = "open_uri" ∧
        ∃ scheme, cmd.target = .uri scheme ∧ schemeOk scheme = true ∧ uri = scheme ++ ":"

/-- The effect is on the process or window that the command recorded, if it recorded one. -/
def Recorded (cmd : SystemCommand) : SystemEffect → Prop
  | .terminated _ creationTimeFt =>
      ∀ pid name expected, cmd.target = .process pid name (some expected) →
        creationTimeFt = expected
  | .window _ _ owner =>
      ∀ hwnd title expected, cmd.target = .window hwnd title (some expected) → owner = expected
  | _ => True

/-- The process or window that the effect is on came to its name while these events happened, and
another gave the name up. -/
def Reused (events : List DesktopEvent) : SystemEffect → Prop
  | .terminated pid creationTimeFt =>
      .process (.freed pid) ∈ events ∧ .process (.taken pid creationTimeFt) ∈ events
  | .window _ hwnd owner =>
      .window (.freed hwnd) ∈ events ∧ .window (.taken hwnd owner) ∈ events
  | _ => False

/-- While these events happened the target was seen to be what was recorded. Of a window the first
look is whether it is there. -/
def Seen (cmd : SystemCommand) (d : Desktop) (events : List DesktopEvent) : Prop :=
  match cmd.target with
  | .process pid _ (some expected) =>
      ∃ before, before <+: events ∧ (d.after before).processes pid = some expected
  | .window hwnd _ (some expected) =>
      ∃ before later, before <+: later ∧ later <+: events ∧
        (∃ owner, (d.after before).windows hwnd = some owner) ∧
        ((d.after later).windows hwnd).getD 0 = expected
  | _ => True

/-! ### The checks of the targets -/

theorem went_verifyProcessIdentity (pid : UInt32) (creationTimeFt : Option Int64) (w : World) :
    ∃ events, Went w (verifyProcessIdentity pid creationTimeFt w).2 events [] ∧
      ((verifyProcessIdentity pid creationTimeFt w).1 = .ok () →
        ∀ expected, creationTimeFt = some expected →
          ∃ before, before <+: events ∧
            (w.desktop.after before).processes pid = some expected) := by
  unfold verifyProcessIdentity
  split_ifs with hzero
  · exact ⟨[], Went.refl w, fun h => by cases h⟩
  obtain ⟨opening, hopening, hopened⟩ := w.went_openProcess pid
  cases hopen : w.openProcess pid with
  | mk handle w₁ =>
      rw [hopen] at hopening hopened
      cases handle with
      | none => exact ⟨opening, hopening, fun h => by cases h⟩
      | some handle =>
          obtain ⟨rfl, hhandle⟩ := hopened handle rfl
          dsimp only
          obtain ⟨reading, hreading, hread⟩ := w₁.went_getProcessTimes handle
          cases htimes : w₁.getProcessTimes handle with
          | mk times w₂ =>
              rw [htimes] at hreading hread
              have hboth : Went w w₂ (opening ++ reading) [] := hopening.trans hreading
              cases times with
              | none => exact ⟨_, hboth, fun h => by cases h⟩
              | some actual =>
                  obtain rfl := hread actual rfl
                  dsimp only
                  cases creationTimeFt with
                  | none => exact ⟨_, hboth, fun _ expected h => by cases h⟩
                  | some expected =>
                      by_cases hne : handle.2 ≠ expected
                      · simp only [if_pos hne]
                        exact ⟨_, hboth, fun h => by cases h⟩
                      · simp only [if_neg hne]
                        refine ⟨_, hboth, fun _ e he => ⟨opening, List.prefix_append _ _, ?_⟩⟩
                        rw [← Option.some.inj he, ← not_not.mp hne, ← hopening.desktop]
                        exact hhandle

theorem went_verifyWindowIdentity (hwnd : UInt64) (expectedPid : Option UInt32) (w : World) :
    ∃ events, Went w (verifyWindowIdentity hwnd expectedPid w).2 events [] ∧
      ((verifyWindowIdentity hwnd expectedPid w).1 = .ok () →
        ∀ expected, expectedPid = some expected →
          ∃ before later, before <+: later ∧ later <+: events ∧
            (∃ owner, (w.desktop.after before).windows hwnd = some owner) ∧
            ((w.desktop.after later).windows hwnd).getD 0 = expected) := by
  unfold verifyWindowIdentity
  split_ifs with hrange
  · exact ⟨[], Went.refl w, fun h => by cases h⟩
  obtain ⟨asking, hasking, hthere⟩ := w.went_isWindow hwnd
  cases hask : w.isWindow hwnd with
  | mk there w₁ =>
      rw [hask] at hasking hthere
      cases there with
      | false => exact ⟨asking, hasking, fun h => by cases h⟩
      | true =>
          cases expectedPid with
          | none => exact ⟨asking, hasking, fun _ expected h => by cases h⟩
          | some expected =>
              dsimp only
              obtain ⟨reading, hreading, hread⟩ := w₁.went_windowPid hwnd
              cases hpid : w₁.windowPid hwnd with
              | mk pid w₂ =>
                  rw [hpid] at hreading hread
                  have hboth : Went w w₂ (asking ++ reading) [] := hasking.trans hreading
                  simp only at hread ⊢
                  split_ifs with hne
                  · exact ⟨_, hboth, fun h => by cases h⟩
                  · refine ⟨_, hboth, fun _ e he => ⟨asking, asking ++ reading,
                      List.prefix_append _ _, List.prefix_rfl, ?_, ?_⟩⟩
                    · rw [← hasking.desktop]
                      exact hthere rfl
                    · rw [← hboth.desktop, ← hread, not_not.mp hne]
                      exact Option.some.inj he

/-- The window that a command names, once it was checked. -/
theorem went_windowHwnd (cmd : SystemCommand) (w : World) :
    ∃ events, Went w (windowHwnd cmd w).2 events [] ∧
      ∀ hwnd, (windowHwnd cmd w).1 = .ok hwnd →
        (∃ title pid, cmd.target = .window hwnd title pid) ∧ Seen cmd w.desktop events := by
  unfold windowHwnd Seen
  cases cmd.target with
  | window hwnd title pid =>
      obtain ⟨events, hwent, hseen⟩ := went_verifyWindowIdentity hwnd pid w
      refine ⟨events, ?_⟩
      dsimp only
      cases hverify : verifyWindowIdentity hwnd pid w with
      | mk answer w₁ =>
          rw [hverify] at hwent hseen
          cases answer with
          | error e => exact ⟨hwent, fun _ h => by cases h⟩
          | ok u =>
              refine ⟨hwent, fun hwnd' h => ?_⟩
              obtain rfl := Except.ok.inj h
              refine ⟨⟨title, pid, rfl⟩, ?_⟩
              cases pid with
              | none => trivial
              | some expected => exact hseen rfl expected rfl
  | _ => exact ⟨[], Went.refl w, fun _ h => by cases h⟩

/-! ### The identity of what is hit -/

theorem process_mem {es : List DesktopEvent} {e : HandleEvent UInt32 Int64}
    (h : e ∈ es.filterMap DesktopEvent.process?) : .process e ∈ es := by
  obtain ⟨event, hevent, he⟩ := List.mem_filterMap.mp h
  cases event with
  | process e' => exact Option.some.inj he ▸ hevent
  | window e' => cases he

theorem window_mem {es : List DesktopEvent} {e : HandleEvent UInt64 UInt32}
    (h : e ∈ es.filterMap DesktopEvent.window?) : .window e ∈ es := by
  obtain ⟨event, hevent, he⟩ := List.mem_filterMap.mp h
  cases event with
  | process e' => cases he
  | window e' => exact Option.some.inj he ▸ hevent

/-- A process that has an id and had it not before took it in the meantime. -/
theorem process_taken {d : Desktop} {before es : List DesktopEvent} {pid : UInt32} {ft : Int64}
    (hpart : before <+: es) (hbefore : (d.after before).processes pid ≠ some ft)
    (h : (d.after es).processes pid = some ft) : .process (.taken pid ft) ∈ es := by
  obtain ⟨rest, rfl⟩ := hpart
  rw [Desktop.after_append, Desktop.processes_after] at h
  exact List.mem_append_right _ (process_mem (taken_mem h hbefore))

/-- A process that had an id and has it no longer gave it up in the meantime. -/
theorem process_freed {d : Desktop} {before es : List DesktopEvent} {pid : UInt32} {ft : Int64}
    (hpart : before <+: es) (hbefore : (d.after before).processes pid = some ft)
    (h : (d.after es).processes pid ≠ some ft) : .process (.freed pid) ∈ es := by
  obtain ⟨rest, rfl⟩ := hpart
  rw [Desktop.after_append, Desktop.processes_after] at h
  exact List.mem_append_right _ (process_mem (freed_mem hbefore h))

theorem window_taken {d : Desktop} {before es : List DesktopEvent} {hwnd : UInt64}
    {owner : UInt32} (hpart : before <+: es)
    (hbefore : (d.after before).windows hwnd ≠ some owner)
    (h : (d.after es).windows hwnd = some owner) : .window (.taken hwnd owner) ∈ es := by
  obtain ⟨rest, rfl⟩ := hpart
  rw [Desktop.after_append, Desktop.windows_after] at h
  exact List.mem_append_right _ (window_mem (taken_mem h hbefore))

theorem window_freed {d : Desktop} {before es : List DesktopEvent} {hwnd : UInt64}
    {owner : UInt32} (hpart : before <+: es)
    (hbefore : (d.after before).windows hwnd = some owner)
    (h : (d.after es).windows hwnd ≠ some owner) : .window (.freed hwnd) ∈ es := by
  obtain ⟨rest, rfl⟩ := hpart
  rw [Desktop.after_append, Desktop.windows_after] at h
  exact List.mem_append_right _ (window_mem (freed_mem hbefore h))

theorem Reused.mono {events events' : List DesktopEvent} (h : events ⊆ events') {e : SystemEffect}
    (hreused : Reused events e) : Reused events' e := by
  cases e with
  | terminated pid ft => exact ⟨h hreused.1, h hreused.2⟩
  | window call hwnd owner => exact ⟨h hreused.1, h hreused.2⟩
  | power operation => exact hreused.elim
  | opened uri => exact hreused.elim

/-- A process that has the id of another one took it over. -/
theorem process_reused {d : Desktop} {before es : List DesktopEvent} {pid : UInt32}
    {ft expected : Int64} (hpart : before <+: es)
    (hbefore : (d.after before).processes pid = some expected)
    (h : (d.after es).processes pid = some ft) (hne : ft ≠ expected) :
    .process (.freed pid) ∈ es ∧ .process (.taken pid ft) ∈ es := by
  have hchanged : some ft ≠ some expected := fun heq => hne (Option.some.inj heq)
  refine ⟨process_freed hpart hbefore ?_, process_taken hpart ?_ h⟩
  · rw [h]
    exact hchanged
  · rw [hbefore]
    exact hchanged.symm

/-- A window of another process took the handle over from a window that was there, also if that
was gone when its owner was asked for. -/
theorem window_reused {d : Desktop} {before second es : List DesktopEvent} {hwnd : UInt64}
    {first expected owner : UInt32} (hbefore : before <+: second) (hpart : second <+: es)
    (hfirst : (d.after before).windows hwnd = some first)
    (hthen : ((d.after second).windows hwnd).getD 0 = expected)
    (h : (d.after es).windows hwnd = some owner) (hne : owner ≠ expected) :
    .window (.freed hwnd) ∈ es ∧ .window (.taken hwnd owner) ∈ es := by
  have hother : (d.after second).windows hwnd ≠ some owner := fun heq => by
    rw [heq] at hthen
    exact hne hthen
  refine ⟨?_, window_taken hpart hother h⟩
  by_cases hkept : (d.after second).windows hwnd = some first
  · refine window_freed hpart hkept fun hsame => hother ?_
    rw [hkept, ← hsame, h]
  · exact hpart.subset (window_freed hbefore hfirst hkept)

/-- **What is hit after the check** is what was recorded, or has the name since then. -/
theorem recorded_or_reused {cmd : SystemCommand} {d : Desktop} {checked later : List DesktopEvent}
    (hseen : Seen cmd d checked) (hlater : checked <+: later) {e : SystemEffect}
    (heffect : EffectOf cmd e) (hon : e.On (d.after later)) :
    Recorded cmd e ∨ Reused later e := by
  cases e with
  | terminated pid ft =>
      obtain ⟨-, -, name, expected, htarget⟩ := heffect
      simp only [Seen, Recorded, htarget] at hseen ⊢
      cases expected with
      | none => exact .inl fun _ _ _ h => by cases h
      | some expected =>
          obtain ⟨before, hbefore, hwas⟩ := hseen
          by_cases heq : ft = expected
          · refine .inl fun _ _ _ h => ?_
            obtain ⟨-, -, hexpected⟩ := SystemTarget.process.inj h
            exact heq.trans (Option.some.inj hexpected)
          · exact .inr (process_reused (hbefore.trans hlater) hwas hon heq)
  | window call hwnd owner =>
      obtain ⟨-, -, title, expected, htarget⟩ := heffect
      simp only [Seen, Recorded, htarget] at hseen ⊢
      cases expected with
      | none => exact .inl fun _ _ _ h => by cases h
      | some expected =>
          obtain ⟨before, second, hbefore, hsecond, ⟨first, hfirst⟩, hthen⟩ := hseen
          by_cases heq : owner = expected
          · refine .inl fun _ _ _ h => ?_
            obtain ⟨-, -, hexpected⟩ := SystemTarget.window.inj h
            exact heq.trans (Option.some.inj hexpected)
          · exact .inr (window_reused hbefore (hsecond.trans hlater) hfirst hthen hon heq)
  | power operation => exact .inl trivial
  | opened uri => exact .inl trivial

/-- A target that was seen stays what it was seen to be for the events that follow. -/
theorem Went.recorded_or_reused {cmd : SystemCommand} {w w₁ w' : World}
    {checked rest : List DesktopEvent} {effects : List SystemEffect}
    (hcheck : Went w w₁ checked []) (hseen : Seen cmd w.desktop checked)
    (hrest : Went w₁ w' rest effects) {e : SystemEffect} (he : e ∈ effects)
    (heffect : EffectOf cmd e) : Recorded cmd e ∨ Reused (checked ++ rest) e := by
  obtain ⟨before, hbefore, hon⟩ := hrest.on e he
  rw [hcheck.desktop, ← Desktop.after_append] at hon
  refine (App.recorded_or_reused hseen (List.prefix_append _ _) heffect hon).imp_right ?_
  exact Reused.mono ((List.prefix_append_right_inj _).mpr hbefore).subset

/-! ### Commands that passed the gate -/

/-- What a command did: only effects of its operation on its target, each on what was recorded
unless the name was reused while it was carried out. Of a command that is on no window the answer
says whether something was done. -/
def Carried (cmd : SystemCommand) (w : World) (r : Except ActionError String × World) : Prop :=
  ∃ used effects, w.turns = used ++ r.2.turns ∧ r.2.done = w.done ++ effects ∧
    r.2.desktop = effects.foldl Desktop.undergo (w.desktop.after (used.flatMap Turn.events)) ∧
    (∀ e ∈ effects, EffectOf cmd e ∧
      (Recorded cmd e ∨ Reused (used.flatMap Turn.events) e)) ∧
    (cmd.capability ≠ .window → ((∃ text, r.1 = .ok text) ↔ effects ≠ []))

variable {cmd : SystemCommand} {w w₁ w' : World}

theorem carried_of_error {events : List DesktopEvent} (h : Went w w' events []) (e : ActionError) :
    Carried cmd w (.error e, w') := by
  obtain ⟨used, hturns, rfl⟩ := h.turns
  refine ⟨used, [], hturns, h.done, h.desktop, fun _ he => absurd he List.not_mem_nil, fun _ => ?_⟩
  exact iff_of_false (fun ⟨_, hok⟩ => by cases hok) (fun hne => hne rfl)

/-- A command on windows has effects on windows only. -/
theorem EffectOf.exists_window (hcapability : cmd.capability = .window) {e : SystemEffect}
    (h : EffectOf cmd e) : ∃ call hwnd owner, e = .window call hwnd owner := by
  cases e with
  | window call hwnd owner => exact ⟨call, hwnd, owner, rfl⟩
  | opened uri => rcases h.1 with hother | hother <;> cases hcapability.symm.trans hother
  | _ => cases hcapability.symm.trans h.1

theorem carried_of_window {checked rest : List DesktopEvent} {effects : List SystemEffect}
    (hcapability : cmd.capability = .window) (hcheck : Went w w₁ checked [])
    (hseen : Seen cmd w.desktop checked) (hrest : Went w₁ w' rest effects)
    (heffects : ∀ e ∈ effects, EffectOf cmd e) (answer : Except ActionError String) :
    Carried cmd w (answer, w') := by
  have hall := hcheck.trans hrest
  obtain ⟨used, hturns, hevents⟩ := hall.turns
  have hwindows : ∀ e ∈ effects, ∃ call hwnd owner, e = .window call hwnd owner := fun e he =>
    EffectOf.exists_window hcapability (heffects e he)
  refine ⟨used, effects, hturns, hall.done, ?_, fun e he => ⟨heffects e he, ?_⟩,
    fun h => absurd hcapability h⟩
  · rw [Desktop.undergo_windows hwindows, hevents]
    exact hall.desktop
  · rw [hevents]
    exact hcheck.recorded_or_reused hseen hrest he (heffects e he)

theorem carried_windowFocus (hcapability : cmd.capability = .window)
    (hoperation : cmd.operation = "focus") (w : World) : Carried cmd w (windowFocus cmd w) := by
  obtain ⟨checked, hcheck, hchecked⟩ := went_windowHwnd cmd w
  unfold windowFocus
  cases hwindow : windowHwnd cmd w with
  | mk answer w₁ =>
      rw [hwindow] at hcheck hchecked
      cases answer with
      | error e => exact carried_of_error hcheck e
      | ok hwnd =>
          obtain ⟨htarget, hseen⟩ := hchecked hwnd rfl
          dsimp only
          obtain ⟨asking, hasking⟩ := w₁.went_isIconic hwnd
          cases hiconic : w₁.isIconic hwnd with
          | mk iconic w₂ =>
              rw [hiconic] at hasking
              dsimp only
              obtain ⟨_, _, hshow, hshown⟩ :=
                w₂.went_windowCall (if iconic then .restore else .show) hwnd
              obtain ⟨_, _, hfront, hfronted⟩ :=
                (w₂.windowCall (if iconic then .restore else .show) hwnd).went_windowCall
                  .foreground hwnd
              obtain ⟨_, _, hfocus, hfocused⟩ :=
                ((w₂.windowCall (if iconic then .restore else .show) hwnd).windowCall
                  .foreground hwnd).went_windowCall .focus hwnd
              have hof : ∀ call ∈ [WindowCall.restore, .show, .foreground, .focus], ∀ owner,
                  EffectOf cmd (.window call hwnd owner) := fun call hcall _ =>
                ⟨hcapability, .inl ⟨hoperation, hcall⟩, htarget⟩
              refine carried_of_window hcapability hcheck hseen
                (hasking.trans (hshow.trans (hfront.trans hfocus))) (fun e he => ?_) _
              simp only [List.nil_append, List.mem_append] at he
              rcases he with he | he | he
              · obtain ⟨owner, rfl⟩ := hshown e he
                exact hof _ (by cases iconic <;> simp) owner
              · obtain ⟨owner, rfl⟩ := hfronted e he
                exact hof _ (by simp) owner
              · obtain ⟨owner, rfl⟩ := hfocused e he
                exact hof _ (by simp) owner

theorem carried_windowShow {call : WindowCall} (hcapability : cmd.capability = .window)
    (hof : ∀ hwnd owner, (∃ title pid, cmd.target = .window hwnd title pid) →
      EffectOf cmd (.window call hwnd owner)) (name : String) (logs : Bool) (w : World) :
    Carried cmd w (windowShow call name logs cmd w) := by
  obtain ⟨checked, hcheck, hchecked⟩ := went_windowHwnd cmd w
  unfold windowShow
  cases hwindow : windowHwnd cmd w with
  | mk answer w₁ =>
      rw [hwindow] at hcheck hchecked
      cases answer with
      | error e => exact carried_of_error hcheck e
      | ok hwnd =>
          obtain ⟨htarget, hseen⟩ := hchecked hwnd rfl
          dsimp only
          obtain ⟨_, effects, hshow, hshown⟩ := w₁.went_windowCall call hwnd
          have heffects : ∀ e ∈ effects, EffectOf cmd e := fun e he => by
            obtain ⟨owner, rfl⟩ := hshown e he
            exact hof hwnd owner htarget
          cases logs with
          | false => exact carried_of_window hcapability hcheck hseen hshow heffects _
          | true =>
              rw [if_pos rfl]
              -- the window is checked again for the log, after the call
              obtain ⟨_, hagain, -⟩ := went_windowHwnd cmd (w₁.windowCall call hwnd)
              have hboth := hshow.trans hagain
              rw [List.append_nil] at hboth
              cases hsecond : windowHwnd cmd (w₁.windowCall call hwnd) with
              | mk answer w₂ =>
                  rw [hsecond] at hboth
                  cases answer with
                  | error e => exact carried_of_window hcapability hcheck hseen hboth heffects _
                  | ok _ => exact carried_of_window hcapability hcheck hseen hboth heffects _

theorem carried_windowClose (hcapability : cmd.capability = .window)
    (hoperation : cmd.operation = "close") (w : World) : Carried cmd w (windowClose cmd w) := by
  obtain ⟨checked, hcheck, hchecked⟩ := went_windowHwnd cmd w
  unfold windowClose
  cases hwindow : windowHwnd cmd w with
  | mk answer w₁ =>
      rw [hwindow] at hcheck hchecked
      cases answer with
      | error e => exact carried_of_error hcheck e
      | ok hwnd =>
          obtain ⟨htarget, hseen⟩ := hchecked hwnd rfl
          obtain ⟨_, effects, hclose, hclosed⟩ := w₁.went_windowCall .close hwnd
          refine carried_of_window hcapability hcheck hseen hclose (fun e he => ?_) _
          obtain ⟨owner, rfl⟩ := hclosed e he
          exact ⟨hcapability, .inr (.inr (.inr ⟨hoperation, rfl⟩)), htarget⟩

/-- A call on the whole system, which is on no target that could have been reused. -/
theorem carried_systemCall {effect : SystemEffect} (hon : ∀ d, effect.On d)
    (hsame : ∀ d : Desktop, d.undergo effect = d) (hof : EffectOf cmd effect)
    (hrecorded : Recorded cmd effect) (text : String) (w : World) :
    Carried cmd w
      (match w.systemCall effect with
        | (false, w) => (.error .unsupported, w)
        | (true, w) => (.ok text, w)) := by
  obtain ⟨events, hcall⟩ := w.went_systemCall hon
  cases hdone : w.systemCall effect with
  | mk answer w₁ =>
      rw [hdone] at hcall
      cases answer with
      | false => exact carried_of_error hcall _
      | true =>
          obtain ⟨used, hturns, rfl⟩ := hcall.turns
          refine ⟨used, [effect], hturns, hcall.done, ?_, fun e he => ?_, fun _ => ?_⟩
          · exact hcall.desktop.trans (hsame _).symm
          · obtain rfl := List.mem_singleton.mp he
            exact ⟨hof, .inl hrecorded⟩
          · exact iff_of_true ⟨text, rfl⟩ (List.cons_ne_nil _ _)

theorem carried_powerCall {operation : String} (hcapability : cmd.capability = .power)
    (hoperation : cmd.operation = operation) (w : World) :
    Carried cmd w (powerCall operation w) := by
  have hof : EffectOf cmd (.power operation) := ⟨hcapability, hoperation⟩
  have hon : ∀ d, SystemEffect.On d (.power operation) := fun _ => trivial
  exact carried_systemCall hon (fun _ => rfl) hof trivial _ w

theorem carried_openUri (hcapability : cmd.capability = .uri ∨ cmd.capability = .shell)
    (hoperation : cmd.operation = "open_uri") (w : World) : Carried cmd w (openUri cmd w) := by
  unfold openUri
  split
  · next scheme htarget =>
      split_ifs with hscheme
      · exact carried_of_error (Went.refl w) _
      · have hof : EffectOf cmd (.opened (scheme ++ ":")) :=
          ⟨hcapability, hoperation, scheme, htarget, by simpa using hscheme, rfl⟩
        have hon : ∀ d, SystemEffect.On d (.opened (scheme ++ ":")) := fun _ => trivial
        exact carried_systemCall hon (fun _ => rfl) hof trivial _ w
  · exact carried_of_error (Went.refl w) _

/-- `TerminateProcess` ends the process of the handle if that still runs. -/
theorem terminateProcess_cases (handle : UInt32 × Int64) (w : World) :
    ∃ w₁ events, Went w w₁ events [] ∧
      (w.terminateProcess handle = (false, w₁) ∨
        w₁.desktop.processes handle.1 = some handle.2 ∧
          ∃ w', w.terminateProcess handle = (true, w') ∧ w'.turns = w₁.turns ∧
            w'.desktop = w₁.desktop.undergo (.terminated handle.1 handle.2) ∧
            w'.done = w₁.done ++ [.terminated handle.1 handle.2]) := by
  obtain ⟨events, h⟩ := w.went_turn
  refine ⟨w.turn.2, events, h, ?_⟩
  by_cases hruns : w.turn.1 = true ∧ w.turn.2.desktop.processes handle.1 = some handle.2
  · exact .inr ⟨hruns.2, _, if_pos hruns, rfl, rfl, rfl⟩
  · exact .inl (if_neg hruns)

theorem carried_processKill (hcapability : cmd.capability = .process)
    (hoperation : cmd.operation = "kill" ∨ cmd.operation = "terminate") (w : World) :
    Carried cmd w (processKill cmd w) := by
  unfold processKill
  split
  swap
  · exact carried_of_error (Went.refl w) _
  next pid name creationTimeFt htarget =>
  obtain ⟨checked, hcheck, hchecked⟩ := went_verifyProcessIdentity pid creationTimeFt w
  cases hverify : verifyProcessIdentity pid creationTimeFt w with
  | mk answer w₁ =>
      rw [hverify] at hcheck hchecked
      cases answer with
      | error e => exact carried_of_error hcheck e
      | ok u =>
          have hseen : Seen cmd w.desktop checked := by
            simp only [Seen, htarget]
            cases creationTimeFt with
            | none => trivial
            | some expected => exact hchecked rfl expected rfl
          dsimp only
          obtain ⟨opening, hopening, hopened⟩ := w₁.went_openProcess pid
          cases hopen : w₁.openProcess pid with
          | mk handle w₂ =>
              rw [hopen] at hopening hopened
              cases handle with
              | none => exact carried_of_error (hcheck.trans hopening) _
              | some handle =>
                  obtain ⟨rfl, -⟩ := hopened handle rfl
                  dsimp only
                  obtain ⟨w₃, last, hlast, hfailed | ⟨hruns, w₄, hended, hturns, hfreed, hdone⟩⟩ :=
                    terminateProcess_cases handle w₂
                  · rw [hfailed]
                    exact carried_of_error (hcheck.trans (hopening.trans hlast)) _
                  · rw [hended]
                    have hall : Went w w₃ (checked ++ (opening ++ last)) [] :=
                      hcheck.trans (hopening.trans hlast)
                    obtain ⟨used, hused, hevents⟩ := hall.turns
                    have hof : EffectOf cmd (.terminated handle.1 handle.2) :=
                      ⟨hcapability, hoperation, name, creationTimeFt, htarget⟩
                    refine ⟨used, [.terminated handle.1 handle.2], hturns ▸ hused, ?_, ?_,
                      fun e he => ?_, fun _ => iff_of_true ⟨_, rfl⟩ (List.cons_ne_nil _ _)⟩
                    · rw [hdone, hall.done, List.append_nil]
                    · rw [hevents, ← hall.desktop]
                      exact hfreed
                    · obtain rfl := List.mem_singleton.mp he
                      refine ⟨hof, ?_⟩
                      rw [hevents]
                      exact recorded_or_reused hseen (List.prefix_append _ _) hof
                        (hall.desktop ▸ hruns)

/-- **What a token does.** -/
theorem carried_executeAuthorized (logs : Bool) (auth : SystemAuthorization) (w : World) :
    Carried auth.cmd w (executeAuthorized logs auth w) := by
  unfold executeAuthorized
  split
  · next hcapability hoperation => exact carried_windowFocus hcapability hoperation w
  · next hcapability hoperation =>
      exact carried_windowShow hcapability
        (fun _ _ h => ⟨hcapability, .inr (.inl ⟨hoperation, rfl⟩), h⟩) _ logs w
  · next hcapability hoperation =>
      exact carried_windowShow hcapability
        (fun _ _ h => ⟨hcapability, .inr (.inr (.inl ⟨hoperation, rfl⟩)), h⟩) _ logs w
  · next hcapability hoperation => exact carried_windowClose hcapability hoperation w
  · next hcapability hoperation => exact carried_processKill hcapability (.inl hoperation) w
  · next hcapability hoperation => exact carried_processKill hcapability (.inr hoperation) w
  · next hcapability hoperation => exact carried_powerCall hcapability hoperation w
  · next hcapability hoperation => exact carried_powerCall hcapability hoperation w
  · next hcapability hoperation => exact carried_powerCall hcapability hoperation w
  · next hcapability hoperation => exact carried_powerCall hcapability hoperation w
  · next hcapability hoperation => exact carried_openUri (.inl hcapability) hoperation w
  · next hcapability hoperation => exact carried_openUri (.inr hcapability) hoperation w
  · exact carried_of_error (Went.refl w) _

/-! ## The commands that are built -/

/-- Source: `system_process_window.rs`, `process_risk`. -/
def processRisk : String → Option SystemRisk
  | "list" => some .info
  | "focus" => some .reversible
  | "kill" | "terminate" => some .destructive
  | _ => none

/-- Source: `system_process_window.rs`, `window_risk`. -/
def windowRisk : String → Option SystemRisk
  | "list" | "enum" => some .info
  | "focus" | "minimize" | "restore" => some .reversible
  | "close" => some .destructive
  | _ => none

/-- Source: `system_process_window.rs`, `power_risk`. -/
def powerRisk : String → Option SystemRisk
  | "lock" => some .reversible
  | "sleep" | "restart" | "shutdown" => some .destructive
  | _ => none

/-- Source: `system_process_window.rs`, `process_command_with_identity`; `process_command` is the
one without a creation time. -/
def processCommandWithIdentity (pid : UInt32) (name : String) (creationTimeFt : Option Int64)
    (operation origin : String) : Option SystemCommand :=
  (processRisk operation).map fun risk =>
    { capability := .process
      operation
      target := .process pid name creationTimeFt
      risk
      origin }

/-- Source: `system_process_window.rs`, `window_command_with_identity`; `window_command` is the one
without a process. -/
def windowCommandWithIdentity (hwnd : UInt64) (title : String) (pid : Option UInt32)
    (operation origin : String) : Option SystemCommand :=
  (windowRisk operation).map fun risk =>
    { capability := .window
      operation
      target := .window hwnd title pid
      risk
      origin }

/-- Source: `system_process_window.rs`, `uri_command`. -/
def uriCommand (scheme origin : String) : Option SystemCommand :=
  if scheme.isEmpty || !scheme.toList.all fun c => c.isLower || c.isDigit then none
  else
    some
      { capability := .uri
        operation := "open_uri"
        target := .uri scheme
        risk := .info
        origin }

/-- Source: `system_process_window.rs`, `power_command`. -/
def powerCommand (operation origin : String) : Option SystemCommand :=
  (powerRisk operation).map fun risk =>
    { capability := .power
      operation
      target := .system operation
      risk
      origin }

/-- A command that one of these functions built. -/
inductive Built : SystemCommand → Prop
  | process {pid name creationTimeFt operation origin cmd} :
      processCommandWithIdentity pid name creationTimeFt operation origin = some cmd → Built cmd
  | window {hwnd title pid operation origin cmd} :
      windowCommandWithIdentity hwnd title pid operation origin = some cmd → Built cmd
  | uri {scheme origin cmd} : uriCommand scheme origin = some cmd → Built cmd
  | power {operation origin cmd} : powerCommand operation origin = some cmd → Built cmd

/-- A process is ended, a window is asked to close, or the machine stops. -/
def SystemEffect.isDestructive : SystemEffect → Bool
  | .terminated _ _ => true
  | .window call _ _ => call == .close
  | .power operation => operation != "lock"
  | .opened _ => false

/-- The operations that have destructive effects. -/
theorem EffectOf.operation_of_isDestructive {cmd : SystemCommand} {e : SystemEffect}
    (h : EffectOf cmd e) (he : e.isDestructive = true) :
    cmd.capability = .process ∧ (cmd.operation = "kill" ∨ cmd.operation = "terminate") ∨
      cmd.capability = .window ∧ cmd.operation = "close" ∨
      cmd.capability = .power ∧ cmd.operation ≠ "lock" := by
  cases e with
  | terminated pid ft => exact .inl ⟨h.1, h.2.1⟩
  | window call hwnd owner =>
      obtain rfl : call = .close := eq_of_beq he
      obtain ⟨hcapability, ⟨-, hcall⟩ | ⟨-, hcall⟩ | ⟨-, hcall⟩ | ⟨hoperation, -⟩, -⟩ := h
      · simp at hcall
      · cases hcall
      · cases hcall
      · exact .inr (.inl ⟨hcapability, hoperation⟩)
  | power operation =>
      obtain ⟨hcapability, rfl⟩ := h
      exact .inr (.inr ⟨hcapability, ne_of_beq_false (Bool.not_eq_true' _ ▸ he)⟩)
  | opened uri => cases he

/-- A command that was built and has a destructive effect has the risk of one. -/
theorem Built.risk_of_isDestructive {cmd : SystemCommand} (hbuilt : Built cmd) {e : SystemEffect}
    (heffect : EffectOf cmd e) (he : e.isDestructive = true) : cmd.risk = .destructive := by
  have hoperation := heffect.operation_of_isDestructive he
  cases hbuilt with
  | process h =>
      obtain ⟨risk, hrisk, rfl⟩ := Option.map_eq_some_iff.mp h
      obtain ⟨-, rfl | rfl⟩ | ⟨hother, -⟩ | ⟨hother, -⟩ := hoperation
      · exact (Option.some.inj hrisk).symm
      · exact (Option.some.inj hrisk).symm
      · cases hother
      · cases hother
  | window h =>
      obtain ⟨risk, hrisk, rfl⟩ := Option.map_eq_some_iff.mp h
      obtain ⟨hother, -⟩ | ⟨-, rfl⟩ | ⟨hother, -⟩ := hoperation
      · cases hother
      · exact (Option.some.inj hrisk).symm
      · cases hother
  | uri h =>
      unfold uriCommand at h
      split_ifs at h
      obtain rfl := Option.some.inj h
      obtain ⟨hother, -⟩ | ⟨hother, -⟩ | ⟨hother, -⟩ := hoperation
      · cases hother
      · cases hother
      · cases hother
  | power h =>
      obtain ⟨risk, hrisk, rfl⟩ := Option.map_eq_some_iff.mp h
      obtain ⟨hother, -⟩ | ⟨hother, -⟩ | ⟨-, hlock⟩ := hoperation
      · cases hother
      · cases hother
      · unfold powerRisk at hrisk
        split at hrisk
        · exact absurd rfl hlock
        · exact (Option.some.inj hrisk).symm
        · exact (Option.some.inj hrisk).symm
        · exact (Option.some.inj hrisk).symm
        · cases hrisk

/-! ## Runs of requests -/

/-- A command, whether the user confirmed it, and the time. -/
structure EffectRequest where
  cmd : SystemCommand
  confirmed : Bool
  nowMs : Int64

/-- The requests one after another, with their answers. -/
def runRequests (resolver : SystemResolver) (logs : Bool) :
    List EffectRequest → World → List (Except ActionError String) × World
  | [], w => ([], w)
  | r :: rs, w =>
      let (answer, w) := executeSystemEffect resolver logs r.cmd r.confirmed r.nowMs w
      let (answers, w) := runRequests resolver logs rs w
      (answer :: answers, w)

/-- What is said of one request: its answer, the turns that went by while it was carried out, and
its effects. -/
structure Outcome (resolver : SystemResolver) (r : EffectRequest)
    (o : Except ActionError String × List Turn × List SystemEffect) : Prop where
  /-- Something is done for it only if it is valid, the resolver has no ground to refuse it, and it
  was confirmed if its risk requires that. -/
  allowed : o.2.2 ≠ [] → r.cmd.validate = .ok () ∧ ¬resolver.Refuses r.cmd ∧
    (r.cmd.risk.requiresConfirmation = true → r.confirmed = true)
  /-- Its effects are those of its operation on its target. -/
  effectOf : ∀ e ∈ o.2.2, EffectOf r.cmd e
  /-- They are on what it recorded, unless that gave up its name in these turns. -/
  recorded : ∀ e ∈ o.2.2, Recorded r.cmd e ∨ Reused (o.2.1.flatMap Turn.events) e
  /-- If it is on no window, the answer says whether something was done. -/
  answered : r.cmd.capability ≠ .window → ((∃ text, o.1 = .ok text) ↔ o.2.2 ≠ [])
  /-- A built command is destructive only if it was confirmed and its origin may be. -/
  confirmed : Built r.cmd → (∃ e ∈ o.2.2, e.isDestructive = true) →
    r.confirmed = true ∧
      ∀ c, resolver.policy.ceiling r.cmd.origin = some c → SystemRisk.destructive ≤ c

/-- **One request.** -/
theorem executeSystemEffect_outcome (resolver : SystemResolver) (logs : Bool) (r : EffectRequest)
    (w : World) :
    let result := executeSystemEffect resolver logs r.cmd r.confirmed r.nowMs w
    ∃ used effects, w.turns = used ++ result.2.turns ∧ result.2.done = w.done ++ effects ∧
      result.2.desktop =
        effects.foldl Desktop.undergo (w.desktop.after (used.flatMap Turn.events)) ∧
      Outcome resolver r (result.1, used, effects) := by
  have hrefused : ∀ e : ActionError, ∃ used effects, w.turns = used ++ w.turns ∧
      w.done = w.done ++ effects ∧
      w.desktop = effects.foldl Desktop.undergo (w.desktop.after (used.flatMap Turn.events)) ∧
      Outcome resolver r (.error e, used, effects) := fun e =>
    ⟨[], [], rfl, (List.append_nil _).symm, rfl, fun h => absurd rfl h,
      fun _ h => absurd h List.not_mem_nil, fun _ h => absurd h List.not_mem_nil,
      fun _ => iff_of_false (fun ⟨_, h⟩ => by cases h) (fun h => h rfl),
      fun _ ⟨_, h, _⟩ => absurd h List.not_mem_nil⟩
  unfold executeSystemEffect
  rcases resolver.resolve_cases r.cmd with ⟨e, -, hresolve⟩ | ⟨hvalid, approved, reason, hresolve,
    hnot⟩
  · rw [hresolve]
    exact hrefused _
  · rw [hresolve]
    cases approved with
    | false => exact hrefused _
    | true =>
        have hrefuses : ¬resolver.Refuses r.cmd := hnot.mp rfl
        have hceiling : ∀ c, resolver.policy.ceiling r.cmd.origin = some c → r.cmd.risk ≤ c :=
          fun c hc => not_lt.mp fun hlt => hrefuses (.inr (.inr ⟨c, hc, hlt⟩))
        unfold authorizeSystemCommand
        rw [dif_pos hvalid]
        split_ifs with hgate
        · exact hrefused _
        · have hconfirmed : r.cmd.risk.requiresConfirmation = true → r.confirmed = true :=
            fun hrisk => by
              cases hflag : r.confirmed with
              | true => rfl
              | false => exact absurd ⟨hrisk, hflag⟩ hgate
          obtain ⟨used, effects, hturns, hdone, hdesktop, heach, hanswer⟩ :=
            carried_executeAuthorized logs ⟨r.cmd, ⟨r.cmd.origin, r.cmd.risk, true, r.confirmed,
              r.nowMs⟩, hvalid, hconfirmed⟩ w
          refine ⟨used, effects, hturns, hdone, hdesktop, fun _ => ⟨hvalid, hrefuses, hconfirmed⟩,
            fun e he => (heach e he).1, fun e he => (heach e he).2, hanswer, ?_⟩
          rintro hbuilt ⟨e, he, hdestructive⟩
          have hrisk := hbuilt.risk_of_isDestructive (heach e he).1 hdestructive
          refine ⟨hconfirmed (by rw [hrisk]; rfl), fun c hc => ?_⟩
          rw [← hrisk]
          exact hceiling c hc

/-- **What a run of requests does to the system.** However others start and end processes and
windows between the calls, everything that a run does is done for one of its requests, which was
allowed; it is on the target of that request, and on the very process or window that was recorded,
unless this gave up its name and another took it while the request was carried out. -/
theorem systemRun_spec (resolver : SystemResolver) (logs : Bool) (requests : List EffectRequest)
    (w : World) :
    let result := runRequests resolver logs requests w
    ∃ outcomes, result.1 = outcomes.map Prod.fst ∧
      w.turns = outcomes.flatMap (fun o => o.2.1) ++ result.2.turns ∧
      result.2.done = w.done ++ outcomes.flatMap (fun o => o.2.2) ∧
      List.Forall₂ (Outcome resolver) requests outcomes := by
  induction requests generalizing w with
  | nil => exact ⟨[], rfl, rfl, (List.append_nil _).symm, .nil⟩
  | cons r rs ih =>
      obtain ⟨used, effects, hturns, hdone, -, houtcome⟩ :=
        executeSystemEffect_outcome resolver logs r w
      obtain ⟨outcomes, hanswers, hturns', hdone', hall⟩ :=
        ih (executeSystemEffect resolver logs r.cmd r.confirmed r.nowMs w).2
      refine ⟨(_, used, effects) :: outcomes, ?_, ?_, ?_, .cons houtcome hall⟩
      · exact congrArg _ hanswers
      · rw [hturns, List.flatMap_cons, List.append_assoc]
        exact congrArg _ hturns'
      · rw [List.flatMap_cons, ← List.append_assoc, ← hdone]
        exact hdone'

/-- The command to end a process that was created at time five. -/
def endProcess : SystemCommand where
  capability := .process
  operation := "kill"
  target := .process 42 "editor" (some 5)
  risk := .destructive
  origin := "search"

/-- The process with the id 42. -/
def oneProcess : Desktop where
  processes pid := if pid = 42 then some 5 else none
  windows _ := none

/-- The process ends after its check and another takes its id, which is then ended. -/
theorem systemRun_spec_reused :
    let w : World := ⟨oneProcess, [⟨[], true⟩, ⟨[], true⟩,
      ⟨[.process (.freed 42), .process (.taken 42 9)], true⟩, ⟨[], true⟩], []⟩
    let requests : List EffectRequest := [⟨endProcess, false, 0⟩, ⟨endProcess, true, 0⟩]
    let result := runRequests ⟨[], .default⟩ false requests w
    result.2.done = [.terminated 42 9] ∧
      ∃ outcomes, result.2.done = outcomes.flatMap (fun o => o.2.2) ∧
        List.Forall₂ (Outcome ⟨[], .default⟩) requests outcomes := by
  intro w requests result
  have hdone : result.2.done = [.terminated 42 9] := by decide +kernel
  obtain ⟨outcomes, -, -, heffects, hall⟩ := systemRun_spec ⟨[], .default⟩ false requests w
  exact ⟨hdone, outcomes, heffects, hall⟩

/-! ## The probe -/

/-- Source: `system_adapter.rs`, `process_creation_time_ft`. -/
def processCreationTimeFt (pid : UInt32) (w : World) : Option Int64 × World :=
  match w.openProcess pid with
  | (none, w) => (none, w)
  | (some handle, w) => w.getProcessTimes handle

/-- A process that is to be ended. Source: `system_adapter.rs`, `probe_effect`. -/
def probeProcess (pid : UInt32) (creationTimeFt : Int64) (w : World) : EffectState × World :=
  match processCreationTimeFt pid w with
  | (none, w) => (.completed, w)
  | (some actual, w) => (if actual = creationTimeFt then .notStarted else .unknown, w)

/-- A window that is to be closed. Source: `system_adapter.rs`, `probe_effect`. -/
def probeWindow (hwnd : UInt64) (owner : UInt32) (w : World) : EffectState × World :=
  if hwnd = 0 ∨ isizeMax < hwnd then (.unknown, w)
  else
    match w.isWindow hwnd with
    | (false, w) => (.completed, w)
    | (true, w) =>
        match w.windowPid hwnd with
        | (pid, w) => (if pid = owner then .notStarted else .unknown, w)

/-- Source: `system_adapter.rs`, `probe_effect`. -/
def probeEffect (cmd : SystemCommand) (w : World) : EffectState × World :=
  match cmd.target, cmd.operation with
  | .process pid _ (some creationTimeFt), "kill"
  | .process pid _ (some creationTimeFt), "terminate" => probeProcess pid creationTimeFt w
  | .window hwnd _ (some owner), "close" => probeWindow hwnd owner w
  | _, _ => (.unknown, w)

/-- In these turns a call was refused. -/
def Refused (turns : List Turn) : Prop := ∃ t ∈ turns, t.answer = false

/-- What an answer about a process stands for: the process was seen; or its id was seen free or a
call was refused; or another process was seen. -/
def FoundProcess (d : Desktop) (turns : List Turn) (pid : UInt32) (creationTimeFt : Int64) :
    EffectState → Prop
  | .notStarted => ∃ before, before <+: turns.flatMap Turn.events ∧
      (d.after before).processes pid = some creationTimeFt
  | .completed => Refused turns ∨ ∃ before, before <+: turns.flatMap Turn.events ∧
      (d.after before).processes pid = none
  | .unknown => ∃ before, before <+: turns.flatMap Turn.events ∧
      ∃ other ≠ creationTimeFt, (d.after before).processes pid = some other
  | _ => False

/-- What an answer about a window stands for. -/
def FoundWindow (d : Desktop) (turns : List Turn) (hwnd : UInt64) (owner : UInt32) :
    EffectState → Prop
  | .notStarted => ∃ before, before <+: turns.flatMap Turn.events ∧
      ((d.after before).windows hwnd).getD 0 = owner
  | .completed => ∃ before, before <+: turns.flatMap Turn.events ∧
      (d.after before).windows hwnd = none
  | .unknown => hwnd = 0 ∨ isizeMax < hwnd ∨ ∃ before, before <+: turns.flatMap Turn.events ∧
      ((d.after before).windows hwnd).getD 0 ≠ owner
  | _ => False

/-- What an answer about a command stands for; only of a process that is to be ended and of a window
that is to be closed, which were recorded, is anything known. -/
def Found (cmd : SystemCommand) (d : Desktop) (turns : List Turn) (answer : EffectState) : Prop :=
  match cmd.target, cmd.operation with
  | .process pid _ (some creationTimeFt), "kill"
  | .process pid _ (some creationTimeFt), "terminate" =>
      FoundProcess d turns pid creationTimeFt answer
  | .window hwnd _ (some owner), "close" => FoundWindow d turns hwnd owner answer
  | _, _ => answer = .unknown

/-- Between two worlds these turns went by and nothing was done. -/
structure Looked (w w' : World) (used : List Turn) : Prop where
  turns : w.turns = used ++ w'.turns
  desktop : w'.desktop = w.desktop.after (used.flatMap Turn.events)
  done : w'.done = w.done

theorem Looked.refl (w : World) : Looked w w [] := ⟨rfl, rfl, rfl⟩

theorem Looked.trans {used used' : List Turn} (h : Looked w w₁ used) (h' : Looked w₁ w' used') :
    Looked w w' (used ++ used') where
  turns := by rw [h.turns, h'.turns, List.append_assoc]
  desktop := by rw [h'.desktop, h.desktop, List.flatMap_append, Desktop.after_append]
  done := h'.done.trans h.done

theorem looked_turn (w : World) :
    ∃ used, Looked w w.turn.2 used ∧ (w.turn.1 = false → Refused used) := by
  unfold World.turn
  cases hturns : w.turns with
  | nil => exact ⟨[], Looked.refl w, nofun⟩
  | cons t ts =>
      exact ⟨[t], ⟨hturns, congrArg _ (List.append_nil _).symm, rfl⟩,
        fun h => ⟨t, List.mem_singleton_self t, h⟩⟩

/-- What the creation time of a process stands for, or that there is none. -/
theorem looked_processCreationTimeFt (pid : UInt32) (w : World) :
    ∃ used, Looked w (processCreationTimeFt pid w).2 used ∧
      ((processCreationTimeFt pid w).1 = none → Refused used ∨
        ∃ before, before <+: used.flatMap Turn.events ∧
          (w.desktop.after before).processes pid = none) ∧
      ∀ ft, (processCreationTimeFt pid w).1 = some ft →
        ∃ before, before <+: used.flatMap Turn.events ∧
          (w.desktop.after before).processes pid = some ft := by
  obtain ⟨opening, hopening, hnot⟩ := looked_turn w
  unfold processCreationTimeFt World.openProcess
  by_cases hanswer : w.turn.1 = true
  · simp only [if_pos hanswer]
    cases hhas : w.turn.2.desktop.processes pid with
    | none =>
        refine ⟨opening, hopening, fun _ => .inr ⟨_, List.prefix_rfl, ?_⟩, nofun⟩
        rw [← hopening.desktop, hhas]
    | some ft =>
        obtain ⟨reading, hreading, hnot'⟩ := looked_turn w.turn.2
        refine ⟨opening ++ reading, hopening.trans hreading, fun h => .inl ?_, fun ft' h => ?_⟩
        · simp only [Option.map_some, World.getProcessTimes] at h
          split_ifs at h with hread
          obtain ⟨t, ht, hrefused⟩ := hnot' (Bool.not_eq_true _ ▸ hread)
          exact ⟨t, List.mem_append_right _ ht, hrefused⟩
        · simp only [Option.map_some, World.getProcessTimes] at h
          split_ifs at h
          obtain rfl := Option.some.inj h
          refine ⟨opening.flatMap Turn.events, ?_, ?_⟩
          · rw [List.flatMap_append]
            exact List.prefix_append _ _
          · rw [← hopening.desktop, hhas]
  · simp only [if_neg hanswer]
    exact ⟨opening, hopening, fun _ => .inl (hnot (Bool.not_eq_true _ ▸ hanswer)), nofun⟩

theorem looked_probeProcess (pid : UInt32) (creationTimeFt : Int64) (w : World) :
    ∃ used, Looked w (probeProcess pid creationTimeFt w).2 used ∧
      FoundProcess w.desktop used pid creationTimeFt (probeProcess pid creationTimeFt w).1 := by
  obtain ⟨used, hlooked, hnone, hsome⟩ := looked_processCreationTimeFt pid w
  unfold probeProcess
  cases hread : processCreationTimeFt pid w with
  | mk answer w₁ =>
      rw [hread] at hlooked hnone hsome
      refine ⟨used, ?_⟩
      cases answer with
      | none => exact ⟨hlooked, hnone rfl⟩
      | some actual =>
          obtain ⟨before, hbefore, hhas⟩ := hsome actual rfl
          by_cases heq : actual = creationTimeFt
          · simp only [if_pos heq]
            exact ⟨hlooked, before, hbefore, heq ▸ hhas⟩
          · simp only [if_neg heq]
            exact ⟨hlooked, before, hbefore, actual, heq, hhas⟩

theorem looked_probeWindow (hwnd : UInt64) (owner : UInt32) (w : World) :
    ∃ used, Looked w (probeWindow hwnd owner w).2 used ∧
      FoundWindow w.desktop used hwnd owner (probeWindow hwnd owner w).1 := by
  unfold probeWindow
  split_ifs with hrange
  · exact ⟨[], Looked.refl w, or_assoc.mp (.inl hrange)⟩
  obtain ⟨asking, hasking, -⟩ := looked_turn w
  simp only [World.isWindow]
  cases hhas : w.turn.2.desktop.windows hwnd with
  | none =>
      refine ⟨asking, hasking, _, List.prefix_rfl, ?_⟩
      rw [← hasking.desktop, hhas]
  | some first =>
      obtain ⟨reading, hreading, -⟩ := looked_turn w.turn.2
      have hboth := hasking.trans hreading
      refine ⟨asking ++ reading, hboth, ?_⟩
      have hread : (w.turn.2.windowPid hwnd).1 = ((w.desktop.after
          ((asking ++ reading).flatMap Turn.events)).windows hwnd).getD 0 := by
        rw [← hboth.desktop]
        rfl
      by_cases heq : (w.turn.2.windowPid hwnd).1 = owner
      · simp only [Option.isSome_some, if_pos heq]
        exact ⟨_, List.prefix_rfl, hread ▸ heq⟩
      · simp only [Option.isSome_some, if_neg heq]
        exact .inr (.inr ⟨_, List.prefix_rfl, hread ▸ heq⟩)

/-- **The probe** looks, and its answer stands for what it saw. -/
theorem looked_probeEffect (cmd : SystemCommand) (w : World) :
    ∃ used, Looked w (probeEffect cmd w).2 used ∧
      Found cmd w.desktop used (probeEffect cmd w).1 := by
  unfold probeEffect Found
  split
  · exact looked_probeProcess _ _ w
  · exact looked_probeProcess _ _ w
  · exact looked_probeWindow _ _ w
  · next hkill hterminate hclose =>
      refine ⟨[], ?_⟩
      split
      · exact (hkill _ _ _ ‹_› ‹_›).elim
      · exact (hterminate _ _ _ ‹_› ‹_›).elim
      · exact (hclose _ _ _ ‹_› ‹_›).elim
      · exact ⟨Looked.refl w, rfl⟩

/-- A process that was seen. -/
theorem Found.processes {cmd : SystemCommand} {d : Desktop} {turns : List Turn} {pid : UInt32}
    {name : String} {creationTimeFt : Int64} (h : Found cmd d turns .notStarted)
    (htarget : cmd.target = .process pid name (some creationTimeFt)) :
    ∃ before, before <+: turns.flatMap Turn.events ∧
      (d.after before).processes pid = some creationTimeFt := by
  unfold Found at h
  rw [htarget] at h
  split at h
  · next heq _ => cases heq; exact h
  · next heq _ => cases heq; exact h
  · next heq _ => cases heq
  · cases h

/-- No command is said to have failed. -/
theorem not_found_failed {cmd : SystemCommand} {d : Desktop} {turns : List Turn} :
    ¬Found cmd d turns .failed := by
  intro h
  unfold Found at h
  split at h <;> cases h

/-- An effect that is not known to be idempotent is repeated only if it did not start or failed. -/
theorem retryDecision_allowed {result : CommandResult} {effect : EffectState}
    (h : retryDecision result effect false = .allowed) :
    effect = .notStarted ∨ effect = .failed := by
  cases effect with
  | notStarted => exact .inl rfl
  | failed => exact .inr rfl
  | _ => cases h

/-- A process that a run ended, or that did not run before it, runs after it only if it was started
in the meantime. -/
theorem runRequests_taken (resolver : SystemResolver) (logs : Bool) (requests : List EffectRequest)
    (w : World) :
    let ran := runRequests resolver logs requests w
    ∃ went effects, w.turns = went ++ ran.2.turns ∧ ran.2.done = w.done ++ effects ∧
      ∀ pid creationTimeFt, ran.2.desktop.processes pid = some creationTimeFt →
        .terminated pid creationTimeFt ∈ effects ∨
          w.desktop.processes pid ≠ some creationTimeFt →
        .process (.taken pid creationTimeFt) ∈ went.flatMap Turn.events := by
  induction requests generalizing w with
  | nil =>
      refine ⟨[], [], rfl, (List.append_nil _).symm, fun _ _ hruns hnot => ?_⟩
      exact absurd hruns (hnot.resolve_left List.not_mem_nil)
  | cons r rs ih =>
      obtain ⟨used, effects, hturns, hdone, hdesktop, -⟩ :=
        executeSystemEffect_outcome resolver logs r w
      obtain ⟨went, effects', hturns', hdone', htaken⟩ :=
        ih (executeSystemEffect resolver logs r.cmd r.confirmed r.nowMs w).2
      refine ⟨used ++ went, effects ++ effects', ?_, ?_, fun pid creationTimeFt hruns hnot => ?_⟩
      · rw [hturns, List.append_assoc]
        exact congrArg _ hturns'
      · rw [← List.append_assoc, ← hdone]
        exact hdone'
      · rw [List.flatMap_append]
        by_cases hlater : .terminated pid creationTimeFt ∈ effects' ∨
            (executeSystemEffect resolver logs r.cmd r.confirmed r.nowMs w).2.desktop.processes
              pid ≠ some creationTimeFt
        · exact List.mem_append_right _ (htaken _ _ hruns hlater)
        · -- it ran between the first request and the others, so the first did not end it
          obtain ⟨hrest, hmid⟩ := not_or.mp hlater
          rw [not_not, hdesktop] at hmid
          obtain ⟨hbefore, hfirst⟩ := Desktop.processes_undergo hmid
          have hstart : w.desktop.processes pid ≠ some creationTimeFt :=
            hnot.resolve_left fun h => (List.mem_append.mp h).elim (hfirst _) hrest
          exact List.mem_append_left _ (process_taken List.nil_prefix hstart hbefore)

/-- **What the probe tells of a run.** After any run of requests the probe of a command changes
nothing and answers what it saw. A process is said to be gone also if Windows refused to look. If
the answer allows to repeat a command that ends a process, and that is not known to be idempotent,
then the run did not end the recorded process, unless the very same was started again. -/
theorem probe_spec (resolver : SystemResolver) (logs : Bool) (requests : List EffectRequest)
    (w : World) (cmd : SystemCommand) :
    let ran := runRequests resolver logs requests w
    let probe := probeEffect cmd ran.2
    ∃ went effects looked,
      w.turns = went ++ ran.2.turns ∧ ran.2.done = w.done ++ effects ∧
      ran.2.turns = looked ++ probe.2.turns ∧ probe.2.done = ran.2.done ∧
      Found cmd ran.2.desktop looked probe.1 ∧
      ∀ pid name creationTimeFt result, cmd.target = .process pid name (some creationTimeFt) →
        retryDecision result probe.1 false = .allowed → .terminated pid creationTimeFt ∈ effects →
        .process (.taken pid creationTimeFt) ∈ (went ++ looked).flatMap Turn.events := by
  intro ran probe
  obtain ⟨went, effects, hturns, hdone, htaken⟩ := runRequests_taken resolver logs requests w
  obtain ⟨looked, hlooked, hfound⟩ := looked_probeEffect cmd ran.2
  refine ⟨went, effects, looked, hturns, hdone, hlooked.turns, hlooked.done, hfound, ?_⟩
  intro pid name creationTimeFt result htarget hallowed hended
  rw [List.flatMap_append]
  rcases retryDecision_allowed hallowed with hanswer | hanswer
  · obtain ⟨before, hbefore, hseen⟩ := Found.processes (hanswer ▸ hfound) htarget
    by_cases hruns : ran.2.desktop.processes pid = some creationTimeFt
    · exact List.mem_append_left _ (htaken _ _ hruns (.inl hended))
    · have hstarted := process_taken List.nil_prefix hruns hseen
      exact List.mem_append_right _ (hbefore.subset hstarted)
  · exact absurd (hanswer ▸ hfound) not_found_failed

/-- The command to close a window of the process with the id 42. -/
def closeWindow : SystemCommand where
  capability := .window
  operation := "close"
  target := .window 7 "editor" (some 42)
  risk := .destructive
  origin := "search"

/-- A window that was asked to close may still be there, so the probe allows to ask it again; and a
process that may not be looked at is said to be gone. -/
theorem probe_spec_unsettled :
    let w : World := ⟨⟨oneProcess.processes, fun hwnd => if hwnd = 7 then some 42 else none⟩,
      [], []⟩
    let refused : World := ⟨oneProcess, [⟨[], false⟩], []⟩
    let ran := runRequests ⟨[], .default⟩ false [⟨closeWindow, true, 0⟩] w
    ran.2.done = [.window .close 7 42] ∧
      retryDecision .failed (probeEffect closeWindow ran.2).1 false = .allowed ∧
      (probeEffect endProcess refused).1 = .completed ∧
      ∃ looked, Found closeWindow ran.2.desktop looked .notStarted := by
  intro w refused ran
  have hanswer : (probeEffect closeWindow ran.2).1 = .notStarted := by decide +kernel
  obtain ⟨_, _, looked, -, -, -, -, hfound, -⟩ :=
    probe_spec ⟨[], .default⟩ false [⟨closeWindow, true, 0⟩] w closeWindow
  refine ⟨by decide +kernel, ?_, by decide +kernel, looked, ?_⟩
  · rw [hanswer]
    rfl
  · rw [← hanswer]
    exact hfound

end AuraLauncher.App
