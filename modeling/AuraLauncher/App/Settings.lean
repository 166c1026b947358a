import AuraLauncher.App.Config
import AuraLauncher.Lib.Machine
import Mathlib.Logic.Function.Basic

/-!
# Two changes of a setting

A setting is changed by loading the whole configuration, changing one field and saving the whole
of it again, modelled from `settings_ui.rs` (`apply`) and `management.rs` (`apply_setting` and the
handlers of the management window) of the application. The first runs on a thread of its own and
the second on the thread of the window, and nothing keeps the load of one from falling between the
load and the save of the other.

* `Change` — one change: its key and what it does to a configuration, which depends on the value
  under the key and touches nothing else.
* `settingsChange`, `managementChange` — the changes of the two handlers.
* `handlers` — the machine of the two, a step being one load or one save.
* `Holds` — the file holds a configuration: it loads as it, now and after the load.
* `finished_cases` — the six runs of the two handlers, and what the file holds after each.
* `keepsBoth_iff` — when the file ends with both changes.
* `capturedCombo` — the combination that the window makes of a key event; `captured_spec` — the
  hotkey that the launcher has with it.

Left out are what the handlers do besides: the audit ledger, the status lines, and the registration
of the autostart.
-/

namespace AuraLauncher.App

open AuraLauncher.Domain AuraLauncher.Lib

/-! ## Changes -/

/-- The fields of the configuration that the two handlers change. -/
inductive SettingKey
  | hotkey
  | autostart
  | indexDirs
  | resultLimit
  | watchEnabled
  | themeMode
deriving DecidableEq, Repr

/-- The value of a field. -/
inductive SettingValue
  | text (s : String)
  | flag (b : Bool)
  | texts (ss : List String)
  | number (n : UInt64)
deriving DecidableEq, Repr

/-- The value under a key. -/
def AppConfig.setting (cfg : AppConfig) : SettingKey → SettingValue
  | .hotkey => .text cfg.hotkey
  | .autostart => .flag cfg.autostart
  | .indexDirs => .texts cfg.indexDirs
  | .resultLimit => .number cfg.resultLimit
  | .watchEnabled => .flag cfg.watchEnabled
  | .themeMode => .text cfg.themeMode

/-- A change of one setting. -/
structure Change where
  key : SettingKey
  mutate : AppConfig → AppConfig
  /-- The other settings stay. -/
  frame : ∀ cfg k, k ≠ key → (mutate cfg).setting k = cfg.setting k
  /-- The new value depends on the old value alone. -/
  congr : ∀ cfg cfg', cfg.setting key = cfg'.setting key →
    (mutate cfg).setting key = (mutate cfg').setting key

/-- Source: `settings_ui.rs`, `next_theme`. -/
def nextTheme (current : String) : String :=
  if current = "light" then "system" else if current = "system" then "dark" else "light"

/-- The theme, set to what `f` makes of it. -/
def changeTheme (f : String → String) : Change where
  key := .themeMode
  mutate cfg := { cfg with themeMode := f cfg.themeMode }
  frame cfg k hk := by cases k <;> first | rfl | exact absurd rfl hk
  congr cfg cfg' h := congrArg (fun s => SettingValue.text (f s)) (SettingValue.text.inj h)

/-- The autostart, set to what `f` makes of it. -/
def changeAutostart (f : Bool → Bool) : Change where
  key := .autostart
  mutate cfg := { cfg with autostart := f cfg.autostart }
  frame cfg k hk := by cases k <;> first | rfl | exact absurd rfl hk
  congr cfg cfg' h := congrArg (fun b => SettingValue.flag (f b)) (SettingValue.flag.inj h)

/-- The index directories, set to what `f` makes of them. -/
def changeIndexDirs (f : List String → List String) : Change where
  key := .indexDirs
  mutate cfg := { cfg with indexDirs := f cfg.indexDirs }
  frame cfg k hk := by cases k <;> first | rfl | exact absurd rfl hk
  congr cfg cfg' h := congrArg (fun ds => SettingValue.texts (f ds)) (SettingValue.texts.inj h)

/-- The index directories without those of one identity. -/
def removeIndexDir (std : RustStd) (dir : String) : Change :=
  changeIndexDirs fun ds => ds.filter fun d => normalizePathIdentity std d != dir

/-- The watching, set to a value. -/
def setWatchEnabled (new : Bool) : Change where
  key := .watchEnabled
  mutate cfg := { cfg with watchEnabled := new }
  frame cfg k hk := by cases k <;> first | rfl | exact absurd rfl hk
  congr _ _ _ := rfl

/-- The number of results, set to a value. -/
def setResultLimit (n : UInt64) : Change where
  key := .resultLimit
  mutate cfg := { cfg with resultLimit := n }
  frame cfg k hk := by cases k <;> first | rfl | exact absurd rfl hk
  congr _ _ _ := rfl

/-- The hotkey, set to a combination. -/
def setHotkey (combo : String) : Change where
  key := .hotkey
  mutate cfg := { cfg with hotkey := combo }
  frame cfg k hk := by cases k <;> first | rfl | exact absurd rfl hk
  congr _ _ _ := rfl

/-- The change that a target of the settings commands stands for; `ai` and `config` change nothing
and other targets are refused. Source: `settings_ui.rs`, `apply`. -/
def settingsChange (std : RustStd) (target : String) : Option Change :=
  if target = "theme" then some (changeTheme nextTheme)
  else if target = "autostart" then some (changeAutostart (!·))
  else (stripPrefix "index:" target).map (removeIndexDir std)

/-- What the user does in the management window. -/
inductive ManagementEvent
  | toggled (key : String) (new : Bool)
  | selected (key option : String)
  | number (key : String) (v : Int32)
  | captured (key combo : String)
  | resetDefault (key : String)
deriving DecidableEq, Repr

/-- The change that an event of the management window makes. Source: `management.rs`, `wire`. -/
def managementChange : ManagementEvent → Option Change
  | .toggled key new =>
      if key = "autostart" then some (changeAutostart fun _ => new)
      else if key = "watch_enabled" then some (setWatchEnabled new)
      else none
  | .selected key option => if key = "theme_mode" then some (changeTheme fun _ => option) else none
  | .number key v =>
      if key = "result_limit" then
        some (setResultLimit (UInt64.ofNat (max 4 (min v.toInt 16)).toNat))
      else none
  | .captured key combo => if key = "hotkey" then some (setHotkey combo) else none
  | .resetDefault key => if key = "hotkey" then some (setHotkey "Ctrl+Space") else none

/-! ## The two handlers -/

/-- Who changes a setting. -/
inductive Handler
  | settingsUi
  | management
deriving DecidableEq, Repr

/-- The one that is not this one. -/
def Handler.other : Handler → Handler
  | .settingsUi => .management
  | .management => .settingsUi

@[simp] theorem Handler.other_other (h : Handler) : h.other.other = h := by cases h <;> rfl

@[simp] theorem Handler.other_ne (h : Handler) : h.other ≠ h := by cases h <;> decide

theorem Handler.eq_or_eq_other (h h' : Handler) : h' = h ∨ h' = h.other := by
  cases h <;> cases h' <;> decide

/-- How far a handler is. -/
inductive Phase
  | waiting
  | loaded (cfg : AppConfig)
  | done
  | failed
deriving DecidableEq, Repr

/-- The file and the two handlers. -/
structure Changing where
  file : ConfigFile
  phase : Handler → Phase

/-- Before both changes. -/
def Changing.start (file : ConfigFile) : Changing := ⟨file, fun _ => .waiting⟩

/-- One handler goes on to another phase, leaving the file like this. -/
def Changing.move (s : Changing) (h : Handler) (p : Phase) (file : ConfigFile) : Changing :=
  ⟨file, Function.update s.phase h p⟩

section move

variable (s : Changing) (h : Handler) (p : Phase) (file : ConfigFile)

@[simp] theorem Changing.file_move : (s.move h p file).file = file := rfl

@[simp] theorem Changing.phase_move_self : (s.move h p file).phase h = p := by
  simp [Changing.move]

@[simp] theorem Changing.phase_move_other :
    (s.move h p file).phase h.other = s.phase h.other := by
  simp [Changing.move]

@[simp] theorem Changing.phase_move_of_other :
    (s.move h.other p file).phase h = s.phase h := by
  simp [Changing.move, Function.update_of_ne (Handler.other_ne h).symm]

end move

/-- Both handlers have returned. -/
def Changing.Finished (s : Changing) : Prop := ∀ h, s.phase h = .done ∨ s.phase h = .failed

/-- One handler's load, with the change of what was loaded, or its save. Source: `settings_ui.rs`,
`apply`, and `management.rs`, `apply_setting`. -/
def handlers (T : TomlCrate) (change : Handler → Change) : Machine Changing Handler where
  step s h :=
    match s.phase h with
    | .waiting =>
        match loadOrCreate T s.file with
        | (.ok cfg, file) => some (s.move h (.loaded ((change h).mutate cfg)) file)
        | (.error _, file) => some (s.move h .failed file)
    | .loaded cfg =>
        match save T cfg s.file with
        | (.ok _, file) => some (s.move h .done file)
        | (.error _, file) => some (s.move h .failed file)
    | _ => none

/-! ## What the file holds -/

/-- The file loads as the configuration, now and after the load. -/
def Holds (T : TomlCrate) (file : ConfigFile) (cfg : AppConfig) : Prop :=
  ∃ file', loadOrCreate T file = (.ok cfg, file') ∧ loadOrCreate T file' = (.ok cfg, file')

section steps

variable {T : TomlCrate} {change : Handler → Change} {s : Changing} {h : Handler} {cfg : AppConfig}

theorem Holds.eq {file : ConfigFile} {cfg' : AppConfig} (hc : Holds T file cfg)
    (hc' : Holds T file cfg') : cfg = cfg' := by
  obtain ⟨file₁, hload, -⟩ := hc
  obtain ⟨file₂, hload', -⟩ := hc'
  exact Except.ok.inj (congrArg Prod.fst (hload.symm.trans hload'))

/-- A file holds what it loads as. -/
theorem holds_of_load {file : ConfigFile} (hdflt : T.Keeps .dflt)
    (hload : (loadOrCreate T file).1 = .ok cfg) : Holds T file cfg := by
  obtain ⟨cfg', hload', hagain⟩ := loadOrCreate_spec T hdflt file
  obtain rfl := Except.ok.inj (hload'.symm.trans hload)
  exact ⟨_, Prod.ext hload rfl, hagain⟩

theorem step_waiting (change : Handler → Change) (hphase : s.phase h = .waiting)
    (hfile : Holds T s.file cfg) : ∃ file, Holds T file cfg ∧
      (handlers T change).step s h = some (s.move h (.loaded ((change h).mutate cfg)) file) := by
  obtain ⟨file, hload, hagain⟩ := hfile
  refine ⟨file, ⟨file, hagain, hagain⟩, ?_⟩
  simp only [handlers, hphase, hload]

theorem step_loaded (change : Handler → Change) (hphase : s.phase h = .loaded cfg)
    (hkeeps : T.Keeps cfg) : ∃ file, Holds T file cfg ∧
      (handlers T change).step s h = some (s.move h .done file) := by
  obtain ⟨hok, hload⟩ := loadOrCreate_save T hkeeps s.file
  refine ⟨(save T cfg s.file).2, ⟨_, hload, hload⟩, ?_⟩
  have hsave : save T cfg s.file = (.ok (), (save T cfg s.file).2) := Prod.ext hok rfl
  simp only [handlers, hphase]
  rw [hsave]

theorem step_done (hphase : s.phase h = .done) : (handlers T change).step s h = none := by
  simp only [handlers, hphase]

end steps

/-! ## The runs of the two handlers -/

/-- The configurations that are written while the two changes are made. -/
def written (change : Handler → Change) (cfg : AppConfig) : List AppConfig :=
  [.dflt, (change .settingsUi).mutate cfg, (change .management).mutate cfg,
    (change .settingsUi).mutate ((change .management).mutate cfg),
    (change .management).mutate ((change .settingsUi).mutate cfg)]

section runs

variable {T : TomlCrate} {change : Handler → Change} {file : ConfigFile} {cfg : AppConfig}

theorem keeps_once (hkeeps : ∀ c ∈ written change cfg, T.Keeps c) (h : Handler) :
    T.Keeps ((change h).mutate cfg) := by
  cases h <;> exact hkeeps _ (by simp [written])

theorem keeps_twice (hkeeps : ∀ c ∈ written change cfg, T.Keeps c) (h : Handler) :
    T.Keeps ((change h.other).mutate ((change h).mutate cfg)) := by
  cases h <;> exact hkeeps _ (by simp [written, Handler.other])

variable {s t : Changing} {turns : List Handler} {h : Handler} {c : AppConfig}

/-- A handler that has not returned takes another step. -/
theorem exists_turn (hrun : (handlers T change).run s turns = some t) (hfinished : t.Finished)
    (hphase : s.phase h ≠ .done) (hphase' : s.phase h ≠ .failed) :
    ∃ h' rest s', turns = h' :: rest ∧ (handlers T change).step s h' = some s' ∧
      (handlers T change).run s' rest = some t := by
  cases turns with
  | nil =>
      obtain rfl := Option.some.inj hrun
      exact absurd (hfinished h) (not_or.mpr ⟨hphase, hphase'⟩)
  | cons h' rest =>
      obtain ⟨s', hstep, hrest⟩ := (handlers T change).run_cons_eq_some.mp hrun
      exact ⟨h', rest, s', rfl, hstep, hrest⟩

/-- Handlers that have returned take no more steps. -/
theorem eq_nil_of_done (hdone : s.phase h = .done) (hdone' : s.phase h.other = .done)
    (hrun : (handlers T change).run s turns = some t) : turns = [] ∧ t = s := by
  cases turns with
  | nil => exact ⟨rfl, (Option.some.inj hrun).symm⟩
  | cons h' turns =>
      obtain ⟨s', hstep, -⟩ := (handlers T change).run_cons_eq_some.mp hrun
      have hnone : (handlers T change).step s h' = none := by
        rcases h.eq_or_eq_other h' with rfl | rfl
        · exact step_done hdone
        · exact step_done hdone'
      rw [hnone] at hstep
      cases hstep

/-- The last save. -/
theorem last_save (hdone : s.phase h = .done) (hloaded : s.phase h.other = .loaded c)
    (hkeeps : T.Keeps c) (hrun : (handlers T change).run s turns = some t)
    (hfinished : t.Finished) : turns = [h.other] ∧ Holds T t.file c := by
  obtain ⟨h', rest, s', rfl, hstep, hrest⟩ :=
    exists_turn (h := h.other) hrun hfinished (by simp [hloaded]) (by simp [hloaded])
  rcases h.eq_or_eq_other h' with rfl | rfl
  · rw [step_done hdone] at hstep
    cases hstep
  · obtain ⟨f, hholds, hstep'⟩ := step_loaded change hloaded hkeeps
    obtain rfl := Option.some.inj (hstep'.symm.trans hstep)
    obtain ⟨rfl, rfl⟩ := eq_nil_of_done (h := h) (by simpa using hdone) (by simp) hrest
    exact ⟨rfl, hholds⟩

/-- One handler has returned before the other begins. -/
theorem load_and_save (hdone : s.phase h = .done) (hwaiting : s.phase h.other = .waiting)
    (hfile : Holds T s.file c) (hkeeps : T.Keeps ((change h.other).mutate c))
    (hrun : (handlers T change).run s turns = some t) (hfinished : t.Finished) :
    turns = [h.other, h.other] ∧ Holds T t.file ((change h.other).mutate c) := by
  obtain ⟨h', rest, s', rfl, hstep, hrest⟩ :=
    exists_turn (h := h.other) hrun hfinished (by simp [hwaiting]) (by simp [hwaiting])
  rcases h.eq_or_eq_other h' with rfl | rfl
  · rw [step_done hdone] at hstep
    cases hstep
  · obtain ⟨f, -, hstep'⟩ := step_waiting change hwaiting hfile
    obtain rfl := Option.some.inj (hstep'.symm.trans hstep)
    obtain ⟨rfl, hholds⟩ := last_save (h := h) (by simpa using hdone) (by simp) hkeeps hrest
      hfinished
    exact ⟨rfl, hholds⟩

/-- Both handlers have loaded: the one that saves last leaves its change alone. -/
theorem both_loaded (hloaded : ∀ h', s.phase h' = .loaded ((change h').mutate c))
    (hkeeps : ∀ h', T.Keeps ((change h').mutate c))
    (hrun : (handlers T change).run s turns = some t) (hfinished : t.Finished) :
    ∃ h', turns = [h', h'.other] ∧ Holds T t.file ((change h'.other).mutate c) := by
  obtain ⟨h', rest, s', rfl, hstep, hrest⟩ :=
    exists_turn (h := .management) hrun hfinished (by simp [hloaded]) (by simp [hloaded])
  obtain ⟨f, -, hstep'⟩ := step_loaded change (hloaded h') (hkeeps h')
  obtain rfl := Option.some.inj (hstep'.symm.trans hstep)
  obtain ⟨rfl, hholds⟩ := last_save (h := h') (by simp)
    ((Changing.phase_move_other s h' .done f).trans (hloaded h'.other)) (hkeeps h'.other) hrest
    hfinished
  exact ⟨h', rfl, hholds⟩

/-- **The six runs of the two handlers.** Either one handler has saved before the other loads, or
both load what there was, and the one that saves last leaves its change alone. -/
theorem finished_cases (hfile : Holds T file cfg) (hkeeps : ∀ c ∈ written change cfg, T.Keeps c)
    (hrun : (handlers T change).run (.start file) turns = some t) (hfinished : t.Finished) :
    ∃ h : Handler,
      turns = [h, h, h.other, h.other] ∧
          Holds T t.file ((change h.other).mutate ((change h).mutate cfg)) ∨
        (∃ h' : Handler, turns = [h', h'.other, h, h.other]) ∧
          Holds T t.file ((change h.other).mutate cfg) := by
  obtain ⟨h, rest, s', rfl, hstep, hrest⟩ := exists_turn (h := .management) hrun hfinished
    (by simp [Changing.start]) (by simp [Changing.start])
  obtain ⟨f, hholds, hstep'⟩ := step_waiting (s := .start file) (h := h) change rfl hfile
  obtain rfl := Option.some.inj (hstep'.symm.trans hstep)
  obtain ⟨h₂, rest, s₂, rfl, hstep₂, hrest⟩ := exists_turn (h := h) hrest hfinished
    (by simp) (by simp)
  have hother : ((Changing.start file).move h (.loaded ((change h).mutate cfg)) f).phase h.other =
      .waiting := Changing.phase_move_other _ h _ f
  rcases h.eq_or_eq_other h₂ with rfl | rfl
  · -- the first handler saves before the other loads
    obtain ⟨f₂, hholds₂, hstep₂'⟩ := step_loaded change (Changing.phase_move_self _ h₂ _ f)
      (keeps_once hkeeps h₂)
    obtain rfl := Option.some.inj (hstep₂'.symm.trans hstep₂)
    obtain ⟨rfl, hfinal⟩ := load_and_save (h := h₂) (by simp) (by simpa using hother) hholds₂
      (keeps_twice hkeeps h₂) hrest hfinished
    exact ⟨h₂, .inl ⟨rfl, hfinal⟩⟩
  · -- both handlers load before either saves
    obtain ⟨f₂, -, hstep₂'⟩ := step_waiting change hother hholds
    obtain rfl := Option.some.inj (hstep₂'.symm.trans hstep₂)
    obtain ⟨h₃, rfl, hfinal⟩ := both_loaded (c := cfg) (fun h' => by
      rcases h.eq_or_eq_other h' with rfl | rfl <;> simp) (keeps_once hkeeps) hrest hfinished
    exact ⟨h₃, .inr ⟨⟨h, rfl⟩, hfinal⟩⟩

/-- The run in which both handlers load before either saves. -/
theorem exists_overlapping_run (hfile : Holds T file cfg)
    (hkeeps : ∀ c ∈ written change cfg, T.Keeps c) (h : Handler) :
    ∃ t, (handlers T change).run (.start file) [h, h.other, h, h.other] = some t ∧ t.Finished ∧
      Holds T t.file ((change h.other).mutate cfg) := by
  obtain ⟨f₁, hholds₁, hstep₁⟩ := step_waiting (s := .start file) (h := h) change rfl hfile
  let s₁ := (Changing.start file).move h (.loaded ((change h).mutate cfg)) f₁
  have hother₁ : s₁.phase h.other = .waiting := Changing.phase_move_other _ h _ f₁
  obtain ⟨f₂, -, hstep₂⟩ := step_waiting (s := s₁) change hother₁ hholds₁
  let s₂ := s₁.move h.other (.loaded ((change h.other).mutate cfg)) f₂
  have hphase₂ : s₂.phase h = .loaded ((change h).mutate cfg) :=
    (Changing.phase_move_of_other s₁ h _ f₂).trans (Changing.phase_move_self _ h _ f₁)
  obtain ⟨f₃, -, hstep₃⟩ := step_loaded change hphase₂ (keeps_once hkeeps h)
  let s₃ := s₂.move h .done f₃
  have hother₃ : s₃.phase h.other = .loaded ((change h.other).mutate cfg) :=
    (Changing.phase_move_other s₂ h _ f₃).trans (Changing.phase_move_self s₁ h.other _ f₂)
  obtain ⟨f₄, hholds₄, hstep₄⟩ := step_loaded change hother₃ (keeps_once hkeeps h.other)
  refine ⟨s₃.move h.other .done f₄, ?_, fun h' => ?_, hholds₄⟩
  · rw [Machine.run_cons, hstep₁, Option.bind_some, Machine.run_cons, hstep₂, Option.bind_some,
      Machine.run_cons, hstep₃, Option.bind_some, Machine.run_cons, hstep₄, Option.bind_some]
    rfl
  · rcases h.eq_or_eq_other h' with rfl | rfl
    · exact .inl ((Changing.phase_move_of_other s₃ h' _ f₄).trans
        (Changing.phase_move_self s₂ h' _ f₃))
    · exact .inl (Changing.phase_move_self s₃ h.other _ f₄)

end runs

/-! ## Both changes -/

/-- The file has under the key of the change what the change makes of a configuration. -/
def Made (T : TomlCrate) (c : Change) (cfg : AppConfig) (file : ConfigFile) : Prop :=
  ∃ cfg', (loadOrCreate T file).1 = .ok cfg' ∧
    cfg'.setting c.key = (c.mutate cfg).setting c.key

/-- The file has both changes of a configuration. -/
def KeepsBoth (T : TomlCrate) (change : Handler → Change) (cfg : AppConfig) (file : ConfigFile) :
    Prop := ∀ h, Made T (change h) cfg file

/-- One of the handlers has saved before the other loads. -/
def Serial (turns : List Handler) : Prop := ∃ h : Handler, turns = [h, h, h.other, h.other]

/-- Both handlers load before either saves, and this one saves first. -/
def SavesFirst (h : Handler) (turns : List Handler) : Prop :=
  ∃ h' : Handler, turns = [h', h'.other, h, h.other]

theorem Holds.made_iff {T : TomlCrate} {file : ConfigFile} {cfg cfg' : AppConfig} {c : Change}
    (h : Holds T file cfg') :
    Made T c cfg file ↔ cfg'.setting c.key = (c.mutate cfg).setting c.key := by
  obtain ⟨file', hload, -⟩ := h
  constructor
  · rintro ⟨cfg'', hload', hmade⟩
    rw [hload] at hload'
    exact Except.ok.inj hload' ▸ hmade
  · intro hmade
    exact ⟨cfg', by rw [hload], hmade⟩

/-- **When the file ends with both changes.** After every run of the two handlers to their ends,
it does exactly if one handler has saved before the other loads, or the change of the handler that
saves first is none. -/
theorem keepsBoth_iff (T : TomlCrate) (change : Handler → Change)
    (hkeys : (change .settingsUi).key ≠ (change .management).key) {file : ConfigFile}
    {cfg : AppConfig} (hload : (loadOrCreate T file).1 = .ok cfg)
    (hkeeps : ∀ c ∈ written change cfg, T.Keeps c) {turns : List Handler} {t : Changing}
    (hrun : (handlers T change).run (.start file) turns = some t) (hfinished : t.Finished) :
    KeepsBoth T change cfg t.file ↔
      Serial turns ∨ ∃ h, SavesFirst h turns ∧
        ((change h).mutate cfg).setting (change h).key = cfg.setting (change h).key := by
  have hfile := holds_of_load (hkeeps _ List.mem_cons_self) hload
  have hne : ∀ h : Handler, (change h).key ≠ (change h.other).key := by
    intro h
    cases h
    · exact hkeys
    · exact hkeys.symm
  obtain ⟨h, ⟨rfl, hholds⟩ | ⟨⟨h', rfl⟩, hholds⟩⟩ := finished_cases hfile hkeeps hrun hfinished
  · refine iff_of_true (fun h' => hholds.made_iff.mpr ?_) (.inl ⟨h, rfl⟩)
    rcases h.eq_or_eq_other h' with rfl | rfl
    · exact (change h'.other).frame _ _ (hne h')
    · refine (change h.other).congr _ _ ?_
      exact (change h).frame _ _ (hne h).symm
  · have hlast : Made T (change h.other) cfg t.file := hholds.made_iff.mpr rfl
    have hfirst : Made T (change h) cfg t.file ↔
        ((change h).mutate cfg).setting (change h).key = cfg.setting (change h).key := by
      rw [hholds.made_iff, (change h.other).frame _ _ (hne h), eq_comm]
    constructor
    · intro hboth
      exact .inr ⟨h, ⟨h', rfl⟩, hfirst.mp (hboth h)⟩
    · rintro (⟨h₁, hturns⟩ | ⟨h₁, ⟨h₂, hturns⟩, hnone⟩) k
      · cases h' <;> cases h₁ <;> cases hturns
      · obtain rfl : h = h₁ := by
          simp only [List.cons.injEq] at hturns
          exact hturns.2.2.1
        rcases h.eq_or_eq_other k with rfl | rfl
        · exact hfirst.mpr hnone
        · exact hlast

/-! ## A lost change -/

/-- The text of a configuration that has the defaults but for the theme and the limit. -/
def plainText (themeMode : String) (resultLimit : ℕ) : String :=
  "hotkey = \"Ctrl+Space\"\ntheme_color = \"#4DA3FF\"\nautostart = false\nindex_dirs = []\n" ++
    "result_limit = " ++ toString resultLimit ++ "\nportable_roots = []\nwatch_enabled = true\n" ++
    "\"mcp.servers\" = []\ntheme_mode = \"" ++ themeMode ++ "\"\n"

/-- The four configurations that the change of the theme and the change of the limit lead to. -/
def plainConfigs : List (String × AppConfig) :=
  [(plainText "dark" 12, .dflt),
    (plainText "light" 12, { AppConfig.dflt with themeMode := "light" }),
    (plainText "dark" 8, { AppConfig.dflt with resultLimit := 8 }),
    (plainText "light" 8, { AppConfig.dflt with themeMode := "light", resultLimit := 8 })]

/-- The crate on these configurations. -/
def plainToml : TomlCrate where
  parse raw := some (.scalar raw)
  print
    | .scalar raw => some raw
    | _ => none
  decode raw := plainConfigs.lookup raw
  encode cfg :=
    match plainConfigs.find? fun p => decide (p.2 = cfg) with
    | some p => .ok p.1
    | none => .error ""

/-- The theme is switched while the window sets the number of results. -/
def themeAndLimit : Handler → Change
  | .settingsUi => changeTheme nextTheme
  | .management => setResultLimit 8

theorem keeps_plain {p : String × AppConfig} (hp : p ∈ plainConfigs) : plainToml.Keeps p.2 := by
  have hread : ∀ q ∈ plainConfigs, plainConfigs.lookup q.1 = some q.2 ∧
      (plainConfigs.find? fun r => decide (r.2 = q.2)) = some q := by
    decide +kernel
  obtain ⟨hlookup, hfind⟩ := hread p hp
  refine ⟨p.1, ?_, hlookup⟩
  simp only [plainToml, hfind]

theorem keeps_themeAndLimit : ∀ c ∈ written themeAndLimit .dflt, plainToml.Keeps c := by
  have hwritten : ∀ c ∈ written themeAndLimit .dflt, ∃ p ∈ plainConfigs, p.2 = c := by
    decide +kernel
  intro c hc
  obtain ⟨p, hp, rfl⟩ := hwritten c hc
  exact keeps_plain hp

/-- The configuration before the two changes. -/
theorem load_plain : (loadOrCreate plainToml (.text (plainText "dark" 12))).1 = .ok .dflt := by
  have hread : plainConfigs.lookup (plainText "dark" 12) = some .dflt := by decide +kernel
  simp [loadOrCreate, normalizeMcpTables, plainToml, hread]

/-- The run of the theme and the limit with both loads first, which ends without the theme. -/
theorem keepsBoth_iff_overlapping :
    ∃ t, (handlers plainToml themeAndLimit).run (.start (.text (plainText "dark" 12)))
        [.settingsUi, .management, .settingsUi, .management] = some t ∧
      (KeepsBoth plainToml themeAndLimit .dflt t.file ↔
        Serial [.settingsUi, .management, .settingsUi, .management] ∨
          ∃ h, SavesFirst h [.settingsUi, .management, .settingsUi, .management] ∧
            ((themeAndLimit h).mutate .dflt).setting (themeAndLimit h).key =
              AppConfig.dflt.setting (themeAndLimit h).key) := by
  have hfile := holds_of_load (keeps_themeAndLimit _ List.mem_cons_self) load_plain
  obtain ⟨t, hrun, hfinished, -⟩ := exists_overlapping_run hfile keeps_themeAndLimit .settingsUi
  exact ⟨t, hrun, keepsBoth_iff plainToml themeAndLimit (by decide) load_plain
    keeps_themeAndLimit hrun hfinished⟩

/-- The theme and the limit are changed at the same time, and the theme is lost. -/
theorem not_keepsBoth_overlapping :
    settingsChange .ascii "theme" = some (themeAndLimit .settingsUi) ∧
      managementChange (.number "result_limit" 8) = some (themeAndLimit .management) ∧
      ∃ t, (handlers plainToml themeAndLimit).run (.start (.text (plainText "dark" 12)))
          [.settingsUi, .management, .settingsUi, .management] = some t ∧
        t.Finished ∧ ¬KeepsBoth plainToml themeAndLimit .dflt t.file := by
  refine ⟨rfl, rfl, ?_⟩
  have hfile := holds_of_load (keeps_themeAndLimit _ List.mem_cons_self) load_plain
  obtain ⟨t, hrun, hfinished, hholds⟩ := exists_overlapping_run hfile keeps_themeAndLimit
    .settingsUi
  refine ⟨t, hrun, hfinished, fun hboth => ?_⟩
  have hmade := hholds.made_iff.mp (hboth .settingsUi)
  exact absurd hmade (by decide)

/-! ## A captured hotkey -/

/-- The change of one setting by the management window: the configuration is loaded, changed and
saved. Source: `management.rs`, `apply_setting`. -/
def applySetting (T : TomlCrate) (c : Change) (file : ConfigFile) :
    Except ConfigError Unit × ConfigFile :=
  match loadOrCreate T file with
  | (.error e, file) => (.error e, file)
  | (.ok cfg, file) => save T (c.mutate cfg) file

/-- The hotkey that the launcher registers when it starts with a file; none where the text is
refused. Source: `main.rs`, `register_hotkey`. -/
def registeredHotkey (T : TomlCrate) (file : ConfigFile) : Option ParsedHotkey :=
  match (loadOrCreate T file).1 with
  | .error _ => none
  | .ok cfg => (parseHotkey cfg.hotkey.toList).toOption

/-- What the capture of a key uses of the case of letters. -/
structure LetterCase where
  /-- `str::to_lowercase`. -/
  lower : List Char → List Char
  /-- `char::to_uppercase`. -/
  upper : Char → List Char

/-- The case of ASCII letters. -/
def LetterCase.ascii : LetterCase := ⟨List.map Char.toLower, fun c => [c.toUpper]⟩

/-- The modifiers that are held with a key. -/
structure HeldKeys where
  ctrl : Bool
  alt : Bool
  shift : Bool
  win : Bool
deriving DecidableEq, Repr

/-- The names under which a modifier comes as a key. Source: `management.rs`,
`normalize_main_key`. -/
def bareModifiers : List (List Char) :=
  ["control", "ctrl", "shift", "alt", "menu", "meta", "super", "windows", "system", "lwin",
    "rwin"].map String.toList

/-- The key of a combination, from the text of a key event; none for a modifier alone.
Source: `management.rs`, `normalize_main_key`. -/
def normalizeMainKey (L : LetterCase) (text : List Char) : Option (List Char) :=
  let t := trim text
  if t.isEmpty then none
  else if bareModifiers.contains (L.lower t) then none
  else
    some <|
      match t with
      | [' '] => "Space".toList
      | [c] => L.upper c
      | t => t

/-- A modifier that is held, before the rest of a combination. -/
def heldPart (isHeld : Bool) (name : String) (rest : List Char) : List Char :=
  if isHeld then name.toList ++ '+' :: rest else rest

/-- The text of a combination. Source: `management.rs`, the handler `on_setting_captured`. -/
def comboText (held : HeldKeys) (main : List Char) : List Char :=
  heldPart held.ctrl "Ctrl" (heldPart held.alt "Alt" (heldPart held.shift "Shift"
    (heldPart held.win "Win" main)))

/-- The combination that a key event is taken for. Source: `management.rs`, the handler
`on_setting_captured`. -/
def capturedCombo (L : LetterCase) (text : List Char) (held : HeldKeys) : Option (List Char) :=
  match normalizeMainKey L text with
  | none => none
  | some main =>
      if held.ctrl || held.alt || held.shift || held.win then some (comboText held main) else none

/-- The masks of the modifiers that are held. -/
def HeldKeys.mask (held : HeldKeys) : UInt32 :=
  (if held.ctrl then 2 else 0) ||| (if held.alt then 1 else 0) |||
    (if held.shift then 4 else 0) ||| (if held.win then 8 else 0)

/-- A hotkey with more modifiers. -/
def addModifiers (m : UInt32) (hotkey : ParsedHotkey) : ParsedHotkey :=
  { hotkey with modifiers := m ||| hotkey.modifiers }

theorem orAll_cons (m : UInt32) (ms : List UInt32) : orAll 0 (m :: ms) = m ||| orAll 0 ms := by
  have hassoc : ∀ a b : UInt32, orAll (a ||| b) ms = a ||| orAll b ms := by
    induction ms with
    | nil => exact fun a b => rfl
    | cons x xs ih =>
        intro a b
        have hstep : ∀ c, orAll c (x :: xs) = orAll (c ||| x) xs := fun _ => rfl
        rw [hstep, hstep, UInt32.or_assoc, ih]
  have hzero : (0 : UInt32) ||| m = m ||| 0 := UInt32.or_comm 0 m
  change orAll (0 ||| m) ms = m ||| orAll 0 ms
  rw [hzero, hassoc]

/-- A modifier in front of a text is added to what the text is parsed as. -/
theorem parseHotkey_modifier {name rest : List Char} {m : UInt32}
    (hplus : '+' ∉ name) (hmask : modifierMask (token name) = some m) :
    (parseHotkey (name ++ '+' :: rest)).toOption =
      (parseHotkey rest).toOption.map (addModifiers m) := by
  have htokens : tokens (name ++ '+' :: rest) = token name :: tokens rest := by
    rw [tokens, splitOn_append_cons _ _ rfl, splitOn_of_forall (forall_beq_eq_false hplus)]
    rfl
  have hne : ¬[] = token name := by
    intro h
    rw [← h] at hmask
    cases hmask
  have hok : ∀ hotkey, parseHotkey (name ++ '+' :: rest) = .ok hotkey ↔
      ∃ h, parseHotkey rest = .ok h ∧ addModifiers m h = hotkey := by
    intro hotkey
    simp only [parseHotkey_ok_iff, htokens, List.mem_cons, not_or, hne, not_false_eq_true, true_and,
      keyTokens_cons, hmask, Option.isNone_some, Bool.false_eq_true, if_false,
      masks_cons_some hmask, orAll_cons]
    constructor
    · rintro ⟨hempty, hkey, hmods⟩
      exact ⟨⟨orAll 0 (masks (tokens rest)), hotkey.vk⟩, ⟨hempty, hkey, rfl⟩, by
        rw [addModifiers, hmods]⟩
    · rintro ⟨h, ⟨hempty, hkey, hmods⟩, rfl⟩
      exact ⟨hempty, hkey, by rw [addModifiers, hmods]⟩
  cases hrest : parseHotkey rest with
  | ok h => rw [(hok _).mpr ⟨h, hrest, rfl⟩]; rfl
  | error e =>
      cases hall : parseHotkey (name ++ '+' :: rest) with
      | error e' => rfl
      | ok hotkey =>
          obtain ⟨h, hh, -⟩ := (hok _).mp hall
          rw [hh] at hrest
          cases hrest

theorem parseHotkey_heldPart (isHeld : Bool) (name : String) (rest : List Char) (m : UInt32)
    (hplus : '+' ∉ name.toList) (hmask : modifierMask (token name.toList) = some m) :
    (parseHotkey (heldPart isHeld name rest)).toOption =
      (parseHotkey rest).toOption.map (addModifiers (if isHeld then m else 0)) := by
  cases isHeld with
  | true => exact parseHotkey_modifier hplus hmask
  | false =>
      have hid : addModifiers 0 = id := funext fun h => by simp [addModifiers]
      change _ = Option.map (addModifiers 0) _
      rw [hid, Option.map_id]
      rfl

theorem addModifiers_comp (a b : UInt32) :
    addModifiers a ∘ addModifiers b = addModifiers (a ||| b) :=
  funext fun h => by simp [addModifiers, UInt32.or_assoc]

/-- A combination is parsed as its key is, with the modifiers that were held. -/
theorem parseHotkey_comboText (held : HeldKeys) (main : List Char) :
    (parseHotkey (comboText held main)).toOption =
      (parseHotkey main).toOption.map (addModifiers held.mask) := by
  have hwin := parseHotkey_heldPart held.win "Win" main 8 (by decide +kernel) (by decide +kernel)
  have hshift := fun rest => parseHotkey_heldPart held.shift "Shift" rest 4 (by decide +kernel)
    (by decide +kernel)
  have halt := fun rest => parseHotkey_heldPart held.alt "Alt" rest 1 (by decide +kernel)
    (by decide +kernel)
  have hctrl := fun rest => parseHotkey_heldPart held.ctrl "Ctrl" rest 2 (by decide +kernel)
    (by decide +kernel)
  rw [comboText, hctrl, halt, hshift, hwin, Option.map_map, Option.map_map, Option.map_map,
    addModifiers_comp, addModifiers_comp, addModifiers_comp, HeldKeys.mask, UInt32.or_assoc,
    UInt32.or_assoc]

/-- No name of a table with names of other lengths is one character. -/
theorem lookup_single (table : List (String × UInt32)) (h : ∀ p ∈ table, p.1.toList.length ≠ 1)
    (c : Char) : table.lookup (String.ofList [c]) = none := by
  refine List.lookup_eq_none_iff.mpr fun p hp => ?_
  simp only [bne_iff_ne, ne_eq]
  intro hc
  refine h p hp ?_
  rw [← hc, String.toList_ofList]
  rfl

/-- What the letters and digits of ASCII are. -/
theorem alphanum_spec {d : Char} (h : d.isAlphanum = true) :
    d.toLower.isAlphanum = true ∧ d.toLower.toUpper = d.toUpper ∧ isWhitespace d = false ∧
      (d == '+') = false := by
  have hlt : d.toNat < 128 := by
    have hle : ∀ n : UInt32, n.toNat < 128 → d.val ≤ n → d.toNat < 128 := fun n hn hd =>
      Nat.lt_of_le_of_lt (UInt32.le_iff_toNat_le.mp hd) hn
    have hrange : ∀ a n : UInt32, n.toNat < 128 →
        (decide (d.val ≥ a) && decide (d.val ≤ n)) = true → d.toNat < 128 := fun a n hn h =>
      hle n hn (of_decide_eq_true ((Bool.and_eq_true _ _).mp h).2)
    rcases (Bool.or_eq_true _ _).mp h with halpha | hdigit
    · rcases (Bool.or_eq_true _ _).mp halpha with hupper | hlower
      · exact hle 'Z'.val (by decide) (of_decide_eq_true hupper).2
      · exact hrange 'a'.val 'z'.val (by decide) hlower
    · exact hrange '0'.val '9'.val (by decide) hdigit
  have hall : ∀ n < 128, (Char.ofNat n).isAlphanum = true →
      (Char.ofNat n).toLower.isAlphanum = true ∧
        (Char.ofNat n).toLower.toUpper = (Char.ofNat n).toUpper ∧
        isWhitespace (Char.ofNat n) = false ∧ (Char.ofNat n == '+') = false := by
    decide +kernel
  have hd : Char.ofNat d.toNat = d := Char.ofNat_toNat d
  rw [← hd]
  exact hall d.toNat hlt (by rw [hd]; exact h)

theorem toLower_of_not_alphanum {d : Char} (h : d.isAlphanum = false) : d.toLower = d := by
  have hupper : ¬d.isUpper = true := fun hupper => by
    have halnum : d.isAlphanum = true :=
      (Bool.or_eq_true _ _).mpr (.inl ((Bool.or_eq_true _ _).mpr (.inl hupper)))
    rw [h] at halnum
    cases halnum
  unfold Char.toLower
  split_ifs with hrange
  · exact absurd (decide_eq_true hrange) hupper
  · rfl

/-- The token of a text of one character that is no separator and no white space. -/
theorem tokens_single {d : Char} (hspace : isWhitespace d = false) (hplus : (d == '+') = false) :
    tokens [d] = [[d.toLower]] := by
  have hsplit : splitOn (· == '+') [d] = [[d]] := splitOn_of_forall (by simpa using hplus)
  simp [tokens, hsplit, token, trim, hspace]

/-- A text of one character is a hotkey if it is a letter or a digit of ASCII. -/
theorem parseHotkey_single (d : Char) :
    (parseHotkey [d]).toOption = if d.isAlphanum then some ⟨0, d.toUpper.val⟩ else none := by
  have hmask : modifierMask [d.toLower] = none :=
    lookup_single modifierNames (by decide +kernel) d.toLower
  have hkeys : keyTokens [[d.toLower]] = [[d.toLower]] := by
    rw [keyTokens_cons, hmask]
    rfl
  have hmasks : masks [[d.toLower]] = [] := by
    rw [masks_cons_none hmask]
    rfl
  have hvk : namedKeyVk [d.toLower] =
      if d.toLower.isAlphanum then some d.toLower.toUpper.val else none := by
    have hlookup := lookup_single keyNames (by decide +kernel) d.toLower
    simp only [namedKeyVk, hlookup]
  cases halnum : d.isAlphanum with
  | true =>
      obtain ⟨hlower, hupper, hspace, hplus⟩ := alphanum_spec halnum
      have hok : parseHotkey [d] = .ok ⟨0, d.toUpper.val⟩ := by
        rw [parseHotkey_ok_iff, tokens_single hspace hplus, hkeys, hmasks]
        refine ⟨by simp, ⟨_, rfl, ?_⟩, rfl⟩
        rw [hvk, if_pos hlower, hupper]
      rw [hok]
      rfl
  | false =>
      cases hparse : parseHotkey [d] with
      | error e => rfl
      | ok hotkey =>
          obtain ⟨hempty, ⟨key, hkey, hcode⟩, -⟩ := (parseHotkey_ok_iff _ _).mp hparse
          exfalso
          cases hplus : d == '+' with
          | true =>
              obtain rfl := eq_of_beq hplus
              exact hempty (by decide +kernel)
          | false =>
              cases hspace : isWhitespace d with
              | true =>
                  refine hempty ?_
                  have hsplit : splitOn (· == '+') [d] = [[d]] :=
                    splitOn_of_forall (by simpa using hplus)
                  simp [tokens, hsplit, token, trim, hspace]
              | false =>
                  rw [tokens_single hspace hplus, hkeys] at hkey
                  obtain rfl := (List.cons.inj hkey).1
                  rw [hvk, toLower_of_not_alphanum halnum, halnum] at hcode
                  cases hcode

/-- What is left of a text by trimming is no space. -/
theorem trim_ne_space (text : List Char) : trim text ≠ [' '] := by
  intro h
  have hrev : (text.dropWhile isWhitespace).reverse.dropWhile isWhitespace = [' '] := by
    rw [trim] at h
    simpa using congrArg List.reverse h
  have hne : (text.dropWhile isWhitespace).reverse.dropWhile isWhitespace ≠ [] := by
    rw [hrev]
    exact List.cons_ne_nil _ _
  have hhead := List.head_dropWhile_not isWhitespace hne
  simp only [hrev, List.head_cons] at hhead
  exact absurd hhead (by decide)

/-- When a key event is taken for no combination. -/
theorem capturedCombo_eq_none_iff (L : LetterCase) (text : List Char) (held : HeldKeys) :
    capturedCombo L text held = none ↔
      trim text = [] ∨ L.lower (trim text) ∈ bareModifiers ∨
        held = ⟨false, false, false, false⟩ := by
  obtain ⟨ctrl, alt, shift, win⟩ := held
  by_cases hempty : trim text = []
  · simp [capturedCombo, normalizeMainKey, hempty]
  · by_cases hbare : L.lower (trim text) ∈ bareModifiers
    · simp [capturedCombo, normalizeMainKey, hempty, hbare]
    · cases ctrl <;> cases alt <;> cases shift <;> cases win <;>
        simp [capturedCombo, normalizeMainKey, hempty, hbare]

/-- The combination of a captured key. -/
theorem capturedCombo_eq_some {L : LetterCase} {text combo : List Char} {held : HeldKeys}
    (h : capturedCombo L text held = some combo) :
    ∃ main, normalizeMainKey L text = some main ∧ combo = comboText held main := by
  unfold capturedCombo at h
  split at h
  · cases h
  · rename_i main hmain
    split_ifs at h
    exact ⟨main, hmain, (Option.some.inj h).symm⟩

/-- The key of one character is its upper case. -/
theorem normalizeMainKey_single {L : LetterCase} {text main : List Char} {c : Char}
    (hmain : normalizeMainKey L text = some main) (hc : trim text = [c]) : main = L.upper c := by
  have hspace : c ≠ ' ' := fun h => trim_ne_space text (h ▸ hc)
  simp only [normalizeMainKey, hc] at hmain
  split_ifs at hmain
  -- the arm of the space is not reached, by `hspace`
  exact (Option.some.inj hmain).symm

/-- What is loaded after a change is what it makes of the configuration before. -/
theorem load_applySetting {T : TomlCrate} {c : Change} {file : ConfigFile} {cfg : AppConfig}
    (hload : (loadOrCreate T file).1 = .ok cfg) (hkeeps : T.Keeps (c.mutate cfg)) :
    (loadOrCreate T (applySetting T c file).2).1 = .ok (c.mutate cfg) := by
  cases hpair : loadOrCreate T file with
  | mk result file' =>
      rw [hpair] at hload
      simp only at hload
      subst hload
      simp only [applySetting, hpair, (loadOrCreate_save T hkeeps file').2]

/-- **From the capture of a key to the hotkey.** A key event is taken for no combination if its
text is white space, as that of the space bar is, or a modifier, or no modifier is held. The
combination it is taken for is saved, and with it the launcher starts with the hotkey that the key
alone is parsed as, and the modifiers that were held; with none where the key is not parsed. A key
of one character is parsed if its upper case is a letter or a digit of ASCII, and no other is. -/
theorem captured_spec (L : LetterCase) (T : TomlCrate) (text : List Char) (held : HeldKeys)
    {file : ConfigFile} {cfg : AppConfig} (hload : (loadOrCreate T file).1 = .ok cfg) :
    (capturedCombo L text held = none ↔
      trim text = [] ∨ L.lower (trim text) ∈ bareModifiers ∨
        held = ⟨false, false, false, false⟩) ∧
    ∀ combo, capturedCombo L text held = some combo →
      T.Keeps ((setHotkey (String.ofList combo)).mutate cfg) →
      (∃ main, normalizeMainKey L text = some main ∧
        registeredHotkey T (applySetting T (setHotkey (String.ofList combo)) file).2 =
          (parseHotkey main).toOption.map (addModifiers held.mask)) ∧
      ∀ c d, trim text = [c] → L.upper c = [d] →
        registeredHotkey T (applySetting T (setHotkey (String.ofList combo)) file).2 =
          if d.isAlphanum then some ⟨held.mask, d.toUpper.val⟩ else none := by
  refine ⟨capturedCombo_eq_none_iff L text held, fun combo hcombo hkeeps => ?_⟩
  obtain ⟨main, hmain, rfl⟩ := capturedCombo_eq_some hcombo
  have hregistered : registeredHotkey T
      (applySetting T (setHotkey (String.ofList (comboText held main))) file).2 =
        (parseHotkey main).toOption.map (addModifiers held.mask) := by
    rw [registeredHotkey, load_applySetting hload hkeeps]
    simp only [setHotkey, String.toList_ofList]
    exact parseHotkey_comboText held main
  refine ⟨⟨main, hmain, hregistered⟩, fun c d hc hd => ?_⟩
  obtain rfl : main = [d] := (normalizeMainKey_single hmain hc).trans hd
  rw [hregistered, parseHotkey_single]
  split_ifs
  · simp [addModifiers]
  · rfl

/-- A crate that writes of a configuration its hotkey, and reads it back. -/
def hotkeyToml : TomlCrate where
  parse _ := none
  print _ := none
  decode raw := some { AppConfig.dflt with hotkey := raw }
  encode cfg := .ok cfg.hotkey

/-- A function key, whose text is one character of a private range, is saved as a combination with
which the launcher has no hotkey. -/
theorem captured_spec_functionKey :
    registeredHotkey hotkeyToml (applySetting hotkeyToml (setHotkey (String.ofList
      ("Ctrl+".toList ++ [ '\uF704']))) (.text "Ctrl+Space")).2 = none := by
  have hload : (loadOrCreate hotkeyToml (.text "Ctrl+Space")).1 = .ok .dflt := rfl
  have hcombo : capturedCombo .ascii [ '\uF704'] ⟨true, false, false, false⟩ =
      some ("Ctrl+".toList ++ [ '\uF704']) := by
    decide +kernel
  exact ((captured_spec .ascii hotkeyToml [ '\uF704'] ⟨true, false, false, false⟩ hload).2 _ hcombo
    ⟨_, rfl, rfl⟩).2 '\uF704' '\uF704' (by decide +kernel) (by decide +kernel)

end AuraLauncher.App
