import AuraLauncher.App.Settings
import AuraLauncher.Domain.PathSegments
import AuraLauncher.Search.Rank

/-!
# The settings as commands

`settings_ui.rs` of the application: the settings are shown as commands, each with a target that
`apply` understands. The target of the removal of an index directory has the directory as it is
written in the configuration, and `apply` compares it with the identities of the directories, so
that a directory that is not its own identity is not removed.

* `settingsCommands`, `removeIndexDirCommand` — the commands of a query.
* `applySettings` — what the host does with a target.
* `mem_indexDirs_of_published`, `published_of_wanted` — the directories with a command.
* `Removes`, `removes_iff` — what the removal should do, and when it does.
* `not_removes_docs` — a directory that stays.
-/

namespace AuraLauncher.App

open AuraLauncher.Domain AuraLauncher.Search

/-! ## The commands -/

/-- Source: `settings_ui.rs`, `base_cmd`. -/
def baseCmd (id title subtitle target : String) : SearchCommand where
  id := id
  providerId := "settings-ui"
  actions := [⟨.execute, none, some "apply", some "Apply", none, none, false⟩]
  title := title
  subtitle := some subtitle
  icon := none
  score := 0
  keywords := ["settings"]
  category := .command
  target := some target

/-- The command that removes an index directory. Source: `settings_ui.rs`, `settings_commands` (the
loop over the directories). -/
def removeIndexDirCommand (std : RustStd) (dir : String) : SearchCommand :=
  baseCmd ("settings:idx:" ++ normalizePathIdentity std dir)
    ("Settings · Remove index dir: " ++ dir) "takes effect after restart" ("index:" ++ dir)

/-- The commands before the query is looked at. Source: `settings_ui.rs`, `settings_commands`. -/
def allSettingsCommands (std : RustStd) (cfg : AppConfig) : List SearchCommand :=
  let themeNext := nextTheme cfg.themeMode
  let autostartLabel := if cfg.autostart then "Disable" else "Enable"
  let aiState :=
    match cfg.llm with
    | none => "AI Agent: not configured (add [llm] to config.toml)"
    | some l => "AI Agent: " ++ l.baseUrl ++ " / " ++ l.model ++ " · remote data " ++
        if l.allowRemoteData then "ENABLED" else "DISABLED (local-first)"
  [baseCmd "settings:ai" ("Settings · " ++ aiState)
      "click to open config.toml for [llm] / allow_remote_data" "ai",
    baseCmd "settings:theme" ("Settings · Theme: switch to " ++ themeNext)
      ("current: " ++ cfg.themeMode) "theme",
    baseCmd "settings:autostart" ("Settings · Autostart: " ++ autostartLabel) "launch on login"
      "autostart",
    baseCmd "settings:config" "Settings · Open config.toml"
      "edit advanced options (hotkey, index dirs, [llm])" "config"] ++
    cfg.indexDirs.map (removeIndexDirCommand std)

/-- The command goes with the words of the query; `lower` is `str::to_lowercase`. Source:
`settings_ui.rs`, `settings_commands` (the filter). -/
def isWanted (lower : String → String) (q : QueryContext) (c : SearchCommand) : Bool :=
  let titled := fun sub : String => hasSub sub.toList (lower c.title).toList
  let wants := fun kw : String => q.normalized.isEmpty || hasSub kw.toList q.normalized.toList
  (wants "theme" && titled "theme") || (wants "autostart" && titled "autostart") ||
    (wants "config" && titled "config") ||
    ((wants "index" || wants "dir") && titled "index dir") ||
    (splitWhitespace q.normalized.toList).all (· == "settings".toList) || q.normalized.isEmpty

/-- Source: `settings_ui.rs`, `settings_commands`. -/
def settingsCommands (std : RustStd) (lower : String → String) (q : QueryContext)
    (cfg : AppConfig) : List SearchCommand :=
  (allSettingsCommands std cfg).filter (isWanted lower q)

/-! ## Applying a target -/

/-- What `apply` fails with. -/
inductive SettingsError
  | config (e : ConfigError)
  | autostart (text : String)
  | unknownTarget (text : String)

/-- The line that is shown when a change is saved. -/
def changeStatus (target : String) (cfg : AppConfig) : String :=
  if target = "theme" then "Theme → " ++ cfg.themeMode ++ " (next popup open)"
  else if target = "autostart" then
    "Autostart " ++ if cfg.autostart then "enabled" else "disabled"
  else
    "Index dir removed (takes effect after restart): " ++ (stripPrefix "index:" target).getD ""

/-- The line that says what the agent is set to. -/
def aiStatus (cfg : AppConfig) : String :=
  match cfg.llm with
  | none => "AI Agent: not configured — add an [llm] section to config.toml"
  | some l => "AI Agent: " ++ l.baseUrl ++ " / " ++ l.model ++ " · remote data " ++
      if l.allowRemoteData then "ENABLED (data leaves machine)" else "DISABLED (local-first)"

variable (T : TomlCrate) (std : RustStd) (setAutostart : Bool → Except String Unit)

/-- The status line, and the file after it; `setAutostart` is the registration of the autostart.
Source: `settings_ui.rs`, `apply`. -/
def applySettings (target : String) (file : ConfigFile) :
    Except SettingsError String × ConfigFile :=
  match loadOrCreate T file with
  | (.error e, file) => (.error (.config e), file)
  | (.ok cfg, file) =>
      match settingsChange std target with
      | some change =>
          let cfg := change.mutate cfg
          match save T cfg file with
          | (.error e, file) => (.error (.config e), file)
          | (.ok _, file) =>
              match if target = "autostart" then setAutostart cfg.autostart else .ok () with
              | .error text => (.error (.autostart text), file)
              | .ok _ => (.ok (changeStatus target cfg), file)
      | none =>
          if target = "ai" then
            match loadOrCreate T file with
            | (.error e, file) => (.error (.config e), file)
            | (.ok cfg, file) => (.ok (aiStatus cfg), file)
          else if target = "config" then (.ok "Opened config.toml", file)
          else (.error (.unknownTarget ("unknown settings target: " ++ target)), file)

/-- The configuration without the index directories that have the identity of this one. -/
def AppConfig.withoutIndexDir (cfg : AppConfig) (dir : String) : AppConfig :=
  { cfg with indexDirs := cfg.indexDirs.filter fun d =>
      normalizePathIdentity std d != normalizePathIdentity std dir }

/-- The target is applied to the file, which then holds the configuration without the directory. -/
def Removes (cfg : AppConfig) (dir target : String) (file : ConfigFile) : Prop :=
  ∃ status file', applySettings T std setAutostart target file = (.ok status, file') ∧
    Holds T file' (cfg.withoutIndexDir std dir)

section removal

variable {T std} {cfg : AppConfig} {dir : String} {file : ConfigFile}

/-- A command that is published for a directory is that of a directory in the configuration. -/
theorem mem_indexDirs_of_published {lower : String → String} {q : QueryContext}
    (h : removeIndexDirCommand std dir ∈ settingsCommands std lower q cfg) :
    dir ∈ cfg.indexDirs := by
  have hid : ∀ id : String, "settings:idx:".toList.isPrefixOf id.toList = false →
      (removeIndexDirCommand std dir).id ≠ id := by
    rintro _ hno rfl
    rw [← Bool.not_eq_true, List.isPrefixOf_iff_prefix] at hno
    refine hno ?_
    simp only [removeIndexDirCommand, baseCmd, String.toList_append]
    exact List.prefix_append _ _
  rcases List.mem_append.mp (List.mem_filter.mp h).1 with hfixed | hdir
  · -- the other commands have other ids
    simp only [List.mem_cons, List.not_mem_nil, or_false] at hfixed
    rcases hfixed with heq | heq | heq | heq
    · exact absurd (congrArg (fun c => c.id) heq) (hid "settings:ai" (by decide))
    · exact absurd (congrArg (fun c => c.id) heq) (hid "settings:theme" (by decide))
    · exact absurd (congrArg (fun c => c.id) heq) (hid "settings:autostart" (by decide))
    · exact absurd (congrArg (fun c => c.id) heq) (hid "settings:config" (by decide))
  · obtain ⟨dir', hdir', heq⟩ := List.mem_map.mp hdir
    have htarget := congrArg SearchCommand.target heq
    simp only [removeIndexDirCommand, baseCmd, Option.some.injEq, String.append_right_inj]
      at htarget
    exact htarget ▸ hdir'

/-- A directory in the configuration has its command, if the query wants it. -/
theorem published_of_wanted {lower : String → String} {q : QueryContext}
    (hdir : dir ∈ cfg.indexDirs)
    (hwanted : isWanted lower q (removeIndexDirCommand std dir) = true) :
    removeIndexDirCommand std dir ∈ settingsCommands std lower q cfg :=
  List.mem_filter.mpr ⟨List.mem_append_right _ (List.mem_map_of_mem hdir), hwanted⟩

/-- The target of a removal stands for the removal of the text of the directory. -/
theorem settingsChange_index (dir : String) :
    settingsChange std ("index:" ++ dir) = some (removeIndexDir std dir) := by
  have hne : ∀ target : String, "index:".toList.isPrefixOf target.toList = false →
      "index:" ++ dir ≠ target := by
    rintro _ hno rfl
    rw [← Bool.not_eq_true, List.isPrefixOf_iff_prefix, String.toList_append] at hno
    exact hno (List.prefix_append _ _)
  have hstrip := stripPrefix_append "index:" dir.toList
  rw [← String.toList_append, String.ofList_toList, String.ofList_toList] at hstrip
  rw [settingsChange, if_neg (hne _ (by decide)), if_neg (hne _ (by decide)), hstrip,
    Option.map_some]

/-- **What the target of a removal does**: it leaves out the directories whose identity is the text
of the directory. -/
theorem applySettings_index (hfile : Holds T file cfg)
    (hkeeps : T.Keeps ((removeIndexDir std dir).mutate cfg)) :
    ∃ status file', applySettings T std setAutostart ("index:" ++ dir) file = (.ok status, file') ∧
      Holds T file' ((removeIndexDir std dir).mutate cfg) := by
  obtain ⟨file₁, hload, -⟩ := hfile
  obtain ⟨hok, hagain⟩ := loadOrCreate_save T hkeeps file₁
  have hsave : save T ((removeIndexDir std dir).mutate cfg) file₁ =
      (.ok (), (save T ((removeIndexDir std dir).mutate cfg) file₁).2) := Prod.ext hok rfl
  have hauto : ("index:" ++ dir : String) ≠ "autostart" := by
    intro h
    have hchars := congrArg String.toList h
    rw [String.toList_append] at hchars
    exact absurd (List.cons.inj hchars).1 (by decide)
  refine ⟨changeStatus ("index:" ++ dir) ((removeIndexDir std dir).mutate cfg),
    (save T ((removeIndexDir std dir).mutate cfg) file₁).2, ?_, _, hagain, hagain⟩
  unfold applySettings
  rw [hload]
  dsimp only
  rw [settingsChange_index]
  dsimp only
  rw [hsave, if_neg hauto]

/-- The directories that are left out are those with the identity of this one exactly when the
directory is its own identity. -/
theorem removeIndexDir_eq_iff (hdir : dir ∈ cfg.indexDirs) :
    (removeIndexDir std dir).mutate cfg = cfg.withoutIndexDir std dir ↔
      normalizePathIdentity std dir = dir := by
  constructor
  · intro heq
    by_contra hne
    have hdirs : (cfg.indexDirs.filter fun d => normalizePathIdentity std d != dir) =
        cfg.indexDirs.filter fun d =>
          normalizePathIdentity std d != normalizePathIdentity std dir :=
      congrArg AppConfig.indexDirs heq
    -- the directory itself stays
    have hstays : dir ∈ cfg.indexDirs.filter fun d => normalizePathIdentity std d != dir :=
      List.mem_filter.mpr ⟨hdir, by simpa using hne⟩
    rw [hdirs] at hstays
    simpa using (List.mem_filter.mp hstays).2
  · intro hself
    unfold AppConfig.withoutIndexDir
    rw [hself]
    rfl

theorem removes_of_own_identity (hfile : Holds T file cfg) (hdir : dir ∈ cfg.indexDirs)
    (hkeeps : T.Keeps ((removeIndexDir std dir).mutate cfg)) :
    Removes T std setAutostart cfg dir ("index:" ++ dir) file ↔
      normalizePathIdentity std dir = dir := by
  rw [← removeIndexDir_eq_iff hdir]
  obtain ⟨status, file', happly, hholds⟩ := applySettings_index setAutostart hfile hkeeps
  constructor
  · rintro ⟨status', file'', happly', hholds'⟩
    obtain rfl : file' = file'' := congrArg Prod.snd (happly.symm.trans happly')
    exact hholds.eq hholds'
  · intro heq
    exact ⟨status, file', happly, heq ▸ hholds⟩

end removal

/-- **The removal of an index directory** works from the command that is published for it exactly
when the directory is written as its own identity. -/
theorem removes_iff {cfg : AppConfig} {file : ConfigFile} (hfile : Holds T file cfg)
    {lower : String → String} {q : QueryContext} {dir : String}
    (hpublished : removeIndexDirCommand std dir ∈ settingsCommands std lower q cfg)
    (hkeeps : T.Keeps ((removeIndexDir std dir).mutate cfg)) :
    (∃ target, (removeIndexDirCommand std dir).target = some target ∧
        Removes T std setAutostart cfg dir target file) ↔ normalizePathIdentity std dir = dir := by
  rw [← removes_of_own_identity setAutostart hfile
    (mem_indexDirs_of_published hpublished) hkeeps]
  exact ⟨fun ⟨target, htarget, h⟩ => Option.some.inj htarget ▸ h, fun h => ⟨_, rfl, h⟩⟩

/-! ## A directory that stays -/

/-- The text of a configuration that has the defaults but for one index directory. -/
def dirText (dir : String) : String :=
  "theme_mode = \"dark\"\nindex_dirs = ['" ++ dir ++ "']\n"

/-- The configurations without and with an index directory. -/
def dirConfigs (dir : String) : List (String × AppConfig) :=
  [(plainText "dark" 12, .dflt), (dirText dir, { AppConfig.dflt with indexDirs := [dir] })]

/-- The crate on these configurations. -/
def dirToml (dir : String) : TomlCrate :=
  { plainToml with
    decode := fun raw => (dirConfigs dir).lookup raw
    encode := fun cfg =>
      match (dirConfigs dir).find? fun p => decide (p.2 = cfg) with
      | some p => .ok p.1
      | none => .error "" }

/-- The query for all settings. -/
def settingsQuery : QueryContext := ⟨"settings", "settings", ["settings"]⟩

/-- `str::to_lowercase` on the titles of the commands of these directories. -/
def asciiLower (s : String) : String := String.ofList (s.toList.map Char.toLower)

section dirs

variable {dir : String}

/-- The crate reads back what it writes if the two texts are different. -/
theorem keeps_dir (hread : ∀ p ∈ dirConfigs dir, (dirConfigs dir).lookup p.1 = some p.2 ∧
    ((dirConfigs dir).find? fun r => decide (r.2 = p.2)) = some p) {p : String × AppConfig}
    (hp : p ∈ dirConfigs dir) : (dirToml dir).Keeps p.2 := by
  obtain ⟨hlookup, hfind⟩ := hread p hp
  refine ⟨p.1, ?_, hlookup⟩
  simp only [dirToml, hfind]

/-- The text with the directory is read as the configuration with it. -/
theorem holds_dir (hread : ∀ p ∈ dirConfigs dir, (dirConfigs dir).lookup p.1 = some p.2 ∧
    ((dirConfigs dir).find? fun r => decide (r.2 = p.2)) = some p) :
    Holds (dirToml dir) (.text (dirText dir)) { AppConfig.dflt with indexDirs := [dir] } := by
  have hlookup : (dirConfigs dir).lookup (dirText dir) =
      some { AppConfig.dflt with indexDirs := [dir] } :=
    (hread _ (List.mem_cons_of_mem _ List.mem_cons_self)).1
  refine holds_of_load (keeps_dir hread List.mem_cons_self) ?_
  simp only [loadOrCreate, normalizeMcpTables, dirToml, plainToml, Option.getD_some, hlookup]

end dirs

/-- A directory that is written in lower case is removed. -/
theorem removes_iff_lower :
    (∃ target, (removeIndexDirCommand .ascii "c:\\docs").target = some target ∧
        Removes (dirToml "c:\\docs") .ascii (fun _ => .ok ())
          { AppConfig.dflt with indexDirs := ["c:\\docs"] } "c:\\docs" target
          (.text (dirText "c:\\docs"))) ↔
      normalizePathIdentity .ascii "c:\\docs" = "c:\\docs" := by
  have hread : ∀ p ∈ dirConfigs "c:\\docs", (dirConfigs "c:\\docs").lookup p.1 = some p.2 ∧
      ((dirConfigs "c:\\docs").find? fun r => decide (r.2 = p.2)) = some p := by
    decide +kernel
  have hpublished : removeIndexDirCommand .ascii "c:\\docs" ∈
      settingsCommands .ascii asciiLower settingsQuery
        { AppConfig.dflt with indexDirs := ["c:\\docs"] } :=
    published_of_wanted List.mem_cons_self (by decide +kernel)
  exact removes_iff _ _ _ (holds_dir hread) hpublished
    (keeps_dir hread (p := (plainText "dark" 12, .dflt)) List.mem_cons_self)

/-- A directory that is written with a capital letter stays. -/
theorem not_removes_docs :
    Holds (dirToml "C:\\docs") (.text (dirText "C:\\docs"))
        { AppConfig.dflt with indexDirs := ["C:\\docs"] } ∧
      removeIndexDirCommand .ascii "C:\\docs" ∈
        settingsCommands .ascii asciiLower settingsQuery
          { AppConfig.dflt with indexDirs := ["C:\\docs"] } ∧
      (removeIndexDirCommand .ascii "C:\\docs").target = some "index:C:\\docs" ∧
      ¬Removes (dirToml "C:\\docs") .ascii (fun _ => .ok ())
        { AppConfig.dflt with indexDirs := ["C:\\docs"] } "C:\\docs" "index:C:\\docs"
        (.text (dirText "C:\\docs")) := by
  have hread : ∀ p ∈ dirConfigs "C:\\docs", (dirConfigs "C:\\docs").lookup p.1 = some p.2 ∧
      ((dirConfigs "C:\\docs").find? fun r => decide (r.2 = p.2)) = some p := by
    decide +kernel
  have hstays : (removeIndexDir .ascii "C:\\docs").mutate
      { AppConfig.dflt with indexDirs := ["C:\\docs"] } =
        { AppConfig.dflt with indexDirs := ["C:\\docs"] } := by
    decide +kernel
  refine ⟨holds_dir hread, published_of_wanted List.mem_cons_self (by decide +kernel), rfl, ?_⟩
  rw [show "index:C:\\docs" = "index:" ++ "C:\\docs" from rfl,
    removes_of_own_identity _ (holds_dir hread) List.mem_cons_self
      (hstays ▸ keeps_dir hread (List.mem_cons_of_mem _ List.mem_cons_self))]
  decide +kernel

end AuraLauncher.App
