import AuraLauncher.Domain.Names
import AuraLauncher.Domain.Splitting
import Mathlib.Data.Multiset.Fold

/-!
# The configuration file

The settings of the launcher and the file they are kept in, modelled from
`launcher-config/src/lib.rs`. The file is read as a whole and written as a whole: `load_or_create`
always yields a usable configuration, writing the defaults where there is no file and where the
file cannot be read as one, and `save` renames a complete new file over the old.

* `AppConfig` — the settings, with `McpServerConfig` and `LlmConfig`.
* `normalizeMcpTables` — the two spellings of the server list made one.
* `ConfigFile`, `loadOrCreate`, `save` — the file and the two functions on it.
* `TomlCrate` — the crate `toml`, which is not part of the repository, as a parameter.
* `TomlCrate.Keeps` — the crate reads back what it wrote of a configuration.
* `parseHotkey` — what the text of the hotkey says, from `launcher-hotkey/src/lib.rs`; the texts
  that say the same are those of `parseHotkey_spec`.

Left out are the directory, the quarantined copy of a broken file, the errors of the file system
other than a file that is no text, and the registration of the hotkey with the system.
-/

namespace AuraLauncher.App

open AuraLauncher.Domain

/-! ## The settings -/

/-- Source: `launcher-config/src/lib.rs`, `McpServerConfig`. -/
structure McpServerConfig where
  id : String
  transport : String
  program : String
  args : List String
  profile : String
  url : Option String
  runtime : String
  allowPrivateNetwork : Bool
  allowPlainHttp : Bool
deriving DecidableEq, Repr

/-- Source: `launcher-config/src/lib.rs`, `LlmConfig`. -/
structure LlmConfig where
  baseUrl : String
  model : String
  allowRemoteData : Bool
  timeoutSecs : UInt64
deriving DecidableEq, Repr

/-- Source: `launcher-config/src/lib.rs`, `AppConfig`. -/
structure AppConfig where
  hotkey : String
  themeColor : String
  autostart : Bool
  indexDirs : List String
  resultLimit : UInt64
  portableRoots : List String
  watchEnabled : Bool
  pythonPath : Option String
  mcpServers : List McpServerConfig
  llm : Option LlmConfig
  themeMode : String
deriving DecidableEq, Repr

/-- Source: `launcher-config/src/lib.rs`, `AppConfig::default`. -/
def AppConfig.dflt : AppConfig where
  hotkey := "Ctrl+Space"
  themeColor := "#4DA3FF"
  autostart := false
  indexDirs := []
  resultLimit := 12
  portableRoots := []
  watchEnabled := true
  pythonPath := none
  mcpServers := []
  llm := none
  themeMode := "dark"

/-! ## The text of a configuration -/

/-- A TOML value; the texts of the scalars are kept as they are. -/
inductive TomlValue
  | scalar (text : String)
  | array (items : List TomlValue)
  | table (fields : List (String × TomlValue))

/-- The field of a table. Source: `toml::Value::get`. -/
def TomlValue.get (v : TomlValue) (key : String) : Option TomlValue :=
  match v with
  | .table fields => fields.lookup key
  | _ => none

/-- What the configuration code uses of the crate `toml`. -/
structure TomlCrate where
  /-- `from_str` of a value. -/
  parse : String → Option TomlValue
  /-- `to_string` of a value. -/
  print : TomlValue → Option String
  /-- `from_str` of a configuration, with the defaults of its fields. -/
  decode : String → Option AppConfig
  /-- `to_string_pretty` of a configuration, or the text of its error. -/
  encode : AppConfig → Except String String

variable (T : TomlCrate)

/-- The list of servers under `mcp.servers`, in either spelling, as one quoted key; a table keeps
its fields in the order of their keys. Source: `launcher-config/src/lib.rs`,
`normalize_mcp_tables`. -/
def normalizeMcpTables (raw : String) : String :=
  match T.parse raw with
  | none => raw
  | some v =>
      let v :=
        match v, (v.get "mcp").bind (·.get "servers") with
        | .table fields, some servers =>
            let fields := fields.filter fun f => f.1 != "mcp" && f.1 != "mcp.servers"
            .table ((fields.takeWhile fun f => f.1 < "mcp.servers") ++
              ("mcp.servers", servers) :: fields.dropWhile fun f => f.1 < "mcp.servers")
        | v, _ => v
      (T.print v).getD raw

/-! ## The file -/

/-- Source: `launcher-config/src/lib.rs`, `ConfigError`, without the errors of the file system. -/
inductive ConfigError
  | pathUnavailable (text : String)
deriving DecidableEq, Repr

/-- What is at the path of the configuration. -/
inductive ConfigFile
  | missing
  /-- A file that `read_to_string` refuses, as it does when it is no UTF-8. -/
  | unreadable
  | text (raw : String)
deriving DecidableEq, Repr

/-- The file after a save. Source: `launcher-config/src/lib.rs`, `save`. -/
def save (cfg : AppConfig) (file : ConfigFile) : Except ConfigError Unit × ConfigFile :=
  match T.encode cfg with
  | .error e => (.error (.pathUnavailable ("serialize config: " ++ e)), file)
  | .ok text => (.ok (), .text text)

/-- The configuration that a load yields, and the file after it.
Source: `launcher-config/src/lib.rs`, `load_or_create`. -/
def loadOrCreate (file : ConfigFile) : Except ConfigError AppConfig × ConfigFile :=
  match file with
  | .missing =>
      match T.encode .dflt with
      | .error e => (.error (.pathUnavailable ("serialize default config: " ++ e)), .missing)
      | .ok text => (.ok .dflt, .text text)
  | .unreadable => (.ok .dflt, .unreadable)
  | .text raw =>
      match T.decode (normalizeMcpTables T raw) with
      | some cfg => (.ok cfg, .text raw)
      -- the broken file is moved away, and an error of the save is ignored
      | none => (.ok .dflt, (save T .dflt .missing).2)

/-- The crate reads back what it wrote of this configuration. -/
def TomlCrate.Keeps (cfg : AppConfig) : Prop :=
  ∃ text, T.encode cfg = .ok text ∧ T.decode (normalizeMcpTables T text) = some cfg

/-- What a file was saved with is what is loaded from it. -/
theorem loadOrCreate_save {cfg : AppConfig} (h : T.Keeps cfg) (file : ConfigFile) :
    (save T cfg file).1 = .ok () ∧
      loadOrCreate T (save T cfg file).2 = (.ok cfg, (save T cfg file).2) := by
  obtain ⟨text, hencode, hdecode⟩ := h
  simp only [save, loadOrCreate, hencode, hdecode, and_self]

/-- **A load** yields a configuration and leaves a file from which the next load yields the same. -/
theorem loadOrCreate_spec (h : T.Keeps .dflt) (file : ConfigFile) :
    ∃ cfg, (loadOrCreate T file).1 = .ok cfg ∧
      loadOrCreate T (loadOrCreate T file).2 = (.ok cfg, (loadOrCreate T file).2) := by
  obtain ⟨text, hencode, hdecode⟩ := h
  cases file with
  | missing => exact ⟨.dflt, by simp [loadOrCreate, hencode, hdecode]⟩
  | unreadable => exact ⟨.dflt, by simp [loadOrCreate]⟩
  | text raw =>
      cases hraw : T.decode (normalizeMcpTables T raw) with
      | some cfg => exact ⟨cfg, by simp [loadOrCreate, hraw]⟩
      | none => exact ⟨.dflt, by simp [loadOrCreate, save, hraw, hencode, hdecode]⟩

/-! ## The hotkey -/

/-- Source: `launcher-hotkey/src/lib.rs`, `HotkeyError`, without the error of the registration. -/
inductive HotkeyError
  | invalidHotkey (text : List Char)
deriving DecidableEq, Repr

/-- The mask of the modifiers and the virtual code of the key. Source: `launcher-hotkey/src/lib.rs`,
`ParsedHotkey`. -/
structure ParsedHotkey where
  modifiers : UInt32
  vk : UInt32
deriving DecidableEq, Repr

/-- The names of the modifiers, with their masks. Source: `launcher-hotkey/src/lib.rs`,
`parse_hotkey`. -/
def modifierNames : List (String × UInt32) :=
  [("ctrl", 2), ("control", 2), ("alt", 1), ("shift", 4), ("win", 8), ("super", 8)]

/-- The keys that have names. Source: `launcher-hotkey/src/lib.rs`, `named_key_vk`. -/
def keyNames : List (String × UInt32) :=
  [("space", 0x20), ("enter", 0x0D), ("return", 0x0D), ("escape", 0x1B), ("esc", 0x1B),
    ("tab", 0x09), ("backspace", 0x08), ("delete", 0x2E), ("del", 0x2E), ("insert", 0x2D),
    ("ins", 0x2D), ("home", 0x24), ("end", 0x23), ("pageup", 0x21), ("pagedown", 0x22),
    ("up", 0x26), ("down", 0x28), ("left", 0x25), ("right", 0x27)]

/-- The code of a key: by its name, its one character, or the number of a function key.
Source: `launcher-hotkey/src/lib.rs`, `named_key_vk`. -/
def namedKeyVk (key : List Char) : Option UInt32 :=
  match keyNames.lookup (String.ofList key) with
  | some vk => some vk
  | none =>
      match key with
      | [c] => if c.isAlphanum then some c.toUpper.val else none
      | 'f' :: digits =>
          if digits.all Char.isDigit then
            -- a number that is no `u32` is not in the range either
            let n := Nat.ofDigitChars 10 digits 0
            if 1 ≤ n ∧ n ≤ 24 then some (UInt32.ofNat (0x6F + n)) else none
          else none
      | _ => none

/-- The loop over the parts. Source: `launcher-hotkey/src/lib.rs`, `parse_hotkey`. -/
def parseParts (s : List Char) (modifiers : UInt32) (keyPart : Option (List Char)) :
    List (List Char) → Except HotkeyError (UInt32 × Option (List Char))
  | [] => .ok (modifiers, keyPart)
  | part :: parts =>
      let part := trim part
      if part = [] then .error (.invalidHotkey s)
      else
        let lower := part.map Char.toLower
        match modifierNames.lookup (String.ofList lower) with
        | some m => parseParts s (modifiers ||| m) keyPart parts
        | none =>
            if keyPart.isSome then .error (.invalidHotkey s)
            else parseParts s modifiers (some lower) parts

/-- Source: `launcher-hotkey/src/lib.rs`, `parse_hotkey`. -/
def parseHotkey (s : List Char) : Except HotkeyError ParsedHotkey :=
  match parseParts s 0 none (splitOn (· == '+') s) with
  | .error e => .error e
  | .ok (_, none) => .error (.invalidHotkey s)
  | .ok (modifiers, some key) =>
      match namedKeyVk key with
      | none => .error (.invalidHotkey s)
      | some vk => .ok ⟨modifiers, vk⟩

/-! ### What a text of a hotkey says -/

/-- A part as it is compared: trimmed and in lower case. -/
def token (part : List Char) : List Char := (trim part).map Char.toLower

/-- The parts as they are compared. -/
def tokens (s : List Char) : List (List Char) := (splitOn (· == '+') s).map token

/-- The mask of a part that names a modifier. -/
def modifierMask (t : List Char) : Option UInt32 := modifierNames.lookup (String.ofList t)

/-- The parts that name no modifier. -/
def keyTokens (ts : List (List Char)) : List (List Char) :=
  ts.filter fun t => (modifierMask t).isNone

/-- The masks of the modifiers, one for each time that one is named. -/
def masks (ts : List (List Char)) : List UInt32 := ts.filterMap modifierMask

/-- Masks put together. -/
def orAll (m : UInt32) (ms : List UInt32) : UInt32 := ms.foldl (fun a b => a ||| b) m

theorem token_eq_nil_iff (part : List Char) : [] = token part ↔ trim part = [] := by
  rw [token, eq_comm, List.map_eq_nil_iff]

theorem keyTokens_cons (t : List Char) (ts : List (List Char)) :
    keyTokens (t :: ts) = if (modifierMask t).isNone then t :: keyTokens ts else keyTokens ts :=
  List.filter_cons

theorem masks_cons_some {t : List Char} {m : UInt32} (h : modifierMask t = some m)
    (ts : List (List Char)) : masks (t :: ts) = m :: masks ts :=
  List.filterMap_cons_some h

theorem masks_cons_none {t : List Char} (h : modifierMask t = none) (ts : List (List Char)) :
    masks (t :: ts) = masks ts :=
  List.filterMap_cons_none h

/-- One part of the loop, said with its token. -/
theorem parseParts_cons (s part : List Char) (parts : List (List Char)) (m : UInt32)
    (k : Option (List Char)) :
    parseParts s m k (part :: parts) =
      if token part = [] then .error (.invalidHotkey s)
      else
        match modifierMask (token part) with
        | some mask => parseParts s (m ||| mask) k parts
        | none =>
            if k.isSome then .error (.invalidHotkey s)
            else parseParts s m (some (token part)) parts := by
  have hempty : token part = [] ↔ trim part = [] := eq_comm.trans (token_eq_nil_iff part)
  simp only [hempty]
  rfl

/-- **The loop**, from what it has collected of the parts before. -/
theorem parseParts_ok_iff (s : List Char) (parts : List (List Char)) (m m' : UInt32)
    (k k' : Option (List Char)) :
    parseParts s m k parts = .ok (m', k') ↔
      [] ∉ parts.map token ∧ k.toList ++ keyTokens (parts.map token) = k'.toList ∧
        orAll m (masks (parts.map token)) = m' := by
  induction parts generalizing m k with
  | nil =>
      have hk : k.toList = k'.toList ↔ k = k' := by cases k <;> cases k' <;> simp
      simp [parseParts, keyTokens, masks, orAll, hk, and_comm]
  | cons part parts ih =>
      rw [parseParts_cons, List.map_cons, List.mem_cons, not_or]
      by_cases hempty : token part = []
      · simp [hempty]
      · rw [if_neg hempty, keyTokens_cons]
        have hne : ¬[] = token part := fun h => hempty h.symm
        cases hmask : modifierMask (token part) with
        | some mask =>
            rw [masks_cons_some hmask]
            simp [ih, hne, orAll]
        | none =>
            rw [masks_cons_none hmask]
            cases k with
            | none => simp [ih, hne]
            | some key => cases k' <;> simp

theorem parseParts_error (s : List Char) (parts : List (List Char)) (m : UInt32)
    (k : Option (List Char)) {e : HotkeyError} (h : parseParts s m k parts = .error e) :
    e = .invalidHotkey s := by
  induction parts generalizing m k with
  | nil => cases h
  | cons part parts ih =>
      rw [parseParts_cons] at h
      by_cases hempty : token part = []
      · rw [if_pos hempty] at h
        exact (Except.error.inj h).symm
      · rw [if_neg hempty] at h
        split at h
        · exact ih _ _ h
        · split_ifs at h
          · exact (Except.error.inj h).symm
          · exact ih _ _ h

/-- **The texts that are hotkeys**: no part is empty, one part names a key, and the other parts name
modifiers, whose masks are put together. -/
theorem parseHotkey_ok_iff (s : List Char) (hotkey : ParsedHotkey) :
    parseHotkey s = .ok hotkey ↔
      [] ∉ tokens s ∧ (∃ key, keyTokens (tokens s) = [key] ∧ namedKeyVk key = some hotkey.vk) ∧
        orAll 0 (masks (tokens s)) = hotkey.modifiers := by
  have hparts := parseParts_ok_iff s (splitOn (· == '+') s) 0
  unfold parseHotkey
  constructor
  · intro h
    split at h
    · cases h
    · cases h
    · rename_i m key hok
      obtain ⟨hne, hkey, hmask⟩ := (hparts _ _ _).mp hok
      split at h
      · cases h
      · rename_i vk hvk
        obtain rfl := Except.ok.inj h
        exact ⟨hne, ⟨key, hkey, hvk⟩, hmask⟩
  · rintro ⟨hne, ⟨key, hkey, hvk⟩, hmask⟩
    have hok := (hparts hotkey.modifiers none (some key)).mpr ⟨hne, hkey, hmask⟩
    simp only [hok, hvk]

/-- A text that is no hotkey is refused with an error that names it. -/
theorem parseHotkey_error {s : List Char} {e : HotkeyError} (h : parseHotkey s = .error e) :
    e = .invalidHotkey s := by
  unfold parseHotkey at h
  split at h
  · rename_i hparts
    rw [← Except.error.inj h]
    exact parseParts_error s _ _ _ hparts
  · exact (Except.error.inj h).symm
  · split at h
    · exact (Except.error.inj h).symm
    · cases h

/-- The masks are put together in any order, each any number of times. -/
theorem orAll_eq {xs ys : List UInt32} (h : ∀ m, m ∈ xs ↔ m ∈ ys) (m : UInt32) :
    orAll m xs = orAll m ys := by
  have hfold : ∀ zs : List UInt32,
      orAll m zs = (zs : Multiset UInt32).dedup.fold (fun a b : UInt32 => a ||| b) m := fun zs => by
    rw [Multiset.fold_dedup_idem, Multiset.coe_fold_l]
    rfl
  have hdedup : (xs : Multiset UInt32).dedup = (ys : Multiset UInt32).dedup :=
    Multiset.dedup_ext.mpr fun a => by simpa using h a
  rw [hfold xs, hfold ys, hdedup]

/-- **How a hotkey may be spelled.** What a text is parsed as is decided by whether it has an empty
part, by the keys it names and by which modifiers it names, in any order and each any number of
times; the spaces around the parts and the case of their letters decide nothing. A text that is
refused is refused with an error that names it. -/
theorem parseHotkey_spec (s : List Char) :
    (∀ s', ([] ∈ tokens s ↔ [] ∈ tokens s') →
      (keyTokens (tokens s)).Perm (keyTokens (tokens s')) →
      (∀ m, m ∈ masks (tokens s) ↔ m ∈ masks (tokens s')) →
      (parseHotkey s').toOption = (parseHotkey s).toOption) ∧
    (∀ e, parseHotkey s = .error e → e = .invalidHotkey s) ∧
    ∀ hotkey, parseHotkey s = .ok hotkey ↔
      [] ∉ tokens s ∧ (∃ key, keyTokens (tokens s) = [key] ∧ namedKeyVk key = some hotkey.vk) ∧
        orAll 0 (masks (tokens s)) = hotkey.modifiers := by
  refine ⟨fun s' hempty hkeys hmasks => ?_, fun e h => parseHotkey_error h, parseHotkey_ok_iff s⟩
  have hsingle : ∀ key, keyTokens (tokens s') = [key] ↔ keyTokens (tokens s) = [key] := fun key =>
    ⟨fun h => List.perm_singleton.mp (h ▸ hkeys), fun h => List.perm_singleton.mp (h ▸ hkeys).symm⟩
  have hok : ∀ hotkey, parseHotkey s' = .ok hotkey ↔ parseHotkey s = .ok hotkey := fun hotkey => by
    rw [parseHotkey_ok_iff, parseHotkey_ok_iff, hempty, orAll_eq hmasks]
    simp only [hsingle]
  cases hs : parseHotkey s with
  | ok hotkey => rw [(hok hotkey).mpr hs]
  | error e =>
      cases hs' : parseHotkey s' with
      | error e' => rfl
      | ok hotkey =>
          rw [(hok hotkey).mp hs'] at hs
          cases hs

/-- Two spellings of one hotkey. -/
theorem parseHotkey_spec_respelled :
    (parseHotkey " P + CTRL+Shift + control".toList).toOption =
      (parseHotkey "ctrl+shift+p".toList).toOption := by
  have hmasks : masks (tokens "ctrl+shift+p".toList) = [2, 4] := by decide +kernel
  have hmasks' : masks (tokens " P + CTRL+Shift + control".toList) = [2, 4, 2] := by decide +kernel
  refine (parseHotkey_spec "ctrl+shift+p".toList).1 _ (by decide +kernel) (by decide +kernel) ?_
  intro m
  rw [hmasks, hmasks']
  simp only [List.mem_cons, List.not_mem_nil, or_false]
  tauto

end AuraLauncher.App
