import AuraLauncher.Domain.Std

/-!
# Names and paths of files

The two pure functions that the file index applies to the texts of the file system: the identity
of a path, by which two spellings of it are compared, and the pinyin keys of a name, by which a
Chinese name is found from latin letters.

* `normalizePathIdentity` — the lexical identity of a path: separators folded, empty and `.`
  segments dropped, `..` resolved, lower case.
* `pinyinInitials`, `pinyinFull` — the search keys of a name; the table of syllables is a
  parameter.
-/

namespace AuraLauncher.Domain

/-! ## The identity of a path -/

/-- Both characters that Windows accepts between the segments of a path. -/
def isSeparator (c : Char) : Bool := c == '/' || c == '\\'

/-- Source: `launcher-domain/src/lib.rs`, `is_device_namespace`. -/
def isDeviceNamespace (raw : String) : Bool := (stripPrefix "\\\\.\\" raw).isSome

/-- One segment of a path after the segments before it. Source: `launcher-domain/src/lib.rs`, the
`match` in `normalize_path_identity`. -/
def pushSegment (out : List (List Char)) (seg : List Char) : List (List Char) :=
  if seg = [] ∨ seg = ['.'] then out
  else if seg = ['.', '.'] then out.dropLast
  else out ++ [seg]

/-- The canonical identity of a path, from its text alone. Source: `launcher-domain/src/lib.rs`,
`normalize_path_identity`. -/
def normalizePathIdentity (std : RustStd) (raw : String) : String :=
  if isDeviceNamespace raw then String.ofList (raw.toList.flatMap std.toLowercase)
  else
    let raw :=
      match stripPrefix "\\\\?\\UNC\\" raw with
      | some rest => "\\\\" ++ rest
      | none => (stripPrefix "\\\\?\\" raw).getD raw
    let leading := (raw.toList.takeWhile isSeparator).length
    let out := (splitOn isSeparator raw.toList).foldl pushSegment []
    let joined := List.intercalate ['\\'] out
    -- a UNC path keeps two leading separators, any other rooted path one
    let separators := if leading ≥ 2 then 2 else if leading > 0 then 1 else 0
    String.ofList (List.replicate separators '\\' ++ joined.flatMap std.toLowercase)

example : normalizePathIdentity RustStd.ascii "C:\\Docs\\.\\x/../A.TXT" = "c:\\docs\\a.txt" := by
  decide +kernel

/-! ## The pinyin keys of a name -/

section pinyin

variable (lookupSyllable : Char → Option String)

/-- The unified ideographs. -/
def isIdeograph (c : Char) : Bool := 0x4E00 ≤ c.toNat && c.toNat ≤ 0x9FFF

/-- The first code point of each initial. Source: `launcher-domain/src/pinyin.rs`, `bounds`. -/
def bounds : List (ℕ × Char) :=
  [(0x4E00, 'a'), (0x4F60, 'b'), (0x509F, 'c'), (0x5266, 'd'),
    (0x54FE, 'e'), (0x5659, 'f'), (0x58E4, 'g'), (0x5B57, 'h'),
    (0x5D47, 'j'), (0x607F, 'k'), (0x61FF, 'l'), (0x63A0, 'm'),
    (0x65FA, 'n'), (0x67FF, 'o'), (0x6A35, 'p'), (0x6C5F, 'q'),
    (0x6FB6, 'r'), (0x7238, 's'), (0x746D, 't'), (0x7684, 'w'),
    (0x7792, 'x'), (0x7A79, 'y'), (0x7CA4, 'z')]

/-- The last initial whose first code point is not past the character. Source:
`launcher-domain/src/pinyin.rs`, `boundary_initial`. -/
def boundaryInitial (code : ℕ) : Char :=
  (bounds.takeWhile fun b => code ≥ b.1).foldl (fun _ b => b.2) 'a'

/-- Source: `launcher-domain/src/pinyin.rs`, `pinyin_initial`. -/
def pinyinInitial (c : Char) : Option Char :=
  if isIdeograph c then
    match lookupSyllable c with
    | some syl => syl.toList.head?
    | none => some (boundaryInitial c.toNat)
  else none

/-- Source: `launcher-domain/src/pinyin.rs`, `pinyin_syllable`. -/
def pinyinSyllable (c : Char) : Option String :=
  if isIdeograph c then lookupSyllable c else none

/-- Source: `launcher-domain/src/pinyin.rs`, `pinyin_initials`. -/
def pinyinInitials (name : String) : String :=
  String.ofList (name.toList.filterMap (pinyinInitial lookupSyllable))

/-- Source: `launcher-domain/src/pinyin.rs`, `pinyin_full`. -/
def pinyinFull (name : String) : String :=
  String.join (name.toList.filterMap fun c =>
    match pinyinSyllable lookupSyllable c with
    | some syl => some syl
    | none => if isIdeograph c then some (boundaryInitial c.toNat).toString else none)

end pinyin

end AuraLauncher.Domain
