import AuraLauncher.Workflow.Json
import Mathlib.Data.List.Infix

/-!
# What the domain uses of the standard library

Most of Rust's strings and collections are Lean's own. This file has the rest: the parts of Rust's
standard library that Lean decides differently or not at all.

* `RustStd` — Unicode classes, lower case and the texts of floats, as a parameter.
* `isWhitespace`, `trim` — `char::is_whitespace` and `str::trim`.
* `splitOnce`, `splitOn`, `hasSub`, `findSub`, `stripPrefix` — `str::split_once`, `split`,
  `contains`, `find` and `strip_prefix`.
* `bind_eq_ok` — what `?` means.
-/

namespace AuraLauncher.Domain

/-- What the domain uses of Rust's standard library and Lean does not decide. -/
structure RustStd where
  /-- `char::is_alphabetic`. -/
  isAlphabetic : Char → Bool
  /-- `char::is_numeric`. -/
  isNumeric : Char → Bool
  /-- `char::to_lowercase`, which may give several characters. -/
  toLowercase : Char → List Char
  /-- The `Display` text of an `f64`. -/
  floatDisplay : Float → String
  /-- The `Debug` text of an `f64`. -/
  floatDebug : Float → String
  /-- The `Debug` text of a string, quotes included. -/
  strDebug : String → String
  /-- `str::parse::<f64>` of a text of digits and dots. -/
  parseFloat : String → Option Float

/-- The standard library as it behaves on ASCII texts without floats and without characters that
`Debug` escapes. -/
def RustStd.ascii : RustStd where
  isAlphabetic := Char.isAlpha
  isNumeric := Char.isDigit
  toLowercase c := [c.toLower]
  floatDisplay _ := ""
  floatDebug _ := ""
  strDebug s := "\"" ++ s ++ "\""
  parseFloat _ := none

/-- The characters with the Unicode property `White_Space`. Source: `char::is_whitespace`. -/
def isWhitespace (c : Char) : Bool :=
  let n := c.toNat
  (0x9 ≤ n && n ≤ 0xd) || n == 0x20 || n == 0x85 || n == 0xa0 || n == 0x1680 ||
    (0x2000 ≤ n && n ≤ 0x200a) || n == 0x2028 || n == 0x2029 || n == 0x202f || n == 0x205f ||
    n == 0x3000

/-- Source: `str::trim`. -/
def trim (s : List Char) : List Char :=
  ((s.dropWhile isWhitespace).reverse.dropWhile isWhitespace).reverse

/-- The text before the first `sep` and the text after it. Source: `str::split_once`. -/
def splitOnce (sep : Char) : List Char → Option (List Char × List Char)
  | [] => none
  | c :: cs =>
      if c = sep then some ([], cs) else (splitOnce sep cs).map fun p => (c :: p.1, p.2)

/-- The pieces of a text between separators; never empty. Source: `str::split`. -/
def splitOn (sep : Char → Bool) : List Char → List (List Char)
  | [] => [[]]
  | c :: cs =>
      if sep c then [] :: splitOn sep cs
      else
        match splitOn sep cs with
        | [] => [[c]]
        | piece :: pieces => (c :: piece) :: pieces

/-- The text before the first occurrence of `sub` and the text from it on. Source: `str::find`. -/
def findSub (sub : List Char) : List Char → Option (List Char × List Char)
  | [] => if sub.isEmpty then some ([], []) else none
  | c :: cs =>
      if sub.isPrefixOf (c :: cs) then some ([], c :: cs)
      else (findSub sub cs).map fun p => (c :: p.1, p.2)

/-- Whether `sub` occurs in a text. Source: `str::contains`. -/
def hasSub (sub s : List Char) : Bool := (findSub sub s).isSome

/-- The text after a prefix. Source: `str::strip_prefix`. -/
def stripPrefix (pre s : String) : Option String :=
  if pre.toList.isPrefixOf s.toList then some (String.ofList (s.toList.drop pre.length)) else none

/-- A sequence of two fallible steps succeeds when both do. -/
theorem bind_eq_ok {ε α β : Type} {x : Except ε α} {f : α → Except ε β} {r : β} :
    x >>= f = .ok r ↔ ∃ a, x = .ok a ∧ f a = .ok r := by
  cases x with
  | error e => simp [bind, Except.bind]
  | ok a => simp [bind, Except.bind]

/-- The first piece is at the front of the text, and every other is somewhere in it. -/
theorem splitOn_infix (sep : Char → Bool) (s : List Char) :
    ∃ piece pieces, splitOn sep s = piece :: pieces ∧ piece <+: s ∧ ∀ p ∈ pieces, p <:+: s := by
  induction s with
  | nil => exact ⟨[], [], rfl, List.prefix_rfl, by simp⟩
  | cons c cs ih =>
      obtain ⟨piece, pieces, hsplit, hpiece, hpieces⟩ := ih
      have hlater : ∀ p ∈ pieces, p <:+: c :: cs := fun p hp => (hpieces p hp).trans
        (List.suffix_cons c cs).isInfix
      rw [splitOn, hsplit]
      split_ifs
      · refine ⟨[], piece :: pieces, rfl, List.nil_prefix, ?_⟩
        intro p hp
        rcases List.mem_cons.mp hp with rfl | hp
        · exact hpiece.isInfix.trans (List.suffix_cons c cs).isInfix
        · exact hlater p hp
      · exact ⟨c :: piece, pieces, rfl, List.cons_prefix_cons.mpr ⟨rfl, hpiece⟩, hlater⟩

/-- A piece occurs in the text. -/
theorem infix_of_mem_splitOn {sep : Char → Bool} {s p : List Char} (h : p ∈ splitOn sep s) :
    p <:+: s := by
  obtain ⟨piece, pieces, hsplit, hpiece, hpieces⟩ := splitOn_infix sep s
  rw [hsplit] at h
  rcases List.mem_cons.mp h with rfl | h
  · exact hpiece.isInfix
  · exact hpieces p h

/-- An occurrence that was found splits the text. -/
theorem findSub_append {sub s before rest : List Char} (h : findSub sub s = some (before, rest)) :
    before ++ rest = s ∧ sub <+: rest := by
  induction s generalizing before rest with
  | nil =>
      unfold findSub at h
      split_ifs at h with hsub
      · obtain ⟨rfl, rfl⟩ : before = [] ∧ rest = [] := by simpa using h.symm
        have hnil : sub = [] := by simpa using hsub
        simp [hnil]
  | cons c cs ih =>
      unfold findSub at h
      split_ifs at h with hsub
      · obtain ⟨rfl, rfl⟩ : before = [] ∧ rest = c :: cs := by simpa [eq_comm] using h
        exact ⟨rfl, List.isPrefixOf_iff_prefix.mp hsub⟩
      · obtain ⟨⟨b, r⟩, hfind, hp⟩ := Option.map_eq_some_iff.mp h
        obtain ⟨rfl, rfl⟩ : c :: b = before ∧ r = rest := by simpa using hp
        obtain ⟨happ, hpre⟩ := ih hfind
        exact ⟨by rw [List.cons_append, happ], hpre⟩

/-- **What `contains` decides**: whether the text has `sub` in it as an infix. -/
theorem hasSub_iff {sub s : List Char} : hasSub sub s = true ↔ sub <:+: s := by
  unfold hasSub
  constructor
  · intro h
    obtain ⟨⟨before, rest⟩, hfind⟩ := Option.isSome_iff_exists.mp h
    obtain ⟨happ, after, hpre⟩ := findSub_append hfind
    exact ⟨before, after, by rw [List.append_assoc, hpre, happ]⟩
  · rintro ⟨before, after, rfl⟩
    induction before with
    | nil =>
        cases sub with
        | nil => cases after <;> simp [findSub]
        | cons c cs =>
            have hpre : (c :: cs).isPrefixOf (c :: (cs ++ after)) = true :=
              List.isPrefixOf_iff_prefix.mpr (List.prefix_append (c :: cs) after)
            simp only [List.nil_append, List.cons_append, findSub, hpre, if_true,
              Option.isSome_some]
    | cons b bs ih =>
        simp only [List.cons_append, findSub]
        split_ifs
        · rfl
        · rw [Option.isSome_map]
          exact ih

theorem trim_isInfix (s : List Char) : trim s <:+: s := by
  have hinner : ((s.dropWhile isWhitespace).reverse.dropWhile isWhitespace).reverse <+:
      s.dropWhile isWhitespace := by
    rw [← List.reverse_suffix, List.reverse_reverse]
    exact List.dropWhile_suffix _
  exact hinner.isInfix.trans (List.dropWhile_suffix _).isInfix

end AuraLauncher.Domain
