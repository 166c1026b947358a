import AuraLauncher.Domain.Std
import Mathlib.Data.List.TakeWhile

/-!
# What splitting undoes

The functions of `Domain.Std` that take a text apart, on texts that were put together with the
separator.

* `splitOnce_append`, `splitOnce_eq_none_iff` — the first separator.
* `splitN`, `splitN_three` — `str::splitn`, the first separators up to a number of pieces.
* `splitOn_eq_splitOnP`, `splitOn_append_cons`, `mem_splitOn_between` — all separators.
* `strLines`, `strLines_flatMap_append` — `str::lines`, and lines that are written one by one.
-/

namespace AuraLauncher.Domain

variable {sep : Char} {p : Char → Bool} {a b : List Char}

/-- The text before the first separator has none. -/
theorem splitOnce_append (h : sep ∉ a) : splitOnce sep (a ++ sep :: b) = some (a, b) := by
  induction a with
  | nil => simp [splitOnce]
  | cons c cs ih =>
      obtain ⟨hc, hcs⟩ : sep ≠ c ∧ sep ∉ cs := by simpa using h
      rw [List.cons_append, splitOnce, if_neg hc.symm, ih hcs]
      rfl

theorem splitOnce_eq_none_iff : splitOnce sep a = none ↔ sep ∉ a := by
  induction a with
  | nil => simp [splitOnce]
  | cons c cs ih =>
      rw [splitOnce]
      split_ifs with hc
      · simp [hc]
      · simp [ih, Ne.symm hc]

/-- What was split is put together again with the separator. -/
theorem eq_of_splitOnce {s : List Char} (h : splitOnce sep s = some (a, b)) :
    s = a ++ sep :: b ∧ sep ∉ a := by
  induction s generalizing a with
  | nil => cases h
  | cons c cs ih =>
      rw [splitOnce] at h
      split_ifs at h with hc
      · obtain ⟨rfl, rfl⟩ := Prod.mk.inj (Option.some.inj h)
        simp [hc]
      · obtain ⟨⟨a', b'⟩, hsplit, heq⟩ := Option.map_eq_some_iff.mp h
        obtain ⟨rfl, rfl⟩ := Prod.mk.inj heq
        obtain ⟨rfl, hnot⟩ := ih hsplit
        exact ⟨rfl, by simp [Ne.symm hc, hnot]⟩

/-- At most `n` pieces, the last with whatever separators are left. Source: `str::splitn`. -/
def splitN (sep : Char) : ℕ → List Char → List (List Char)
  | 0, _ => []
  | 1, s => [s]
  | n + 2, s =>
      match splitOnce sep s with
      | none => [s]
      | some (piece, rest) => piece :: splitN sep (n + 1) rest

/-- Three pieces are had from a text with two separators or more; the first two have none. -/
theorem splitN_three {s c : List Char} :
    splitN sep 3 s = [a, b, c] ↔ s = a ++ sep :: (b ++ sep :: c) ∧ sep ∉ a ∧ sep ∉ b := by
  constructor
  · intro h
    unfold splitN at h
    cases hfirst : splitOnce sep s with
    | none => simp [hfirst] at h
    | some p =>
        obtain ⟨x, rest⟩ := p
        rw [hfirst] at h
        obtain ⟨rfl, hrest⟩ := List.cons.inj h
        unfold splitN at hrest
        cases hsecond : splitOnce sep rest with
        | none => simp [hsecond] at hrest
        | some q =>
            obtain ⟨y, z⟩ := q
            rw [hsecond] at hrest
            obtain ⟨rfl, hlast⟩ := List.cons.inj hrest
            obtain ⟨rfl, hx⟩ := eq_of_splitOnce hfirst
            obtain ⟨rfl, hy⟩ := eq_of_splitOnce hsecond
            obtain rfl : z = c := by simpa [splitN] using hlast
            exact ⟨rfl, hx, hy⟩
  · rintro ⟨rfl, ha, hb⟩
    simp only [splitN, splitOnce_append ha, splitOnce_append hb]

/-- Splitting is the one of lists. -/
theorem splitOn_eq_splitOnP (p : Char → Bool) (s : List Char) : splitOn p s = s.splitOnP p := by
  induction s with
  | nil => rfl
  | cons c cs ih =>
      rw [splitOn, ih, List.splitOnP_cons_eq_if_modifyHead]
      split_ifs
      · rfl
      · cases hsplit : cs.splitOnP p with
        | nil => exact absurd hsplit (List.splitOnP_ne_nil p cs)
        | cons piece pieces => rfl

/-- No character of a text without `sep` is `sep`. -/
theorem forall_beq_eq_false (h : sep ∉ a) : ∀ e ∈ a, (e == sep) = false :=
  fun _ he => beq_eq_false_iff_ne.mpr (ne_of_mem_of_not_mem he h)

/-- A text without separators is one piece. -/
theorem splitOn_of_forall (h : ∀ e ∈ a, p e = false) : splitOn p a = [a] := by
  rw [splitOn_eq_splitOnP, List.splitOnP_eq_singleton h]

/-- The pieces of two texts with a separator between them. -/
theorem splitOn_append_cons (a b : List Char) {c : Char} (hc : p c = true) :
    splitOn p (a ++ c :: b) = splitOn p a ++ splitOn p b := by
  rw [splitOn_eq_splitOnP, List.splitOnP_append_cons a b hc, splitOn_eq_splitOnP,
    splitOn_eq_splitOnP]

/-- What stands between two separators and has none is a piece. -/
theorem mem_splitOn_between (a b : List Char) {piece : List Char} {c d : Char} (hc : p c = true)
    (hd : p d = true) (h : ∀ e ∈ piece, p e = false) :
    piece ∈ splitOn p (a ++ c :: (piece ++ d :: b)) := by
  rw [splitOn_append_cons a _ hc, splitOn_append_cons piece b hd, splitOn_of_forall h]
  simp

/-! ## Lines -/

/-- A line without the carriage return at its end. -/
def stripCr (line : List Char) : List Char :=
  if line.getLast? = some '\r' then line.dropLast else line

/-- The lines of a text: its pieces between line feeds, each without the carriage return before the
line feed; a last piece that is empty is no line. Source: `str::lines`. -/
def strLines (s : List Char) : List (List Char) :=
  let pieces := splitOn (· == '\n') s
  pieces.dropLast.map stripCr ++ pieces.getLast?.toList.filter fun line => !line.isEmpty

theorem splitOn_ne_nil (p : Char → Bool) (s : List Char) : splitOn p s ≠ [] := by
  rw [splitOn_eq_splitOnP]
  exact List.splitOnP_ne_nil p s

/-- The first line. -/
theorem strLines_append_cons {a : List Char} (h : '\n' ∉ a) (b : List Char) :
    strLines (a ++ '\n' :: b) = stripCr a :: strLines b := by
  have hpieces : splitOn (· == '\n') (a ++ '\n' :: b) = a :: splitOn (· == '\n') b := by
    rw [splitOn_append_cons a b rfl, splitOn_of_forall (forall_beq_eq_false h)]
    rfl
  simp only [strLines, hpieces, List.dropLast_cons_of_ne_nil (splitOn_ne_nil _ b), List.map_cons,
    List.cons_append, List.getLast?_cons_of_ne_nil (splitOn_ne_nil _ b)]

/-- **Lines that are written are the lines that are read**, before whatever follows them. -/
theorem strLines_flatMap_append {ls : List (List Char)} (h : ∀ l ∈ ls, '\n' ∉ l) (b : List Char) :
    strLines ((ls.flatMap fun l => l ++ ['\n']) ++ b) = ls.map stripCr ++ strLines b := by
  induction ls with
  | nil => rfl
  | cons l ls ih =>
      have hrest := ih fun l' hl' => h l' (List.mem_cons_of_mem l hl')
      rw [List.flatMap_cons, List.append_assoc, List.append_assoc, List.singleton_append,
        strLines_append_cons (h l List.mem_cons_self), hrest]
      rfl

/-- A text with a character that is no white space is not trimmed to nothing. -/
theorem trim_ne_nil {s : List Char} {c : Char} (hc : c ∈ s) (h : isWhitespace c = false) :
    trim s ≠ [] := by
  intro hnil
  have hdrop : (s.dropWhile isWhitespace).reverse.dropWhile isWhitespace = [] := by
    simpa [trim] using hnil
  have hall := List.dropWhile_eq_nil_iff.mp hdrop
  have hempty : s.dropWhile isWhitespace = [] := by
    by_contra hne
    have hhead := List.head_dropWhile_not isWhitespace hne
    rw [hall _ (List.mem_reverse.mpr (List.head_mem hne))] at hhead
    cases hhead
  rw [List.dropWhile_eq_nil_iff.mp hempty c hc] at h
  cases h

end AuraLauncher.Domain
