import Mathlib

/-!
# The pattern matching of SQL

`LIKE` without an escape character, and `lower`, as SQLite documents them: both fold the case of
ASCII letters only.

* `foldEq`, `sqlLower` — the case folding.
* `like` — `text LIKE pattern`: `%` stands for any number of characters, `_` for exactly one.
* `like_append_self` — a pattern finds what begins with its own characters, wildcards or not.
* `like_prefix_iff` — a pattern without wildcards before a final `%` matches the texts that begin
  with it, and no others.
* `likeEscape` — `text LIKE pattern ESCAPE esc`, where `esc` takes the meaning from the next
  character of the pattern; `escaped` puts it before every character that has one.
* `likeEscape_contains_iff` — an escaped text between two `%` matches the texts that have it in
  them up to case, and no others.
-/

namespace AuraLauncher.Lib

/-- Two characters up to the case of ASCII letters. -/
def foldEq (a b : Char) : Bool := a.toLower == b.toLower

/-- `lower(text)`: ASCII letters become small, other characters stay. -/
def sqlLower (text : List Char) : List Char := text.map Char.toLower

/-- `text LIKE pattern`, the pattern first. -/
def like : List Char → List Char → Bool
  | [], text => text.isEmpty
  | p :: pattern, text =>
      if p = '%' then text.tails.any fun rest => like pattern rest
      else
        match text with
        | [] => false
        | c :: rest => (p == '_' || foldEq p c) && like pattern rest

/-- A character of a pattern that stands for itself. -/
def Plain (p : Char) : Prop := p ≠ '%' ∧ p ≠ '_'

instance (p : Char) : Decidable (Plain p) := inferInstanceAs (Decidable (_ ∧ _))

/-- Lowering is idempotent. -/
theorem sqlLower_sqlLower (text : List Char) : sqlLower (sqlLower text) = sqlLower text := by
  simp [sqlLower]

@[simp] theorem foldEq_self (a : Char) : foldEq a a = true := by simp [foldEq]

@[simp] theorem like_nil (text : List Char) : like [] text = text.isEmpty := rfl

theorem like_percent_iff {pattern text : List Char} :
    like ('%' :: pattern) text = true ↔ ∃ rest, rest <:+ text ∧ like pattern rest = true := by
  simp [like]

theorem like_cons_iff {p c : Char} {pattern text : List Char} (hp : p ≠ '%') :
    like (p :: pattern) (c :: text) = true ↔
      (p = '_' ∨ foldEq p c = true) ∧ like pattern text = true := by
  simp [like, hp]

theorem like_cons_nil {p : Char} {pattern : List Char} (hp : p ≠ '%') :
    like (p :: pattern) [] = false := by
  simp [like, hp]

/-- The pattern `%` matches everything. -/
@[simp] theorem like_percent (text : List Char) : like ['%'] text = true :=
  like_percent_iff.mpr ⟨[], List.nil_suffix, rfl⟩

/-- A character of a pattern matches itself, wildcard or not. -/
theorem like_cons_self {p : Char} {pattern text : List Char} (h : like pattern text = true) :
    like (p :: pattern) (p :: text) = true := by
  by_cases hp : p = '%'
  · subst hp
    exact like_percent_iff.mpr ⟨text, List.suffix_cons '%' text, h⟩
  · exact (like_cons_iff hp).mpr ⟨.inr (foldEq_self p), h⟩

/-- **A pattern finds what begins with it**, whatever wildcards it has. -/
theorem like_append_self (pre : List Char) {pattern text : List Char}
    (h : like pattern text = true) : like (pre ++ pattern) (pre ++ text) = true := by
  induction pre with
  | nil => exact h
  | cons p pre ih => exact like_cons_self ih

/-- **A plain pattern with a final `%`** matches the texts that begin with it up to case, and no
others. -/
theorem like_prefix_iff {pre text : List Char} (hpre : ∀ p ∈ pre, Plain p) :
    like (pre ++ ['%']) text = true ↔ sqlLower pre <+: sqlLower text := by
  induction pre generalizing text with
  | nil => simp [sqlLower]
  | cons p pre ih =>
      obtain ⟨hp, hunder⟩ := hpre p List.mem_cons_self
      have hrest := fun q hq => hpre q (List.mem_cons_of_mem p hq)
      cases text with
      | nil => simp [like_cons_nil hp, sqlLower]
      | cons c text =>
          rw [List.cons_append, like_cons_iff hp, ih hrest]
          simp [hunder, foldEq, sqlLower, List.cons_prefix_cons]

/-! ## With an escape character -/

/-- `text LIKE pattern ESCAPE esc`, the pattern first. -/
def likeEscape (esc : Char) : List Char → List Char → Bool
  | [], text => text.isEmpty
  | p :: pattern, text =>
      if p = '%' then text.tails.any fun rest => likeEscape esc pattern rest
      else if p = esc then
        match pattern, text with
        | q :: pattern, c :: rest => foldEq q c && likeEscape esc pattern rest
        | _, _ => false
      else
        match text with
        | [] => false
        | c :: rest => (p == '_' || foldEq p c) && likeEscape esc pattern rest

/-- A text with the escape character before every character that has a meaning in a pattern. -/
def escaped (esc : Char) (text : List Char) : List Char :=
  text.flatMap fun c => if c = '%' ∨ c = '_' ∨ c = esc then [esc, c] else [c]

section escape

variable {esc : Char}

theorem likeEscape_percent_iff {pattern text : List Char} :
    likeEscape esc ('%' :: pattern) text = true ↔
      ∃ rest, rest <:+ text ∧ likeEscape esc pattern rest = true := by
  rw [likeEscape.eq_def]
  simp

/-- One escaped character matches itself up to case, and no other. -/
theorem likeEscape_escaped_cons (hesc : Plain esc) (q : Char) (pattern text : List Char) :
    likeEscape esc (escaped esc [q] ++ pattern) text = true ↔
      ∃ c rest, text = c :: rest ∧ foldEq q c = true ∧ likeEscape esc pattern rest = true := by
  obtain ⟨hpercent, -⟩ := hesc
  by_cases hq : q = '%' ∨ q = '_' ∨ q = esc
  · have hcode : escaped esc [q] ++ pattern = esc :: q :: pattern := by simp [escaped, hq]
    rw [hcode, likeEscape.eq_def]
    dsimp only
    rw [if_neg hpercent, if_pos rfl]
    cases text with
    | nil => simp
    | cons c rest => simp
  · have hcode : escaped esc [q] ++ pattern = q :: pattern := by simp [escaped, hq]
    obtain ⟨hq₁, hq₂, hq₃⟩ : q ≠ '%' ∧ q ≠ '_' ∧ q ≠ esc := by simpa [not_or] using hq
    rw [hcode, likeEscape.eq_def]
    dsimp only
    rw [if_neg hq₁, if_neg hq₃]
    cases text with
    | nil => simp
    | cons c rest => simp [hq₂]

/-- An escaped text matches what it is up to case, whatever wildcards it has. -/
theorem likeEscape_escaped_iff (hesc : Plain esc) (sub : List Char) {pattern text : List Char} :
    likeEscape esc (escaped esc sub ++ pattern) text = true ↔
      ∃ before rest, text = before ++ rest ∧ sqlLower sub = sqlLower before ∧
        likeEscape esc pattern rest = true := by
  induction sub generalizing text with
  | nil =>
      constructor
      · exact fun h => ⟨[], text, rfl, rfl, h⟩
      · rintro ⟨before, rest, rfl, hnil, h⟩
        obtain rfl : before = [] := by simpa [sqlLower] using hnil.symm
        exact h
  | cons q sub ih =>
      have hcode : escaped esc (q :: sub) ++ pattern =
          escaped esc [q] ++ (escaped esc sub ++ pattern) := by simp [escaped]
      rw [hcode, likeEscape_escaped_cons hesc]
      constructor
      · rintro ⟨c, rest, rfl, hc, h⟩
        obtain ⟨before, after, rfl, hsub, h⟩ := ih.mp h
        have hfold : q.toLower = c.toLower := by simpa [foldEq] using hc
        refine ⟨c :: before, after, rfl, ?_, h⟩
        simpa [sqlLower, hfold] using hsub
      · rintro ⟨before, after, rfl, hsub, h⟩
        cases before with
        | nil => simp [sqlLower] at hsub
        | cons c before =>
            obtain ⟨hc, hsub⟩ : q.toLower = c.toLower ∧ sqlLower sub = sqlLower before := by
              simpa [sqlLower] using hsub
            exact ⟨c, before ++ after, rfl, by simp [foldEq, hc],
              ih.mpr ⟨before, after, rfl, hsub, h⟩⟩

/-- **An escaped text between two `%`** matches the texts that have it in them up to case, and no
others. -/
theorem likeEscape_contains_iff (hesc : Plain esc) {sub text : List Char} :
    likeEscape esc ('%' :: escaped esc sub ++ ['%']) text = true ↔
      sqlLower sub <:+: sqlLower text := by
  rw [List.cons_append, likeEscape_percent_iff]
  constructor
  · rintro ⟨tail, ⟨start, rfl⟩, h⟩
    obtain ⟨before, rest, rfl, hsub, -⟩ := (likeEscape_escaped_iff hesc sub).mp h
    refine ⟨sqlLower start, sqlLower rest, ?_⟩
    rw [hsub]
    simp [sqlLower]
  · rintro ⟨start, rest, h⟩
    obtain ⟨left, after, rfl, hleft, rfl⟩ := List.map_eq_append_iff.mp h.symm
    obtain ⟨first, before, rfl, rfl, hsub⟩ := List.map_eq_append_iff.mp hleft
    refine ⟨before ++ after, ⟨first, by rw [List.append_assoc]⟩, ?_⟩
    refine (likeEscape_escaped_iff hesc sub).mpr ⟨before, after, rfl, hsub.symm, ?_⟩
    exact likeEscape_percent_iff.mpr ⟨[], List.nil_suffix, rfl⟩

end escape

end AuraLauncher.Lib
