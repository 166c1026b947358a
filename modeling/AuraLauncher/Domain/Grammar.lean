import AuraLauncher.Domain.Expr
import AuraLauncher.Lib.Recognizes

/-!
# The grammar of conditions

The language `parse_expr` is for, and what it accepts.

* `Lexeme`, `Lexes` — the tokens of a text: words and numbers are as long as they can be, and a
  string literal is closed by a quote. `OpenLexes` is the same for a text that ends inside a string
  literal, with the rest of the text as that literal.
* `OrExpr`, `AndExpr`, `NotExpr`, `Comparison`, `Primary` — the phrases with their trees; the index
  is the number of levels of nesting that are left, of which an expression and a `not` take one
  each.
* `Sentence` — the texts of the language with their trees.
* `tokenize_iff` — the tokenizer also reads texts that end inside a string literal.
* `expr_recognizes` — the parser recognizes the phrases.
* `parseExpr_iff` — a text is parsed as it should be, unless it ends inside a string literal and is
  a sentence otherwise.
-/

namespace AuraLauncher.Domain

open AuraLauncher.Lib (Recognizes LeftChain NoSep)

variable (std : RustStd)

/-! ## Tokens of a text -/

/-- The characters between tokens. -/
def isGap (c : Char) : Bool := c == ' ' || c == '\t' || c == '\n' || c == '\r'

/-- The characters of a number. -/
def isNumberChar (c : Char) : Bool := c.isDigit || c == '.'

/-- The characters of a word. -/
def isWordChar (c : Char) : Bool :=
  std.isAlphabetic c || std.isNumeric c || c == '_' || c == '.'

/-- The characters that begin a word: letters and `_`, if they begin nothing else. -/
def startsWord (c : Char) : Bool :=
  (std.isAlphabetic c || c == '_') &&
    !(isGap c || c.isDigit || ['(', ')', '=', '!', '<', '>', '"'].contains c)

/-- `Lexeme s tok rest`: the text `s` begins with the token `tok`, and `rest` follows. -/
inductive Lexeme : List Char → Tok → List Char → Prop
  | openParen {s : List Char} : Lexeme ('(' :: s) (.sym "(") s
  | closeParen {s : List Char} : Lexeme (')' :: s) (.sym ")") s
  | eq {s : List Char} : Lexeme ('=' :: '=' :: s) (.sym "==") s
  | ne {s : List Char} : Lexeme ('!' :: '=' :: s) (.sym "!=") s
  | le {s : List Char} : Lexeme ('<' :: '=' :: s) (.sym "<=") s
  | ge {s : List Char} : Lexeme ('>' :: '=' :: s) (.sym ">=") s
  | lt {s : List Char} (h : s.head? ≠ some '=') : Lexeme ('<' :: s) (.sym "<") s
  | gt {s : List Char} (h : s.head? ≠ some '=') : Lexeme ('>' :: s) (.sym ">") s
  | str {body s : List Char} (h : '"' ∉ body) :
      Lexeme ('"' :: (body ++ '"' :: s)) (.str (String.ofList body)) s
  | number {c : Char} {s : List Char} {x : Float} (hc : c.isDigit = true)
      (hx : std.parseFloat (String.ofList (c :: s.takeWhile isNumberChar)) = some x) :
      Lexeme (c :: s) (.number x) (s.dropWhile isNumberChar)
  | ident {c : Char} {s : List Char} (hc : startsWord std c = true)
      (hdot : '.' ∉ c :: s.takeWhile (isWordChar std)) :
      Lexeme (c :: s) (.ident (String.ofList (c :: s.takeWhile (isWordChar std))))
        (s.dropWhile (isWordChar std))
  | ref {c : Char} {s : List Char} (hc : startsWord std c = true)
      (hdot : '.' ∈ c :: s.takeWhile (isWordChar std)) :
      Lexeme (c :: s) (.ref (String.ofList (c :: s.takeWhile (isWordChar std))))
        (s.dropWhile (isWordChar std))

/-- The tokens of a text. -/
inductive Lexes : List Char → List Tok → Prop
  | nil : Lexes [] []
  | gap {c : Char} {s : List Char} {toks : List Tok} (hc : isGap c = true) (h : Lexes s toks) :
      Lexes (c :: s) toks
  | tok {s rest : List Char} {t : Tok} {toks : List Tok} (ht : Lexeme std s t rest)
      (h : Lexes rest toks) : Lexes s (t :: toks)

/-- The tokens of a text that ends inside a string literal. -/
inductive OpenLexes : List Char → List Tok → Prop
  | opened {body : List Char} (h : '"' ∉ body) :
      OpenLexes ('"' :: body) [.str (String.ofList body)]
  | gap {c : Char} {s : List Char} {toks : List Tok} (hc : isGap c = true) (h : OpenLexes s toks) :
      OpenLexes (c :: s) toks
  | tok {s rest : List Char} {t : Tok} {toks : List Tok} (ht : Lexeme std s t rest)
      (h : OpenLexes rest toks) : OpenLexes s (t :: toks)

/-! ## Phrases -/

mutual

/-- A literal, a reference, or an expression in parentheses. -/
inductive Primary : ℕ → List Tok → Expr → Prop
  | number {d : ℕ} {x : Float} : Primary d [.number x] (.literal (.number x))
  | str {d : ℕ} {s : String} : Primary d [.str s] (.literal (.string s))
  | true {d : ℕ} : Primary d [.ident "true"] (.literal (.bool true))
  | false {d : ℕ} : Primary d [.ident "false"] (.literal (.bool false))
  | null {d : ℕ} : Primary d [.ident "null"] (.literal .null)
  | ref {d : ℕ} {r : String} : Primary d [.ref r] (.ref r)
  | paren {d : ℕ} {ts : List Tok} {e : Expr} : OrExpr d ts e →
      Primary d (.sym "(" :: (ts ++ [.sym ")"])) e

/-- At most one comparison of two primaries, or a primary with a postfix `exists`. -/
inductive Comparison : ℕ → List Tok → Expr → Prop
  | primary {d : ℕ} {ts : List Tok} {e : Expr} : Primary d ts e → Comparison d ts e
  | exists {d : ℕ} {ts : List Tok} {e : Expr} : Primary d ts e →
      Comparison d (ts ++ [.ident "exists"]) (.exists e)
  | binary {d : ℕ} {ts ts' : List Tok} {t : Tok} {op : BinaryOp} {a b : Expr} :
      Primary d ts a → binaryOp t = some op → Primary d ts' b →
      Comparison d (ts ++ t :: ts') (.binary op a b)

/-- A comparison with any number of `not` before it. -/
inductive NotExpr : ℕ → List Tok → Expr → Prop
  | comparison {d : ℕ} {ts : List Tok} {e : Expr} : Comparison d ts e → NotExpr (d + 1) ts e
  | not {d : ℕ} {ts : List Tok} {e : Expr} : NotExpr d ts e →
      NotExpr (d + 1) (.ident "not" :: ts) (.not e)

/-- Phrases joined by `and`, from the left. -/
inductive AndExpr : ℕ → List Tok → Expr → Prop
  | one {d : ℕ} {ts : List Tok} {e : Expr} : NotExpr d ts e → AndExpr d ts e
  | and {d : ℕ} {ts ts' : List Tok} {a b : Expr} : AndExpr d ts a → NotExpr d ts' b →
      AndExpr d (ts ++ .ident "and" :: ts') (.and a b)

/-- Phrases joined by `or`, from the left: the expressions. -/
inductive OrExpr : ℕ → List Tok → Expr → Prop
  | one {d : ℕ} {ts : List Tok} {e : Expr} : AndExpr d ts e → OrExpr (d + 1) ts e
  | or {d : ℕ} {ts ts' : List Tok} {a b : Expr} : OrExpr (d + 1) ts a → AndExpr d ts' b →
      OrExpr (d + 1) (ts ++ .ident "or" :: ts') (.or a b)

end

/-- A text whose tokens are an expression nested within the levels there are. -/
def Sentence (src : String) (e : Expr) : Prop :=
  ∃ toks, Lexes std src.toList toks ∧ OrExpr maxDepth toks e

/-! ## The tokenizer -/

variable {std}

theorem takeRun_cons {p : Char → Bool} {c : Char} (hc : p c = true) (s : List Char) :
    takeRun p (c :: s) = (String.ofList (c :: s.takeWhile p), s.dropWhile p) := by
  rw [takeRun, List.takeWhile_cons_of_pos hc, List.dropWhile_cons_of_pos hc]

theorem takeRun_literal {body : List Char} (h : '"' ∉ body) (s : List Char) :
    takeRun (· ≠ '"') (body ++ '"' :: s) = (String.ofList body, '"' :: s) := by
  have hbody : ∀ c ∈ body, decide (c ≠ '"') = true := by
    intro c hc
    simpa using fun heq : c = '"' => h (heq ▸ hc)
  rw [takeRun, List.takeWhile_append_of_pos hbody, List.dropWhile_append_of_pos hbody]
  simp

theorem takeRun_open {body : List Char} (h : '"' ∉ body) :
    takeRun (· ≠ '"') body = (String.ofList body, []) := by
  have hbody : ∀ c ∈ body, decide (c ≠ '"') = true := by
    intro c hc
    simpa using fun heq : c = '"' => h (heq ▸ hc)
  rw [← List.append_nil body, takeRun, List.takeWhile_append_of_pos hbody,
    List.dropWhile_append_of_pos hbody]
  simp

/-- A character that begins neither a symbol, nor a literal, nor a number. -/
theorem startsWord_iff {c : Char} :
    startsWord std c = true ↔ (std.isAlphabetic c || c == '_') = true ∧ isGap c = false ∧
      c.isDigit = false ∧ c ≠ '(' ∧ c ≠ ')' ∧ c ≠ '=' ∧ c ≠ '!' ∧ c ≠ '<' ∧ c ≠ '>' ∧ c ≠ '"' := by
  simp [startsWord, and_assoc]

theorem nextTok_word {c : Char} (hc : startsWord std c = true) (s : List Char) :
    nextTok std c s = .ok
      (if '.' ∈ c :: s.takeWhile (isWordChar std) then
          .ref (String.ofList (c :: s.takeWhile (isWordChar std)))
        else .ident (String.ofList (c :: s.takeWhile (isWordChar std))),
        s.dropWhile (isWordChar std)) := by
  obtain ⟨hletter, hgap, hdigit, h₁, h₂, h₃, h₄, h₅, h₆, h₇⟩ := startsWord_iff.mp hc
  have hword : isWordChar std c = true := by
    unfold isWordChar
    rcases Bool.or_eq_true _ _ ▸ hletter with h | h <;> simp [h]
  have hrun : takeRun (fun c => std.isAlphabetic c || std.isNumeric c || c == '_' || c == '.')
      (c :: s) = _ := takeRun_cons hword s
  unfold nextTok
  rw [if_neg h₁, if_neg h₂, if_neg h₃, if_neg h₄, if_neg h₅, if_neg h₆, if_neg h₇, hdigit,
    if_neg Bool.false_ne_true, if_pos hletter, hrun]
  simp

theorem nextTok_number {c : Char} (hc : c.isDigit = true) (s : List Char) :
    nextTok std c s = (std.parseFloat (String.ofList (c :: s.takeWhile isNumberChar))).elim
      (.error (.parse ("bad number " ++ String.ofList (c :: s.takeWhile isNumberChar))))
      (fun x => .ok (.number x, s.dropWhile isNumberChar)) := by
  have hne : ∀ x : Char, x.isDigit = false → c ≠ x := by
    rintro x hx rfl
    rw [hc] at hx
    cases hx
  have hnumber : isNumberChar c = true := by simp [isNumberChar, hc]
  have hrun : takeRun (fun c => c.isDigit || c == '.') (c :: s) = _ := takeRun_cons hnumber s
  unfold nextTok
  rw [if_neg (hne _ rfl), if_neg (hne _ rfl), if_neg (hne _ rfl), if_neg (hne _ rfl),
    if_neg (hne _ rfl), if_neg (hne _ rfl), if_neg (hne _ rfl), if_pos hc, hrun]
  cases hx : std.parseFloat (String.ofList (c :: s.takeWhile isNumberChar)) with
  | none => simp only [hx, Option.elim]
  | some x => simp only [hx, Option.elim]

theorem nextTok_literal (s : List Char) :
    nextTok std '"' s = .ok (.str (takeRun (· ≠ '"') s).1, (takeRun (· ≠ '"') s).2.drop 1) := rfl

/-- Without a `=` after it, `<` or `>` is a symbol of its own. -/
theorem nextTok_order {s : List Char} (h : s.head? ≠ some '=') :
    nextTok std '<' s = .ok (.sym "<", s) ∧ nextTok std '>' s = .ok (.sym ">", s) := by
  cases s with
  | nil => exact ⟨rfl, rfl⟩
  | cons c s =>
      have hc : c ≠ '=' := fun heq => h (by rw [heq]; rfl)
      exact ⟨by simp [nextTok, hc], by simp [nextTok, hc]⟩

/-- A digit is not a gap, and begins no literal. -/
theorem isGap_of_isDigit {c : Char} (hc : c.isDigit = true) : isGap c = false ∧ c ≠ '"' := by
  have hne : ∀ x : Char, x.isDigit = false → c ≠ x := by
    rintro x hx rfl
    rw [hc] at hx
    cases hx
  refine ⟨?_, hne _ rfl⟩
  simp [isGap, hne ' ' rfl, hne '\t' rfl, hne '\n' rfl, hne '\r' rfl]

/-- The tokenizer reads a lexeme as what it is. -/
theorem Lexeme.nextTok {s rest : List Char} {t : Tok} (h : Lexeme std s t rest) :
    ∃ c s', s = c :: s' ∧ isGap c = false ∧ Domain.nextTok std c s' = .ok (t, rest) ∧
      (c = '"' → '"' ∈ s') := by
  have hno : ∀ c : Char, (c == '"') = false → ∀ s : List Char, c = '"' → '"' ∈ s := by
    rintro c hc s rfl
    cases hc
  cases h with
  | openParen => exact ⟨_, _, rfl, rfl, rfl, hno _ rfl _⟩
  | closeParen => exact ⟨_, _, rfl, rfl, rfl, hno _ rfl _⟩
  | eq => exact ⟨_, _, rfl, rfl, rfl, hno _ rfl _⟩
  | ne => exact ⟨_, _, rfl, rfl, rfl, hno _ rfl _⟩
  | le => exact ⟨_, _, rfl, rfl, rfl, hno _ rfl _⟩
  | ge => exact ⟨_, _, rfl, rfl, rfl, hno _ rfl _⟩
  | lt hs => exact ⟨_, _, rfl, rfl, (nextTok_order hs).1, hno _ rfl _⟩
  | gt hs => exact ⟨_, _, rfl, rfl, (nextTok_order hs).2, hno _ rfl _⟩
  | str hbody =>
      refine ⟨_, _, rfl, rfl, ?_, fun _ => by simp⟩
      rw [nextTok_literal, takeRun_literal hbody]
      rfl
  | number hc hx =>
      obtain ⟨hgap, hquote⟩ := isGap_of_isDigit hc
      refine ⟨_, _, rfl, hgap, ?_, fun h => absurd h hquote⟩
      rw [nextTok_number hc, hx]
      rfl
  | ident hc hdot =>
      obtain ⟨-, hgap, -, -, -, -, -, -, -, hquote⟩ := startsWord_iff.mp hc
      exact ⟨_, _, rfl, hgap, by rw [nextTok_word hc, if_neg hdot], fun h => absurd h hquote⟩
  | ref hc hdot =>
      obtain ⟨-, hgap, -, -, -, -, -, -, -, hquote⟩ := startsWord_iff.mp hc
      exact ⟨_, _, rfl, hgap, by rw [nextTok_word hc, if_pos hdot], fun h => absurd h hquote⟩

/-- What follows `"`: a literal and a quote, or a literal to the end of the text. -/
theorem literal_cases (s : List Char) :
    (∃ body rest, '"' ∉ body ∧ s = body ++ '"' :: rest) ∨ '"' ∉ s := by
  by_cases h : '"' ∈ s
  · obtain ⟨body, rest, hs, hbody⟩ := List.eq_append_cons_of_mem h
    exact .inl ⟨body, rest, hbody, hs⟩
  · exact .inr h

/-- After `"` the tokenizer reads a literal, closed or open. -/
theorem lexeme_of_literal {s rest : List Char} {t : Tok} (h : nextTok std '"' s = .ok (t, rest)) :
    Lexeme std ('"' :: s) t rest ∨ ('"' ∉ s ∧ t = .str (String.ofList s) ∧ rest = []) := by
  rw [nextTok_literal] at h
  obtain ⟨body, rest', hbody, rfl⟩ | hs := literal_cases s
  · rw [takeRun_literal hbody] at h
    obtain ⟨rfl, rfl⟩ := Prod.mk.inj (Except.ok.inj h)
    exact .inl (.str hbody)
  · rw [takeRun_open hs] at h
    obtain ⟨rfl, rfl⟩ := Prod.mk.inj (Except.ok.inj h)
    exact .inr ⟨hs, rfl, rfl⟩

theorem lexeme_of_number {c : Char} {s rest : List Char} {t : Tok} (hc : c.isDigit = true)
    (h : nextTok std c s = .ok (t, rest)) : Lexeme std (c :: s) t rest := by
  rw [nextTok_number hc] at h
  cases hx : std.parseFloat (String.ofList (c :: s.takeWhile isNumberChar)) with
  | none =>
      rw [hx] at h
      cases h
  | some x =>
      rw [hx] at h
      obtain ⟨rfl, rfl⟩ := Prod.mk.inj (Except.ok.inj h)
      exact .number hc hx

theorem lexeme_of_word {c : Char} {s rest : List Char} {t : Tok} (hc : startsWord std c = true)
    (h : nextTok std c s = .ok (t, rest)) : Lexeme std (c :: s) t rest := by
  rw [nextTok_word hc] at h
  obtain ⟨rfl, rfl⟩ := Prod.mk.inj (Except.ok.inj h)
  by_cases hdot : '.' ∈ c :: s.takeWhile (isWordChar std)
  · rw [if_pos hdot]
    exact .ref hc hdot
  · rw [if_neg hdot]
    exact .ident hc hdot

/-- What begins with neither a quote nor a digit nor a letter is a symbol. -/
theorem lexeme_of_symbol {c : Char} {s rest : List Char} {t : Tok} (hgap : isGap c = false)
    (hquote : c ≠ '"') (hdigit : ¬c.isDigit = true) (hword : ¬startsWord std c = true)
    (h : nextTok std c s = .ok (t, rest)) : Lexeme std (c :: s) t rest := by
  have hhead : (∀ rest, s = '=' :: rest → False) → s.head? ≠ some '=' := by
    intro hs hhead
    obtain ⟨rest, heq⟩ := List.head?_eq_some_iff.mp hhead
    exact hs rest heq
  -- the symbols that may be longer are told apart by their second character
  unfold nextTok at h
  by_cases h₁ : c = '('
  · rw [if_pos h₁] at h
    obtain ⟨rfl, rfl⟩ := Prod.mk.inj (Except.ok.inj h)
    exact h₁ ▸ .openParen
  rw [if_neg h₁] at h
  by_cases h₂ : c = ')'
  · rw [if_pos h₂] at h
    obtain ⟨rfl, rfl⟩ := Prod.mk.inj (Except.ok.inj h)
    exact h₂ ▸ .closeParen
  rw [if_neg h₂] at h
  by_cases h₃ : c = '='
  · subst h₃
    rw [if_pos rfl] at h
    split at h
    · obtain ⟨rfl, rfl⟩ := Prod.mk.inj (Except.ok.inj h)
      exact .eq
    · cases h
  rw [if_neg h₃] at h
  by_cases h₄ : c = '!'
  · subst h₄
    rw [if_pos rfl] at h
    split at h
    · obtain ⟨rfl, rfl⟩ := Prod.mk.inj (Except.ok.inj h)
      exact .ne
    · cases h
  rw [if_neg h₄] at h
  by_cases h₅ : c = '<'
  · subst h₅
    rw [if_pos rfl] at h
    split at h
    · obtain ⟨rfl, rfl⟩ := Prod.mk.inj (Except.ok.inj h)
      exact .le
    · obtain ⟨rfl, rfl⟩ := Prod.mk.inj (Except.ok.inj h)
      exact .lt (hhead ‹_›)
  rw [if_neg h₅] at h
  by_cases h₆ : c = '>'
  · subst h₆
    rw [if_pos rfl] at h
    split at h
    · obtain ⟨rfl, rfl⟩ := Prod.mk.inj (Except.ok.inj h)
      exact .ge
    · obtain ⟨rfl, rfl⟩ := Prod.mk.inj (Except.ok.inj h)
      exact .gt (hhead ‹_›)
  rw [if_neg h₆, if_neg hquote, if_neg hdigit, if_neg] at h
  · cases h
  · intro hletter
    exact hword (startsWord_iff.mpr
      ⟨hletter, hgap, by simpa using hdigit, h₁, h₂, h₃, h₄, h₅, h₆, hquote⟩)

/-- What the tokenizer reads is a lexeme, or the open literal at the end of the text. -/
theorem lexeme_of_nextTok {c : Char} {s rest : List Char} {t : Tok} (hgap : isGap c = false)
    (h : nextTok std c s = .ok (t, rest)) :
    Lexeme std (c :: s) t rest ∨
      (c = '"' ∧ '"' ∉ s ∧ t = .str (String.ofList s) ∧ rest = []) := by
  by_cases hquote : c = '"'
  · subst hquote
    exact (lexeme_of_literal h).imp_right fun hopen => ⟨rfl, hopen⟩
  by_cases hdigit : c.isDigit = true
  · exact .inl (lexeme_of_number hdigit h)
  by_cases hword : startsWord std c = true
  · exact .inl (lexeme_of_word hword h)
  exact .inl (lexeme_of_symbol hgap hquote hdigit hword h)

/-! ### Whole texts -/

theorem gap_iff {c : Char} : (c = ' ' ∨ c = '\t' ∨ c = '\n' ∨ c = '\r') ↔ isGap c = true := by
  simp [isGap, or_assoc]

theorem tokenizeLoop_gap {n : ℕ} {c : Char} (hc : isGap c = true) (s : List Char) :
    tokenizeLoop std (n + 1) (c :: s) = tokenizeLoop std n s :=
  if_pos (gap_iff.mpr hc)

theorem tokenizeLoop_tok {n : ℕ} {c : Char} {s rest : List Char} {t : Tok} {toks : List Tok}
    (hc : isGap c = false) (ht : nextTok std c s = .ok (t, rest))
    (h : tokenizeLoop std n rest = .ok toks) :
    tokenizeLoop std (n + 1) (c :: s) = .ok (t :: toks) := by
  have hgap : ¬(c = ' ' ∨ c = '\t' ∨ c = '\n' ∨ c = '\r') := by
    rw [gap_iff, hc]
    exact Bool.false_ne_true
  rw [tokenizeLoop, if_neg hgap, ht]
  simp only [bind, Except.bind, h]
  rfl

/-- A round of the tokenizer that is not over a gap reads one token and goes on. -/
theorem of_tokenizeLoop_tok {n : ℕ} {c : Char} {s : List Char} {toks : List Tok}
    (hc : isGap c = false) (h : tokenizeLoop std (n + 1) (c :: s) = .ok toks) :
    ∃ t rest toks', toks = t :: toks' ∧ nextTok std c s = .ok (t, rest) ∧
      tokenizeLoop std n rest = .ok toks' := by
  have hgap : ¬(c = ' ' ∨ c = '\t' ∨ c = '\n' ∨ c = '\r') := by
    rw [gap_iff, hc]
    exact Bool.false_ne_true
  rw [tokenizeLoop, if_neg hgap] at h
  cases ht : nextTok std c s with
  | error e => rw [ht] at h; cases h
  | ok r =>
      obtain ⟨t, rest⟩ := r
      rw [ht] at h
      cases htoks : tokenizeLoop std n rest with
      | error e => simp only [bind, Except.bind, htoks] at h; cases h
      | ok toks' =>
          simp only [bind, Except.bind, htoks] at h
          exact ⟨t, rest, toks', (Except.ok.inj h).symm, rfl, htoks⟩

/-- A lexeme takes a character at least. -/
theorem Lexeme.length_lt {s rest : List Char} {t : Tok} (h : Lexeme std s t rest) :
    rest.length < s.length := by
  have hdrop : ∀ (p : Char → Bool) (s : List Char), (s.dropWhile p).length < s.length + 1 :=
    fun p s => Nat.lt_succ_of_le (List.dropWhile_suffix p).length_le
  cases h with
  | number | ident | ref => exact hdrop _ _
  | _ => simp <;> omega

/-- A gap and what follows it, with enough fuel. -/
theorem tokenizeLoop_of_gap {c : Char} {s : List Char} {toks : List Tok}
    (hc : isGap c = true) (hrest : ∀ n, s.length ≤ n → tokenizeLoop std n s = .ok toks) {n : ℕ}
    (hn : (c :: s).length ≤ n) : tokenizeLoop std n (c :: s) = .ok toks := by
  cases n with
  | zero => exact absurd hn (by simp)
  | succ n => rw [tokenizeLoop_gap hc, hrest n (Nat.le_of_succ_le_succ hn)]

/-- A lexeme and what follows it, with enough fuel. -/
theorem tokenizeLoop_of_lexeme {s rest : List Char} {t : Tok} {toks : List Tok}
    (ht : Lexeme std s t rest)
    (hrest : ∀ n, rest.length ≤ n → tokenizeLoop std n rest = .ok toks) {n : ℕ}
    (hn : s.length ≤ n) : tokenizeLoop std n s = .ok (t :: toks) := by
  have hlt := ht.length_lt
  obtain ⟨c, s, rfl, hc, hnext, -⟩ := ht.nextTok
  cases n with
  | zero => exact absurd hn (by simp)
  | succ n => exact tokenizeLoop_tok hc hnext (hrest n (by simp at hn hlt; omega))

theorem tokenizeLoop_of_lexes {s : List Char} {toks : List Tok} (h : Lexes std s toks) {n : ℕ}
    (hn : s.length ≤ n) : tokenizeLoop std n s = .ok toks := by
  induction h generalizing n with
  | nil => cases n <;> rfl
  | gap hc _ ih => exact tokenizeLoop_of_gap hc (fun _ => ih) hn
  | tok ht _ ih => exact tokenizeLoop_of_lexeme ht (fun _ => ih) hn

theorem tokenizeLoop_of_openLexes {s : List Char} {toks : List Tok} (h : OpenLexes std s toks)
    {n : ℕ} (hn : s.length ≤ n) : tokenizeLoop std n s = .ok toks := by
  induction h generalizing n with
  | opened hbody =>
      cases n with
      | zero => exact absurd hn (by simp)
      | succ n =>
          have hend : tokenizeLoop std n [] = .ok [] := by cases n <;> rfl
          refine tokenizeLoop_tok rfl ?_ hend
          rw [nextTok_literal, takeRun_open hbody]
          rfl
  | gap hc _ ih => exact tokenizeLoop_of_gap hc (fun _ => ih) hn
  | tok ht _ ih => exact tokenizeLoop_of_lexeme ht (fun _ => ih) hn

theorem lexes_of_tokenizeLoop {n : ℕ} {s : List Char} {toks : List Tok} (hn : s.length ≤ n)
    (h : tokenizeLoop std n s = .ok toks) : Lexes std s toks ∨ OpenLexes std s toks := by
  induction n generalizing s toks with
  | zero =>
      obtain rfl := List.length_eq_zero_iff.mp (Nat.le_zero.mp hn)
      cases h
      exact .inl .nil
  | succ n ih =>
      cases s with
      | nil =>
          cases h
          exact .inl .nil
      | cons c s =>
          cases hc : isGap c with
          | true =>
              rw [tokenizeLoop_gap hc] at h
              exact (ih (Nat.le_of_succ_le_succ hn) h).imp (.gap hc) (.gap hc)
          | false =>
              obtain ⟨t, rest, toks, rfl, hnext, hloop⟩ := of_tokenizeLoop_tok hc h
              obtain hlex | ⟨rfl, hbody, rfl, rfl⟩ := lexeme_of_nextTok hc hnext
              · have hlt := hlex.length_lt
                exact (ih (by simp at hn hlt; omega) hloop).imp (.tok hlex) (.tok hlex)
              · obtain rfl : toks = [] := by
                  cases n <;> exact (Except.ok.inj hloop).symm
                exact .inr (.opened hbody)

/-- **The tokenizer** reads the tokens of a text, and also of a text that ends inside a string
literal. -/
theorem tokenize_iff {src : String} {toks : List Tok} :
    tokenize std src = .ok toks ↔
      Lexes std src.toList toks ∨ OpenLexes std src.toList toks :=
  ⟨lexes_of_tokenizeLoop le_rfl,
    fun h => h.elim (fun h => tokenizeLoop_of_lexes h le_rfl)
      fun h => tokenizeLoop_of_openLexes h le_rfl⟩

/-- No text has tokens and also ends inside a literal. -/
theorem Lexes.not_open {s : List Char} {toks toks' : List Tok} (h : Lexes std s toks) :
    ¬OpenLexes std s toks' := by
  induction h generalizing toks' with
  | nil =>
      intro hopen
      cases hopen with
      | tok ht _ => exact absurd ht.length_lt (Nat.not_lt_zero _)
  | gap hc _ ih =>
      intro hopen
      cases hopen with
      | opened => cases hc
      | gap _ h => exact ih h
      | tok ht _ =>
          obtain ⟨_, _, heq, hgap, -⟩ := ht.nextTok
          obtain ⟨rfl, rfl⟩ := List.cons.inj heq
          rw [hc] at hgap
          cases hgap
  | tok ht _ ih =>
      obtain ⟨c, s, rfl, hgap, hnext, hquote⟩ := ht.nextTok
      intro hopen
      cases hopen with
      | opened hbody => exact hbody (hquote rfl)
      | gap hc _ =>
          rw [hc] at hgap
          cases hgap
      | tok ht' h =>
          obtain ⟨_, _, heq, -, hnext', -⟩ := ht'.nextTok
          obtain ⟨rfl, rfl⟩ := List.cons.inj heq
          obtain ⟨-, rfl⟩ := Prod.mk.inj (Except.ok.inj (hnext.symm.trans hnext'))
          exact ih h

/-! ## The parser -/

/-- The token is the bare word `w`. -/
def isWord (w : String) (t : Tok) : Bool := nextIs w [t]

theorem nextIs_cons (w : String) (t : Tok) (ts : List Tok) : nextIs w (t :: ts) = isWord w t := by
  cases t <;> rfl

theorem isWord_iff {w : String} {t : Tok} : isWord w t = true ↔ t = .ident w := by
  cases t <;> simp [isWord, nextIs]

/-- The loops over `and` and `or` are loops of a left-associative operator. -/
theorem chainLoop_eq_leftLoop {w : String} {mk : Expr → Expr → Expr} {operand : Parse} (n : ℕ)
    (left : Expr) (toks : List Tok) :
    chainLoop w mk operand n left toks = Lib.leftLoop (isWord w) mk operand n left toks := by
  induction n generalizing left toks with
  | zero => rfl
  | succ n ih =>
      cases toks with
      | nil => rfl
      | cons t ts =>
          rw [chainLoop, Lib.leftLoop, nextIs_cons]
          by_cases ht : isWord w t = true
          · rw [if_pos ht, if_pos ht, List.tail_cons]
            cases hop : operand ts with
            | error e => rfl
            | ok r => exact ih _ _
          · rw [if_neg ht, if_neg ht]

theorem chain_eq_leftChain (w : String) (mk : Expr → Expr → Expr) (operand : Parse) :
    chain w mk operand = Lib.leftChain (isWord w) mk operand := by
  funext toks
  unfold chain Lib.leftChain
  cases operand toks with
  | error e => rfl
  | ok r => exact chainLoop_eq_leftLoop _ _ _

/-- The token goes on with a comparison: an operator or `exists`. -/
def goesOn (t : Tok) : Bool := (binaryOp t).isSome || isWord "exists" t

/-- What may follow a comparison. -/
abbrev EndsComparison (rest : List Tok) : Prop := NoSep goesOn rest

/-- What may follow phrases joined by `and`. -/
abbrev EndsAnd (rest : List Tok) : Prop := EndsComparison rest ∧ NoSep (isWord "and") rest

/-- What may follow an expression. -/
abbrev EndsOr (rest : List Tok) : Prop := EndsAnd rest ∧ NoSep (isWord "or") rest

theorem endsOr_nil : EndsOr [] := by
  refine ⟨⟨?_, ?_⟩, ?_⟩ <;> exact fun _ _ h => absurd h (by simp)

theorem endsOr_closeParen (rest : List Tok) : EndsOr (.sym ")" :: rest) := by
  refine ⟨⟨?_, ?_⟩, ?_⟩ <;>
  · intro t ts heq
    obtain ⟨rfl, -⟩ := List.cons.inj heq
    rfl

/-- What a bare word begins may follow a comparison, if the word is no operator. -/
theorem endsComparison_ident {w : String} (hw : goesOn (.ident w) = false) (rest : List Tok) :
    EndsComparison (.ident w :: rest) := by
  intro t ts heq
  obtain ⟨rfl, -⟩ := List.cons.inj heq
  exact hw

variable {d : ℕ}

/-- A primary is not empty and does not begin with `not`. -/
theorem nextIs_not_primary {ts : List Tok} {e : Expr} (h : Primary d ts e) (rest : List Tok) :
    nextIs "not" (ts ++ rest) = false := by
  cases h <;> rfl

theorem nextIs_not_comparison {ts : List Tok} {e : Expr} (h : Comparison d ts e)
    (rest : List Tok) : nextIs "not" (ts ++ rest) = false := by
  cases h with
  | primary h => exact nextIs_not_primary h _
  | «exists» h =>
      rw [List.append_assoc]
      exact nextIs_not_primary h _
  | binary h _ _ =>
      rw [List.append_assoc]
      exact nextIs_not_primary h _

/-- A primary is read whatever follows it. -/
theorem primary_recognizes (h : Recognizes (expr d) (OrExpr d) EndsOr) :
    Recognizes (primary (expr d)) (Primary d) (fun _ => True) where
  sound {toks e rest} hp := by
    unfold primary at hp
    split at hp
    · obtain ⟨⟨e', rest'⟩, hin, hclose⟩ := bind_eq_ok.mp hp
      obtain ⟨pre, rfl, hpre⟩ := h.sound hin
      dsimp only at hclose
      split at hclose
      · cases hclose
        exact ⟨.sym "(" :: (pre ++ [.sym ")"]), by simp, .paren hpre⟩
      · cases hclose
    · cases hp
      exact ⟨[_], rfl, .number⟩
    · cases hp
      exact ⟨[_], rfl, .str⟩
    · cases hp
      exact ⟨[_], rfl, .true⟩
    · cases hp
      exact ⟨[_], rfl, .false⟩
    · cases hp
      exact ⟨[_], rfl, .null⟩
    · cases hp
      exact ⟨[_], rfl, .ref⟩
    · cases hp
    · cases hp
  complete {pre e rest} hpre _ := by
    cases hpre with
    | number | str | true | false | null | ref => rfl
    | @paren _ ts _ hin =>
        have hread : expr d (ts ++ .sym ")" :: rest) = .ok (e, .sym ")" :: rest) :=
          h.complete hin (endsOr_closeParen rest)
        rw [List.cons_append, List.append_assoc, primary]
        exact bind_eq_ok.mpr ⟨_, hread, rfl⟩

theorem comparison_recognizes (h : Recognizes (expr d) (OrExpr d) EndsOr) :
    Recognizes (comparison (expr d)) (Comparison d) EndsComparison where
  sound {toks e rest} hp := by
    have hprimary := primary_recognizes h
    obtain ⟨⟨left, rest₁⟩, hleft, hnext⟩ := bind_eq_ok.mp hp
    obtain ⟨pre, rfl, hpre⟩ := hprimary.sound hleft
    dsimp only at hnext
    split at hnext
    · cases hnext
      exact ⟨pre ++ [.ident "exists"], by simp, .exists hpre⟩
    · rename_i tok rest₂ _
      split at hnext
      · rename_i op hop
        obtain ⟨⟨right, rest₃⟩, hright, hend⟩ := bind_eq_ok.mp hnext
        obtain ⟨pre', rfl, hpre'⟩ := hprimary.sound hright
        cases hend
        exact ⟨pre ++ tok :: pre', by simp, .binary hpre hop hpre'⟩
      · cases hnext
        exact ⟨pre, rfl, .primary hpre⟩
    · cases hnext
      exact ⟨pre, rfl, .primary hpre⟩
  complete {pre e rest} hpre hrest := by
    have hprimary := primary_recognizes h
    cases hpre with
    | primary hpre =>
        refine bind_eq_ok.mpr ⟨_, hprimary.complete hpre trivial, ?_⟩
        cases rest with
        | nil => rfl
        | cons t ts =>
            obtain ⟨hop, hexists⟩ := Bool.or_eq_false_iff.mp (hrest t ts rfl)
            dsimp only
            split
            · rename_i heq
              obtain ⟨rfl, -⟩ := List.cons.inj heq
              exact absurd hexists (by decide)
            · rename_i heq
              obtain ⟨rfl, rfl⟩ := List.cons.inj heq
              rw [Option.isSome_eq_false_iff, Option.isNone_iff_eq_none] at hop
              rw [hop]
            · rename_i heq
              cases heq
    | «exists» hpre =>
        rw [List.append_assoc]
        exact bind_eq_ok.mpr ⟨_, hprimary.complete hpre trivial, rfl⟩
    | @binary _ ts ts' t op a b ha hop hb =>
        rw [List.append_assoc]
        refine bind_eq_ok.mpr ⟨_, hprimary.complete ha trivial, ?_⟩
        have hread : primary (expr d) (ts' ++ rest) = .ok (b, rest) :=
          hprimary.complete hb trivial
        dsimp only [List.cons_append]
        split
        · rename_i heq
          obtain ⟨rfl, -⟩ := List.cons.inj heq
          cases hop
        · rename_i heq
          obtain ⟨rfl, rfl⟩ := List.cons.inj heq
          rw [hop]
          exact bind_eq_ok.mpr ⟨_, hread, rfl⟩
        · rename_i heq
          cases heq

theorem leftChain_of_andExpr {ts : List Tok} {e : Expr} :
    AndExpr d ts e → LeftChain (isWord "and") .and (NotExpr d) ts e
  | .one h => .one h
  | .and ha hb => .more (leftChain_of_andExpr ha) (isWord_iff.mpr rfl) hb

theorem leftChain_of_orExpr {ts : List Tok} {e : Expr} :
    OrExpr (d + 1) ts e → LeftChain (isWord "or") .or (AndExpr d) ts e
  | .one h => .one h
  | .or ha hb => .more (leftChain_of_orExpr ha) (isWord_iff.mpr rfl) hb

theorem leftChain_and {ts : List Tok} {e : Expr} :
    LeftChain (isWord "and") .and (NotExpr d) ts e ↔ AndExpr d ts e := by
  refine ⟨fun h => ?_, leftChain_of_andExpr⟩
  induction h with
  | one h => exact .one h
  | more _ ht hb ih =>
      rw [isWord_iff] at ht
      subst ht
      exact .and ih hb

theorem leftChain_or {ts : List Tok} {e : Expr} :
    LeftChain (isWord "or") .or (AndExpr d) ts e ↔ OrExpr (d + 1) ts e := by
  refine ⟨fun h => ?_, leftChain_of_orExpr⟩
  induction h with
  | one h => exact .one h
  | more _ ht hb ih =>
      rw [isWord_iff] at ht
      subst ht
      exact .or ih hb

/-- At every depth both parsers recognize their phrases. -/
theorem notExpr_expr_recognizes (d : ℕ) :
    Recognizes (notExpr d) (NotExpr d) EndsComparison ∧
      Recognizes (expr d) (OrExpr d) EndsOr := by
  induction d with
  | zero =>
      refine ⟨⟨fun hp => ?_, fun h => ?_⟩, ⟨fun hp => ?_, fun h => ?_⟩⟩
      · rw [notExpr] at hp
        cases hp
      · cases h
      · rw [expr] at hp
        cases hp
      · cases h
  | succ d ih =>
      obtain ⟨hnot, hexpr⟩ := ih
      have hcomparison := comparison_recognizes hexpr
      constructor
      · constructor
        · intro toks e rest hp
          rw [notExpr] at hp
          dsimp only at hp
          split_ifs at hp with hw
          · obtain ⟨⟨inner, rest₁⟩, hinner, hend⟩ := bind_eq_ok.mp hp
            cases hend
            cases toks with
            | nil => cases hw
            | cons t ts =>
                rw [nextIs_cons, isWord_iff] at hw
                subst hw
                obtain ⟨pre, heq, hpre⟩ := hnot.sound hinner
                exact ⟨.ident "not" :: pre, congrArg _ heq, .not hpre⟩
          · obtain ⟨pre, heq, hpre⟩ := hcomparison.sound hp
            exact ⟨pre, heq, .comparison hpre⟩
        · intro pre e rest hpre hrest
          rw [notExpr]
          cases hpre with
          | comparison h =>
              dsimp only
              rw [if_neg (by rw [nextIs_not_comparison h]; exact Bool.false_ne_true)]
              exact hcomparison.complete h hrest
          | not h => exact bind_eq_ok.mpr ⟨_, hnot.complete h hrest, rfl⟩
      · have hand : Recognizes (Lib.leftChain (isWord "and") .and (notExpr d)) (AndExpr d)
            EndsAnd := by
          refine (hnot.leftChain fun t ts ht => ?_).congr (fun _ _ => leftChain_and) fun _ => id
          rw [isWord_iff.mp ht]
          exact endsComparison_ident rfl ts
        rw [expr, chain_eq_leftChain, chain_eq_leftChain]
        refine (hand.leftChain fun t ts ht => ?_).congr (fun _ _ => leftChain_or) fun _ => id
        rw [isWord_iff.mp ht]
        refine ⟨endsComparison_ident rfl ts, ?_⟩
        intro t' ts' heq
        obtain ⟨rfl, -⟩ := List.cons.inj heq
        rfl

/-- **The parser** recognizes the expressions nested within the levels there are. -/
theorem expr_recognizes (d : ℕ) : Recognizes (expr d) (OrExpr d) EndsOr :=
  (notExpr_expr_recognizes d).2

/-! ## Texts -/

/-- What `parse_expr` accepts: the sentences, and the texts that would be sentences if the string
literal they end inside were closed there. -/
theorem parseExpr_eq_ok_iff {src : String} {e : Expr} :
    parseExpr std src = .ok e ↔
      Sentence std src e ∨ ∃ toks, OpenLexes std src.toList toks ∧ OrExpr maxDepth toks e := by
  have hread : parseExpr std src = .ok e ↔
      ∃ toks, tokenize std src = .ok toks ∧ expr maxDepth toks = .ok (e, []) := by
    constructor
    · intro h
      obtain ⟨toks, htoks, h⟩ := bind_eq_ok.mp h
      obtain ⟨⟨e', rest⟩, hexpr, hend⟩ := bind_eq_ok.mp h
      dsimp only at hend
      split_ifs at hend with hnil
      obtain rfl := List.isEmpty_iff.mp hnil
      cases hend
      exact ⟨toks, htoks, hexpr⟩
    · rintro ⟨toks, htoks, hexpr⟩
      exact bind_eq_ok.mpr ⟨toks, htoks, bind_eq_ok.mpr ⟨_, hexpr, rfl⟩⟩
  rw [hread]
  constructor
  · rintro ⟨toks, htoks, hexpr⟩
    have hphrase := ((expr_recognizes maxDepth).accepts_iff endsOr_nil).mp hexpr
    exact (tokenize_iff.mp htoks).imp (fun h => ⟨toks, h, hphrase⟩) fun h => ⟨toks, h, hphrase⟩
  · rintro (⟨toks, hlex, hphrase⟩ | ⟨toks, hopen, hphrase⟩)
    · exact ⟨toks, tokenize_iff.mpr (.inl hlex),
        ((expr_recognizes maxDepth).accepts_iff endsOr_nil).mpr hphrase⟩
    · exact ⟨toks, tokenize_iff.mpr (.inr hopen),
        ((expr_recognizes maxDepth).accepts_iff endsOr_nil).mpr hphrase⟩

/-- **A text is parsed as it should be** — accepted exactly if it is a sentence, with the tree of
the sentence — unless it ends inside a string literal and its tokens, with the literal ended there,
are an expression. -/
theorem parseExpr_iff (std : RustStd) (src : String) :
    (∀ e, parseExpr std src = .ok e ↔ Sentence std src e) ↔
      ¬∃ toks e, OpenLexes std src.toList toks ∧ OrExpr maxDepth toks e := by
  constructor
  · rintro h ⟨toks, e, hopen, hphrase⟩
    obtain ⟨toks', hlex, -⟩ := (h e).mp (parseExpr_eq_ok_iff.mpr (.inr ⟨toks, hopen, hphrase⟩))
    exact hlex.not_open hopen
  · intro h e
    rw [parseExpr_eq_ok_iff]
    exact ⟨fun hok => hok.resolve_right fun ⟨toks, hopen, hphrase⟩ => h ⟨toks, e, hopen, hphrase⟩,
      .inl⟩

/-- A literal that is not closed is accepted all the same. -/
theorem parseExpr_not_sentence :
    ¬∀ (std : RustStd) (src : String) (e : Expr),
      parseExpr std src = .ok e ↔ Sentence std src e := by
  intro h
  have hopen : OpenLexes RustStd.ascii "\"abc".toList [.str "abc"] := .opened (by decide)
  obtain ⟨toks, hlex, -⟩ := (h RustStd.ascii "\"abc" (.literal (.string "abc"))).mp rfl
  exact hlex.not_open hopen

/-- A sentence has one tree. -/
theorem Sentence.unique {src : String} {e e' : Expr} (h : Sentence std src e)
    (h' : Sentence std src e') : e = e' :=
  Except.ok.inj ((parseExpr_eq_ok_iff.mpr (.inl h)).symm.trans (parseExpr_eq_ok_iff.mpr (.inl h')))

end AuraLauncher.Domain
