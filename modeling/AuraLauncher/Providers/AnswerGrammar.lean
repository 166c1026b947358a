import AuraLauncher.Providers.Answers
import Mathlib.Data.List.TakeWhile

/-!
# The grammar of the calculator

The arithmetic that `evaluate_arithmetic` is for, with the values it has in an ordered field, and
what the evaluator accepts.

* `Calculation`, `Calculation.value`, `Calculation.Defined` — a calculation, its value, and that
  nothing in it is divided by zero.
* `Phrase` — the phrases with their trees, by the precedence of their operators and the levels of
  nesting that are left, of which every factor takes one; a gap is what may stand around a token.
* `Means` — a phrase and its value.
* `parseFactor_recognizes` — the parser recognizes the phrases without gaps.
* `evaluateArithmetic_iff` — the evaluator gives the values of the sentences, where white space is
  dropped first.
-/

namespace AuraLauncher.Providers.Answers

open AuraLauncher.Lib
open AuraLauncher.Domain (isWhitespace)

/-! ## Calculations -/

/-- The binary operators. -/
inductive Operator
  | add | sub | mul | div | rem

/-- How an operator is written. -/
def Operator.symbol : Operator → Char
  | .add => '+'
  | .sub => '-'
  | .mul => '*'
  | .div => '/'
  | .rem => '%'

/-- The precedence of an operator; the lower one binds tighter. -/
def Operator.level : Operator → ℕ
  | .mul | .div | .rem => 0
  | .add | .sub => 1

/-- Whether the right operand is a divisor. -/
def Operator.divides : Operator → Bool
  | .div | .rem => true
  | .add | .sub | .mul => false

/-- A calculation; a number is the digits of its whole part and of its fraction. -/
inductive Calculation
  | number (whole frac : List Char)
  | neg (e : Calculation)
  | pos (e : Calculation)
  | binary (op : Operator) (a b : Calculation)

section Values

variable (K : Type) [Field K] [LinearOrder K] [FloorRing K]

/-- What an operator computes; the remainder is that of the truncated division. -/
def Operator.apply : Operator → K → K → K
  | .add, a, b => a + b
  | .sub, a, b => a - b
  | .mul, a, b => a * b
  | .div, a, b => a / b
  | .rem, a, b => a - b * trunc K (a / b)

/-- The value of a calculation. -/
def Calculation.value : Calculation → K
  | .number whole frac => decimal K whole frac
  | .neg e => -e.value
  | .pos e => e.value
  | .binary op a b => op.apply K a.value b.value

/-- No divisor evaluates to zero. -/
def Calculation.Defined : Calculation → Prop
  | .number _ _ => True
  | .neg e => e.Defined
  | .pos e => e.Defined
  | .binary op a b => a.Defined ∧ b.Defined ∧ (op.divides = true → b.value K ≠ 0)

end Values

/-! ## Phrases -/

/-- The decimal numbers: digits with at most one dot, of which one digit at least. -/
inductive Numeral : List Char → List Char → List Char → Prop
  | integer {whole : List Char} : whole ≠ [] → (∀ c ∈ whole, c.isDigit = true) →
      Numeral whole whole []
  | dotted {whole frac : List Char} : whole ++ frac ≠ [] → (∀ c ∈ whole, c.isDigit = true) →
      (∀ c ∈ frac, c.isDigit = true) → Numeral (whole ++ '.' :: frac) whole frac

/-- A text is a token with gaps around it. -/
def Spells (gap : Char → Bool) (token s : List Char) : Prop :=
  ∃ before after, (∀ c ∈ before, gap c = true) ∧ (∀ c ∈ after, gap c = true) ∧
    s = before ++ (token ++ after)

/-- The phrases: factors (`0`), terms (`1`) and expressions (`2`), with the levels of nesting that
are left. -/
inductive Phrase (gap : Char → Bool) : ℕ → ℕ → List Char → Calculation → Prop
  | number {n : ℕ} {token s whole frac : List Char} : Numeral token whole frac →
      Spells gap token s → Phrase gap 0 (n + 1) s (.number whole frac)
  | neg {n : ℕ} {sign s : List Char} {e : Calculation} : Spells gap ['-'] sign →
      Phrase gap 0 n s e → Phrase gap 0 (n + 1) (sign ++ s) (.neg e)
  | pos {n : ℕ} {sign s : List Char} {e : Calculation} : Spells gap ['+'] sign →
      Phrase gap 0 n s e → Phrase gap 0 (n + 1) (sign ++ s) (.pos e)
  | paren {n : ℕ} {left s right : List Char} {e : Calculation} : Spells gap ['('] left →
      Phrase gap 2 n s e → Spells gap [')'] right → Phrase gap 0 (n + 1) (left ++ (s ++ right)) e
  | tighter {p n : ℕ} {s : List Char} {e : Calculation} : Phrase gap p n s e →
      Phrase gap (p + 1) n s e
  | binary {p n : ℕ} {s sign s' : List Char} {op : Operator} {a b : Calculation} :
      Phrase gap (p + 1) n s a → op.level = p → Spells gap [op.symbol] sign →
      Phrase gap p n s' b → Phrase gap (p + 1) n (s ++ (sign ++ s')) (.binary op a b)

/-- Tokens stand next to each other. -/
def noGap (_ : Char) : Bool := false

theorem spells_noGap {token s : List Char} : Spells noGap token s ↔ s = token := by
  constructor
  · rintro ⟨before, after, hbefore, hafter, rfl⟩
    have hnil : ∀ {l : List Char}, (∀ c ∈ l, noGap c = true) → l = [] := fun h =>
      List.eq_nil_iff_forall_not_mem.mpr fun c hc => Bool.false_ne_true (h c hc)
    rw [hnil hbefore, hnil hafter, List.append_nil]
    rfl
  · rintro rfl
    exact ⟨[], [], List.forall_mem_nil _, List.forall_mem_nil _, (List.append_nil _).symm⟩

section Recognition

variable (K : Type) [Field K] [LinearOrder K] [FloorRing K]

/-- A text is a phrase in which no divisor is zero, and has a value. -/
def Means (G : List Char → Calculation → Prop) (s : List Char) (v : K) : Prop :=
  ∃ e, G s e ∧ e.Defined K ∧ e.value K = v

variable {K}

/-! ## Numbers -/

theorem isNumberChar_of_isDigit {c : Char} (h : c.isDigit = true) : isNumberChar c = true := by
  unfold isNumberChar
  rw [h, Bool.true_or]

theorem Numeral.isNumberChar {token whole frac : List Char} (h : Numeral token whole frac) :
    ∀ c ∈ token, isNumberChar c = true := by
  intro c hc
  cases h with
  | integer _ hwhole => exact isNumberChar_of_isDigit (hwhole c hc)
  | dotted _ hwhole hfrac =>
      rcases List.mem_append.mp hc with hc | hc
      · exact isNumberChar_of_isDigit (hwhole c hc)
      · rcases List.mem_cons.mp hc with rfl | hc
        · rfl
        · exact isNumberChar_of_isDigit (hfrac c hc)

theorem Numeral.ne_nil {token whole frac : List Char} (h : Numeral token whole frac) :
    token ≠ [] := by
  cases h with
  | integer hne _ => exact hne
  | dotted => exact List.append_ne_nil_of_right_ne_nil _ (List.cons_ne_nil _ _)

/-- Digits are no dots. -/
theorem count_dot_of_isDigit {s : List Char} (h : ∀ c ∈ s, c.isDigit = true) :
    s.count '.' = 0 := by
  refine List.count_eq_zero_of_not_mem fun hdot => ?_
  exact Bool.false_ne_true (h '.' hdot)

theorem Numeral.count_dot {token whole frac : List Char} (h : Numeral token whole frac) :
    token.count '.' ≤ 1 := by
  cases h with
  | integer _ hwhole =>
      rw [count_dot_of_isDigit hwhole]
      exact Nat.zero_le _
  | dotted _ hwhole hfrac =>
      rw [List.count_append, List.count_cons_self, count_dot_of_isDigit hwhole,
        count_dot_of_isDigit hfrac]

omit [LinearOrder K] [FloorRing K] in
/-- What a text of digits and dots is read as. -/
theorem parseDecimal_iff {s : List Char} {v : K} :
    parseDecimal K s = some v ↔ ∃ whole frac, Numeral s whole frac ∧ decimal K whole frac = v := by
  constructor
  · intro h
    have hs : s.takeWhile Char.isDigit ++ s.dropWhile Char.isDigit = s :=
      List.takeWhile_append_dropWhile
    have hwhole : ∀ c ∈ s.takeWhile Char.isDigit, c.isDigit = true := fun c hc =>
      List.mem_takeWhile_imp hc
    unfold parseDecimal at h
    dsimp only at h
    split at h
    · rename_i hdrop
      rw [hdrop, List.append_nil] at hs
      split_ifs at h with hne
      refine ⟨_, [], ?_, Option.some.inj h⟩
      conv => arg 1; rw [← hs]
      exact .integer hne hwhole
    · rename_i c frac hdrop
      rw [hdrop] at hs
      split_ifs at h with hc
      obtain ⟨rfl, hfrac, hne⟩ := hc
      refine ⟨_, frac, ?_, Option.some.inj h⟩
      conv => arg 1; rw [← hs]
      exact .dotted hne hwhole (List.all_eq_true.mp hfrac)
  · rintro ⟨whole, frac, hnumeral, rfl⟩
    unfold parseDecimal
    cases hnumeral with
    | integer hne hwhole =>
        have htake : s.takeWhile Char.isDigit = s := List.takeWhile_eq_self_iff.mpr hwhole
        have hdrop : s.dropWhile Char.isDigit = [] := List.dropWhile_eq_nil_iff.mpr hwhole
        simp only [htake, hdrop, if_neg hne]
    | dotted hne hwhole hfrac =>
        have htake : (whole ++ '.' :: frac).takeWhile Char.isDigit = whole := by
          rw [List.takeWhile_append_of_pos hwhole]
          exact List.append_nil _
        have hdrop : (whole ++ '.' :: frac).dropWhile Char.isDigit = '.' :: frac := by
          rw [List.dropWhile_append_of_pos hwhole]
          rfl
        simp only [htake, hdrop]
        exact if_pos ⟨trivial, List.all_eq_true.mpr hfrac, hne⟩

/-- What may follow a number. -/
def EndsNumber (rest : List Char) : Prop :=
  ∀ c cs, rest = c :: cs → isNumberChar c = false

/-- The run of number characters at the front of a number and what follows it. -/
theorem takeWhile_number {s rest : List Char} (hs : ∀ c ∈ s, isNumberChar c = true)
    (hrest : EndsNumber rest) :
    (s ++ rest).takeWhile isNumberChar = s ∧ (s ++ rest).dropWhile isNumberChar = rest := by
  have hend : rest.takeWhile isNumberChar = [] ∧ rest.dropWhile isNumberChar = rest := by
    cases rest with
    | nil => exact ⟨rfl, rfl⟩
    | cons c cs =>
        have hc := hrest c cs rfl
        exact ⟨List.takeWhile_cons_of_neg (by simp [hc]), List.dropWhile_cons_of_neg (by simp [hc])⟩
  rw [List.takeWhile_append_of_pos hs, List.dropWhile_append_of_pos hs, hend.1, hend.2]
  exact ⟨List.append_nil s, rfl⟩

theorem parseNumber_recognizes :
    Recognizes (parseNumber (Numbers.exact K))
      (fun s v => ∃ whole frac, Numeral s whole frac ∧ decimal K whole frac = v) EndsNumber where
  sound {toks v rest} h := by
    unfold parseNumber at h
    dsimp only at h
    split_ifs at h with hempty
    split at h
    · rename_i x hparse
      obtain ⟨rfl, rfl⟩ := Prod.mk.inj (Except.ok.inj h)
      obtain ⟨hparse, -⟩ := Option.filter_eq_some_iff.mp hparse
      exact ⟨toks.takeWhile isNumberChar, List.takeWhile_append_dropWhile.symm,
        parseDecimal_iff.mp hparse⟩
    · cases h
  complete {s v rest} h hrest := by
    obtain ⟨whole, frac, hnumeral, hv⟩ := h
    obtain ⟨htake, hdrop⟩ := takeWhile_number hnumeral.isNumberChar hrest
    have hparse : ((Numbers.exact K).parse s).filter (fun _ => s.count '.' ≤ 1) = some v :=
      Option.filter_eq_some_iff.mpr ⟨parseDecimal_iff.mpr ⟨whole, frac, hnumeral, hv⟩,
        decide_eq_true hnumeral.count_dot⟩
    unfold parseNumber
    simp only [htake, hdrop, hparse]
    exact if_neg (by simpa using hnumeral.ne_nil)

/-! ## Operators -/

/-- An operator as the loop runs it: a zero divisor is refused. -/
def Operator.run (op : Operator) (lhs rhs : K) : Except Unit K :=
  if op.divides && decide (rhs = 0) then .error () else .ok (op.apply K lhs rhs)

theorem Operator.run_eq_ok_iff {op : Operator} {a b v : K} :
    op.run a b = .ok v ↔ (op.divides = true → b ≠ 0) ∧ op.apply K a b = v := by
  unfold Operator.run
  by_cases hzero : op.divides = true ∧ b = 0
  · rw [if_pos (by simpa using hzero)]
    constructor
    · intro h
      cases h
    · rintro ⟨h, -⟩
      exact absurd hzero.2 (h hzero.1)
  · rw [if_neg (by simpa using hzero)]
    have hne : op.divides = true → b ≠ 0 := fun hd hb => hzero ⟨hd, hb⟩
    exact ⟨fun h => ⟨hne, Except.ok.inj h⟩, fun h => congrArg Except.ok h.2⟩

/-- The operators of a loop are those of one level. -/
def OperatorsOf (p : ℕ) (ops : Operators Unit Char K) : Prop :=
  ∀ t f, ops t = some f ↔ ∃ op : Operator, op.level = p ∧ op.symbol = t ∧ f = op.run

theorem mulOperators_of : OperatorsOf 0 (mulOperators (Numbers.exact K)) := by
  intro t f
  constructor
  · intro h
    unfold mulOperators at h
    split at h
    · exact ⟨.mul, rfl, rfl, (Option.some.inj h).symm⟩
    · exact ⟨.div, rfl, rfl, (Option.some.inj h).symm⟩
    · exact ⟨.rem, rfl, rfl, (Option.some.inj h).symm⟩
    · cases h
  · rintro ⟨op, hop, rfl, rfl⟩
    cases op with
    | add | sub => cases hop
    | mul | div | rem => rfl

theorem addOperators_of : OperatorsOf 1 (addOperators (Numbers.exact K)) := by
  intro t f
  constructor
  · intro h
    unfold addOperators at h
    split at h
    · exact ⟨.add, rfl, rfl, (Option.some.inj h).symm⟩
    · exact ⟨.sub, rfl, rfl, (Option.some.inj h).symm⟩
    · cases h
  · rintro ⟨op, hop, rfl, rfl⟩
    cases op with
    | add | sub => rfl
    | mul | div | rem => cases hop

variable {p n : ℕ} {ops : Operators Unit Char K}

/-- A phrase of the next level is a chain of phrases. -/
theorem operatorChain_of_phrase (hops : OperatorsOf p ops) {s : List Char} {e : Calculation} :
    Phrase noGap (p + 1) n s e → e.Defined K →
      OperatorChain ops (Means K (Phrase noGap p n)) s (e.value K)
  | .tighter h, hdefined => .one ⟨e, h, hdefined, rfl⟩
  | .binary ha hop hsign hb, ⟨hda, hdb, hdivisor⟩ => by
      rw [spells_noGap.mp hsign]
      exact .more (operatorChain_of_phrase hops ha hda) ((hops _ _).mpr ⟨_, hop, rfl, rfl⟩)
        ⟨_, hb, hdb, rfl⟩ (Operator.run_eq_ok_iff.mpr ⟨hdivisor, rfl⟩)

theorem operatorChain_phrase_iff (hops : OperatorsOf p ops) {s : List Char} {v : K} :
    OperatorChain ops (Means K (Phrase noGap p n)) s v ↔
      Means K (Phrase noGap (p + 1) n) s v := by
  constructor
  · intro h
    induction h with
    | one h =>
        obtain ⟨e, he, hdefined, hv⟩ := h
        exact ⟨e, .tighter he, hdefined, hv⟩
    | more _ ht hb hc iha =>
        obtain ⟨a, ha, hda, rfl⟩ := iha
        obtain ⟨b, hb, hdb, rfl⟩ := hb
        obtain ⟨op, hop, rfl, rfl⟩ := (hops _ _).mp ht
        obtain ⟨hdivisor, hv⟩ := Operator.run_eq_ok_iff.mp hc
        exact ⟨.binary op a b, .binary ha hop (spells_noGap.mpr rfl) hb, ⟨hda, hdb, hdivisor⟩, hv⟩
  · rintro ⟨e, he, hdefined, rfl⟩
    exact operatorChain_of_phrase hops he hdefined

/-! ## The parser -/

variable (K)

/-- What may follow a term. -/
def EndsTerm (rest : List Char) : Prop :=
  EndsNumber rest ∧ NoOperator (mulOperators (Numbers.exact K)) rest

/-- What may follow an expression. -/
def EndsExpr (rest : List Char) : Prop :=
  EndsTerm K rest ∧ NoOperator (addOperators (Numbers.exact K)) rest

theorem endsExpr_nil : EndsExpr K [] := by
  refine ⟨⟨?_, ?_⟩, ?_⟩ <;> exact fun _ _ h => absurd h (by simp)

theorem endsExpr_closeParen (rest : List Char) : EndsExpr K (')' :: rest) := by
  refine ⟨⟨?_, ?_⟩, ?_⟩ <;>
  · intro c cs heq
    obtain ⟨rfl, -⟩ := List.cons.inj heq
    rfl

variable {K} {factor : Step Unit Char K}

/-- An operator ends the number before it. -/
theorem endsNumber_of_operator (hops : OperatorsOf p ops) {t : Char} (ts : List Char)
    (ht : (ops t).isSome) : EndsNumber (t :: ts) := by
  obtain ⟨f, hf⟩ := Option.isSome_iff_exists.mp ht
  obtain ⟨op, -, rfl, -⟩ := (hops _ _).mp hf
  intro c cs heq
  obtain ⟨rfl, -⟩ := List.cons.inj heq
  cases op <;> rfl

/-- An operator of an expression ends the term before it. -/
theorem endsTerm_of_addOperator {t : Char} (ts : List Char)
    (ht : (addOperators (Numbers.exact K) t).isSome) : EndsTerm K (t :: ts) := by
  refine ⟨endsNumber_of_operator addOperators_of ts ht, ?_⟩
  obtain ⟨f, hf⟩ := Option.isSome_iff_exists.mp ht
  obtain ⟨op, hop, rfl, -⟩ := (addOperators_of _ _).mp hf
  intro c cs heq
  obtain ⟨rfl, -⟩ := List.cons.inj heq
  cases op with
  | add | sub => rfl
  | mul | div | rem => cases hop

theorem parseTerm_recognizes (h : Recognizes factor (Means K (Phrase noGap 0 n)) EndsNumber) :
    Recognizes (parseTerm (Numbers.exact K) factor) (Means K (Phrase noGap 1 n)) (EndsTerm K) :=
  (h.operatorChain fun _ ts ht => endsNumber_of_operator mulOperators_of ts ht).congr
    (fun _ _ => operatorChain_phrase_iff mulOperators_of) fun _ => id

theorem parseExpr_recognizes (h : Recognizes factor (Means K (Phrase noGap 0 n)) EndsNumber) :
    Recognizes (parseExpr (Numbers.exact K) factor) (Means K (Phrase noGap 2 n)) (EndsExpr K) :=
  ((parseTerm_recognizes h).operatorChain fun _ ts ht => endsTerm_of_addOperator ts ht).congr
    (fun _ _ => operatorChain_phrase_iff addOperators_of) fun _ => id

/-- A sign in front of a factor. -/
theorem parseFactor_neg (n : ℕ) (tokens : List Char) :
    parseFactor (Numbers.exact K) (n + 1) ('-' :: tokens) =
      (parseFactor (Numbers.exact K) n tokens).map fun r => (-r.1, r.2) := by
  rw [parseFactor, if_neg (by decide), if_pos rfl]
  cases parseFactor (Numbers.exact K) n tokens with
  | error e => rfl
  | ok r => rfl

theorem parseFactor_pos (n : ℕ) (tokens : List Char) :
    parseFactor (Numbers.exact K) (n + 1) ('+' :: tokens) =
      parseFactor (Numbers.exact K) n tokens := by
  rw [parseFactor, if_neg (by decide), if_neg (by decide), if_pos rfl]

/-- A number that begins a factor is the factor. -/
theorem parseFactor_number (n : ℕ) {tokens : List Char}
    (h : ∃ c cs, tokens = c :: cs ∧ isNumberChar c = true) :
    parseFactor (Numbers.exact K) (n + 1) tokens = parseNumber (Numbers.exact K) tokens := by
  obtain ⟨c, cs, rfl, hc⟩ := h
  have hne : ∀ x : Char, isNumberChar x = false → c ≠ x := by
    rintro x hx rfl
    exact Bool.false_ne_true (hx.symm.trans hc)
  rw [parseFactor, if_neg (hne _ rfl), if_neg (hne _ rfl), if_neg (hne _ rfl), if_pos hc]

/-- What a factor is read from, if the factors inside it are recognized. -/
theorem parseFactor_sound
    (ih : Recognizes (parseFactor (Numbers.exact K) n) (Means K (Phrase noGap 0 n)) EndsNumber)
    {toks rest : List Char} {v : K}
    (h : parseFactor (Numbers.exact K) (n + 1) toks = .ok (v, rest)) :
    ∃ s, toks = s ++ rest ∧ Means K (Phrase noGap 0 (n + 1)) s v := by
  have hexpr := parseExpr_recognizes ih
  cases toks with
  | nil =>
      rw [parseFactor] at h
      cases h
  | cons c toks =>
      rw [parseFactor] at h
      split_ifs at h with hopen hminus hplus hnumber
      · split at h
        · rename_i x tokens hread
          obtain ⟨rfl, rfl⟩ := Prod.mk.inj (Except.ok.inj h)
          obtain ⟨s, rfl, e, he, hdefined, hv⟩ := hexpr.sound hread
          refine ⟨['('] ++ (s ++ [')']), by simp [hopen], e, ?_, hdefined, hv⟩
          exact .paren (spells_noGap.mpr rfl) he (spells_noGap.mpr rfl)
        · cases h
      · split at h
        · rename_i x tokens hread
          obtain ⟨rfl, rfl⟩ := Prod.mk.inj (Except.ok.inj h)
          obtain ⟨s, rfl, e, he, hdefined, rfl⟩ := ih.sound hread
          refine ⟨['-'] ++ s, by simp [hminus], .neg e, ?_, hdefined, rfl⟩
          exact .neg (spells_noGap.mpr rfl) he
        · cases h
      · obtain ⟨s, rfl, e, he, hdefined, hv⟩ := ih.sound h
        refine ⟨['+'] ++ s, by simp [hplus], .pos e, ?_, hdefined, hv⟩
        exact .pos (spells_noGap.mpr rfl) he
      · obtain ⟨s, hs, whole, frac, hnumeral, hv⟩ := parseNumber_recognizes.sound h
        exact ⟨s, hs, .number whole frac, .number hnumeral (spells_noGap.mpr rfl), trivial, hv⟩

/-- A factor is read, if the factors inside it are recognized. -/
theorem parseFactor_complete
    (ih : Recognizes (parseFactor (Numbers.exact K) n) (Means K (Phrase noGap 0 n)) EndsNumber)
    {s rest : List Char} {v : K} (h : Means K (Phrase noGap 0 (n + 1)) s v)
    (hrest : EndsNumber rest) :
    parseFactor (Numbers.exact K) (n + 1) (s ++ rest) = .ok (v, rest) := by
  have hexpr := parseExpr_recognizes ih
  obtain ⟨e, he, hdefined, hv⟩ := h
  cases he with
  | number hnumeral hspells =>
      obtain rfl := spells_noGap.mp hspells
      have hfirst : ∃ c cs, s ++ rest = c :: cs ∧ isNumberChar c = true := by
        obtain ⟨c, cs, rfl⟩ := List.exists_cons_of_ne_nil hnumeral.ne_nil
        exact ⟨c, cs ++ rest, rfl, hnumeral.isNumberChar c List.mem_cons_self⟩
      rw [parseFactor_number n hfirst]
      exact parseNumber_recognizes.complete ⟨_, _, hnumeral, hv⟩ hrest
  | neg hsign h =>
      subst hv
      rw [spells_noGap.mp hsign, List.append_assoc, List.singleton_append, parseFactor_neg,
        ih.complete ⟨_, h, hdefined, rfl⟩ hrest]
      rfl
  | pos hsign h =>
      rw [spells_noGap.mp hsign, List.append_assoc, List.singleton_append, parseFactor_pos,
        ih.complete ⟨_, h, hdefined, hv⟩ hrest]
  | paren hleft h hright =>
      have hread := hexpr.complete ⟨_, h, hdefined, hv⟩ (endsExpr_closeParen K rest)
      rw [spells_noGap.mp hleft, spells_noGap.mp hright, List.append_assoc, List.append_assoc,
        List.singleton_append, List.singleton_append, parseFactor, if_pos rfl, hread]
      rfl

/-- **The parser of factors** recognizes them, at every depth. -/
theorem parseFactor_recognizes (n : ℕ) :
    Recognizes (parseFactor (Numbers.exact K) n) (Means K (Phrase noGap 0 n)) EndsNumber := by
  induction n with
  | zero =>
      constructor
      · intro toks v rest h
        rw [parseFactor] at h
        cases h
      · rintro s v rest ⟨e, he, -⟩
        cases he
  | succ n ih => exact ⟨parseFactor_sound ih, parseFactor_complete ih⟩

/-! ## The evaluator -/

/-- A text is a sentence with a value: an expression nested within the levels there are, in which no
divisor evaluates to zero. -/
def Sentence (gap : Char → Bool) (s : List Char) (v : K) : Prop :=
  Means K (Phrase gap 2 (MAX_DEPTH + 1)) s v

/-- A phrase is not empty. -/
theorem Phrase.ne_nil {gap : Char → Bool} {s : List Char} {e : Calculation}
    (h : Phrase gap p n s e) : s ≠ [] := by
  induction h with
  | number hnumeral hspells =>
      obtain ⟨before, after, -, -, rfl⟩ := hspells
      have hinner := List.append_ne_nil_of_left_ne_nil hnumeral.ne_nil after
      exact List.append_ne_nil_of_right_ne_nil _ hinner
  | neg _ _ ih => exact List.append_ne_nil_of_right_ne_nil _ ih
  | pos _ _ ih => exact List.append_ne_nil_of_right_ne_nil _ ih
  | paren _ _ _ ih =>
      exact List.append_ne_nil_of_right_ne_nil _ (List.append_ne_nil_of_left_ne_nil ih _)
  | tighter _ ih => exact ih
  | binary _ _ _ _ iha _ => exact List.append_ne_nil_of_left_ne_nil iha _

/-- **The evaluator gives a value exactly to the sentences**, where white space is dropped first,
wherever it stands; the value is that of the sentence. -/
theorem evaluateArithmetic_iff (src : String) (v : K) :
    evaluateArithmetic (Numbers.exact K) src = some v ↔
      Sentence noGap (withoutSpace (afterEquals src)) v := by
  have haccepts : parseExpr (Numbers.exact K) (parseFactor (Numbers.exact K) (MAX_DEPTH + 1))
      (withoutSpace (afterEquals src)) = .ok (v, []) ↔ _ :=
    (parseExpr_recognizes (parseFactor_recognizes _)).accepts_iff (endsExpr_nil K)
  unfold Sentence
  rw [← haccepts]
  unfold evaluateArithmetic
  dsimp only
  constructor
  · intro h
    split_ifs at h with hempty
    split at h
    · rename_i x hread
      obtain rfl := Option.some.inj h
      exact hread
    · cases h
  · intro hread
    obtain ⟨e, he, -⟩ := haccepts.mp hread
    rw [if_neg (by simpa using he.ne_nil), hread]
    rfl

end Recognition

end AuraLauncher.Providers.Answers
