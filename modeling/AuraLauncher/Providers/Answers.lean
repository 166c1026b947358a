import AuraLauncher.Domain.Std
import AuraLauncher.Lib.Operators
import Mathlib.Algebra.Order.Floor.Defs
import Mathlib.Algebra.Field.Basic

/-!
# The calculator of the search box

`launcher-core/src/providers/answers.rs`, `evaluate_arithmetic` and the functions under it. What the
evaluator uses of `f64` is a record of operations, so that it can be run on other numbers: `exact`
are those of an ordered field, where nothing is rounded and nothing overflows. A refusal of the
parser is the error `()`, and the position in the tokens is the list of those that are left.

* `Numbers`, `Numbers.exact` — the operations, and those of a field.
* `parseNumber`, `parseFactor`, `parseTerm`, `parseExpr` — the parser, on the levels of nesting that
  are left.
* `evaluateArithmetic` — the evaluator.

The row that shows the result is left out.
-/

namespace AuraLauncher.Providers.Answers

open AuraLauncher.Lib
open AuraLauncher.Domain (trim isWhitespace)

/-- What the evaluator uses of `f64`. -/
structure Numbers (α : Type) where
  /-- `str::parse::<f64>` of a text of digits and dots. -/
  parse : List Char → Option α
  neg : α → α
  add : α → α → α
  sub : α → α → α
  mul : α → α → α
  div : α → α → α
  /-- The remainder of the truncated division. -/
  rem : α → α → α
  isZero : α → Bool
  isFinite : α → Bool

/-- Source: `answers.rs`, `MAX_DEPTH`. -/
def MAX_DEPTH : ℕ := 32

/-- The characters of a number. -/
def isNumberChar (c : Char) : Bool := c.isDigit || c == '.'

section Parser

variable {α : Type} (nums : Numbers α)

/-- The operators of `parse_expr`. -/
def addOperators : Operators Unit Char α
  | '+' => some fun lhs rhs => .ok (nums.add lhs rhs)
  | '-' => some fun lhs rhs => .ok (nums.sub lhs rhs)
  | _ => none

/-- The operators of `parse_term`; those that divide refuse a zero. -/
def mulOperators : Operators Unit Char α
  | '*' => some fun lhs rhs => .ok (nums.mul lhs rhs)
  | '/' => some fun lhs rhs => if nums.isZero rhs then .error () else .ok (nums.div lhs rhs)
  | '%' => some fun lhs rhs => if nums.isZero rhs then .error () else .ok (nums.rem lhs rhs)
  | _ => none

/-- Source: `answers.rs`, `parse_number`. -/
def parseNumber : Step Unit Char α := fun tokens =>
  let s := tokens.takeWhile isNumberChar
  if s.isEmpty then .error ()
  else
    match (nums.parse s).filter fun _ => s.count '.' ≤ 1 with
    | some v => .ok (v, tokens.dropWhile isNumberChar)
    | none => .error ()

/-- Source: `answers.rs`, `parse_term`. -/
def parseTerm (factor : Step Unit Char α) : Step Unit Char α :=
  operatorChain (mulOperators nums) factor

/-- Source: `answers.rs`, `parse_expr`. -/
def parseExpr (factor : Step Unit Char α) : Step Unit Char α :=
  operatorChain (addOperators nums) (parseTerm nums factor)

/-- A factor, with the levels that are left: none when `depth > MAX_DEPTH`. An expression and a term
stand at the depth of their factors, so that their checks of it are the factor's.
Source: `answers.rs`, `parse_factor`. -/
def parseFactor : ℕ → Step Unit Char α
  | 0, _ => .error ()
  | _ + 1, [] => .error ()
  | n + 1, c :: tokens =>
      if c = '(' then
        match parseExpr nums (parseFactor n) tokens with
        | .ok (v, ')' :: tokens) => .ok (v, tokens)
        | _ => .error ()
      else if c = '-' then
        match parseFactor n tokens with
        | .ok (v, tokens) => .ok (nums.neg v, tokens)
        | .error e => .error e
      else if c = '+' then parseFactor n tokens
      else if isNumberChar c then parseNumber nums (c :: tokens)
      else .error ()

/-- The text after a leading `=`, if there is one. -/
def afterEquals (src : String) : List Char :=
  match trim src.toList with
  | '=' :: rest => rest
  | src => src

/-- White space is dropped wherever it stands. -/
def withoutSpace (s : List Char) : List Char := s.filter fun c => !isWhitespace c

/-- Source: `answers.rs`, `evaluate_arithmetic`. -/
def evaluateArithmetic (src : String) : Option α :=
  let tokens := withoutSpace (afterEquals src)
  if tokens.isEmpty then none
  else
    match parseExpr nums (parseFactor nums (MAX_DEPTH + 1)) tokens with
    | .ok (v, []) => if nums.isFinite v then some v else none
    | _ => none

end Parser

/-! ## Exact numbers -/

section Exact

variable (K : Type) [Field K] [LinearOrder K] [FloorRing K]

/-- The number without its fraction. -/
def trunc (a : K) : ℤ := if 0 ≤ a then ⌊a⌋ else ⌈a⌉

/-- The number with the digits of its whole part and of its fraction. -/
def decimal (whole frac : List Char) : K :=
  (Nat.ofDigitChars 10 (whole ++ frac) 0 : ℕ) / 10 ^ frac.length

/-- Digits with at most one dot, of which one digit at least. -/
def parseDecimal (s : List Char) : Option K :=
  let whole := s.takeWhile Char.isDigit
  match s.dropWhile Char.isDigit with
  | [] => if whole = [] then none else some (decimal K whole [])
  | c :: frac =>
      if c = '.' ∧ frac.all Char.isDigit ∧ whole ++ frac ≠ [] then some (decimal K whole frac)
      else none

/-- The numbers of an ordered field. -/
def Numbers.exact : Numbers K where
  parse := parseDecimal K
  neg a := -a
  add a b := a + b
  sub a b := a - b
  mul a b := a * b
  div a b := a / b
  rem a b := a - b * trunc K (a / b)
  isZero a := decide (a = 0)
  isFinite _ := true

end Exact

end AuraLauncher.Providers.Answers
