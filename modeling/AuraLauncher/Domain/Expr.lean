import AuraLauncher.Domain.Std

/-!
# Workflow values and condition expressions

`launcher-domain/src/expr.rs`: the values a condition speaks about, the parser of conditions and
their strict evaluation.

* `Value`, `Value.fromJson`, `Value.toJson` — the value domain and its passage from and to JSON.
* `Expr`, `evaluate` — the expressions and their values; nothing is coerced.
* `tokenize`, `parseExpr` — the parser. Its nesting is bounded by `maxDepth`, and the recursion of
  the model is on the depth that is left; the loops over `and` and `or` are bounded by the tokens
  that are left, which is enough (`chainLoop_eq_of_le`) because every operand leaves a suffix of
  its input (`notExpr_expr_forward`).
-/

namespace AuraLauncher.Domain

open AuraLauncher.Workflow (Json JsonNumber)

/-! ## Values -/

/-- The values of a workflow; the fields of an object are in key order. Source: `expr.rs`,
`Value`. -/
inductive Value
  | null
  | bool (b : Bool)
  | number (x : Float)
  | string (s : String)
  | array (items : List Value)
  | object (fields : List (String × Value))

/-- Source: `expr.rs`, `Value::type_name`. -/
def Value.typeName : Value → String
  | .null => "null"
  | .bool _ => "bool"
  | .number _ => "number"
  | .string _ => "string"
  | .array _ => "array"
  | .object _ => "object"

mutual

/-- Source: `expr.rs`, `Value::from_json`. -/
def Value.fromJson : Json → Value
  | .null => .null
  | .bool b => .bool b
  | .number n => .number n.asF64
  | .string s => .string s
  | .array items => .array (Value.itemsFromJson items)
  | .object fields => .object (Value.fieldsFromJson fields)

/-- The items of an array, each from JSON. -/
def Value.itemsFromJson : List Json → List Value
  | [] => []
  | v :: items => Value.fromJson v :: Value.itemsFromJson items

/-- The fields of an object, each from JSON. -/
def Value.fieldsFromJson : List (String × Json) → List (String × Value)
  | [] => []
  | (k, v) :: fields => (k, Value.fromJson v) :: Value.fieldsFromJson fields

end

/-- A float as a JSON number; one that is not finite becomes `0`.
Source: `serde_json::Number::from_f64` and `expr.rs`, `Value::to_json`. -/
def numberOfF64 (x : Float) : JsonNumber :=
  if h : x.isFinite = true then .float x h else .posInt 0

mutual

/-- Source: `expr.rs`, `Value::to_json`. -/
def Value.toJson : Value → Json
  | .null => .null
  | .bool b => .bool b
  | .number x => .number (numberOfF64 x)
  | .string s => .string s
  | .array items => .array (Value.itemsToJson items)
  | .object fields => .object (Value.fieldsToJson fields)

/-- The items of an array, each to JSON. -/
def Value.itemsToJson : List Value → List Json
  | [] => []
  | v :: items => v.toJson :: Value.itemsToJson items

/-- The fields of an object, each to JSON. -/
def Value.fieldsToJson : List (String × Value) → List (String × Json)
  | [] => []
  | (k, v) :: fields => (k, v.toJson) :: Value.fieldsToJson fields

end

mutual

/-- Equality of values; values of different types are different. Source: `expr.rs`,
`values_equal`. -/
def valuesEqual : Value → Value → Bool
  | .null, .null => true
  | .bool x, .bool y => x == y
  | .number x, .number y => x == y
  | .string x, .string y => x == y
  | .array xs, .array ys => xs.length == ys.length && itemsEqual xs ys
  | .object xs, .object ys => xs.length == ys.length && fieldsEqual xs ys
  | _, _ => false

/-- The items of two arrays in turn, as far as both go. -/
def itemsEqual : List Value → List Value → Bool
  | x :: xs, y :: ys => valuesEqual x y && itemsEqual xs ys
  | _, _ => true

/-- Every field of the first object is a field of the second, with an equal value. -/
def fieldsEqual : List (String × Value) → List (String × Value) → Bool
  | [], _ => true
  | (k, x) :: xs, ys =>
      (match ys.lookup k with
        | some y => valuesEqual x y
        | none => false) && fieldsEqual xs ys

end

/-! ## Expressions -/

/-- The binary comparisons and string predicates; the source has one constructor of `Expr` for
each. -/
inductive BinaryOp
  | eq | ne | lt | le | gt | ge | contains | startsWith | endsWith
  deriving DecidableEq, Repr

/-- A condition. Source: `expr.rs`, `Expr`. -/
inductive Expr
  | literal (v : Value)
  | ref (path : String)
  | binary (op : BinaryOp) (a b : Expr)
  | exists (inner : Expr)
  | not (inner : Expr)
  | and (a b : Expr)
  | or (a b : Expr)

/-- A token. Source: `expr.rs`, `Tok`. -/
inductive Tok
  | ident (s : String)
  | ref (s : String)
  | str (s : String)
  | number (x : Float)
  | sym (s : String)

/-- Source: `expr.rs`, `ExprError`. The variants the parser and the evaluator do not build are left
out, and the message of an unexpected token is kept as the token. -/
inductive ExprError
  | parse (message : String)
  | unexpected (found : Option Tok)
  | tooDeep (max : ℕ)
  | typeMismatch (left right : String)

variable (std : RustStd)

/-- The `Debug` text of a token. -/
def Tok.debug : Tok → String
  | .ident s => "Ident(" ++ std.strDebug s ++ ")"
  | .ref s => "Ref(" ++ std.strDebug s ++ ")"
  | .str s => "Str(" ++ std.strDebug s ++ ")"
  | .number x => "Number(" ++ std.floatDebug x ++ ")"
  | .sym s => "Sym(" ++ std.strDebug s ++ ")"

/-- The text of an error. Source: `expr.rs`, `ExprError` (`#[error]`). -/
def ExprError.text : ExprError → String
  | .parse message => "expression parse error: " ++ message
  | .unexpected none => "expression parse error: unexpected token None"
  | .unexpected (some t) => "expression parse error: unexpected token Some(" ++ t.debug std ++ ")"
  | .tooDeep max => "expression too deep (max " ++ toString max ++ ")"
  | .typeMismatch left right => "type mismatch: " ++ left ++ " vs " ++ right

/-! ## The tokenizer -/

/-- The longest prefix of characters with `p`, and the rest. -/
def takeRun (p : Char → Bool) (s : List Char) : String × List Char :=
  (String.ofList (s.takeWhile p), s.dropWhile p)

/-- One token from a character that starts no white space, with what follows it.
Source: `expr.rs`, `tokenize` (the body of the loop). -/
def nextTok (c : Char) (rest : List Char) : Except ExprError (Tok × List Char) :=
  if c = '(' then .ok (.sym "(", rest)
  else if c = ')' then .ok (.sym ")", rest)
  else if c = '=' then
    match rest with
    | '=' :: rest => .ok (.sym "==", rest)
    | _ => .error (.parse "expected ==")
  else if c = '!' then
    match rest with
    | '=' :: rest => .ok (.sym "!=", rest)
    | _ => .error (.parse "expected !=")
  else if c = '<' then
    match rest with
    | '=' :: rest => .ok (.sym "<=", rest)
    | _ => .ok (.sym "<", rest)
  else if c = '>' then
    match rest with
    | '=' :: rest => .ok (.sym ">=", rest)
    | _ => .ok (.sym ">", rest)
  else if c = '"' then
    -- a literal that is not closed goes on to the end of the text
    let (s, rest) := takeRun (· ≠ '"') rest
    .ok (.str s, rest.drop 1)
  else if c.isDigit then
    let (s, rest) := takeRun (fun c => c.isDigit || c == '.') (c :: rest)
    match std.parseFloat s with
    | some x => .ok (.number x, rest)
    | none => .error (.parse ("bad number " ++ s))
  else if std.isAlphabetic c || c == '_' then
    let (s, rest) := takeRun
      (fun c => std.isAlphabetic c || std.isNumeric c || c == '_' || c == '.') (c :: rest)
    .ok (if s.toList.contains '.' then .ref s else .ident s, rest)
  else .error (.parse ("unexpected character " ++ String.ofList [c]))

/-- The loop of the tokenizer, with a bound on the characters that are left. -/
def tokenizeLoop : ℕ → List Char → Except ExprError (List Tok)
  | 0, _ => .ok []
  | _ + 1, [] => .ok []
  | n + 1, c :: rest =>
      if c = ' ' ∨ c = '\t' ∨ c = '\n' ∨ c = '\r' then tokenizeLoop n rest
      else do
        let (tok, rest) ← nextTok std c rest
        let toks ← tokenizeLoop n rest
        return tok :: toks

/-- Every token takes a character at least, so the length of the text bounds the loop.
Source: `expr.rs`, `tokenize`. -/
def tokenize (src : String) : Except ExprError (List Tok) :=
  tokenizeLoop std src.toList.length src.toList

/-! ## The parser -/

/-- A parser step: an expression and the tokens after it. -/
abbrev Parse := List Tok → Except ExprError (Expr × List Tok)

/-- Source: `expr.rs`, `MAX_DEPTH`. -/
def maxDepth : ℕ := 32

/-- Whether the next token is the bare word `w`. -/
def nextIs (w : String) : List Tok → Bool
  | .ident s :: _ => s == w
  | _ => false

/-- `left (w operand)*`, where `mk` joins two operands; each round takes a token at least.
Source: `expr.rs`, the loops of `Parser::or_expr` and `Parser::and_expr`. -/
def chainLoop (w : String) (mk : Expr → Expr → Expr) (operand : Parse) :
    ℕ → Expr → Parse
  | 0, left, toks => .ok (left, toks)
  | n + 1, left, toks =>
      if nextIs w toks then do
        let (right, toks) ← operand toks.tail
        chainLoop w mk operand n (mk left right) toks
      else .ok (left, toks)

/-- Source: `expr.rs`, `Parser::or_expr` and `Parser::and_expr`. -/
def chain (w : String) (mk : Expr → Expr → Expr) (operand : Parse) : Parse := fun toks => do
  let (left, rest) ← operand toks
  chainLoop w mk operand rest.length left rest

/-- The binary operator a token stands for. Source: `expr.rs`, `Parser::comparison`. -/
def binaryOp : Tok → Option BinaryOp
  | .sym "==" => some .eq
  | .sym "!=" => some .ne
  | .sym "<" => some .lt
  | .sym "<=" => some .le
  | .sym ">" => some .gt
  | .sym ">=" => some .ge
  | .ident "contains" => some .contains
  | .ident "starts_with" => some .startsWith
  | .ident "ends_with" => some .endsWith
  | _ => none

/-- A literal, a reference or, through `inner`, an expression in parentheses.
Source: `expr.rs`, `Parser::primary`. -/
def primary (inner : Parse) : Parse
  | .sym "(" :: toks => do
      let (e, toks) ← inner toks
      match toks with
      | .sym ")" :: toks => .ok (e, toks)
      | _ => .error (.parse "expected )")
  | .number x :: toks => .ok (.literal (.number x), toks)
  | .str s :: toks => .ok (.literal (.string s), toks)
  | .ident "true" :: toks => .ok (.literal (.bool true), toks)
  | .ident "false" :: toks => .ok (.literal (.bool false), toks)
  | .ident "null" :: toks => .ok (.literal .null, toks)
  | .ref r :: toks => .ok (.ref r, toks)
  | tok :: _ => .error (.unexpected (some tok))
  | [] => .error (.unexpected none)

/-- At most one comparison of two primaries. Source: `expr.rs`, `Parser::comparison`. -/
def comparison (inner : Parse) : Parse := fun toks => do
  let (left, rest) ← primary inner toks
  match rest with
  | .ident "exists" :: rest => .ok (.exists left, rest)
  | tok :: rest' =>
      match binaryOp tok with
      | some op => do
          let (right, rest') ← primary inner rest'
          return (.binary op left right, rest')
      | none => .ok (left, rest)
  | [] => .ok (left, [])

mutual

/-- `Parser::not_expr` with the depth that is left. Source: `expr.rs`, `Parser::not_expr`. -/
def notExpr : ℕ → Parse
  | 0 => fun _ => .error (.tooDeep maxDepth)
  | d + 1 => fun toks =>
      if nextIs "not" toks then do
        let (inner, toks) ← notExpr d toks.tail
        return (.not inner, toks)
      else comparison (expr d) toks

/-- `Parser::expr` with the depth that is left. Source: `expr.rs`, `Parser::expr`. -/
def expr : ℕ → Parse
  | 0 => fun _ => .error (.tooDeep maxDepth)
  | d + 1 => chain "or" .or (chain "and" .and (notExpr d))

end

/-- Source: `expr.rs`, `parse_expr`. -/
def parseExpr (src : String) : Except ExprError Expr := do
  let toks ← tokenize std src
  let (e, rest) ← expr maxDepth toks
  if rest.isEmpty then .ok e else .error (.parse "trailing tokens")

/-! ### The parser only moves forward -/

/-- A parser step that leaves a suffix of its input. -/
def Forward (p : Parse) : Prop := ∀ toks e rest, p toks = .ok (e, rest) → rest <:+ toks

theorem primary_forward {inner : Parse} (h : Forward inner) : Forward (primary inner) := by
  intro toks e rest hp
  unfold primary at hp
  split at hp
  · rename_i toks'
    obtain ⟨⟨e', rest'⟩, hin, hp⟩ := bind_eq_ok.mp hp
    have hsuf : rest' <:+ toks' := h _ _ _ hin
    dsimp only at hp
    split at hp
    · cases hp
      exact (List.suffix_cons _ _).trans (hsuf.trans (List.suffix_cons _ _))
    · cases hp
  all_goals cases hp
  all_goals exact List.suffix_cons _ _

theorem comparison_forward {inner : Parse} (h : Forward inner) : Forward (comparison inner) := by
  intro toks e rest hp
  obtain ⟨⟨left, rest₁⟩, hleft, hp⟩ := bind_eq_ok.mp hp
  have hsuf : rest₁ <:+ toks := primary_forward h _ _ _ hleft
  dsimp only at hp
  split at hp
  · cases hp
    exact (List.suffix_cons _ _).trans hsuf
  · rename_i tok rest₂ _
    split at hp
    · obtain ⟨⟨right, rest₃⟩, hright, hp⟩ := bind_eq_ok.mp hp
      have hsuf' : rest₃ <:+ rest₂ := primary_forward h _ _ _ hright
      cases hp
      exact hsuf'.trans ((List.suffix_cons _ _).trans hsuf)
    · cases hp
      exact hsuf
  · cases hp
    exact hsuf

theorem chainLoop_forward {w : String} {mk : Expr → Expr → Expr} {operand : Parse}
    (h : Forward operand) (n : ℕ) (left : Expr) : Forward (chainLoop w mk operand n left) := by
  induction n generalizing left with
  | zero =>
      intro toks e rest hp
      cases hp
      exact List.suffix_rfl
  | succ n ih =>
      intro toks e rest hp
      unfold chainLoop at hp
      split_ifs at hp
      · obtain ⟨⟨right, rest₁⟩, hright, hp⟩ := bind_eq_ok.mp hp
        exact (ih _ _ _ _ hp).trans ((h _ _ _ hright).trans (List.tail_suffix toks))
      · cases hp
        exact List.suffix_rfl

theorem chain_forward {w : String} {mk : Expr → Expr → Expr} {operand : Parse}
    (h : Forward operand) : Forward (chain w mk operand) := by
  intro toks e rest hp
  obtain ⟨⟨left, rest₁⟩, hleft, hp⟩ := bind_eq_ok.mp hp
  exact (chainLoop_forward h _ _ _ _ _ hp).trans (h _ _ _ hleft)

/-- At every depth both parsers leave a suffix of their input. -/
theorem notExpr_expr_forward (d : ℕ) : Forward (notExpr d) ∧ Forward (expr d) := by
  induction d with
  | zero =>
      constructor
      · intro toks e rest hp
        rw [notExpr] at hp
        cases hp
      · intro toks e rest hp
        rw [expr] at hp
        cases hp
  | succ d ih =>
      obtain ⟨hnot, hexpr⟩ := ih
      constructor
      · intro toks e rest hp
        rw [notExpr] at hp
        dsimp only at hp
        split_ifs at hp
        · obtain ⟨⟨inner, rest₁⟩, hinner, hp⟩ := bind_eq_ok.mp hp
          cases hp
          exact (hnot _ _ _ hinner).trans (List.tail_suffix toks)
        · exact comparison_forward hexpr _ _ _ hp
      · rw [expr]
        exact chain_forward (chain_forward hnot)

/-- The bound of a loop over operands does not matter once it is the number of tokens left. -/
theorem chainLoop_eq_of_le {w : String} {mk : Expr → Expr → Expr} {operand : Parse}
    (h : Forward operand) (n m : ℕ) (left : Expr) (toks : List Tok) (hn : toks.length ≤ n)
    (hm : toks.length ≤ m) :
    chainLoop w mk operand n left toks = chainLoop w mk operand m left toks := by
  induction n generalizing m left toks with
  | zero =>
      obtain rfl : toks = [] := List.length_eq_zero_iff.mp (by omega)
      cases m <;> simp [chainLoop, nextIs]
  | succ n ih =>
      obtain _ | m := m
      · obtain rfl : toks = [] := List.length_eq_zero_iff.mp (by omega)
        simp [chainLoop, nextIs]
      · unfold chainLoop
        split_ifs with hw
        · have hpos : toks.tail.length < toks.length := by
            cases toks with
            | nil => cases hw
            | cons t ts => simp
          cases hop : operand toks.tail with
          | error e => rfl
          | ok r =>
              have hlen : r.2.length ≤ toks.tail.length := (h _ _ _ hop).length_le
              exact ih m (mk left r.1) r.2 (by omega) (by omega)
        · rfl

/-! ## Evaluation -/

/-- Source: `expr.rs`, `expect_bool`. -/
def expectBool : Value → Except ExprError Bool
  | .bool b => .ok b
  | v => .error (.typeMismatch v.typeName "bool")

/-- The order of two numbers or two strings. Source: `expr.rs`, `ordered`. -/
def ordered : Value → Value → Except ExprError Ordering
  | .number x, .number y =>
      if x < y then .ok .lt
      else if x == y then .ok .eq
      else if y < x then .ok .gt
      else .error (.typeMismatch "number" "number")
  | .string x, .string y => .ok (if x < y then .lt else if x = y then .eq else .gt)
  | a, b => .error (.typeMismatch a.typeName b.typeName)

/-- Source: `expr.rs`, `eval_inner` (the arm of `Contains`). -/
def evalContains : Value → Value → Except ExprError Bool
  | .string h, .string n => .ok (hasSub n.toList h.toList)
  | .array h, v => .ok (h.any fun item => valuesEqual item v)
  | .null, _ => .ok false
  | _, .null => .ok false
  | a, b => .error (.typeMismatch a.typeName b.typeName)

/-- Source: `expr.rs`, `eval_inner` (the arm of `StartsWith` and `EndsWith`). -/
def evalAffix (starts : Bool) : Value → Value → Except ExprError Bool
  | .string h, .string n =>
      .ok (if starts then n.toList.isPrefixOf h.toList else n.toList.isSuffixOf h.toList)
  | a, b => .error (.typeMismatch a.typeName b.typeName)

/-- The value of a binary operator. Source: `expr.rs`, `eval_inner`. -/
def evalBinary (a b : Value) : BinaryOp → Except ExprError Bool
  | .eq => .ok (valuesEqual a b)
  | .ne => .ok (!valuesEqual a b)
  | .lt => (ordered a b).map (· == .lt)
  | .le => (ordered a b).map (· != .gt)
  | .gt => (ordered a b).map (· == .gt)
  | .ge => (ordered a b).map (· != .lt)
  | .contains => evalContains a b
  | .startsWith => evalAffix true a b
  | .endsWith => evalAffix false a b

/-- The value of an expression, where `resolve` gives the value of a reference.
Source: `expr.rs`, `evaluate` and `eval_inner`. -/
def evaluate (resolve : String → Option Value) : Expr → Except ExprError Value
  | .literal v => .ok v
  | .ref path => .ok ((resolve path).getD .null)
  | .exists (.ref path) => .ok (.bool (resolve path).isSome)
  | .exists _ => .ok (.bool false)
  | .not inner => do
      let b ← expectBool (← evaluate resolve inner)
      return .bool !b
  | .and a b => do
      let x ← expectBool (← evaluate resolve a)
      let y ← expectBool (← evaluate resolve b)
      return .bool (x && y)
  | .or a b => do
      let x ← expectBool (← evaluate resolve a)
      let y ← expectBool (← evaluate resolve b)
      return .bool (x || y)
  | .binary op a b => do
      let x ← evaluate resolve a
      let y ← evaluate resolve b
      return .bool (← evalBinary x y op)

end AuraLauncher.Domain
