import AuraLauncher.Domain.Grammar

/-!
# The depth of a condition

How deep the tree of an accepted condition is, and with it the recursion of its evaluation. The
parser counts the levels of parentheses and of `not` (`MAX_DEPTH` of `expr.rs`), and nothing counts
the operands of a chain of `and` or `or`, each of which is one level more of the tree.

* `Expr.depth`, `Expr.connectives` — the measures of a tree; `isConnective` — the tokens behind the
  second one.
* `Measured` — what a phrase says about both measures of its tree; `measured_orExpr` — for every
  phrase.
* `depth_bounded_iff` — the classes of texts whose trees have a bound.
-/

namespace AuraLauncher.Domain

/-! ## Measures -/

/-- The nodes on the longest path from the root. -/
def Expr.depth : Expr → ℕ
  | .literal _ => 1
  | .ref _ => 1
  | .binary _ a b => max a.depth b.depth + 1
  | .exists inner => inner.depth + 1
  | .not inner => inner.depth + 1
  | .and a b => max a.depth b.depth + 1
  | .or a b => max a.depth b.depth + 1

/-- The nodes that join two conditions. -/
def Expr.connectives : Expr → ℕ
  | .literal _ => 0
  | .ref _ => 0
  | .binary _ a b => a.connectives + b.connectives
  | .exists inner => inner.connectives
  | .not inner => inner.connectives
  | .and a b => a.connectives + b.connectives + 1
  | .or a b => a.connectives + b.connectives + 1

/-- The token joins two conditions. -/
def isConnective (t : Tok) : Bool := isWord "and" t || isWord "or" t

/-- A tree of a given depth has room for so many connectives only. -/
theorem Expr.connectives_lt_two_pow_depth (e : Expr) : e.connectives + 1 ≤ 2 ^ e.depth := by
  have hjoin : ∀ {a b m n : ℕ}, a + 1 ≤ 2 ^ m → b + 1 ≤ 2 ^ n →
      a + b + 1 + 1 ≤ 2 ^ (max m n + 1) := by
    intro a b m n ha hb
    have hm : 2 ^ m ≤ 2 ^ max m n := Nat.pow_le_pow_right (by decide) (Nat.le_max_left m n)
    have hn : 2 ^ n ≤ 2 ^ max m n := Nat.pow_le_pow_right (by decide) (Nat.le_max_right m n)
    rw [Nat.pow_succ]
    omega
  have hunder : ∀ {a n : ℕ}, a + 1 ≤ 2 ^ n → a + 1 ≤ 2 ^ (n + 1) := fun h =>
    h.trans (Nat.pow_le_pow_right (by decide) (Nat.le_succ _))
  induction e with
  | literal v => exact Nat.one_le_two_pow
  | ref path => exact Nat.one_le_two_pow
  | binary op a b iha ihb => exact (Nat.le_succ _).trans (hjoin iha ihb)
  | «exists» inner ih => exact hunder ih
  | not inner ih => exact hunder ih
  | and a b iha ihb => exact hjoin iha ihb
  | or a b iha ihb => exact hjoin iha ihb

/-! ## Phrases -/

/-- The connectives of a phrase are those of its tree, and beyond them the depth is within `k`. -/
structure Measured (k : ℕ) (ts : List Tok) (e : Expr) : Prop where
  count_eq : ts.countP isConnective = e.connectives
  depth_le : e.depth ≤ k + e.connectives

/-- An operator of a comparison is no connective. -/
theorem isConnective_of_binaryOp {t : Tok} {op : BinaryOp} (h : binaryOp t = some op) :
    isConnective t = false := by
  unfold binaryOp at h
  split at h
  all_goals first
    | rfl
    | cases h

mutual

theorem measured_primary {d : ℕ} {ts : List Tok} {e : Expr} :
    Primary d ts e → Measured (d + 1) ts e
  | .number => ⟨rfl, Nat.le_add_left 1 d⟩
  | .str => ⟨rfl, Nat.le_add_left 1 d⟩
  | .true => ⟨rfl, Nat.le_add_left 1 d⟩
  | .false => ⟨rfl, Nat.le_add_left 1 d⟩
  | .null => ⟨rfl, Nat.le_add_left 1 d⟩
  | .ref => ⟨rfl, Nat.le_add_left 1 d⟩
  | .paren h => by
      obtain ⟨hcount, hdepth⟩ := measured_orExpr h
      refine ⟨?_, by omega⟩
      rw [List.countP_cons, List.countP_append, hcount]
      rfl

theorem measured_comparison {d : ℕ} {ts : List Tok} {e : Expr} :
    Comparison d ts e → Measured (d + 2) ts e
  | .primary h => by
      obtain ⟨hcount, hdepth⟩ := measured_primary h
      exact ⟨hcount, by omega⟩
  | .exists h => by
      obtain ⟨hcount, hdepth⟩ := measured_primary h
      refine ⟨?_, by simp only [Expr.depth, Expr.connectives]; omega⟩
      rw [List.countP_append, hcount]
      rfl
  | .binary ha hop hb => by
      obtain ⟨hcount, hdepth⟩ := measured_primary ha
      obtain ⟨hcount', hdepth'⟩ := measured_primary hb
      refine ⟨?_, by simp only [Expr.depth, Expr.connectives]; omega⟩
      rw [List.countP_append, List.countP_cons, isConnective_of_binaryOp hop, hcount, hcount']
      rfl

theorem measured_notExpr {d : ℕ} {ts : List Tok} {e : Expr} :
    NotExpr d ts e → Measured (d + 1) ts e
  | .comparison h => measured_comparison h
  | .not h => by
      obtain ⟨hcount, hdepth⟩ := measured_notExpr h
      refine ⟨?_, by simp only [Expr.depth, Expr.connectives]; omega⟩
      rw [List.countP_cons, hcount]
      rfl

theorem measured_andExpr {d : ℕ} {ts : List Tok} {e : Expr} :
    AndExpr d ts e → Measured (d + 1) ts e
  | .one h => measured_notExpr h
  | .and ha hb => by
      obtain ⟨hcount, hdepth⟩ := measured_andExpr ha
      obtain ⟨hcount', hdepth'⟩ := measured_notExpr hb
      refine ⟨?_, by simp only [Expr.depth, Expr.connectives]; omega⟩
      rw [List.countP_append, List.countP_cons, hcount, hcount']
      rfl

/-- **Every phrase** is as deep as the levels it uses and its connectives together, at most. -/
theorem measured_orExpr {d : ℕ} {ts : List Tok} {e : Expr} :
    OrExpr d ts e → Measured d ts e
  | .one h => measured_andExpr h
  | .or ha hb => by
      obtain ⟨hcount, hdepth⟩ := measured_orExpr ha
      obtain ⟨hcount', hdepth'⟩ := measured_andExpr hb
      refine ⟨?_, by simp only [Expr.depth, Expr.connectives]; omega⟩
      rw [List.countP_append, List.countP_cons, hcount, hcount']
      rfl

end

/-! ## Texts -/

variable {std : RustStd}

/-- The tokens of an accepted text, measured. -/
theorem measured_of_parseExpr {src : String} {toks : List Tok} {e : Expr}
    (h : parseExpr std src = .ok e) (htoks : tokenize std src = .ok toks) :
    Measured maxDepth toks e := by
  have hunique : ∀ {toks'}, tokenize std src = .ok toks' → toks' = toks := fun h' =>
    Except.ok.inj (h'.symm.trans htoks)
  rcases parseExpr_eq_ok_iff.mp h with ⟨toks', hlex, hphrase⟩ | ⟨toks', hopen, hphrase⟩
  · rw [← hunique (tokenize_iff.mpr (.inl hlex))]
    exact measured_orExpr hphrase
  · rw [← hunique (tokenize_iff.mpr (.inr hopen))]
    exact measured_orExpr hphrase

theorem exists_tokens_of_parseExpr {src : String} {e : Expr} (h : parseExpr std src = .ok e) :
    ∃ toks, tokenize std src = .ok toks := by
  obtain ⟨toks, htoks, -⟩ := bind_eq_ok.mp h
  exact ⟨toks, htoks⟩

/-- **When the depth has a bound.** The trees of the accepted texts of a class have a depth bound
in common exactly when the words `and` and `or` of these texts have a bound in common. -/
theorem depth_bounded_iff (std : RustStd) (texts : Set String) :
    (∃ bound, ∀ src ∈ texts, ∀ e, parseExpr std src = .ok e → e.depth ≤ bound) ↔
      ∃ bound, ∀ src ∈ texts, ∀ e toks, parseExpr std src = .ok e →
        tokenize std src = .ok toks → toks.countP isConnective ≤ bound := by
  constructor
  · rintro ⟨bound, hbound⟩
    refine ⟨2 ^ bound, fun src hsrc e toks hparse htoks => ?_⟩
    have hdepth := hbound src hsrc e hparse
    calc toks.countP isConnective = e.connectives := (measured_of_parseExpr hparse htoks).count_eq
      _ ≤ 2 ^ e.depth := (Nat.le_succ _).trans e.connectives_lt_two_pow_depth
      _ ≤ 2 ^ bound := Nat.pow_le_pow_right (by decide) hdepth
  · rintro ⟨bound, hbound⟩
    refine ⟨maxDepth + bound, fun src hsrc e hparse => ?_⟩
    obtain ⟨toks, htoks⟩ := exists_tokens_of_parseExpr hparse
    have hmeasured := measured_of_parseExpr hparse htoks
    calc e.depth ≤ maxDepth + e.connectives := hmeasured.depth_le
      _ = maxDepth + toks.countP isConnective := by rw [hmeasured.count_eq]
      _ ≤ maxDepth + bound := Nat.add_le_add_left (hbound src hsrc e toks hparse htoks) _

/-! ### A chain of any length -/

/-- `true and true and … and true`, with so many `and`. -/
def trueChain : ℕ → List Char
  | 0 => "true".toList
  | n + 1 => "true and ".toList ++ trueChain n

/-- The tokens of the chain. -/
def trueChainToks : ℕ → List Tok
  | 0 => [.ident "true"]
  | n + 1 => .ident "true" :: .ident "and" :: trueChainToks n

/-- Its tree, which leans to the left. -/
def trueChainExpr : ℕ → Expr
  | 0 => .literal (.bool true)
  | n + 1 => .and (trueChainExpr n) (.literal (.bool true))

theorem lexes_trueChain (n : ℕ) : Lexes RustStd.ascii (trueChain n) (trueChainToks n) := by
  have hand : '.' ∉ ['a', 'n', 'd'] := by decide
  have htrue : '.' ∉ ['t', 'r', 'u', 'e'] := by decide
  induction n with
  | zero => exact .tok (.ident (c := 't') (s := "rue".toList) rfl htrue) .nil
  | succ n ih =>
      have htail : Lexes RustStd.ascii ("and ".toList ++ trueChain n)
          (.ident "and" :: trueChainToks n) :=
        .tok (.ident (c := 'a') (s := "nd ".toList ++ trueChain n) rfl hand) (.gap rfl ih)
      exact .tok (.ident (c := 't') (s := "rue and ".toList ++ trueChain n) rfl htrue)
        (.gap rfl htail)

theorem trueChainToks_succ (n : ℕ) :
    trueChainToks (n + 1) = trueChainToks n ++ [.ident "and", .ident "true"] := by
  induction n with
  | zero => rfl
  | succ n ih => exact congrArg (fun toks => Tok.ident "true" :: Tok.ident "and" :: toks) ih

theorem andExpr_trueChain (d n : ℕ) : AndExpr (d + 1) (trueChainToks n) (trueChainExpr n) := by
  have htrue : NotExpr (d + 1) [.ident "true"] (.literal (.bool true)) :=
    .comparison (.primary .true)
  induction n with
  | zero => exact .one htrue
  | succ n ih =>
      rw [trueChainToks_succ]
      exact .and ih htrue

theorem depth_trueChainExpr (n : ℕ) : (trueChainExpr n).depth = n + 1 := by
  induction n with
  | zero => rfl
  | succ n ih =>
      rw [trueChainExpr, Expr.depth, ih]
      exact congrArg (· + 1) (Nat.max_eq_left (Nat.le_add_left 1 n))

/-- The depth of the trees of all accepted texts has no bound. -/
theorem not_depth_bounded :
    ¬ ∃ bound, ∀ src e, parseExpr RustStd.ascii src = .ok e → e.depth ≤ bound := by
  rintro ⟨bound, hbound⟩
  have hlex : Lexes RustStd.ascii (String.ofList (trueChain bound)).toList
      (trueChainToks bound) := by
    rw [String.toList_ofList]
    exact lexes_trueChain bound
  have hparse := parseExpr_eq_ok_iff.mpr
    (.inl ⟨trueChainToks bound, hlex, .one (andExpr_trueChain 30 bound)⟩)
  have hle := hbound _ _ hparse
  rw [depth_trueChainExpr] at hle
  omega

end AuraLauncher.Domain
