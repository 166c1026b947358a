import AuraLauncher.Lib.Decimals
import AuraLauncher.Lib.Floats
import AuraLauncher.Workflow.Engine
import Mathlib.Algebra.Group.Int.Defs

/-!
# Conditions on numbers

`engine.rs`, `evaluate`: a condition compares the doubles of two JSON numbers and the texts of any
other two values. A literal is always a string, so a number is compared with a literal by its text,
and the order of two texts is not the order of the numbers they stand for.

* `ConditionOp.holds` — a condition as an answer about one ordering; `evaluate_eq_holds` gives the
  ordering that the condition engine goes by.
* `Numeral`, `Denotes` — the numbers that values stand for.
* `ConditionSemantics` — what is asked of the conditions on two operands.
* `Numeral.TextsAgree` — the numbers whose texts compare as they do.
* `conditionSemantics_iff` — the operands on which the engine does what is asked.
-/

namespace AuraLauncher.Workflow

open AuraLauncher.Lib AuraLauncher.Lib.Decimals AuraLauncher.Lib.Floats

/-! ## One ordering for all comparisons -/

/-- The comparison of two things that stand in an ordering. -/
def ConditionOp.holds : ConditionOp → Ordering → Bool
  | .eq, o => o == .eq
  | .ne, o => o != .eq
  | .gt, o => o == .gt
  | .lt, o => o == .lt

/-- The comparisons tell the orderings apart. -/
theorem ConditionOp.holds_inj {o o' : Ordering} (h : ∀ op : ConditionOp, op.holds o = op.holds o') :
    o = o' := by
  have hlt := h .lt
  have hgt := h .gt
  revert hlt hgt
  cases o <;> cases o' <;> decide

/-- The comparison of two doubles. -/
def ConditionOp.numeric (op : ConditionOp) (x y : Float) : Bool :=
  match op with
  | .eq => x == y
  | .ne => x != y
  | .gt => decide (x > y)
  | .lt => decide (x < y)

theorem ConditionOp.numeric_eq_holds (op : ConditionOp) {x y : Float} {o : Ordering}
    (h : order x y = some o) : op.numeric x y = op.holds o := by
  have heq : (x == y) = (o == .eq) :=
    Bool.eq_iff_iff.mpr (beq_iff_order.trans (by rw [h, Option.some_inj, beq_iff_eq]))
  cases op with
  | eq => exact heq
  | ne => exact congrArg not heq
  | gt =>
      have hswap : order y x = some o.swap := by rw [order_swap, h, Option.map_some]
      refine Bool.eq_iff_iff.mpr (decide_eq_true_iff.trans (lt_iff_order.trans ?_))
      show order y x = some .lt ↔ (o == .gt) = true
      rw [hswap, Option.some_inj, beq_iff_eq, Ordering.swap_eq_lt]
  | lt =>
      refine Bool.eq_iff_iff.mpr (decide_eq_true_iff.trans (lt_iff_order.trans ?_))
      show order x y = some .lt ↔ (o == .lt) = true
      rw [h, Option.some_inj, beq_iff_eq]

/-- The comparison of two texts. Source: `engine.rs`, `evaluate` (the text path). -/
def ConditionOp.textual (op : ConditionOp) (s t : String) : Bool :=
  match op with
  | .eq => s == t
  | .ne => s != t
  | .gt => decide (s > t)
  | .lt => decide (s < t)

theorem ConditionOp.textual_eq_holds (op : ConditionOp) (s t : String) :
    op.textual s t = op.holds (cmp s t) := by
  have heq : (s == t) = (cmp s t == .eq) :=
    Bool.eq_iff_iff.mpr (by rw [beq_iff_eq, beq_iff_eq, cmp_eq_eq_iff])
  cases op with
  | eq => exact heq
  | ne => exact congrArg not heq
  | gt =>
      refine Bool.eq_iff_iff.mpr (decide_eq_true_iff.trans ?_)
      show t < s ↔ (cmp s t == .gt) = true
      rw [beq_iff_eq, cmp_eq_gt_iff]
  | lt =>
      refine Bool.eq_iff_iff.mpr (decide_eq_true_iff.trans ?_)
      show s < t ↔ (cmp s t == .lt) = true
      rw [beq_iff_eq, cmp_eq_lt_iff]

/-- The ordering that the condition engine goes by. -/
def Json.ordering (sj : SerdeJson) (left right : Json) : Ordering :=
  match left.asF64, right.asF64 with
  | some x, some y => (order x y).getD .eq
  | _, _ => cmp (comparedText sj left) (comparedText sj right)

/-- The double of a JSON number is finite. -/
theorem JsonNumber.isFinite_asF64 (n : JsonNumber) : n.asF64.isFinite = true := by
  cases n with
  | posInt n =>
      have hlt := n.toNat_lt
      rw [JsonNumber.asF64, toFloat_uint64]
      exact isFinite_double (by omega)
  | negInt n =>
      have hlt : n.toInt < 2 ^ 63 := n.toInt_lt
      have hge : -2 ^ 63 ≤ n.toInt := n.le_toInt
      rw [JsonNumber.asF64, ofModel_ofInt64]
      exact isFinite_double (by omega)
  | float x finite => exact finite

theorem isFinite_of_asF64 {v : Json} {x : Float} (h : v.asF64 = some x) : x.isFinite = true := by
  cases v with
  | number n =>
      obtain rfl := Option.some.inj h
      exact n.isFinite_asF64
  | _ => cases h

/-- **A condition on two present operands** is the answer of one ordering. -/
theorem evaluate_eq_holds (sj : SerdeJson) (op : ConditionOp) {left right : String}
    {vars : VariableStore} (hl : (resolve vars left).isNull = false)
    (hr : (resolve vars right).isNull = false) :
    evaluate sj ⟨left, op, right⟩ vars =
      op.holds ((resolve vars left).ordering sj (resolve vars right)) := by
  unfold evaluate Json.ordering
  dsimp only
  rw [hl, hr, Bool.or_false, if_neg (by decide)]
  cases hx : (resolve vars left).asF64 with
  | none => exact op.textual_eq_holds _ _
  | some x =>
      cases hy : (resolve vars right).asF64 with
      | none => exact op.textual_eq_holds _ _
      | some y =>
          obtain ⟨o, ho⟩ := exists_order_of_isFinite (isFinite_of_asF64 hx) (isFinite_of_asF64 hy)
          show op.numeric x y = op.holds ((order x y).getD .eq)
          rw [op.numeric_eq_holds ho, ho, Option.getD_some]

/-! ## The numbers that values stand for -/

/-- A number as JSON has it. -/
inductive Numeral
  | integer (z : ℤ)
  | float (x : Float)

namespace Numeral

/-- The double of a number. -/
def value : Numeral → Float
  | integer z => double z
  | float x => x

/-- The text of a number. -/
def text (sj : SerdeJson) : Numeral → String
  | integer z => toString z
  | float x => sj.floatText x

/-- The texts of two numbers compare as the numbers do: for two integers, in terms of their digits;
for a float, its text stands to the text of the other as the float to it. -/
def TextsAgree (sj : SerdeJson) : Numeral → Numeral → Prop
  | integer m, integer n => IntegerOrder m n
  | a, b => (a.text sj = b.text sj ↔ (a.value == b.value) = true) ∧
      (a.text sj < b.text sj ↔ a.value < b.value)

end Numeral

/-- A value stands for a number: a JSON number for itself, and a string for the integer below
`2^53` whose decimal form it is. -/
inductive Denotes : Json → Numeral → Prop
  | posInt (n : UInt64) : Denotes (.number (.posInt n)) (.integer n.toNat)
  | negInt (n : Int64) : Denotes (.number (.negInt n)) (.integer n.toInt)
  | float (x : Float) (finite : x.isFinite = true) : Denotes (.number (.float x finite)) (.float x)
  | decimal (z : ℤ) (hz : z.natAbs < 2 ^ 53) : Denotes (.string (toString z)) (.integer z)

/-- What is asked of the conditions on two operands. -/
structure ConditionSemantics (sj : SerdeJson) (left right : String) (vars : VariableStore) :
    Prop where
  /-- Operands that stand for numbers are compared as numbers. -/
  numeric : ∀ a b, Denotes (resolve vars left) a → Denotes (resolve vars right) b →
    ∀ op, evaluate sj ⟨left, op, right⟩ vars = op.numeric a.value b.value
  /-- A variable that is missing or null makes every condition false. -/
  missing : ∀ name, left = "$" ++ name ∨ right = "$" ++ name →
    vars.get name = none ∨ vars.get name = some .null →
      ∀ op, evaluate sj ⟨left, op, right⟩ vars = false
  /-- Present operands are in one order. -/
  exactly_one : resolve vars left ≠ .null → resolve vars right ≠ .null →
    [evaluate sj ⟨left, .lt, right⟩ vars, evaluate sj ⟨left, .eq, right⟩ vars,
      evaluate sj ⟨left, .gt, right⟩ vars].count true = 1
  /-- On present operands `Ne` is the negation of `Eq`. -/
  ne_eq_not : resolve vars left ≠ .null → resolve vars right ≠ .null →
    evaluate sj ⟨left, .ne, right⟩ vars = !evaluate sj ⟨left, .eq, right⟩ vars

theorem isNull_eq_false {v : Json} (h : v ≠ .null) : v.isNull = false := by
  cases v with
  | null => exact absurd rfl h
  | _ => rfl

theorem Denotes.isNull {v : Json} {a : Numeral} (h : Denotes v a) : v.isNull = false := by
  cases h <;> rfl

theorem Denotes.comparedText {v : Json} {a : Numeral} (h : Denotes v a) (sj : SerdeJson) :
    comparedText sj v = a.text sj := by
  cases h <;> rfl

/-- A referenced variable that is missing or null is null. -/
theorem resolve_of_missing {vars : VariableStore} {name : String}
    (h : vars.get name = none ∨ vars.get name = some .null) :
    resolve vars ("$" ++ name) = .null := by
  have hlist : ("$" ++ name).toList = '$' :: name.toList := by
    rw [String.toList_append]
    rfl
  unfold resolve
  rw [hlist]
  show (vars.get (String.ofList name.toList)).getD .null = .null
  rw [String.ofList_toList]
  rcases h with h | h <;> rw [h] <;> rfl

theorem evaluate_of_null (sj : SerdeJson) (op : ConditionOp) {left right : String}
    {vars : VariableStore} (h : resolve vars left = .null ∨ resolve vars right = .null) :
    evaluate sj ⟨left, op, right⟩ vars = false := by
  refine if_pos ?_
  rcases h with h | h <;> rw [h]
  · rfl
  · exact Bool.or_true _

/-- The integers that values stand for have less than 65 bits. -/
theorem Denotes.natAbs_lt {v : Json} {z : ℤ} (h : Denotes v (.integer z)) : z.natAbs < 2 ^ 65 := by
  cases h with
  | posInt n =>
      have hlt := n.toNat_lt
      omega
  | negInt n =>
      have hlt : n.toInt < 2 ^ 63 := n.toInt_lt
      have hge : -2 ^ 63 ≤ n.toInt := n.le_toInt
      omega
  | decimal z hz => omega

theorem Denotes.isFinite {v : Json} {a : Numeral} (h : Denotes v a) : a.value.isFinite = true := by
  cases a with
  | integer z => exact isFinite_double h.natAbs_lt
  | float x =>
      cases h with
      | float _ finite => exact finite

/-! ## Texts and numbers -/

/-- The ordering of two numbers that are not both JSON numbers is that of their texts. -/
theorem ordering_eq_cmp {sj : SerdeJson} {l r : Json} {a b : Numeral} (ha : Denotes l a)
    (hb : Denotes r b) (hno : ¬∃ m n, l = .number m ∧ r = .number n) :
    l.ordering sj r = cmp (a.text sj) (b.text sj) := by
  cases ha <;> cases hb <;> first | rfl | exact absurd ⟨_, _, rfl, rfl⟩ hno

/-- The ordering of two JSON numbers is that of their doubles. -/
theorem ordering_eq_order {sj : SerdeJson} {m n : JsonNumber} {a b : Numeral} {o : Ordering}
    (ha : Denotes (.number m) a) (hb : Denotes (.number n) b)
    (ho : order a.value b.value = some o) :
    Json.ordering sj (.number m) (.number n) = o := by
  have hvalue : ∀ {k c}, Denotes (.number k) c → k.asF64 = c.value := by
    intro k c h
    cases h <;> rfl
  show (order m.asF64 n.asF64).getD .eq = o
  rw [hvalue ha, hvalue hb, ho, Option.getD_some]

/-- An ordering is that of two texts when it says so of equality and of `<`. -/
theorem eq_cmp_iff (o : Ordering) (s t : String) :
    o = cmp s t ↔ (s = t ↔ o = .eq) ∧ (s < t ↔ o = .lt) := by
  rw [← cmp_eq_eq_iff s t, ← cmp_eq_lt_iff s t]
  generalize cmp s t = c
  cases o <;> cases c <;> decide

/-- The doubles of two integers of which one is the decimal form of a string. -/
theorem order_integers {l r : Json} {m n : ℤ} (ha : Denotes l (.integer m))
    (hb : Denotes r (.integer n)) (hno : ¬∃ k k', l = .number k ∧ r = .number k') :
    order (double m) (double n) = some (compare m n) := by
  have hm := ha.natAbs_lt
  have hn := hb.natAbs_lt
  cases ha with
  | decimal _ hz => exact order_double hz hn
  | _ =>
      cases hb with
      | decimal _ hz => exact order_double_right hm hz
      | _ => exact absurd ⟨_, _, rfl, rfl⟩ hno

/-- **When the texts give the order of the numbers.** -/
theorem textsAgree_iff {sj : SerdeJson} {l r : Json} {a b : Numeral} (ha : Denotes l a)
    (hb : Denotes r b) (hno : ¬∃ m n, l = .number m ∧ r = .number n) :
    a.TextsAgree sj b ↔ order a.value b.value = some (cmp (a.text sj) (b.text sj)) := by
  have hgeneral : order a.value b.value = some (cmp (a.text sj) (b.text sj)) ↔
      (a.text sj = b.text sj ↔ (a.value == b.value) = true) ∧
        (a.text sj < b.text sj ↔ a.value < b.value) := by
    obtain ⟨o, ho⟩ := exists_order_of_isFinite ha.isFinite hb.isFinite
    rw [beq_iff_order, lt_iff_order, ho, Option.some_inj, Option.some_inj, Option.some_inj,
      eq_cmp_iff]
  cases a with
  | float x => exact hgeneral.symm
  | integer m =>
      cases b with
      | float y => exact hgeneral.symm
      | integer n =>
          show IntegerOrder m n ↔ order (double m) (double n) = some (cmp (toString m) (toString n))
          rw [order_integers ha hb hno, Option.some_inj, eq_cmp_iff, integerOrder_iff,
            Int.compare_eq_eq, Int.compare_eq_lt]
          exact ⟨fun h => ⟨toString_int_inj, h⟩, And.right⟩

/-! ## The conditions on two operands -/

/-- **The conditions on two operands** are what is asked exactly when, of two numbers that are not
both JSON numbers, the texts compare as the numbers do. -/
theorem conditionSemantics_iff (sj : SerdeJson) (left right : String) (vars : VariableStore) :
    ConditionSemantics sj left right vars ↔
      ∀ a b, Denotes (resolve vars left) a → Denotes (resolve vars right) b →
        (∃ m n, resolve vars left = .number m ∧ resolve vars right = .number n) ∨
          a.TextsAgree sj b := by
  constructor
  · intro hsem a b ha hb
    by_cases hboth : ∃ m n, resolve vars left = .number m ∧ resolve vars right = .number n
    · exact .inl hboth
    · refine .inr ((textsAgree_iff ha hb hboth).mpr ?_)
      obtain ⟨o, ho⟩ := exists_order_of_isFinite (ha.isFinite) (hb.isFinite)
      have heq : o = cmp (a.text sj) (b.text sj) := by
        refine ConditionOp.holds_inj fun op => ?_
        rw [← op.numeric_eq_holds ho, ← hsem.numeric a b ha hb op,
          evaluate_eq_holds sj op ha.isNull hb.isNull, ordering_eq_cmp ha hb hboth]
      rw [ho, heq]
  · intro hagree
    refine ⟨fun a b ha hb op => ?_, fun name hname hmissing op => ?_, fun hl hr => ?_,
      fun hl hr => ?_⟩
    · obtain ⟨o, ho⟩ := exists_order_of_isFinite ha.isFinite hb.isFinite
      rw [evaluate_eq_holds sj op ha.isNull hb.isNull, op.numeric_eq_holds ho]
      congr 1
      by_cases hboth : ∃ m n, resolve vars left = .number m ∧ resolve vars right = .number n
      · obtain ⟨m, n, hm, hn⟩ := hboth
        rw [hm] at ha ⊢
        rw [hn] at hb ⊢
        exact ordering_eq_order ha hb ho
      · have htexts := (textsAgree_iff ha hb hboth).mp ((hagree a b ha hb).resolve_left hboth)
        rw [ordering_eq_cmp ha hb hboth]
        exact Option.some.inj (htexts.symm.trans ho)
    · refine evaluate_of_null sj op (hname.imp ?_ ?_) <;>
        · rintro rfl
          exact resolve_of_missing hmissing
    · simp only [evaluate_eq_holds sj _ (isNull_eq_false hl) (isNull_eq_false hr)]
      generalize (resolve vars left).ordering sj (resolve vars right) = o
      cases o <;> decide
    · simp only [evaluate_eq_holds sj _ (isNull_eq_false hl) (isNull_eq_false hr)]
      rfl

/-- With a `file_count` of 9, the condition `$file_count > 10` holds: the text `9` stands behind the
text `10`. -/
theorem not_conditionSemantics :
    ¬∀ (sj : SerdeJson) (left right : String) (vars : VariableStore),
      ConditionSemantics sj left right vars := by
  intro hall
  have hnumeric := (hall .withoutFloats "$file_count" "10"
    (VariableStore.empty.set "file_count" (.number (.posInt 9)))).numeric (.integer 9)
    (.integer 10) (.posInt 9) (.decimal 10 (by decide)) .gt
  revert hnumeric
  decide

end AuraLauncher.Workflow
