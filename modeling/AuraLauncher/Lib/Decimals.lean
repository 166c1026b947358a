import Mathlib.Data.String.Basic
import Mathlib.Order.Lattice
import Mathlib.Tactic.Common

/-!
# The order of decimal texts

Numbers compared by their decimal texts. Two texts of one length compare as the numbers do; a
shorter text stands before a longer one exactly when its number is not above the leading digits of
the other, so `9` stands behind `10` and `1` before it.

* `digitCount` — the number of decimal digits.
* `toDigits_lt_iff_of_length_eq`, `toDigits_lt_iff_of_length_lt` — the order of two digit strings.
* `DecimalOrder`, `IntegerOrder` — the pairs of numbers whose texts compare as the numbers do;
  `decimalOrder_iff`, `integerOrder_iff` say so.
-/

namespace AuraLauncher.Lib.Decimals

/-! ## Digit strings -/

/-- The number of decimal digits. -/
def digitCount (n : ℕ) : ℕ := (Nat.toDigits 10 n).length

theorem digitCount_pos (n : ℕ) : 0 < digitCount n := Nat.length_toDigits_pos

theorem digitCount_le_iff {n k : ℕ} (hk : 0 < k) : digitCount n ≤ k ↔ n < 10 ^ k :=
  Nat.length_toDigits_le_iff (by decide) hk

/-- More digits, a larger number. -/
theorem lt_of_digitCount_lt {m n : ℕ} (h : digitCount m < digitCount n) : m < n := by
  have hm : m < 10 ^ digitCount m := (digitCount_le_iff (digitCount_pos m)).mp le_rfl
  have hn : ¬n < 10 ^ digitCount m := fun hlt =>
    absurd ((digitCount_le_iff (digitCount_pos m)).mpr hlt) (by omega)
  omega

theorem toDigits_inj {m n : ℕ} : Nat.toDigits 10 m = Nat.toDigits 10 n ↔ m = n := by
  constructor
  · intro h
    rw [← Nat.ofDigitChars_ten_toDigits (n := m), h, Nat.ofDigitChars_ten_toDigits]
  · rintro rfl
    rfl

/-- Lists with fronts of one length are compared by their fronts first. -/
theorem append_lt_append_iff {α : Type*} [LT α] {xs ys : List α} (h : xs.length = ys.length)
    (s t : List α) : xs ++ s < ys ++ t ↔ xs < ys ∨ xs = ys ∧ s < t := by
  induction xs generalizing ys with
  | nil =>
      obtain rfl : ys = [] := List.length_eq_zero_iff.mp h.symm
      simp
  | cons x xs ih =>
      obtain _ | ⟨y, ys⟩ := ys
      · cases h
      · have ih := ih (Nat.succ.inj h)
        rw [List.cons_append, List.cons_append, List.cons_lt_cons_iff, List.cons_lt_cons_iff, ih,
          List.cons.injEq]
        tauto

theorem digitChar_lt_digitChar {m n : ℕ} (hm : m < 10) (hn : n < 10) :
    Nat.digitChar m < Nat.digitChar n ↔ m < n := by
  rw [Char.lt_def, UInt32.lt_iff_toNat_lt]
  show (Nat.digitChar m).toNat < (Nat.digitChar n).toNat ↔ m < n
  rw [Nat.toNat_digitChar_of_lt_ten hm, Nat.toNat_digitChar_of_lt_ten hn]
  omega

/-- The digits of a number of more than one digit. -/
theorem toDigits_eq_append {n : ℕ} (h : 10 ≤ n) :
    Nat.toDigits 10 n = Nat.toDigits 10 (n / 10) ++ [Nat.digitChar (n % 10)] :=
  Nat.toDigits_of_base_le (by decide) h

theorem digitCount_div {n : ℕ} (h : 10 ≤ n) : digitCount n = digitCount (n / 10) + 1 := by
  unfold digitCount
  rw [toDigits_eq_append h, List.length_append]
  rfl

theorem digitCount_of_lt {n : ℕ} (h : n < 10) : digitCount n = 1 := by
  unfold digitCount
  rw [Nat.toDigits_of_lt_base h]
  rfl

/-- **Numbers with one count of digits** compare by their digits as they are. -/
theorem toDigits_lt_iff_of_length_eq {m n : ℕ} (h : digitCount m = digitCount n) :
    Nat.toDigits 10 m < Nat.toDigits 10 n ↔ m < n := by
  induction m using Nat.strongRecOn generalizing n with
  | _ m ih =>
      rcases Nat.lt_or_ge m 10 with hm | hm
      · have hn : n < 10 := by
          rw [digitCount_of_lt hm] at h
          exact (digitCount_le_iff Nat.one_pos).mp h.ge
        rw [Nat.toDigits_of_lt_base hm, Nat.toDigits_of_lt_base hn, List.cons_lt_cons_iff,
          digitChar_lt_digitChar hm hn]
        simp
      · have hn : 10 ≤ n := by
          by_contra hlt
          rw [digitCount_div hm, digitCount_of_lt (Nat.lt_of_not_le hlt)] at h
          exact absurd (digitCount_pos (m / 10)) (by omega)
        rw [digitCount_div hm, digitCount_div hn] at h
        have hcount : digitCount (m / 10) = digitCount (n / 10) := by omega
        rw [toDigits_eq_append hm, toDigits_eq_append hn, append_lt_append_iff hcount,
          ih (m / 10) (by omega) hcount, toDigits_inj, List.cons_lt_cons_iff,
          digitChar_lt_digitChar (by omega) (by omega)]
        simp only [List.not_lt_nil, and_false, or_false]
        omega

/-- The leading digits of a number. -/
theorem exists_toDigits_eq_append {n k : ℕ} (hk : 0 < k) (hle : k ≤ digitCount n) :
    ∃ rest, Nat.toDigits 10 n = Nat.toDigits 10 (n / 10 ^ (digitCount n - k)) ++ rest ∧
      digitCount (n / 10 ^ (digitCount n - k)) = k ∧ rest.length = digitCount n - k := by
  obtain ⟨j, hj⟩ : ∃ j, j = digitCount n - k := ⟨_, rfl⟩
  rw [← hj]
  induction j generalizing n with
  | zero =>
      rw [Nat.pow_zero, Nat.div_one]
      exact ⟨[], (List.append_nil _).symm, by omega, rfl⟩
  | succ j ih =>
      have hn : 10 ≤ n := by
        by_contra hlt
        rw [digitCount_of_lt (Nat.lt_of_not_le hlt)] at hj
        omega
      have hcount := digitCount_div hn
      obtain ⟨rest, hrest, hk', hlen⟩ := ih (n := n / 10) (by omega) (by omega)
      rw [Nat.pow_succ', ← Nat.div_div_eq_div_mul]
      refine ⟨rest ++ [Nat.digitChar (n % 10)], ?_, hk', ?_⟩
      · rw [toDigits_eq_append hn, hrest, List.append_assoc]
      · rw [List.length_append, hlen]
        rfl

/-- **A shorter number** stands before a longer one when it is not above its leading digits. -/
theorem toDigits_lt_iff_of_length_lt {m n : ℕ} (h : digitCount m < digitCount n) :
    Nat.toDigits 10 m < Nat.toDigits 10 n ↔ m ≤ n / 10 ^ (digitCount n - digitCount m) := by
  obtain ⟨rest, hn, hcount, hlen⟩ := exists_toDigits_eq_append (digitCount_pos m) h.le
  have hrest : [] < rest := by
    obtain _ | ⟨c, rest⟩ := rest
    · exact absurd hlen (by rw [List.length_nil]; omega)
    · exact List.nil_lt_cons c rest
  rw [hn, ← List.append_nil (Nat.toDigits 10 m), append_lt_append_iff hcount.symm,
    toDigits_lt_iff_of_length_eq hcount.symm, toDigits_inj, Nat.le_iff_lt_or_eq]
  exact or_congr_right (and_iff_left hrest)

/-! ## Texts and numbers -/

theorem toString_lt_toString {m n : ℕ} :
    toString m < toString n ↔ Nat.toDigits 10 m < Nat.toDigits 10 n := by
  rw [String.lt_iff_toList_lt]
  show m.repr.toList < n.repr.toList ↔ _
  rw [Nat.toList_repr, Nat.toList_repr]

theorem toString_nat_inj {m n : ℕ} : toString m = toString n ↔ m = n := by
  rw [← String.toList_inj]
  show m.repr.toList = n.repr.toList ↔ _
  rw [Nat.toList_repr, Nat.toList_repr, toDigits_inj]

/-- The texts of two numbers compare as the numbers do: the smaller is not above the leading digits
of the larger. -/
def DecimalOrder (m n : ℕ) : Prop :=
  min m n ≤ max m n / 10 ^ (digitCount (max m n) - digitCount (min m n))

instance (m n : ℕ) : Decidable (DecimalOrder m n) := inferInstanceAs (Decidable (_ ≤ _))

theorem decimalOrder_comm (m n : ℕ) : DecimalOrder m n ↔ DecimalOrder n m := by
  unfold DecimalOrder
  rw [min_comm, max_comm]

/-- The text of a smaller number stands before that of a larger one. -/
theorem decimalOrder_iff_of_lt {m n : ℕ} (h : m < n) :
    DecimalOrder m n ↔ toString m < toString n := by
  unfold DecimalOrder
  rw [min_eq_left h.le, max_eq_right h.le, toString_lt_toString]
  rcases Nat.lt_trichotomy (digitCount m) (digitCount n) with hcount | hcount | hcount
  · exact (toDigits_lt_iff_of_length_lt hcount).symm
  · rw [toDigits_lt_iff_of_length_eq hcount, hcount, Nat.sub_self, Nat.pow_zero, Nat.div_one]
    exact iff_of_true h.le h
  · exact absurd (lt_of_digitCount_lt hcount) (by omega)

theorem decimalOrder_self (n : ℕ) : DecimalOrder n n := by
  unfold DecimalOrder
  rw [min_self, max_self, Nat.sub_self, Nat.pow_zero, Nat.div_one]

/-- **Texts of natural numbers**: their order is that of the numbers exactly for the pairs of
`DecimalOrder`. -/
theorem decimalOrder_iff (m n : ℕ) : DecimalOrder m n ↔ (toString m < toString n ↔ m < n) := by
  rcases Nat.lt_trichotomy m n with h | rfl | h
  · rw [decimalOrder_iff_of_lt h]
    exact ⟨fun hlt => iff_of_true hlt h, fun hiff => hiff.mpr h⟩
  · exact iff_of_true (decimalOrder_self m) (iff_of_false (lt_irrefl _) (lt_irrefl m))
  · rw [decimalOrder_comm, decimalOrder_iff_of_lt h]
    have hne : toString m ≠ toString n := fun heq => absurd (toString_nat_inj.mp heq) (by omega)
    constructor
    · exact fun hlt => iff_of_false hlt.not_gt (by omega)
    · exact fun hiff => lt_of_le_of_ne (le_of_not_gt fun hlt => absurd (hiff.mp hlt) (by omega))
        hne.symm

/-- The same for two integers: a sign decides, and between two negative ones the order of the texts
is turned round. -/
def IntegerOrder : ℤ → ℤ → Prop
  | .ofNat m, .ofNat n => DecimalOrder m n
  | .negSucc m, .negSucc n => m = n ∨ ¬DecimalOrder (m + 1) (n + 1)
  | _, _ => True

theorem toList_toString_negSucc (m : ℕ) :
    (toString (Int.negSucc m)).toList = '-' :: (toString (m + 1)).toList := by
  show ("-" ++ toString (m + 1)).toList = _
  rw [String.toList_append]
  rfl

/-- A text of digits does not begin with a sign. -/
theorem exists_toList_eq_cons (n : ℕ) : ∃ c cs, (toString n).toList = c :: cs ∧ '-' < c := by
  have hlist : (toString n).toList = Nat.toDigits 10 n := Nat.toList_repr
  cases h : Nat.toDigits 10 n with
  | nil => exact absurd h Nat.toDigits_ne_nil
  | cons c cs =>
      refine ⟨c, cs, hlist.trans h, ?_⟩
      have hdigit : c.isDigit = true :=
        Nat.isDigit_of_mem_toDigits (by decide) (by decide) (h ▸ List.mem_cons_self)
      have hge : 48 ≤ c.val.toNat := by
        unfold Char.isDigit at hdigit
        rw [Bool.and_eq_true, decide_eq_true_iff] at hdigit
        exact UInt32.le_iff_toNat_le.mp hdigit.1
      rw [Char.lt_def, UInt32.lt_iff_toNat_lt]
      exact Nat.lt_of_lt_of_le (by decide) hge

theorem negSucc_lt_ofNat (m n : ℕ) : toString (Int.negSucc m) < toString (Int.ofNat n) := by
  obtain ⟨c, cs, hlist, hc⟩ := exists_toList_eq_cons n
  rw [String.lt_iff_toList_lt, toList_toString_negSucc]
  show _ < (toString n).toList
  rw [hlist, List.cons_lt_cons_iff]
  exact .inl hc

theorem negSucc_lt_negSucc (m n : ℕ) :
    toString (Int.negSucc m) < toString (Int.negSucc n) ↔ toString (m + 1) < toString (n + 1) := by
  rw [String.lt_iff_toList_lt, toList_toString_negSucc, toList_toString_negSucc,
    List.cons_lt_cons_iff, String.lt_iff_toList_lt]
  simp

theorem toString_int_inj {a b : ℤ} : toString a = toString b ↔ a = b := by
  refine ⟨fun h => ?_, congrArg _⟩
  cases a with
  | ofNat m =>
      cases b with
      | ofNat n => exact congrArg Int.ofNat (toString_nat_inj.mp h)
      | negSucc n => exact absurd (h ▸ negSucc_lt_ofNat n m) (lt_irrefl _)
  | negSucc m =>
      cases b with
      | ofNat n => exact absurd (h ▸ negSucc_lt_ofNat m n) (lt_irrefl _)
      | negSucc n =>
          have hlist := congrArg String.toList h
          rw [toList_toString_negSucc, toList_toString_negSucc, List.cons.injEq] at hlist
          have heq := toString_nat_inj.mp (String.toList_inj.mp hlist.2)
          rw [Nat.succ.inj heq]

/-- **Texts of integers**: their order is that of the integers exactly for the pairs of
`IntegerOrder`. -/
theorem integerOrder_iff (a b : ℤ) : IntegerOrder a b ↔ (toString a < toString b ↔ a < b) := by
  cases a with
  | ofNat m =>
      cases b with
      | ofNat n =>
          rw [show (Int.ofNat m < Int.ofNat n) ↔ m < n from Int.ofNat_lt]
          exact decimalOrder_iff m n
      | negSucc n =>
          refine iff_of_true trivial (iff_of_false (negSucc_lt_ofNat n m).not_gt ?_)
          exact not_lt_of_gt (Int.negSucc_lt_zero n |>.trans_le (Int.natCast_nonneg m))
  | negSucc m =>
      cases b with
      | ofNat n =>
          refine iff_of_true trivial (iff_of_true (negSucc_lt_ofNat m n) ?_)
          exact (Int.negSucc_lt_zero m).trans_le (Int.natCast_nonneg n)
      | negSucc n =>
          have hnumbers : Int.negSucc m < Int.negSucc n ↔ n < m := by omega
          rw [negSucc_lt_negSucc, hnumbers]
          show m = n ∨ ¬DecimalOrder (m + 1) (n + 1) ↔ _
          rw [decimalOrder_iff]
          by_cases htexts : toString (m + 1) < toString (n + 1)
          · have hne : m ≠ n := by
              rintro rfl
              exact lt_irrefl _ htexts
            simp only [htexts, true_iff]
            omega
          · simp only [htexts, false_iff]
            omega

end AuraLauncher.Lib.Decimals
