import Mathlib.Algebra.Group.Nat.Defs
import Mathlib.Data.Nat.Log
import Mathlib.Tactic.Common

/-!
# Integers as doubles

The order of the doubles as Lean's model of them has it, and the doubles of the integers. An integer
of less than 53 bits has a double of its own, a larger one is rounded, but never down to one of less
than 53 bits; so against an integer of less than 53 bits the doubles compare as the integers do.

* `order` — the comparison of two doubles; `order_swap`, `exists_order_of_isFinite`.
* `unpack_pack_normal` — a normal double is read back from its bits.
* `round_natCast` — the rounding of an integer; `double` — the double of an integer.
* `order_double` — the order of the doubles of two integers.
-/

namespace AuraLauncher.Lib.Floats

open Float.Model Float.Model.UnpackedFloat

/-! ## The order of the doubles -/

/-- The order of two doubles; `none` when one is not a number. -/
def order (x y : Float) : Option Ordering := x.toModel.unpack.compare y.toModel.unpack

theorem lt_iff_order {x y : Float} : x < y ↔ order x y = some .lt := by
  show (decide ((x.toModel.lt y.toModel) = true)) = true ↔ _
  rw [decide_eq_true_iff]
  exact beq_iff_eq

theorem le_iff_order {x y : Float} : x ≤ y ↔ ∃ o, order x y = some o ∧ o.isLE = true := by
  show (decide ((x.toModel.le y.toModel) = true)) = true ↔ _
  rw [decide_eq_true_iff]
  exact Option.any_eq_true _ _

theorem beq_iff_order {x y : Float} : (x == y) = true ↔ order x y = some .eq := by
  show (x.toModel.unpack.compare y.toModel.unpack == some .eq) = true ↔ _
  exact beq_iff_eq

/-- Two magnitudes in the other order. -/
theorem then_compare_swap (e e' : ℤ) (m m' : ℕ) :
    (compare e' e).then (compare m' m) = ((compare e e').then (compare m m')).swap := by
  rw [Ordering.swap_then, ← Std.OrientedOrd.eq_swap, ← Std.OrientedOrd.eq_swap]

/-- Two doubles in the other order. -/
theorem order_swap (x y : Float) : order y x = (order x y).map Ordering.swap := by
  unfold order
  generalize x.toModel.unpack = u
  generalize y.toModel.unpack = v
  cases u with
  | notANumber => cases v <;> rfl
  | infinity s =>
      cases s <;> cases v with
      | infinity s' => cases s' <;> rfl
      | _ => rfl
  | zero s =>
      cases v with
      | infinity s' => cases s' <;> rfl
      | finite s' => cases s' <;> rfl
      | _ => rfl
  | finite s m e hm =>
      cases v with
      | infinity s' => cases s <;> cases s' <;> rfl
      | finite s' m' e' hm' =>
          cases s with
          | negative =>
              cases s' with
              | negative =>
                  exact congrArg some (congrArg Ordering.swap (then_compare_swap e e' m m'))
              | positive => rfl
          | positive =>
              cases s' with
              | negative => rfl
              | positive => exact congrArg some (then_compare_swap e e' m m')
      | _ => cases s <;> rfl

/-- Two finite doubles are comparable. -/
theorem exists_order_of_isFinite {x y : Float} (hx : x.isFinite = true) (hy : y.isFinite = true) :
    ∃ o, order x y = some o := by
  have hx : x.toModel.unpack.isFinite = true := hx
  have hy : y.toModel.unpack.isFinite = true := hy
  unfold order
  generalize x.toModel.unpack = u at hx
  generalize y.toModel.unpack = v at hy
  cases u with
  | notANumber => cases hx
  | infinity s => cases hx
  | zero s =>
      cases v with
      | notANumber => cases hy
      | infinity s' => cases hy
      | zero s' => exact ⟨_, rfl⟩
      | finite s' => cases s' <;> exact ⟨_, rfl⟩
  | finite s =>
      cases v with
      | notANumber => cases hy
      | infinity s' => cases hy
      | zero s' => cases s <;> exact ⟨_, rfl⟩
      | finite s' => cases s <;> cases s' <;> exact ⟨_, rfl⟩

/-! ## Normal doubles -/

theorem unpackSign_packComponents {spec : Format} {sign : Sign}
    {exponent : BitVec spec.exponentBits} {mantissa : BitVec spec.mantissaBitsWithoutImplicit} :
    unpackSign (packComponents spec sign exponent mantissa) = sign.toBitVec := by
  ext i hi
  obtain rfl : i = 0 := by omega
  delta unpackSign packComponents
  simp [BitVec.getLsbD_eq_getElem, BitVec.getLsbD_append, BitVec.getElem_append]

theorem ofBitVec_toBitVec (sign : Sign) : Sign.ofBitVec sign.toBitVec = sign := by
  cases sign <;> rfl

/-- The mantissa with its leading bit put back. -/
theorem toNat_append_ofNat {m : ℕ} (hlog : m.log2 = 52) :
    (1#1 ++ BitVec.ofNat 52 m).toNat = m := by
  have hm : m ≠ 0 := by
    rintro rfl
    rw [Nat.log2_zero] at hlog
    omega
  obtain ⟨hlo, hhi⟩ := (Nat.log2_eq_iff hm).mp hlog
  rw [BitVec.toNat_append, ← Nat.shiftLeft_add_eq_or_of_lt (BitVec.isLt _), BitVec.toNat_ofNat]
  show 1 <<< 52 + m % 2 ^ 52 = m
  rw [Nat.shiftLeft_eq]
  omega

theorem finite_congr {s s' : Sign} {m m' : ℕ} {e e' : ℤ} {hm : 0 < m} {hm' : 0 < m'} (hs : s = s')
    (hmm : m = m') (he : e = e') :
    UnpackedFloat.finite s m e hm = UnpackedFloat.finite s' m' e' hm' := by
  subst hs hmm he
  rfl

/-- **A normal double is read back from its bits.** -/
theorem unpack_pack_normal (sign : Sign) {m : ℕ} {e : ℤ} (hm : 0 < m) (hlog : m.log2 = 52)
    (hlo : -1074 ≤ e) (hhi : e ≤ 971) :
    (Float.Model.pack (.finite sign m e hm)).unpack = .finite sign m e hm := by
  obtain ⟨biased, hbiased⟩ : ∃ biased, biased = (e + 1023 + 52).toNat := ⟨_, rfl⟩
  have hbits : (Float.Model.pack (.finite sign m e hm)).toBits.toBitVec =
      packComponents Format.binary64 sign (BitVec.ofNat 11 biased) (BitVec.ofNat 52 m) := by
    show UnpackedFloat.pack Format.binary64 (.finite sign m e hm) = _
    unfold UnpackedFloat.pack
    dsimp only
    rw [if_neg, if_pos]
    · rw [hbiased]
      rfl
    · rw [hlog]
      rfl
    · show ¬2 ^ 11 ≤ (e + 1023 + 52).toNat + 1
      omega
  have hexp : (BitVec.ofNat 11 biased).toNat = biased := by
    rw [BitVec.toNat_ofNat]
    omega
  have hne : ∀ {v : BitVec 11}, biased ≠ v.toNat → BitVec.ofNat 11 biased ≠ v := by
    rintro v hv rfl
    exact hv hexp.symm
  unfold Float.Model.unpack UnpackedFloat.unpack
  rw [hbits]
  dsimp only
  rw [if_neg, if_neg]
  · refine finite_congr ?_ ?_ ?_
    · rw [unpackSign_packComponents]
      exact ofBitVec_toBitVec sign
    · rw [unpackMantissa_packComponents]
      exact toNat_append_ofNat hlog
    · rw [unpackExponent_packComponents, hexp]
      show (biased : ℤ) - (1023 + 52) = e
      omega
  · rw [unpackExponent_packComponents]
    exact hne (by show biased ≠ 0; omega)
  · rw [unpackExponent_packComponents]
    exact hne (by show biased ≠ 2047; omega)

/-! ## Rounding -/

theorem shiftRight_mantissa (em : ExtendedMantissa) (n : ℕ) :
    (em >>> n).mantissa = em.mantissa / 2 ^ n := by
  induction n with
  | zero => exact (Nat.div_one _).symm
  | succ n ih =>
      show (em >>> n).mantissa / 2 = _
      rw [ih, Nat.div_div_eq_div_mul, Nat.pow_succ]

/-- A mantissa is rounded up by one at most. -/
theorem roundedMantissa_bounds (em : ExtendedMantissa) :
    em.mantissa ≤ em.roundedMantissa ∧ em.roundedMantissa ≤ em.mantissa + 1 := by
  obtain ⟨m, round, sticky⟩ := em
  cases round with
  | false =>
      cases sticky with
      | false => exact ⟨le_rfl, Nat.le_succ m⟩
      | true => exact ⟨le_rfl, Nat.le_succ m⟩
  | true =>
      cases sticky with
      | false =>
          show m ≤ m + m % 2 ∧ m + m % 2 ≤ m + 1
          omega
      | true => exact ⟨Nat.le_succ m, le_rfl⟩

/-- A mantissa of `53 + s` bits is shifted by `s`. -/
theorem shiftToTargetExponent_eq {m s : ℕ} {e : ℤ} (hlog : m.log2 = 52 + s)
    (hlo : -1074 ≤ e + s) :
    shiftToTargetExponent Format.binary64 m e .exact =
      (ExtendedMantissa.mk m false false >>> s, e + s) := by
  have htarget : Format.binary64.targetExponent (totalExponent m e) = e + s := by
    unfold Format.targetExponent totalExponent
    rw [hlog]
    show max (((52 + s : ℕ) : ℤ) + 1 + e - 53) (-1074) = e + s
    omega
  have hamount : (e + s - e).toNat = s := by omega
  unfold shiftToTargetExponent shiftToExponent
  dsimp only
  rw [htarget, hamount]
  rfl

theorem div_two_pow_bounds {m s : ℕ} (hlog : m.log2 = 52 + s) :
    2 ^ 52 ≤ m / 2 ^ s ∧ m / 2 ^ s < 2 ^ 53 := by
  have hm : m ≠ 0 := by
    rintro rfl
    rw [Nat.log2_zero] at hlog
    omega
  obtain ⟨hlo, hhi⟩ := (Nat.log2_eq_iff hm).mp hlog
  constructor
  · rw [Nat.le_div_iff_mul_le (Nat.two_pow_pos s), ← Nat.pow_add]
    exact hlo
  · rw [Nat.div_lt_iff_lt_mul (Nat.two_pow_pos s), ← Nat.pow_add]
    exact lt_of_lt_of_eq hhi (by congr 1; omega)

/-- The rounding of a mantissa of `53 + s` bits has 53 bits, and is exact when `s` is zero. -/
theorem roundWithAccuracy_eq (sign : Sign) {m s : ℕ} {e : ℤ} (hlog : m.log2 = 52 + s)
    (hlo : -1074 ≤ e + s) :
    ∃ m' e' hm', roundWithAccuracy Format.binary64 sign m e .exact = .finite sign m' e' hm' ∧
      m'.log2 = 52 ∧ e + s ≤ e' ∧ e' ≤ e + s + 1 ∧ (s = 0 → m' = m ∧ e' = e) := by
  obtain ⟨hdivlo, hdivhi⟩ := div_two_pow_bounds hlog
  obtain ⟨hroundlo, hroundhi⟩ :=
    roundedMantissa_bounds (ExtendedMantissa.mk m false false >>> s)
  rw [shiftRight_mantissa] at hroundlo hroundhi
  dsimp only at hroundlo hroundhi
  unfold roundWithAccuracy
  rw [shiftToTargetExponent_eq hlog hlo]
  dsimp only
  obtain ⟨r, hr⟩ : ∃ r, r = (ExtendedMantissa.mk m false false >>> s).roundedMantissa := ⟨_, rfl⟩
  rw [← hr] at hroundlo hroundhi ⊢
  have hzero : s = 0 → r = m := by
    rintro rfl
    exact hr
  rcases Nat.lt_or_ge r (2 ^ 53) with hlt | hge
  · -- the rounded mantissa still has its bits
    have hrlog : r.log2 = 52 + 0 := (Nat.log2_eq_iff (by omega)).mpr ⟨by omega, hlt⟩
    rw [shiftToTargetExponent_eq hrlog (by omega)]
    refine ⟨r, e + s + (0 : ℕ), by omega, dif_neg (by show ¬r = 0; omega), hrlog, by omega,
      by omega, ?_⟩
    rintro rfl
    exact ⟨hzero rfl, by omega⟩
  · -- the rounding has carried over, and one more shift is due
    obtain rfl : r = 2 ^ 53 := by omega
    have hrlog : (2 ^ 53).log2 = 52 + 1 := Nat.log2_two_pow
    rw [shiftToTargetExponent_eq hrlog (by omega)]
    refine ⟨2 ^ 52, e + s + 1, by decide, rfl, Nat.log2_two_pow, by omega, le_rfl, ?_⟩
    rintro rfl
    exact absurd (hzero rfl) (by rintro rfl; omega)

theorem log2_mul_two_pow {k : ℕ} (hk : k ≠ 0) (n : ℕ) : (k * 2 ^ n).log2 = k.log2 + n := by
  obtain ⟨hlo, hhi⟩ := (Nat.log2_eq_iff hk).mp rfl
  have hpos : 0 < 2 ^ n := Nat.two_pow_pos n
  refine (Nat.log2_eq_iff (Nat.mul_ne_zero hk hpos.ne')).mpr ⟨?_, ?_⟩
  · rw [Nat.pow_add]
    exact Nat.mul_le_mul_right _ hlo
  · rw [Nat.add_right_comm, Nat.pow_add]
    exact Nat.mul_lt_mul_of_pos_right hhi hpos

/-- The mantissa and the exponent of the double of `k`. -/
structure Magnitude (k m : ℕ) (e : ℤ) : Prop where
  normal : m.log2 = 52
  exponent_ge : -52 ≤ e
  exponent_le : e ≤ k.log2 - 51
  small : k < 2 ^ 53 → m = k * 2 ^ (52 - k.log2) ∧ e = k.log2 - 52
  large : 2 ^ 53 ≤ k → 1 ≤ e

/-- **The rounding of an integer**: exact below 53 bits, and never down to less than 53 bits. -/
theorem round_natCast (sign : Sign) {k : ℕ} (hk : k ≠ 0) :
    ∃ m e hm, UnpackedFloat.round Format.binary64 sign k 0 = .finite sign m e hm ∧
      Magnitude k m e := by
  have htarget : Format.binary64.targetExponent (totalExponent k 0) = k.log2 - 52 := by
    show max ((k.log2 : ℤ) + 1 + 0 - 53) (-1074) = k.log2 - 52
    omega
  have hamount : (0 - ((k.log2 : ℤ) - 52)).toNat = 52 - k.log2 := by omega
  have hlog : (k * 2 ^ (52 - k.log2)).log2 = 52 + (k.log2 - 52) := by
    rw [log2_mul_two_pow hk]
    omega
  obtain ⟨m, e, hm, hround, hnormal, hge, hle, hzero⟩ :=
    roundWithAccuracy_eq sign (e := 0 - ((52 - k.log2 : ℕ) : ℤ)) hlog (by omega)
  refine ⟨m, e, hm, ?_, hnormal, by omega, by omega, fun hlt => ?_, fun hge => ?_⟩
  · rw [← hround]
    unfold UnpackedFloat.round decreaseExponent
    dsimp only
    rw [htarget, hamount, Nat.shiftLeft_eq]
  · have hlog : k.log2 < 53 := (Nat.log2_lt hk).mpr hlt
    obtain ⟨rfl, rfl⟩ := hzero (by omega)
    exact ⟨rfl, by omega⟩
  · have hlog : 53 ≤ k.log2 := (Nat.le_log2 hk).mpr hge
    omega

theorem compare_mul_right (k l : ℕ) {c : ℕ} (hc : 0 < c) :
    compare (k * c) (l * c) = compare k l := by
  simp only [Nat.compare_eq_ite_lt, Nat.mul_lt_mul_right hc]

/-- Magnitudes compare as the integers do, when one of these has less than 53 bits. -/
theorem Magnitude.compare_eq {k l m m' : ℕ} {e e' : ℤ} (hk : Magnitude k m e)
    (hl : Magnitude l m' e') (hk0 : k ≠ 0) (hl0 : l ≠ 0) (hlt : k < 2 ^ 53) :
    (compare e e').then (compare m m') = compare k l := by
  obtain ⟨hm, he⟩ := hk.small hlt
  obtain ⟨hklo, hkhi⟩ := (Nat.log2_eq_iff hk0).mp rfl
  obtain ⟨hllo, hlhi⟩ := (Nat.log2_eq_iff hl0).mp rfl
  have hpow : ∀ {a b : ℕ}, a < b → 2 ^ (a + 1) ≤ 2 ^ b := fun h =>
    Nat.pow_le_pow_right Nat.two_pos h
  have hklog : k.log2 < 53 := (Nat.log2_lt hk0).mpr hlt
  rcases Nat.lt_or_ge l (2 ^ 53) with hltl | hge
  · obtain ⟨hm', he'⟩ := hl.small hltl
    rcases Nat.lt_trichotomy k.log2 l.log2 with hlog | hlog | hlog
    · have hkl : k < l := by have := hpow hlog; omega
      rw [Nat.compare_eq_lt.mpr hkl, Int.compare_eq_lt.mpr (by omega)]
      rfl
    · rw [Int.compare_eq_eq.mpr (show e = e' by omega), hm, hm', hlog]
      exact compare_mul_right k l (Nat.two_pow_pos _)
    · have hkl : l < k := by have := hpow hlog; omega
      rw [Nat.compare_eq_gt.mpr hkl, Int.compare_eq_gt.mpr (by omega)]
      rfl
  · have hlarge := hl.large hge
    have hkl : k < l := by omega
    rw [Nat.compare_eq_lt.mpr hkl, Int.compare_eq_lt.mpr (by omega)]
    rfl

/-! ## The doubles of integers -/

/-- The double of an integer. -/
def double (z : ℤ) : Float := .ofModel (.ofInt z)

theorem toFloat_uint64 (n : UInt64) : n.toFloat = double n.toNat := rfl

theorem ofModel_ofInt64 (n : Int64) : Float.ofModel (.ofInt64 n) = double n.toInt := rfl

theorem unpack_double_zero : (double 0).toModel.unpack = .zero .positive := rfl

theorem unpack_double_pos {k : ℕ} (hk : k ≠ 0) (hlt : k < 2 ^ 65) :
    ∃ m e hm, (double k).toModel.unpack = .finite .positive m e hm ∧ Magnitude k m e := by
  obtain ⟨m, e, hm, hround, hmag⟩ := round_natCast .positive hk
  have hlog : k.log2 < 65 := (Nat.log2_lt hk).mpr hlt
  have hle := hmag.exponent_le
  have hge := hmag.exponent_ge
  refine ⟨m, e, hm, ?_, hmag⟩
  rw [← unpack_pack_normal .positive hm hmag.normal (by omega) (by omega), ← hround]
  show (Float.Model.pack (UnpackedFloat.normalize Format.binary64 k 0 .positive)).unpack = _
  unfold UnpackedFloat.normalize
  rw [Int.compare_eq_gt.mpr (by omega)]
  rfl

theorem unpack_double_neg {k : ℕ} (hk : k ≠ 0) (hlt : k < 2 ^ 65) :
    ∃ m e hm, (double (-k)).toModel.unpack = .finite .negative m e hm ∧ Magnitude k m e := by
  obtain ⟨m, e, hm, hround, hmag⟩ := round_natCast .negative hk
  have hlog : k.log2 < 65 := (Nat.log2_lt hk).mpr hlt
  have hle := hmag.exponent_le
  have hge := hmag.exponent_ge
  refine ⟨m, e, hm, ?_, hmag⟩
  rw [← unpack_pack_normal .negative hm hmag.normal (by omega) (by omega), ← hround]
  show (Float.Model.pack (UnpackedFloat.normalize Format.binary64 (-k) 0 .positive)).unpack = _
  unfold UnpackedFloat.normalize
  rw [Int.compare_eq_lt.mpr (by omega)]
  dsimp only
  rw [Int.neg_neg, Int.toNat_natCast]

theorem compare_natCast (k l : ℕ) : compare (k : ℤ) (l : ℤ) = compare k l := by
  simp only [Int.compare_eq_ite_lt, Nat.compare_eq_ite_lt, Int.ofNat_lt]

theorem compare_neg (a b : ℤ) : compare (-a) (-b) = (compare a b).swap := by
  rw [← Std.OrientedOrd.eq_swap]
  simp only [Int.compare_eq_ite_lt, Int.neg_lt_neg_iff]

/-- An integer is zero, or positive, or negative. -/
theorem eq_zero_or_natCast (z : ℤ) :
    z = 0 ∨ (∃ k : ℕ, k ≠ 0 ∧ z = k) ∨ ∃ k : ℕ, k ≠ 0 ∧ z = -k := by
  rcases lt_trichotomy z 0 with hz | hz | hz
  · exact .inr (.inr ⟨z.natAbs, by omega, by omega⟩)
  · exact .inl hz
  · exact .inr (.inl ⟨z.natAbs, by omega, by omega⟩)

/-- **The doubles of two integers**, one of less than 53 bits, compare as the integers do. -/
theorem order_double {a b : ℤ} (ha : a.natAbs < 2 ^ 53) (hb : b.natAbs < 2 ^ 65) :
    order (double a) (double b) = some (compare a b) := by
  unfold order
  rcases eq_zero_or_natCast a with rfl | ⟨k, hk, rfl⟩ | ⟨k, hk, rfl⟩
  · rw [unpack_double_zero]
    rcases eq_zero_or_natCast b with rfl | ⟨l, hl, rfl⟩ | ⟨l, hl, rfl⟩
    · rw [unpack_double_zero]
      rfl
    · obtain ⟨m, e, hm, hunpack, -⟩ := unpack_double_pos hl (by omega)
      rw [hunpack, Int.compare_eq_lt.mpr (by omega)]
      rfl
    · obtain ⟨m, e, hm, hunpack, -⟩ := unpack_double_neg hl (by omega)
      rw [hunpack, Int.compare_eq_gt.mpr (by omega)]
      rfl
  · obtain ⟨m, e, hm, hunpack, hmag⟩ := unpack_double_pos hk (by omega)
    rw [hunpack]
    rcases eq_zero_or_natCast b with rfl | ⟨l, hl, rfl⟩ | ⟨l, hl, rfl⟩
    · rw [unpack_double_zero, Int.compare_eq_gt.mpr (by omega)]
      rfl
    · obtain ⟨m', e', hm', hunpack', hmag'⟩ := unpack_double_pos hl (by omega)
      rw [hunpack', compare_natCast, ← hmag.compare_eq hmag' hk hl (by omega)]
      rfl
    · obtain ⟨m', e', hm', hunpack', -⟩ := unpack_double_neg hl (by omega)
      rw [hunpack', Int.compare_eq_gt.mpr (by omega)]
      rfl
  · obtain ⟨m, e, hm, hunpack, hmag⟩ := unpack_double_neg hk (by omega)
    rw [hunpack]
    rcases eq_zero_or_natCast b with rfl | ⟨l, hl, rfl⟩ | ⟨l, hl, rfl⟩
    · rw [unpack_double_zero, Int.compare_eq_lt.mpr (by omega)]
      rfl
    · obtain ⟨m', e', hm', hunpack', -⟩ := unpack_double_pos hl (by omega)
      rw [hunpack', Int.compare_eq_lt.mpr (by omega)]
      rfl
    · obtain ⟨m', e', hm', hunpack', hmag'⟩ := unpack_double_neg hl (by omega)
      rw [hunpack', compare_neg, compare_natCast, ← hmag.compare_eq hmag' hk hl (by omega)]
      rfl

theorem order_double_right {a b : ℤ} (ha : a.natAbs < 2 ^ 65) (hb : b.natAbs < 2 ^ 53) :
    order (double a) (double b) = some (compare a b) := by
  rw [order_swap, order_double hb ha, Option.map_some, ← Std.OrientedOrd.eq_swap]

/-- The double of an integer of less than 65 bits is finite. -/
theorem isFinite_double {z : ℤ} (hz : z.natAbs < 2 ^ 65) : (double z).isFinite = true := by
  show (double z).toModel.unpack.isFinite = true
  rcases eq_zero_or_natCast z with rfl | ⟨k, hk, rfl⟩ | ⟨k, hk, rfl⟩
  · rw [unpack_double_zero]
    rfl
  · obtain ⟨m, e, hm, hunpack, -⟩ := unpack_double_pos hk (by omega)
    rw [hunpack]
    rfl
  · obtain ⟨m, e, hm, hunpack, -⟩ := unpack_double_neg hk (by omega)
    rw [hunpack]
    rfl

end AuraLauncher.Lib.Floats
