import AuraLauncher.Runtime.BoundedLine

/-!
# Reading UTF-8 back

`String::from_utf8_lossy` (`Runtime.BoundedLine`) on the bytes of a text: where nothing is lost.

* `utf8Bytes` — the bytes of a text. Source: `str::as_bytes`.
* `lossyChars_utf8EncodeChar` — a character is read back from its bytes, whatever follows.
* `fromUtf8Lossy_utf8Bytes` — the round trip.
-/

namespace AuraLauncher.Runtime

/-- The bytes of a text. Source: `str::as_bytes`. -/
def utf8Bytes (s : List Char) : Bytes := s.flatMap String.utf8EncodeChar

/-! ## Bytes as numbers -/

theorem toNat_ofNat_of_lt {n : ℕ} (h : n < 256) : (UInt8.ofNat n).toNat = n := by
  rw [UInt8.toNat_ofNat']
  exact Nat.mod_eq_of_lt h

theorem isContinuation_ofNat {n : ℕ} (h : n < 64) :
    isContinuation (UInt8.ofNat (n + 128)) = true := by
  have hall : ∀ m : Fin 64, isContinuation (UInt8.ofNat (m.val + 128)) = true := by decide
  exact hall ⟨n, h⟩

theorem payload_ofNat {n : ℕ} (h : n < 64) : payload (UInt8.ofNat (n + 128)) = n := by
  have hall : ∀ m : Fin 64, payload (UInt8.ofNat (m.val + 128)) = m.val := by decide
  exact hall ⟨n, h⟩

/-- The bits of the first byte of a sequence of two. -/
theorem first_of_two {n : ℕ} (h : n < 32) : (UInt8.ofNat (n + 192) &&& 0x1f).toNat = n := by
  have hall : ∀ m : Fin 32, (UInt8.ofNat (m.val + 192) &&& 0x1f).toNat = m.val := by decide
  exact hall ⟨n, h⟩

/-- The bits of the first byte of a sequence of three. -/
theorem first_of_three {n : ℕ} (h : n < 16) : (UInt8.ofNat (n + 224) &&& 0xf).toNat = n := by
  have hall : ∀ m : Fin 16, (UInt8.ofNat (m.val + 224) &&& 0xf).toNat = m.val := by decide
  exact hall ⟨n, h⟩

/-- The bits of the first byte of a sequence of four. -/
theorem first_of_four {n : ℕ} (h : n < 8) : (UInt8.ofNat (n + 240) &&& 7).toNat = n := by
  have hall : ∀ m : Fin 8, (UInt8.ofNat (m.val + 240) &&& 7).toNat = m.val := by decide
  exact hall ⟨n, h⟩

/-- Which second bytes fit, in numbers. -/
theorem secondFits_ofNat {m n : ℕ} (hm : m < 32) (hn : n < 64) (he0 : m = 0 → 32 ≤ n)
    (hed : m = 13 → n < 32) (hf0 : m = 16 → 16 ≤ n) (hf4 : m = 20 → n < 16) :
    secondFits (UInt8.ofNat (m + 224)) (UInt8.ofNat (n + 128)) = true := by
  have hb : (UInt8.ofNat (m + 224)).toNat = m + 224 := toNat_ofNat_of_lt (by omega)
  have hsecond : (UInt8.ofNat (n + 128)).toNat = n + 128 := toNat_ofNat_of_lt (by omega)
  unfold secondFits
  simp only [beq_iff_eq, ← UInt8.toNat_inj, UInt8.le_iff_toNat_le, hb, hsecond,
    UInt8.reduceToNat]
  split_ifs with h1 h2 h3 h4
  · simp; omega
  · simp; omega
  · simp; omega
  · simp; omega
  · exact isContinuation_ofNat hn

/-! ## Characters -/

theorem utf8Next_one {n : ℕ} (h : n < 128) (rest : Bytes) :
    utf8Next (UInt8.ofNat n) rest = (Char.ofNat n, 0) := by
  have hb : (UInt8.ofNat n).toNat = n := toNat_ofNat_of_lt (by omega)
  have hsmall : UInt8.ofNat n < 0x80 := by
    rw [UInt8.lt_iff_toNat_lt, hb]
    exact h
  simp only [utf8Next, if_pos hsmall, hb]

/-- A byte that begins a sequence is compared by its number. -/
theorem first_bounds {n : ℕ} (h : 0xc2 ≤ n) (h' : n ≤ 0xf4) :
    ¬ UInt8.ofNat n < 0x80 ∧ (UInt8.ofNat n < 0xc2 || 0xf4 < UInt8.ofNat n) = false ∧
      (UInt8.ofNat n < 0xe0 ↔ n < 0xe0) ∧ (UInt8.ofNat n < 0xf0 ↔ n < 0xf0) := by
  have hb : (UInt8.ofNat n).toNat = n := toNat_ofNat_of_lt (by omega)
  simp only [UInt8.lt_iff_toNat_lt, hb, UInt8.reduceToNat]
  refine ⟨by omega, ?_, trivial, trivial⟩
  simp
  omega

theorem utf8Next_two {m n : ℕ} (hm : 2 ≤ m) (hm' : m < 32) (hn : n < 64) (rest : Bytes) :
    utf8Next (UInt8.ofNat (m + 192)) (UInt8.ofNat (n + 128) :: rest) =
      (Char.ofNat (m * 64 + n), 1) := by
  obtain ⟨h80, hrange, he0, -⟩ := first_bounds (n := m + 192) (by omega) (by omega)
  have hcontinues := isContinuation_ofNat hn
  simp only [utf8Next, if_neg h80, hrange, if_pos (he0.mpr (by omega)), List.getD_cons_zero,
    hcontinues, payload_ofNat hn, first_of_two hm', if_true, Bool.false_eq_true, if_false]

theorem utf8Next_three {m n k : ℕ} (hm : m < 16) (hn : n < 64) (hk : k < 64)
    (hlow : m = 0 → 32 ≤ n) (hsurrogate : m = 13 → n < 32) (rest : Bytes) :
    utf8Next (UInt8.ofNat (m + 224)) (UInt8.ofNat (n + 128) :: UInt8.ofNat (k + 128) :: rest) =
      (Char.ofNat ((m * 64 + n) * 64 + k), 2) := by
  obtain ⟨h80, hrange, he0, hf0⟩ := first_bounds (n := m + 224) (by omega) (by omega)
  have hfits := secondFits_ofNat (m := m) (by omega) hn hlow hsurrogate (by omega) (by omega)
  have hcontinues := isContinuation_ofNat hk
  have hnot : ¬ UInt8.ofNat (m + 224) < 0xe0 := fun h => absurd (he0.mp h) (by omega)
  simp only [utf8Next, if_neg h80, hrange, if_neg hnot, if_pos (hf0.mpr (by omega)),
    List.getD_cons_zero, List.getD_cons_succ, hfits, hcontinues, payload_ofNat hn, payload_ofNat hk,
    first_of_three hm, Bool.not_true, Bool.false_eq_true, if_false]

theorem utf8Next_four {m n k j : ℕ} (hm : m < 5) (hn : n < 64) (hk : k < 64) (hj : j < 64)
    (hlow : m = 0 → 16 ≤ n) (hhigh : m = 4 → n < 16) (rest : Bytes) :
    utf8Next (UInt8.ofNat (m + 240))
        (UInt8.ofNat (n + 128) :: UInt8.ofNat (k + 128) :: UInt8.ofNat (j + 128) :: rest) =
      (Char.ofNat (((m * 64 + n) * 64 + k) * 64 + j), 3) := by
  obtain ⟨h80, hrange, he0, hf0⟩ := first_bounds (n := m + 240) (by omega) (by omega)
  have hfits := secondFits_ofNat (m := m + 16) (by omega) hn (by omega) (by omega)
    (fun h => hlow (by omega)) (fun h => hhigh (by omega))
  have hk' := isContinuation_ofNat hk
  have hj' := isContinuation_ofNat hj
  have hnot : ¬ UInt8.ofNat (m + 240) < 0xe0 := fun h => absurd (he0.mp h) (by omega)
  have hnot' : ¬ UInt8.ofNat (m + 240) < 0xf0 := fun h => absurd (hf0.mp h) (by omega)
  rw [Nat.add_assoc] at hfits
  simp only [utf8Next, if_neg h80, hrange, if_neg hnot, if_neg hnot', List.getD_cons_zero,
    List.getD_cons_succ, hfits, hk', hj', payload_ofNat hn, payload_ofNat hk, payload_ofNat hj,
    first_of_four (show m < 8 by omega), Bool.not_true, Bool.false_eq_true, if_false]

/-- **A character is read back from its bytes**, whatever follows. -/
theorem lossyChars_utf8EncodeChar (c : Char) (rest : Bytes) :
    lossyChars 0 (String.utf8EncodeChar c ++ rest) = c :: lossyChars 0 rest := by
  have hvalid : c.val.toNat < 0xd800 ∨ 0xdfff < c.val.toNat ∧ c.val.toNat < 0x110000 := c.valid
  have hc : Char.ofNat c.val.toNat = c := Char.ofNat_toNat c
  unfold String.utf8EncodeChar
  dsimp only
  generalize c.val.toNat = v at hvalid hc
  split_ifs with h1 h2 h3
  · simp only [List.cons_append, List.nil_append, lossyChars, utf8Next_one (show v < 128 by omega),
      hc]
  · have hv : v / 64 % 32 * 64 + v % 64 = v := by omega
    simp only [List.cons_append, List.nil_append, lossyChars,
      utf8Next_two (show 2 ≤ v / 64 % 32 by omega) (by omega) (show v % 64 < 64 by omega), hv, hc]
  · have hv : (v / 4096 % 16 * 64 + v / 64 % 64) * 64 + v % 64 = v := by omega
    simp only [List.cons_append, List.nil_append, lossyChars,
      utf8Next_three (show v / 4096 % 16 < 16 by omega) (show v / 64 % 64 < 64 by omega)
        (show v % 64 < 64 by omega) (by omega) (by omega), hv, hc]
  · have hv : ((v / 262144 % 8 * 64 + v / 4096 % 64) * 64 + v / 64 % 64) * 64 + v % 64 = v := by
      omega
    simp only [List.cons_append, List.nil_append, lossyChars,
      utf8Next_four (show v / 262144 % 8 < 5 by omega) (show v / 4096 % 64 < 64 by omega)
        (show v / 64 % 64 < 64 by omega) (show v % 64 < 64 by omega) (by omega) (by omega), hv, hc]

/-- The bytes of a text are read back as the text. -/
theorem lossyChars_utf8Bytes (s : List Char) : lossyChars 0 (utf8Bytes s) = s := by
  induction s with
  | nil => rfl
  | cons c cs ih =>
      rw [utf8Bytes, List.flatMap_cons, lossyChars_utf8EncodeChar]
      rw [utf8Bytes] at ih
      rw [ih]

/-- **Nothing is lost of a text**. -/
theorem fromUtf8Lossy_utf8Bytes (s : List Char) :
    fromUtf8Lossy (utf8Bytes s) = String.ofList s := by
  rw [fromUtf8Lossy, lossyChars_utf8Bytes]

end AuraLauncher.Runtime
