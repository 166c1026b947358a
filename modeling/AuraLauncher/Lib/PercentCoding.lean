import Mathlib.Data.List.Basic
import Mathlib.Tactic.Common

/-!
# Percent-encoding

A text as a component of a URL: characters that may stand for themselves are kept, and of the others
every byte of their UTF-8 encoding is written as a percent sign and two hexadecimal digits.

Decoders differ in what they make of texts that are no encodings, so that this file has none; it
says what a decoder has to do in order to read an encoding back.

* `percentByte`, `percentEncode` — an escaped byte and an encoded text.
* `isUnreserved` — the characters that every component may keep.
* `hexDigitValue` — the value of a hexadecimal digit of either case.
* `decode_percentEncode` — a decoder that undoes each escape and passes each kept character on
  reads every encoding back.
* `not_mem_percentEncode` — a separator does not occur in an encoding.
-/

namespace AuraLauncher.Lib

/-- A hexadecimal digit. -/
def hexDigitChar (n : ℕ) : Char := Char.ofNat (if n < 10 then 48 + n else 55 + n)

/-- The value of a hexadecimal digit of either case. -/
def hexDigitValue (b : UInt8) : Option ℕ :=
  let n := b.toNat
  if 48 ≤ n ∧ n ≤ 57 then some (n - 48)
  else if 65 ≤ n ∧ n ≤ 70 then some (n - 55)
  else if 97 ≤ n ∧ n ≤ 102 then some (n - 87)
  else none

/-- An escaped byte. -/
def percentByte (b : UInt8) : List Char :=
  ['%', hexDigitChar (b.toNat / 16), hexDigitChar (b.toNat % 16)]

variable (keep : Char → Bool)

/-- A text with all but some characters escaped. -/
def percentEncode (s : List Char) : List Char :=
  s.flatMap fun c => if keep c then [c] else (String.utf8EncodeChar c).flatMap percentByte

/-- Letters, digits and `-._~`. -/
def isUnreserved (c : Char) : Bool :=
  c.isAlphanum || c == '-' || c == '.' || c == '_' || c == '~'

/-! ## Digits -/

theorem hexDigitChar_lt {n : ℕ} (h : n < 16) : (hexDigitChar n).toNat < 128 := by
  have hall : ∀ m : Fin 16, (hexDigitChar m.val).toNat < 128 := by decide
  exact hall ⟨n, h⟩

theorem hexDigitValue_hexDigitChar {n : ℕ} (h : n < 16) :
    hexDigitValue (UInt8.ofNat (hexDigitChar n).toNat) = some n := by
  have hall : ∀ m : Fin 16,
      hexDigitValue (UInt8.ofNat (hexDigitChar m.val).toNat) = some m.val := by
    decide
  exact hall ⟨n, h⟩

/-- An ASCII character is one byte. -/
theorem utf8EncodeChar_of_ascii {c : Char} (h : c.toNat < 128) :
    String.utf8EncodeChar c = [UInt8.ofNat c.toNat] := by
  have hle : c.val.toNat ≤ 0x7f := Nat.lt_succ_iff.mp h
  unfold String.utf8EncodeChar
  exact if_pos hle

/-- The bytes of an escape. -/
theorem utf8_percentByte (b : UInt8) : (percentByte b).flatMap String.utf8EncodeChar =
    [37, UInt8.ofNat (hexDigitChar (b.toNat / 16)).toNat,
      UInt8.ofNat (hexDigitChar (b.toNat % 16)).toNat] := by
  have hb : b.toNat < 256 := b.toNat_lt
  have hhigh := utf8EncodeChar_of_ascii (hexDigitChar_lt (show b.toNat / 16 < 16 by omega))
  have hlow := utf8EncodeChar_of_ascii (hexDigitChar_lt (show b.toNat % 16 < 16 by omega))
  simp only [percentByte, List.flatMap_cons, List.flatMap_nil, hhigh, hlow]
  rfl

/-! ## Reading back -/

variable {keep} {decode : List UInt8 → List UInt8}

/-- The bytes of a character are read back from their escapes. -/
theorem decode_percentBytes
    (hescape : ∀ b rest, decode ((percentByte b).flatMap String.utf8EncodeChar ++ rest) =
      b :: decode rest) (bytes rest : List UInt8) :
    decode ((bytes.flatMap percentByte).flatMap String.utf8EncodeChar ++ rest) =
      bytes ++ decode rest := by
  induction bytes with
  | nil => rfl
  | cons b bytes ih =>
      rw [List.flatMap_cons, List.flatMap_append, List.append_assoc, hescape, ih, List.cons_append]

/-- **An encoding is read back** by every decoder that undoes each escape and passes each kept
character on. -/
theorem decode_percentEncode
    (hkeep : ∀ c rest, keep c = true →
      decode (String.utf8EncodeChar c ++ rest) = String.utf8EncodeChar c ++ decode rest)
    (hescape : ∀ b rest, decode ((percentByte b).flatMap String.utf8EncodeChar ++ rest) =
      b :: decode rest) (s : List Char) (rest : List UInt8) :
    decode ((percentEncode keep s).flatMap String.utf8EncodeChar ++ rest) =
      s.flatMap String.utf8EncodeChar ++ decode rest := by
  induction s with
  | nil => rfl
  | cons c cs ih =>
      unfold percentEncode at *
      rw [List.flatMap_cons, List.flatMap_append, List.append_assoc, List.flatMap_cons]
      cases hc : keep c with
      | true =>
          rw [if_pos rfl, List.flatMap_singleton, hkeep c _ hc, ih, List.append_assoc]
      | false =>
          rw [if_neg Bool.false_ne_true, decode_percentBytes hescape, ih, List.append_assoc]

/-! ## Separators -/

/-- A character that is kept, a percent sign or a digit: there is nothing else in an encoding. -/
theorem mem_percentEncode {s : List Char} {c : Char} (h : c ∈ percentEncode keep s) :
    keep c = true ∨ c = '%' ∨ ∃ n < 16, c = hexDigitChar n := by
  obtain ⟨d, -, hd⟩ := List.mem_flatMap.mp h
  split_ifs at hd with hkeep
  · obtain rfl := List.mem_singleton.mp hd
    exact .inl hkeep
  · obtain ⟨b, -, hb⟩ := List.mem_flatMap.mp hd
    have hlt : b.toNat < 256 := b.toNat_lt
    simp only [percentByte, List.mem_cons, List.not_mem_nil, or_false] at hb
    rcases hb with rfl | rfl | rfl
    · exact .inr (.inl rfl)
    · exact .inr (.inr ⟨_, by omega, rfl⟩)
    · exact .inr (.inr ⟨_, by omega, rfl⟩)

/-- A separator does not occur in an encoding. -/
theorem not_mem_percentEncode {c : Char} (hkeep : keep c = false) (hpercent : c ≠ '%')
    (hhex : ∀ n < 16, c ≠ hexDigitChar n) (s : List Char) : c ∉ percentEncode keep s := by
  intro h
  rcases mem_percentEncode h with hc | hc | ⟨n, hn, hc⟩
  · rw [hkeep] at hc
    cases hc
  · exact hpercent hc
  · exact hhex n hn hc

end AuraLauncher.Lib
