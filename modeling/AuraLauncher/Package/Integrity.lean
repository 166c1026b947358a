import AuraLauncher.Agent.PromptCatalog
import AuraLauncher.Domain.Names
import AuraLauncher.Lib.Blocks
import AuraLauncher.Lib.PercentCoding
import AuraLauncher.Lib.While
import AuraLauncher.Runtime.Utf8

/-!
# Package integrity

`foundation.rs`: the SHA-256 digest of a payload, and the check of a payload against an expected
digest. `lib.rs` of the plugin tool: the envelope that a package is, with the files in base64, and
what a reader makes of one.

* `sha256`, `sha256Hex` — the digest, from the padding to the 64 rounds on each block.
* `padded`, `blocks` — the padded message and its blocks; `padded_injective` and `getLast_blocks`
  say that the padding loses nothing and that the last block ends in the length.
* `verifyIntegrity` — the comparison; `verifyIntegrity_iff` is its meaning.
* `digest_binds` — two payloads that pass one check, and are not longer than the length field can
  say, meet: at some block the compression turns different inputs into one output.
* `b64encode`, `b64decode` — the text of a file; `packEnvelope`, `parseEnvelope` — the envelope.
* `parseEnvelope_packEnvelope` — what is packed is what is read; `parseEnvelope_large` — a package
  that can be packed and not read.
* `staged_under_iff` — where the files of an accepted package go.
-/

namespace AuraLauncher.Package

open AuraLauncher.Lib AuraLauncher.Runtime AuraLauncher.Domain
open AuraLauncher.Workflow (Json SerdeJson insertField quote escapeChar)

/-! ## The compression -/

/-- Source: `foundation.rs`, `sha256` (`K`). -/
def roundConstants : List UInt32 := [
  0x428a2f98, 0x71374491, 0xb5c0fbcf, 0xe9b5dba5, 0x3956c25b, 0x59f111f1, 0x923f82a4,
  0xab1c5ed5, 0xd807aa98, 0x12835b01, 0x243185be, 0x550c7dc3, 0x72be5d74, 0x80deb1fe,
  0x9bdc06a7, 0xc19bf174, 0xe49b69c1, 0xefbe4786, 0x0fc19dc6, 0x240ca1cc, 0x2de92c6f,
  0x4a7484aa, 0x5cb0a9dc, 0x76f988da, 0x983e5152, 0xa831c66d, 0xb00327c8, 0xbf597fc7,
  0xc6e00bf3, 0xd5a79147, 0x06ca6351, 0x14292967, 0x27b70a85, 0x2e1b2138, 0x4d2c6dfc,
  0x53380d13, 0x650a7354, 0x766a0abb, 0x81c2c92e, 0x92722c85, 0xa2bfe8a1, 0xa81a664b,
  0xc24b8b70, 0xc76c51a3, 0xd192e819, 0xd6990624, 0xf40e3585, 0x106aa070, 0x19a4c116,
  0x1e376c08, 0x2748774c, 0x34b0bcb5, 0x391c0cb3, 0x4ed8aa4a, 0x5b9cca4f, 0x682e6ff3,
  0x748f82ee, 0x78a5636f, 0x84c87814, 0x8cc70208, 0x90befffa, 0xa4506ceb, 0xbef9a3f7,
  0xc67178f2]

/-- The eight words of the state. -/
@[ext] structure Words where
  (a b c d e f g h : UInt32)
  deriving DecidableEq

/-- Source: `foundation.rs`, `sha256` (the first value of `h`). -/
def initialWords : Words :=
  ⟨0x6a09e667, 0xbb67ae85, 0x3c6ef372, 0xa54ff53a, 0x510e527f, 0x9b05688c, 0x1f83d9ab, 0x5be0cd19⟩

/-- Source: `u32::rotate_right`, for `0 < n < 32`. -/
def rotateRight (x n : UInt32) : UInt32 := (x >>> n) ||| (x <<< (32 - n))

/-- Source: `u32::from_be_bytes`. -/
def wordOfBytes (chunk : Bytes) : UInt32 :=
  ((chunk.getD 0 0).toUInt32 <<< 24) ||| ((chunk.getD 1 0).toUInt32 <<< 16) |||
    ((chunk.getD 2 0).toUInt32 <<< 8) ||| (chunk.getD 3 0).toUInt32

/-- One word more of the schedule. Source: `foundation.rs`, `sha256` (the loop over `16..64`). -/
def extendSchedule (w : List UInt32) (i : ℕ) : List UInt32 :=
  let s0 := rotateRight (w.getD (i - 15) 0) 7 ^^^ rotateRight (w.getD (i - 15) 0) 18 ^^^
    (w.getD (i - 15) 0 >>> 3)
  let s1 := rotateRight (w.getD (i - 2) 0) 17 ^^^ rotateRight (w.getD (i - 2) 0) 19 ^^^
    (w.getD (i - 2) 0 >>> 10)
  w.set i (w.getD (i - 16) 0 + s0 + w.getD (i - 7) 0 + s1)

/-- The message schedule of a block. Source: `foundation.rs`, `sha256` (`w`). -/
def schedule (block : Bytes) : List UInt32 :=
  let read := (chunks 4 block).map wordOfBytes
  (List.range' 16 48).foldl extendSchedule (read ++ List.replicate (64 - read.length) 0)

/-- One round, with its constant and its word of the schedule.
Source: `foundation.rs`, `sha256` (the loop over `0..64`). -/
def round (r : Words) (kw : UInt32 × UInt32) : Words :=
  let s1 := rotateRight r.e 6 ^^^ rotateRight r.e 11 ^^^ rotateRight r.e 25
  let ch := (r.e &&& r.f) ^^^ (~~~r.e &&& r.g)
  let t1 := r.h + s1 + ch + kw.1 + kw.2
  let s0 := rotateRight r.a 2 ^^^ rotateRight r.a 13 ^^^ rotateRight r.a 22
  let maj := (r.a &&& r.b) ^^^ (r.a &&& r.c) ^^^ (r.b &&& r.c)
  let t2 := s0 + maj
  ⟨t1 + t2, r.a, r.b, r.c, r.d + t1, r.e, r.f, r.g⟩

/-- The state after one block. Source: `foundation.rs`, `sha256` (the loop over the blocks). -/
def compress (h : Words) (block : Bytes) : Words :=
  let r := (roundConstants.zip (schedule block)).foldl round h
  ⟨h.a + r.a, h.b + r.b, h.c + r.c, h.d + r.d, h.e + r.e, h.f + r.f, h.g + r.g, h.h + r.h⟩

/-! ## The padding -/

/-- The loop that fills the last block up to its length field.
Source: `foundation.rs`, `sha256` (`while msg.len() % 64 != 56`). -/
def fillLoop : While Bytes Bytes where
  body msg := if msg.length % 64 ≠ 56 then .inl (msg ++ [0]) else .inr msg
  bound msg := (120 - msg.length % 64) % 64
  decreases := by
    intro msg msg' h
    split_ifs at h with hlen
    · cases h
      rw [List.length_append, List.length_singleton]
      omega

/-- The length of the message in bits, as eight bytes.
Source: `foundation.rs`, `sha256` (`bitlen`, `to_be_bytes`). -/
def lengthField (size : ℕ) : Bytes :=
  let bitlen : UInt64 := UInt64.ofNat size * 8
  ([56, 48, 40, 32, 24, 16, 8, 0] : List UInt64).map fun shift => (bitlen >>> shift).toUInt8

/-- Source: `foundation.rs`, `sha256` (`msg`). -/
def padded (data : Bytes) : Bytes := fillLoop.run (data ++ [0x80]) ++ lengthField data.length

/-- Source: `foundation.rs`, `sha256` (`msg.chunks(64)`). -/
def blocks (data : Bytes) : List Bytes := chunks 64 (padded data)

/-! ## The digest -/

/-- Source: `u32::to_be_bytes`. -/
def bytesOfWord (v : UInt32) : Bytes :=
  ([24, 16, 8, 0] : List UInt32).map fun shift => (v >>> shift).toUInt8

/-- Source: `foundation.rs`, `sha256` (`out`). -/
def Words.bytes (h : Words) : Bytes :=
  [h.a, h.b, h.c, h.d, h.e, h.f, h.g, h.h].flatMap bytesOfWord

/-- Source: `foundation.rs`, `sha256`. -/
def sha256 (data : Bytes) : Bytes := ((blocks data).foldl compress initialWords).bytes

/-- Two lowercase hexadecimal digits. Source: `format!("{b:02x}")`. -/
def hexByte (b : UInt8) : List Char := [Nat.digitChar (b.toNat / 16), Nat.digitChar (b.toNat % 16)]

/-- Source: `foundation.rs`, `sha256_hex`. -/
def sha256Hex (data : Bytes) : String := String.ofList ((sha256 data).flatMap hexByte)

example : sha256Hex (utf8Bytes "abc".toList) =
    "ba7816bf8f01cfea414140de5dae2223b00361a396177a9cb410ff61f20015ad" := by
  decide +kernel

/-- Source: `u8::to_ascii_lowercase`. -/
def toAsciiLowercase (b : UInt8) : UInt8 := if 65 ≤ b ∧ b ≤ 90 then b ||| 32 else b

/-- Source: `foundation.rs`, `verify_integrity`. -/
def verifyIntegrity (expectedSha256 : String) (data : Bytes) : Bool :=
  let actual := utf8Bytes (sha256Hex data).toList
  let expected := utf8Bytes expectedSha256.toList
  if actual.length ≠ expected.length then false
  else
    (actual.zip expected).foldl (fun diff p => diff ||| (p.1 ^^^ toAsciiLowercase p.2)) 0 == 0

/-! ## What the padding keeps -/

theorem fillLoop_run (msg : Bytes) :
    fillLoop.run msg = msg ++ List.replicate ((120 - msg.length % 64) % 64) 0 := by
  refine fillLoop.run_induct (P := fun r => r = _)
    (I := fun m => ∃ k, m = msg ++ List.replicate k 0 ∧
      k + (120 - m.length % 64) % 64 = (120 - msg.length % 64) % 64) ?_ ?_ msg ⟨0, by simp⟩
  · rintro m m' ⟨k, rfl, hk⟩ h
    simp only [fillLoop] at h
    split_ifs at h with hlen
    cases h
    refine ⟨k + 1, by rw [List.replicate_succ', List.append_assoc], ?_⟩
    rw [List.length_append, List.length_singleton]
    omega
  · rintro m r ⟨k, rfl, hk⟩ h
    simp only [fillLoop] at h
    split_ifs at h with hlen
    cases h
    rw [not_not] at hlen
    rw [hlen] at hk
    rw [← hk]
    rfl

@[simp] theorem length_lengthField (size : ℕ) : (lengthField size).length = 8 := rfl

/-- What stands between a message and its length. -/
def fill (size : ℕ) : Bytes := 0x80 :: List.replicate ((120 - (size + 1) % 64) % 64) 0

theorem padded_eq (data : Bytes) :
    padded data = data ++ fill data.length ++ lengthField data.length := by
  simp [padded, fillLoop_run, fill]

theorem length_fill (size : ℕ) : (size + (fill size).length) % 64 = 56 := by
  simp only [fill, List.length_cons, List.length_replicate]
  omega

theorem length_padded (data : Bytes) :
    (padded data).length = data.length + (fill data.length).length + 8 := by
  rw [padded_eq, List.length_append, List.length_append, length_lengthField]

theorem dvd_length_padded (data : Bytes) : 64 ∣ (padded data).length := by
  have hfill := length_fill data.length
  rw [length_padded]
  omega

/-- Eight bytes say a length that is less than `2 ^ 61`. -/
theorem lengthField_injective {m n : ℕ} (hm : m < 2 ^ 61) (hn : n < 2 ^ 61)
    (h : lengthField m = lengthField n) : m = n := by
  have hbits : ∀ k : ℕ, k < 2 ^ 61 → (UInt64.ofNat k * 8).toNat = k * 8 := by
    intro k hk
    rw [UInt64.toNat_mul, UInt64.toNat_ofNat']
    simp only [UInt64.reduceToNat]
    omega
  have hmbits := hbits m hm
  have hnbits := hbits n hn
  simp only [lengthField, List.map_cons, List.map_nil, List.cons.injEq, and_true,
    ← UInt8.toNat_inj, UInt64.toNat_toUInt8, UInt64.toNat_shiftRight, hmbits, hnbits] at h
  simp [Nat.shiftRight_eq_div_pow] at h
  omega

/-- The last block ends in the length. -/
theorem blocks_eq (data : Bytes) :
    ∃ (front : List Bytes) (rest : Bytes), rest.length = 56 ∧
      blocks data = front ++ [rest ++ lengthField data.length] := by
  have hlen : (data ++ fill data.length).length % 64 = 56 := by
    rw [List.length_append, length_fill]
  generalize hbody : data ++ fill data.length = body at hlen
  obtain ⟨init, rest, rfl, hinit, hrest⟩ : ∃ init rest : Bytes, body = init ++ rest ∧
      64 ∣ init.length ∧ rest.length = 56 := by
    refine ⟨body.take (body.length - 56), body.drop (body.length - 56),
      by rw [List.take_append_drop], ?_, ?_⟩
    · rw [List.length_take]
      omega
    · rw [List.length_drop]
      omega
  have hlast : chunks 64 ((rest ++ lengthField data.length) ++ []) =
      (rest ++ lengthField data.length) :: chunks 64 [] :=
    chunks_append_of_length (by decide) (by rw [List.length_append, hrest, length_lengthField])
  rw [List.append_nil, chunks_nil] at hlast
  refine ⟨chunks 64 init, rest, hrest, ?_⟩
  rw [blocks, padded_eq, hbody, List.append_assoc, chunks_append (by decide) hinit, hlast]

theorem length_of_mem_blocks (data : Bytes) : ∀ block ∈ blocks data, block.length = 64 :=
  length_of_mem_chunks (by decide) (dvd_length_padded data)

/-- Payloads of one length have as many blocks. -/
theorem length_blocks_congr {a b : Bytes} (h : a.length = b.length) :
    (blocks a).length = (blocks b).length := by
  have ha := length_chunks (n := 64) (by decide) (dvd_length_padded a)
  have hb := length_chunks (n := 64) (by decide) (dvd_length_padded b)
  rw [length_padded] at ha hb
  rw [h] at ha
  exact Nat.eq_of_mul_eq_mul_left (by decide) (ha.trans hb.symm)

theorem blocks_ne_nil (data : Bytes) : blocks data ≠ [] := by
  obtain ⟨front, rest, -, hblocks⟩ := blocks_eq data
  simp [hblocks]

theorem exists_getLast_blocks (data : Bytes) :
    ∃ rest, rest.length = 56 ∧
      (blocks data).getLast (blocks_ne_nil data) = rest ++ lengthField data.length := by
  obtain ⟨front, rest, hrest, hblocks⟩ := blocks_eq data
  exact ⟨rest, hrest, by simp [hblocks]⟩

/-- Payloads whose last blocks are the same have the same length. -/
theorem length_eq_of_getLast {a b : Bytes} (ha : a.length < 2 ^ 61) (hb : b.length < 2 ^ 61)
    (h : (blocks a).getLast (blocks_ne_nil a) = (blocks b).getLast (blocks_ne_nil b)) :
    a.length = b.length := by
  obtain ⟨resta, hresta, hlasta⟩ := exists_getLast_blocks a
  obtain ⟨restb, hrestb, hlastb⟩ := exists_getLast_blocks b
  rw [hlasta, hlastb] at h
  exact lengthField_injective ha hb (List.append_inj h (hresta.trans hrestb.symm)).2

/-- The padding loses nothing. -/
theorem blocks_injective {a b : Bytes} (ha : a.length < 2 ^ 61) (hb : b.length < 2 ^ 61)
    (h : blocks a = blocks b) : a = b := by
  have hlen : a.length = b.length := length_eq_of_getLast ha hb (by simp only [h])
  have hpadded : padded a = padded b := by
    rw [← flatten_chunks (n := 64) (by decide) (padded a),
      ← flatten_chunks (n := 64) (by decide) (padded b)]
    exact congrArg List.flatten h
  rw [padded_eq, padded_eq, List.append_assoc, List.append_assoc] at hpadded
  exact (List.append_inj hpadded hlen).1

/-! ## What the digest keeps -/

theorem bytesOfWord_injective {v w : UInt32} (h : bytesOfWord v = bytesOfWord w) : v = w := by
  have hv := v.toNat_lt
  have hw := w.toNat_lt
  simp only [bytesOfWord, List.map_cons, List.map_nil, List.cons.injEq, and_true,
    ← UInt8.toNat_inj, UInt32.toNat_toUInt8, UInt32.toNat_shiftRight] at h
  simp [Nat.shiftRight_eq_div_pow] at h
  rw [← UInt32.toNat_inj]
  omega

/-- Lists are told apart by their images, when each element has an image of one length. -/
theorem flatMap_injective {α β : Type*} {f : α → List β} {n : ℕ} (hn : 0 < n)
    (hlen : ∀ x, (f x).length = n) (hf : Function.Injective f) {xs ys : List α}
    (h : xs.flatMap f = ys.flatMap f) : xs = ys := by
  have hpos : ∀ x, f x ≠ [] := fun x hx => by
    have := hlen x
    rw [hx, List.length_nil] at this
    omega
  induction xs generalizing ys with
  | nil =>
      cases ys with
      | nil => rfl
      | cons y ys =>
          have := (List.append_eq_nil_iff.mp h.symm).1
          exact absurd this (hpos y)
  | cons x xs ih =>
      cases ys with
      | nil => exact absurd (List.append_eq_nil_iff.mp h).1 (hpos x)
      | cons y ys =>
          obtain ⟨hx, hxs⟩ := List.append_inj h ((hlen x).trans (hlen y).symm)
          rw [hf hx, ih hxs]

theorem Words.bytes_injective {v w : Words} (h : v.bytes = w.bytes) : v = w := by
  have hwords := flatMap_injective (n := 4) (by decide) (fun _ => rfl)
    (fun _ _ => bytesOfWord_injective) h
  simp only [List.cons.injEq, and_true] at hwords
  obtain ⟨ha, hb, hc, hd, he, hf, hg, hh⟩ := hwords
  exact Words.ext ha hb hc hd he hf hg hh

theorem hexByte_injective {b c : UInt8} (h : hexByte b = hexByte c) : b = c := by
  have hdigit : ∀ i j : Fin 16, Nat.digitChar i.val = Nat.digitChar j.val → i = j := by decide
  have hb : b.toNat < 256 := b.toNat_lt
  have hc : c.toNat < 256 := c.toNat_lt
  simp only [hexByte, List.cons.injEq, and_true] at h
  have hhigh := hdigit ⟨b.toNat / 16, by omega⟩ ⟨c.toNat / 16, by omega⟩ h.1
  have hlow := hdigit ⟨b.toNat % 16, by omega⟩ ⟨c.toNat % 16, by omega⟩ h.2
  simp only [Fin.mk.injEq] at hhigh hlow
  rw [← UInt8.toNat_inj]
  omega

theorem sha256Hex_inj {a b : Bytes} : sha256Hex a = sha256Hex b ↔ sha256 a = sha256 b := by
  refine ⟨fun h => ?_, fun h => by rw [sha256Hex, sha256Hex, h]⟩
  exact flatMap_injective (n := 2) (by decide) (fun _ => rfl) (fun _ _ => hexByte_injective)
    (String.ofList_injective h)

/-! ## The check -/

theorem utf8Bytes_injective {s t : List Char} (h : utf8Bytes s = utf8Bytes t) : s = t := by
  have hread := fromUtf8Lossy_utf8Bytes s
  rw [h, fromUtf8Lossy_utf8Bytes] at hread
  exact (String.ofList_injective hread).symm

/-- Folding bytes in lower case is folding characters. -/
theorem utf8EncodeChar_toLower (c : Char) :
    (String.utf8EncodeChar c).map toAsciiLowercase = String.utf8EncodeChar c.toLower := by
  by_cases hc : c.toNat < 128
  · have hall : ∀ n : Fin 128, (String.utf8EncodeChar (Char.ofNat n.val)).map toAsciiLowercase =
        String.utf8EncodeChar (Char.ofNat n.val).toLower := by decide +kernel
    have hn := hall ⟨c.toNat, hc⟩
    rwa [Char.ofNat_toNat] at hn
  · have hlower : c.toLower = c := by
      refine dif_neg fun h => hc ?_
      have hle : c.toNat ≤ 90 := h.2
      omega
    have hhigh : ∀ n : ℕ, 128 ≤ n → n < 256 →
        toAsciiLowercase (UInt8.ofNat n) = UInt8.ofNat n := by
      intro n hn hlt
      refine if_neg fun h => ?_
      have hle := UInt8.le_iff_toNat_le.mp h.2
      rw [toNat_ofNat_of_lt hlt] at hle
      exact absurd hle (by simp; omega)
    rw [hlower]
    unfold String.utf8EncodeChar
    dsimp only
    change ¬ c.val.toNat < 128 at hc
    generalize c.val.toNat = v at hc
    split_ifs with h1 h2 h3
    · omega
    · simp only [List.map_cons, List.map_nil, hhigh (v / 64 % 32 + 192) (by omega) (by omega),
        hhigh (v % 64 + 128) (by omega) (by omega)]
    · simp only [List.map_cons, List.map_nil, hhigh (v / 4096 % 16 + 224) (by omega) (by omega),
        hhigh (v / 64 % 64 + 128) (by omega) (by omega), hhigh (v % 64 + 128) (by omega) (by omega)]
    · simp only [List.map_cons, List.map_nil, hhigh (v / 262144 % 8 + 240) (by omega) (by omega),
        hhigh (v / 4096 % 64 + 128) (by omega) (by omega),
        hhigh (v / 64 % 64 + 128) (by omega) (by omega), hhigh (v % 64 + 128) (by omega) (by omega)]

theorem utf8Bytes_toLower (s : List Char) :
    (utf8Bytes s).map toAsciiLowercase = utf8Bytes (s.map Char.toLower) := by
  simp only [utf8Bytes, List.map_flatMap, List.flatMap_map, utf8EncodeChar_toLower]

/-- The differences of two lists of bytes, gathered in one byte. -/
theorem foldl_differences_eq_zero {xs ys : Bytes} (hlen : xs.length = ys.length) (diff : UInt8) :
    (xs.zip ys).foldl (fun diff p => diff ||| (p.1 ^^^ toAsciiLowercase p.2)) diff = 0 ↔
      diff = 0 ∧ xs = ys.map toAsciiLowercase := by
  induction xs generalizing ys diff with
  | nil =>
      obtain rfl := List.length_eq_zero_iff.mp hlen.symm
      simp
  | cons x xs ih =>
      cases ys with
      | nil => simp at hlen
      | cons y ys =>
          rw [List.zip_cons_cons, List.foldl_cons, ih (by simpa using hlen), List.map_cons,
            List.cons.injEq, UInt8.or_eq_zero_iff, UInt8.xor_eq_zero_iff, and_assoc]

/-- **The check is exact**: a payload passes when, and only when, the expected digest is its digest,
in letters of either case. -/
theorem verifyIntegrity_iff (expected : String) (data : Bytes) :
    verifyIntegrity expected data = true ↔
      expected.toList.map Char.toLower = (sha256Hex data).toList := by
  have hmap := utf8Bytes_toLower expected.toList
  unfold verifyIntegrity
  dsimp only
  split_ifs with hlen
  · refine iff_of_false id fun h => hlen ?_
    rw [← h, ← hmap, List.length_map]
  · rw [beq_iff_eq, foldl_differences_eq_zero (not_not.mp hlen), hmap]
    constructor
    · rintro ⟨-, h⟩
      exact (utf8Bytes_injective h).symm
    · intro h
      exact ⟨rfl, by rw [h]⟩

theorem toLower_hexByte (b : UInt8) : (hexByte b).map Char.toLower = hexByte b := by
  have hdigit : ∀ i : Fin 16, (Nat.digitChar i.val).toLower = Nat.digitChar i.val := by decide
  have hb : b.toNat < 256 := b.toNat_lt
  have hhigh := hdigit ⟨b.toNat / 16, by omega⟩
  have hlow := hdigit ⟨b.toNat % 16, by omega⟩
  simp only at hhigh hlow
  simp only [hexByte, List.map_cons, List.map_nil, hhigh, hlow]

/-- A payload passes against its own digest. -/
theorem verifyIntegrity_self (data : Bytes) : verifyIntegrity (sha256Hex data) data = true := by
  rw [verifyIntegrity_iff, sha256Hex, String.toList_ofList, List.map_flatMap]
  simp only [toLower_hexByte]

/-- **What the check binds.** Two payloads that pass against one digest, and that are short enough
for the length field, are one payload; or else their digests meet: at some block of the one and some
block of the other, from different states or with different bytes, the compression comes to one
state, and all blocks that follow are the same. -/
theorem digest_binds (expected : String) {a b : Bytes} (ha : verifyIntegrity expected a = true)
    (hb : verifyIntegrity expected b = true) (hsizea : a.length < 2 ^ 61)
    (hsizeb : b.length < 2 ^ 61) :
    a = b ∨ Meets compress initialWords (blocks a) (blocks b) ∧
      ∀ block ∈ blocks a ++ blocks b, block.length = 64 := by
  have hhex : sha256Hex a = sha256Hex b := by
    rw [verifyIntegrity_iff] at ha hb
    exact String.toList_injective (ha.symm.trans hb)
  have hstate := Words.bytes_injective (sha256Hex_inj.mp hhex)
  rcases eq_or_ne a b with heq | hne
  · exact .inl heq
  · refine .inr ⟨meets_of_foldl_eq (blocks_ne_nil a) (blocks_ne_nil b) ?_ ?_ hstate, ?_⟩
    · intro hlen hlast
      -- equal last blocks say equal lengths, so as many blocks
      exact hlen (length_blocks_congr (length_eq_of_getLast hsizea hsizeb hlast))
    · exact fun h => hne (blocks_injective hsizea hsizeb h)
    · intro block hblock
      rcases List.mem_append.mp hblock with hblock | hblock
      · exact length_of_mem_blocks a block hblock
      · exact length_of_mem_blocks b block hblock

theorem digest_binds_abc :
    utf8Bytes "abc".toList = utf8Bytes "abc".toList ∨
      Meets compress initialWords (blocks (utf8Bytes "abc".toList))
          (blocks (utf8Bytes "abc".toList)) ∧
        ∀ block ∈ blocks (utf8Bytes "abc".toList) ++ blocks (utf8Bytes "abc".toList),
          block.length = 64 :=
  digest_binds "BA7816BF8F01CFEA414140DE5DAE2223B00361A396177A9CB410FF61F20015AD"
    (by decide +kernel) (by decide +kernel) (by decide +kernel) (by decide +kernel)

/-! ## The text of a file -/

/-- Source: `lib.rs`, `b64encode` (`T`). -/
def base64Digits : List Char :=
  "ABCDEFGHIJKLMNOPQRSTUVWXYZabcdefghijklmnopqrstuvwxyz0123456789+/".toList

/-- The digit of the last six bits. Source: `lib.rs`, `b64encode` (`T[… & 63]`). -/
def base64Digit (n : ℕ) : Char := base64Digits.getD (n % 64) '='

/-- Up to three bytes in four characters. Source: `lib.rs`, the loop of `b64encode`. -/
def encodeChunk (chunk : Bytes) : List Char :=
  let b : ℕ → ℕ := fun i => (chunk.getD i 0).toNat
  let n := b 0 * 2 ^ 16 + b 1 * 2 ^ 8 + b 2
  [base64Digit (n / 2 ^ 18), base64Digit (n / 2 ^ 12),
    if 1 < chunk.length then base64Digit (n / 2 ^ 6) else '=',
    if 2 < chunk.length then base64Digit n else '=']

/-- Source: `lib.rs`, `b64encode`. -/
def b64encode (data : Bytes) : String := String.ofList ((chunks 3 data).flatMap encodeChunk)

/-- Source: `lib.rs`, `b64decode` (`val`). -/
def base64Value (c : UInt8) : Except String ℕ :=
  let n := c.toNat
  if 'A'.toNat ≤ n ∧ n ≤ 'Z'.toNat then .ok (n - 'A'.toNat)
  else if 'a'.toNat ≤ n ∧ n ≤ 'z'.toNat then .ok (n - 'a'.toNat + 26)
  else if '0'.toNat ≤ n ∧ n ≤ '9'.toNat then .ok (n - '0'.toNat + 52)
  else if n = '+'.toNat then .ok 62
  else if n = '/'.toNat then .ok 63
  else .error "invalid base64"

/-- The bytes that are read: no padding and no `u8::is_ascii_whitespace`. Source: `lib.rs`,
`b64decode` (`filter`). -/
def isBase64Byte (b : UInt8) : Bool := !([9, 10, 12, 13, 32].contains b) && b != 61

/-- Source: `lib.rs`, the loop of `b64decode`. -/
def decodeChunk (chunk : Bytes) : Except String Bytes := do
  let vals ← chunk.mapM base64Value
  let n := (vals.zipIdx.map fun v => v.1 * 2 ^ (18 - 6 * v.2)).sum
  return UInt8.ofNat (n / 2 ^ 16) ::
    ((if 2 < chunk.length then [UInt8.ofNat (n / 2 ^ 8)] else []) ++
      if 3 < chunk.length then [UInt8.ofNat n] else [])

/-- Source: `lib.rs`, `b64decode`. -/
def b64decode (s : String) : Except String Bytes :=
  ((chunks 4 ((utf8Bytes s.toList).filter isBase64Byte)).mapM decodeChunk).map List.flatten

/-- The byte of a digit. -/
def digitByte (n : ℕ) : UInt8 := UInt8.ofNat (base64Digit n).toNat

theorem base64Digit_spec (n : ℕ) : String.utf8EncodeChar (base64Digit n) = [digitByte n] ∧
    isBase64Byte (digitByte n) = true ∧ base64Value (digitByte n) = .ok (n % 64) := by
  have hall : ∀ k : Fin 64, (base64Digit k.val).toNat < 128 ∧
      isBase64Byte (digitByte k.val) = true ∧ base64Value (digitByte k.val) = .ok k.val := by
    decide +kernel
  have hmod : base64Digit n = base64Digit (n % 64) := by simp [base64Digit]
  obtain ⟨hascii, hkept, hvalue⟩ := hall ⟨n % 64, Nat.mod_lt n (by decide)⟩
  simp only [digitByte, ← hmod] at hascii hkept hvalue
  exact ⟨utf8EncodeChar_of_ascii hascii, hkept, hvalue⟩

/-- The bytes that are read of a text. -/
def base64Bytes (s : List Char) : Bytes := (utf8Bytes s).filter isBase64Byte

theorem base64Bytes_append (s t : List Char) :
    base64Bytes (s ++ t) = base64Bytes s ++ base64Bytes t := by
  simp [base64Bytes, utf8Bytes]

@[simp] theorem base64Bytes_digit (n : ℕ) (s : List Char) :
    base64Bytes (base64Digit n :: s) = digitByte n :: base64Bytes s := by
  obtain ⟨hbyte, hkept, -⟩ := base64Digit_spec n
  simp [base64Bytes, utf8Bytes, hbyte, hkept]

@[simp] theorem base64Bytes_padding (s : List Char) :
    base64Bytes ('=' :: s) = base64Bytes s := by
  have hbyte : String.utf8EncodeChar '=' = [61] := utf8EncodeChar_of_ascii (by decide)
  have hout : isBase64Byte 61 = false := by decide
  simp [base64Bytes, utf8Bytes, hbyte, hout]

@[simp] theorem base64Bytes_nil : base64Bytes [] = [] := rfl

@[simp] theorem base64Value_digitByte (n : ℕ) : base64Value (digitByte n) = .ok (n % 64) :=
  (base64Digit_spec n).2.2

theorem ofNat_eq_of_mod {n : ℕ} {a : UInt8} (h : n % 2 ^ 8 = a.toNat) : UInt8.ofNat n = a := by
  rw [← UInt8.toNat_inj, UInt8.toNat_ofNat']
  exact h

/-- The number that some digits stand for, the first one in front. -/
def digitsNumber (digits : List ℕ) : ℕ :=
  ((digits.map (· % 64)).zipIdx.map fun v => v.1 * 2 ^ (18 - 6 * v.2)).sum

theorem decodeChunk_digits (digits : List ℕ) :
    decodeChunk (digits.map digitByte) = .ok (UInt8.ofNat (digitsNumber digits / 2 ^ 16) ::
      ((if 2 < digits.length then [UInt8.ofNat (digitsNumber digits / 2 ^ 8)] else []) ++
        if 3 < digits.length then [UInt8.ofNat (digitsNumber digits)] else [])) := by
  have hvals : (digits.map digitByte).mapM base64Value = .ok (digits.map (· % 64)) := by
    induction digits with
    | nil => rfl
    | cons n digits ih =>
        rw [List.map_cons, List.mapM_cons, base64Value_digitByte, ih]
        rfl
  rw [decodeChunk, hvals, List.length_map]
  rfl

/-- What was encoded comes back, piece by piece; a full piece has four digits. -/
theorem decodeChunk_encodeChunk {chunk : Bytes} (hpos : chunk ≠ []) (hlen : chunk.length ≤ 3) :
    (base64Bytes (encodeChunk chunk)).length = chunk.length + 1 ∧
      decodeChunk (base64Bytes (encodeChunk chunk)) = .ok chunk := by
  match chunk, hpos, hlen with
  | [a], _, _ =>
      have ha := a.toNat_lt
      obtain ⟨n, hn⟩ : ∃ n, n = a.toNat * 2 ^ 16 := ⟨_, rfl⟩
      have hbytes : base64Bytes (encodeChunk [a]) = [n / 2 ^ 18, n / 2 ^ 12].map digitByte := by
        simp [encodeChunk, hn]
      have hnumber : digitsNumber [n / 2 ^ 18, n / 2 ^ 12] = n := by
        simp only [digitsNumber, List.map_cons, List.map_nil, List.zipIdx_cons, List.zipIdx_nil,
          List.sum_cons, List.sum_nil, Nat.reduceAdd, Nat.reduceMul, Nat.reduceSub, Nat.reducePow]
        omega
      refine ⟨by rw [hbytes]; rfl, ?_⟩
      rw [hbytes, decodeChunk_digits, hnumber, ofNat_eq_of_mod (a := a) (by omega)]
      rfl
  | [a, b], _, _ =>
      have ha := a.toNat_lt
      have hb := b.toNat_lt
      obtain ⟨n, hn⟩ : ∃ n, n = a.toNat * 2 ^ 16 + b.toNat * 2 ^ 8 := ⟨_, rfl⟩
      have hbytes : base64Bytes (encodeChunk [a, b]) =
          [n / 2 ^ 18, n / 2 ^ 12, n / 2 ^ 6].map digitByte := by
        simp [encodeChunk, hn]
      have hnumber : digitsNumber [n / 2 ^ 18, n / 2 ^ 12, n / 2 ^ 6] = n := by
        simp only [digitsNumber, List.map_cons, List.map_nil, List.zipIdx_cons, List.zipIdx_nil,
          List.sum_cons, List.sum_nil, Nat.reduceAdd, Nat.reduceMul, Nat.reduceSub, Nat.reducePow]
        omega
      refine ⟨by rw [hbytes]; rfl, ?_⟩
      rw [hbytes, decodeChunk_digits, hnumber, ofNat_eq_of_mod (a := a) (by omega),
        ofNat_eq_of_mod (a := b) (by omega)]
      rfl
  | [a, b, c], _, _ =>
      have ha := a.toNat_lt
      have hb := b.toNat_lt
      have hc := c.toNat_lt
      obtain ⟨n, hn⟩ : ∃ n, n = a.toNat * 2 ^ 16 + b.toNat * 2 ^ 8 + c.toNat := ⟨_, rfl⟩
      have hbytes : base64Bytes (encodeChunk [a, b, c]) =
          [n / 2 ^ 18, n / 2 ^ 12, n / 2 ^ 6, n].map digitByte := by
        simp [encodeChunk, hn]
      have hnumber : digitsNumber [n / 2 ^ 18, n / 2 ^ 12, n / 2 ^ 6, n] = n := by
        simp only [digitsNumber, List.map_cons, List.map_nil, List.zipIdx_cons, List.zipIdx_nil,
          List.sum_cons, List.sum_nil, Nat.reduceAdd, Nat.reduceMul, Nat.reduceSub, Nat.reducePow]
        omega
      refine ⟨by rw [hbytes]; rfl, ?_⟩
      rw [hbytes, decodeChunk_digits, hnumber, ofNat_eq_of_mod (a := a) (by omega),
        ofNat_eq_of_mod (a := b) (by omega), ofNat_eq_of_mod (a := c) (by omega)]
      rfl

/-- **The text of a file is read as the file.** -/
theorem b64decode_b64encode (data : Bytes) : b64decode (b64encode data) = .ok data := by
  have hpieces : (chunks 4 (base64Bytes ((chunks 3 data).flatMap encodeChunk))).mapM decodeChunk =
      .ok (chunks 3 data) := by
    induction data using chunks_induct (show 0 < 3 by decide) with
    | short data hlen =>
        by_cases hdata : data = []
        · subst hdata
          rfl
        · obtain ⟨hsize, hdecode⟩ := decodeChunk_encodeChunk hdata (by omega)
          rw [chunks_of_short hdata hlen, List.flatMap_singleton,
            chunks_of_short (List.ne_nil_of_length_pos (by omega)) (by omega), List.mapM_cons,
            hdecode]
          rfl
    | full chunk data hlen ih =>
        have hchunk : chunk ≠ [] := List.ne_nil_of_length_pos (by omega)
        obtain ⟨hsize, hdecode⟩ := decodeChunk_encodeChunk hchunk hlen.le
        rw [chunks_append_of_length (by decide) hlen, List.flatMap_cons, base64Bytes_append,
          chunks_append_of_length (by decide) (by omega), List.mapM_cons, hdecode, ih]
        rfl
  unfold b64decode b64encode
  rw [String.toList_ofList]
  change Except.map List.flatten (List.mapM decodeChunk (chunks 4 (base64Bytes _))) = _
  rw [hpieces]
  exact congrArg Except.ok (flatten_chunks (by decide) data)

/-! ## The envelope -/

/-- Source: `lib.rs`, `CONTRACT_VERSION`. -/
def CONTRACT_VERSION : String := "0.1"

/-- Source: `lib.rs`, `MAX_PACKAGE_BYTES`. -/
def MAX_PACKAGE_BYTES : ℕ := 32 * 1024 * 1024

/-- What the reader of a package uses of `serde_json` and of the manifests. -/
structure EnvelopeReader (μ : Type) where
  /-- `serde_json::from_slice`. -/
  fromSlice : Bytes → Option Json
  /-- `PluginManifest::parse` of the text of a value, and `validate`; their errors. -/
  manifest : Json → Except String μ
  /-- `PluginManifest::id`. -/
  id : μ → String
  /-- `PluginManifest::effective_executable`. -/
  effectiveExecutable : μ → String

/-- Source: `lib.rs`, `validate_plugin_id`. -/
def validatePluginId (id : String) : Except String Unit :=
  if !id.isEmpty && id.utf8ByteSize ≤ 128 &&
      id.toList.all fun c => c.isAlphanum || c == '.' || c == '-' || c == '_' then .ok ()
  else .error ("invalid plugin id `" ++ id ++ "` (allowed: alnum, '.', '-', '_', <=128 chars)")

/-- A file as a field of the envelope. Source: `lib.rs`, `cmd_package` (`files_json`). -/
def fileField (file : String × Bytes) : String × Json := (file.1, .string (b64encode file.2))

/-- The files in the order of their names. Source: `lib.rs`, `cmd_package` (`collect`). -/
def packedFields (files : List (String × Bytes)) : List (String × Json) :=
  (files.map fileField).foldl (fun fields field => insertField field.1 field.2 fields) []

/-- The envelope of a manifest and the files of a directory. Source: `lib.rs`, `cmd_package`. -/
def packEnvelope (manifest : Json) (files : List (String × Bytes)) : Except String Json :=
  let total := (files.map fun f => f.2.length).sum
  if files.isEmpty then .error "package would be empty"
  else if MAX_PACKAGE_BYTES < total then
    .error ("package too large: " ++ toString total ++ " bytes > " ++ toString MAX_PACKAGE_BYTES)
  else
    .ok (.object [("contract_version", .string CONTRACT_VERSION),
      ("files", .object (packedFields files)), ("manifest", manifest)])

/-- A name that the reader takes for one inside the package. Source: `lib.rs`, `parse_envelope`
(the traversal guard). -/
def isInsideName (name : List Char) : Bool :=
  !(name.head? == some '/' || name.contains '\\' ||
    (splitOn (· == '/') name).any fun seg => seg == ['.', '.'] || seg == ['.'] || seg.isEmpty)

/-- One file of a package. Source: `lib.rs`, the loop of `parse_envelope`. -/
def readFile (entry : String) (field : String × Json) : Except String (String × Bytes) :=
  if !isInsideName field.1.toList then
    .error ("packaged file name escapes package: " ++ field.1)
  else
    match field.2.asStr with
    | none => .error ("file " ++ field.1 ++ " is not a string")
    | some b64 => do
        let data ← b64decode b64
        if field.1 = entry ∧ data = [] then .error ("entrypoint " ++ field.1 ++ " is empty")
        else .ok (field.1, data)

/-- Source: `lib.rs`, `parse_envelope`. -/
def parseEnvelope {μ : Type} (E : EnvelopeReader μ) (raw : Bytes) :
    Except String (μ × List (String × Bytes)) :=
  if MAX_PACKAGE_BYTES < raw.length then .error "package too large"
  else
    match E.fromSlice raw with
    | none => .error "package is not a valid envelope"
    | some env =>
        let contract := ((env.get "contract_version").bind Json.asStr).getD ""
        if contract ≠ CONTRACT_VERSION then
          .error ("unsupported contract version `" ++ contract ++ "` (want " ++
            CONTRACT_VERSION ++ ")")
        else do
          let manifest ← (E.manifest ((env.get "manifest").getD .null)).mapError
            ("manifest: " ++ ·)
          validatePluginId (E.id manifest)
          let entry := E.effectiveExecutable manifest
          match (env.get "files").bind Json.asObject with
          | none => .error "files missing"
          | some fields => do
              let out ← fields.mapM (readFile entry)
              if out.any fun f => f.1 == entry then .ok (manifest, out)
              else .error ("entrypoint " ++ entry ++ " missing from package")

/-- What a loop over fallible steps gives comes from the steps. -/
theorem exists_of_mem_mapM {α β : Type} {g : α → Except String β} {xs : List α} {ys : List β}
    (h : xs.mapM g = .ok ys) : ∀ y ∈ ys, ∃ x ∈ xs, g x = .ok y := by
  induction xs generalizing ys with
  | nil =>
      obtain rfl : ys = [] := by simpa [pure, Except.pure, eq_comm] using h
      exact fun y hy => absurd hy List.not_mem_nil
  | cons x xs ih =>
      rw [List.mapM_cons, bind_eq_ok] at h
      obtain ⟨y, hy, h⟩ := h
      obtain ⟨rest, hrest, h⟩ := bind_eq_ok.mp h
      obtain rfl : y :: rest = ys := by simpa [pure, Except.pure] using h
      intro z hz
      rcases List.mem_cons.mp hz with rfl | hz
      · exact ⟨x, List.mem_cons_self, hy⟩
      · obtain ⟨x', hx', hg⟩ := ih hrest z hz
        exact ⟨x', List.mem_cons_of_mem x hx', hg⟩

theorem mapM_of_forall {α β : Type} {g : α → Except String β} {k : α → β} {xs : List α}
    (h : ∀ x ∈ xs, g x = .ok (k x)) : xs.mapM g = .ok (xs.map k) := by
  induction xs with
  | nil => rfl
  | cons x xs ih =>
      rw [List.mapM_cons, h x List.mem_cons_self, ih fun y hy => h y (List.mem_cons_of_mem x hy)]
      rfl

/-- What a file that was read has gone through. -/
theorem readFile_eq_ok {entry : String} {field : String × Json} {file : String × Bytes}
    (h : readFile entry field = .ok file) :
    file.1 = field.1 ∧ isInsideName file.1.toList = true ∧ (file.1 = entry → file.2 ≠ []) := by
  unfold readFile at h
  split_ifs at h with hname
  cases hbody : field.2.asStr with
  | none => simp [hbody] at h
  | some b64 =>
      rw [hbody] at h
      obtain ⟨data, -, h⟩ := bind_eq_ok.mp h
      split_ifs at h with hempty
      obtain rfl := Except.ok.inj h
      exact ⟨rfl, by simpa using hname, fun hentry hdata => hempty ⟨hentry, hdata⟩⟩

/-- A package that is accepted has a file for its entry point that is not empty, and names that
the guard takes for inside. -/
theorem parseEnvelope_eq_ok {μ : Type} {E : EnvelopeReader μ} {raw : Bytes} {manifest : μ}
    {files : List (String × Bytes)} (h : parseEnvelope E raw = .ok (manifest, files)) :
    validatePluginId (E.id manifest) = .ok () ∧
      (∀ f ∈ files, isInsideName f.1.toList = true) ∧
      ∃ f ∈ files, f.1 = E.effectiveExecutable manifest ∧ f.2 ≠ [] := by
  unfold parseEnvelope at h
  split_ifs at h
  cases henv : E.fromSlice raw with
  | none => simp [henv] at h
  | some env =>
      rw [henv] at h
      dsimp only at h
      split_ifs at h
      obtain ⟨m, -, h⟩ := bind_eq_ok.mp h
      obtain ⟨⟨⟩, hid, h⟩ := bind_eq_ok.mp h
      cases hfields : (env.get "files").bind Json.asObject with
      | none => simp [hfields] at h
      | some fields =>
          rw [hfields] at h
          obtain ⟨out, hout, h⟩ := bind_eq_ok.mp h
          split_ifs at h with hentry
          obtain ⟨rfl, rfl⟩ := Prod.mk.inj (Except.ok.inj h)
          have hread := exists_of_mem_mapM hout
          refine ⟨hid, fun f hf => ?_, ?_⟩
          · obtain ⟨field, -, hfield⟩ := hread f hf
            exact (readFile_eq_ok hfield).2.1
          · obtain ⟨f, hf, hname⟩ := List.any_eq_true.mp hentry
            obtain ⟨field, -, hfield⟩ := hread f hf
            have hname : f.1 = E.effectiveExecutable m := by simpa using hname
            exact ⟨f, hf, hname, (readFile_eq_ok hfield).2.2 hname⟩

theorem packEnvelope_eq_ok {manifest env : Json} {files : List (String × Bytes)}
    (h : packEnvelope manifest files = .ok env) :
    env = .object [("contract_version", .string CONTRACT_VERSION),
      ("files", .object (packedFields files)), ("manifest", manifest)] := by
  unfold packEnvelope at h
  dsimp only at h
  split_ifs at h
  exact (Except.ok.inj h).symm

theorem packedFields_perm {files : List (String × Bytes)} (hnodup : (files.map Prod.fst).Nodup) :
    (packedFields files).Perm (files.map fileField) := by
  have hkeys : ((files.map fileField ++ []).map Prod.fst).Nodup := by
    rw [List.append_nil, List.map_map]
    exact hnodup
  have hfold := Agent.foldl_insertField_perm hkeys
  rwa [List.append_nil] at hfold

/-- The files of the fields that files were put into, in the order of the fields. -/
theorem readFile_fileField {entry : String} {files : List (String × Bytes)}
    (hnodup : (files.map Prod.fst).Nodup) (hnames : ∀ f ∈ files, isInsideName f.1.toList = true)
    (hentry : ∀ f ∈ files, f.1 = entry → f.2 ≠ []) :
    ∃ out, (packedFields files).mapM (readFile entry) = .ok out ∧ out.Perm files := by
  -- the file of a field
  let fileOf : String × Json → String × Bytes := fun field =>
    (field.1, ((field.2.asStr.map b64decode).getD (.ok [])).toOption.getD [])
  have hinverse : ∀ f, fileOf (fileField f) = f := by
    intro f
    simp only [fileOf, fileField, Json.asStr, Option.map_some, Option.getD_some,
      b64decode_b64encode]
    rfl
  have hperm := packedFields_perm hnodup
  refine ⟨_, mapM_of_forall (k := fileOf) fun field hfield => ?_, ?_⟩
  · obtain ⟨f, hf, rfl⟩ := List.mem_map.mp (hperm.mem_iff.mp hfield)
    have hinside : (!isInsideName (fileField f).1.toList) = false := by
      rw [Bool.not_eq_false']
      exact hnames f hf
    rw [hinverse, readFile, hinside, if_neg Bool.false_ne_true]
    simp only [fileField, Json.asStr, b64decode_b64encode]
    exact if_neg fun h => hentry f hf h.1 h.2
  · have hmap := hperm.map fileOf
    rw [List.map_map] at hmap
    have hid : fileOf ∘ fileField = id := funext hinverse
    rwa [hid, List.map_id] at hmap

/-- A package of one file that is the entry point. -/
def demoFiles : List (String × Bytes) := [("main.py", [104, 105]), ("docs/a.txt", [])]

/-- A reader of manifests that reads every package as that one. -/
def demoReader : EnvelopeReader String where
  fromSlice _ := (packEnvelope .null demoFiles).toOption
  manifest _ := .ok "demo"
  id m := m
  effectiveExecutable _ := "main.py"

theorem length_b64encode (data : Bytes) : 4 * data.length ≤ 3 * (b64encode data).length := by
  have hlen : 4 * data.length ≤ 3 * ((chunks 3 data).flatMap encodeChunk).length := by
    induction data using chunks_induct (show 0 < 3 by decide) with
    | short data hlen =>
        by_cases hdata : data = []
        · simp [hdata]
        · rw [chunks_of_short hdata hlen, List.flatMap_singleton]
          have hfour : (encodeChunk data).length = 4 := rfl
          omega
    | full chunk data hlen ih =>
        rw [chunks_append_of_length (by decide) hlen, List.flatMap_cons, List.length_append,
          List.length_append]
        have hfour : (encodeChunk chunk).length = 4 := rfl
        omega
  simpa [b64encode] using hlen

theorem length_utf8Bytes (s : List Char) :
    (utf8Bytes s).length = (String.ofList s).utf8ByteSize := by
  induction s with
  | nil => rfl
  | cons c s ih =>
      have hcons : utf8Bytes (c :: s) = String.utf8EncodeChar c ++ utf8Bytes s := rfl
      rw [hcons, List.length_append, String.length_utf8EncodeChar, ih, Agent.size_ofList_cons]

theorem length_le_utf8ByteSize (s : List Char) : s.length ≤ (String.ofList s).utf8ByteSize := by
  induction s with
  | nil => exact Nat.zero_le _
  | cons c s ih =>
      have hpos := c.utf8Size_pos
      rw [Agent.size_ofList_cons, List.length_cons]
      omega

/-- A JSON string is longer than what it says. -/
theorem length_le_size_quote (s : String) :
    s.length ≤ (quote s).utf8ByteSize := by
  have hescaped : ∀ l : List Char,
      l.length ≤ (l.flatMap escapeChar).length := by
    intro l
    induction l with
    | nil => exact Nat.zero_le _
    | cons c l ih =>
        have hone : 0 < (escapeChar c).length := by
          unfold escapeChar
          split_ifs <;> exact Nat.succ_pos _
        rw [List.flatMap_cons, List.length_append, List.length_cons]
        omega
  have hlen := (hescaped s.toList).trans (length_le_utf8ByteSize _)
  unfold quote
  rw [String.utf8ByteSize_append, String.utf8ByteSize_append]
  rw [String.length_toList] at hlen
  omega

/-- **A package that is too large to be read can be packed**: the limit of the reader is on the
envelope, where a file is a third longer than the bytes that the packer counts. -/
theorem parseEnvelope_large {μ : Type} (E : EnvelopeReader μ) (sj : SerdeJson)
    {manifestJson env : Json} {files : List (String × Bytes)}
    (hpack : packEnvelope manifestJson files = .ok env)
    (hlarge : 3 * MAX_PACKAGE_BYTES < 4 * (files.map fun f => f.2.length).sum)
    (hnodup : (files.map Prod.fst).Nodup) :
    parseEnvelope E (utf8Bytes (env.text sj).toList) = .error "package too large" := by
  have hbodies : ∀ fs : List (String × Bytes), 4 * (fs.map fun f => f.2.length).sum ≤
      3 * ((fs.map fileField).map (Agent.fieldSize sj)).sum := by
    intro fs
    induction fs with
    | nil => exact Nat.le_refl 0
    | cons f fs ih =>
        have hquote := length_le_size_quote (b64encode f.2)
        have hencode := length_b64encode f.2
        simp only [List.map_cons, List.sum_cons, Agent.fieldSize, fileField, Json.text] at ih ⊢
        omega
  have hfiles := hbodies files
  rw [← ((packedFields_perm hnodup).map (Agent.fieldSize sj)).sum_nat] at hfiles
  have hobject : ∀ fields, (Json.fieldsText sj fields).utf8ByteSize ≤
      ((Json.object fields).text sj).utf8ByteSize := by
    intro fields
    rw [Json.text, String.utf8ByteSize_append, String.utf8ByteSize_append]
    omega
  have hinner := hobject (packedFields files)
  rw [Agent.size_fieldsText] at hinner
  have hraw : ((Json.object (packedFields files)).text sj).utf8ByteSize ≤
      (utf8Bytes (env.text sj).toList).length := by
    rw [length_utf8Bytes, String.ofList_toList, packEnvelope_eq_ok hpack]
    refine le_trans ?_ (hobject _)
    rw [Agent.size_fieldsText]
    simp only [List.map_cons, List.map_nil, List.sum_cons, Agent.fieldSize]
    omega
  rw [parseEnvelope, if_pos (by omega)]

/-- A file of zeros. -/
def zeroFile (size : ℕ) : String × Bytes := ("main.py", List.replicate size 0)

/-- A package of one large file. -/
def zeroEnvelope (size : ℕ) : Json :=
  .object [("contract_version", .string CONTRACT_VERSION),
    ("files", .object (packedFields [zeroFile size])), ("manifest", .null)]

theorem packEnvelope_zeroFile {size : ℕ} (h : size ≤ MAX_PACKAGE_BYTES) :
    packEnvelope .null [zeroFile size] = .ok (zeroEnvelope size) := by
  have hlen : (zeroFile size).2.length = size := List.length_replicate
  have htotal : ([zeroFile size].map fun f => f.2.length).sum = size := by simp [hlen]
  unfold packEnvelope
  dsimp only
  rw [htotal, if_neg (by simp), if_neg h.not_gt]
  rfl

theorem parseEnvelope_large_zeros :
    parseEnvelope demoReader
      (utf8Bytes ((zeroEnvelope (25 * 2 ^ 20)).text .withoutFloats).toList) =
        .error "package too large" := by
  have hlen : (zeroFile (25 * 2 ^ 20)).2.length = 25 * 2 ^ 20 := List.length_replicate
  have hlarge : 3 * MAX_PACKAGE_BYTES <
      4 * ([zeroFile (25 * 2 ^ 20)].map fun f => f.2.length).sum := by
    rw [List.map_singleton, List.sum_singleton, hlen]
    decide
  exact parseEnvelope_large demoReader .withoutFloats (packEnvelope_zeroFile (by decide)) hlarge
    (List.nodup_singleton _)

/-! ## Where the files go -/

/-- Whether a path has a prefix of Windows, when it has no backslash and does not begin with a
slash: a drive. Source: `std::path::Path`. -/
def hasDrive : List Char → Bool
  | letter :: ':' :: _ => letter.isAlpha
  | _ => false

/-- Where a file of a package is written, for such a name. Source: `lib.rs`, `cmd_install`
(`staging.join(name)`); a path with a prefix takes the place of the directory. -/
def stagedPath (staging name : List Char) : List Char :=
  if hasDrive name then name else staging ++ '\\' :: name

/-- A path under a directory: a path without `..` after it. -/
def Under (staging path : List Char) : Prop :=
  ∃ rest, path = staging ++ '\\' :: rest ∧ ∀ seg ∈ splitOn isSeparator rest, seg ≠ ['.', '.']

theorem isInsideName_iff {name : List Char} : isInsideName name = true ↔
    name.head? ≠ some '/' ∧ '\\' ∉ name ∧
      ∀ seg ∈ splitOn (· == '/') name, seg ≠ ['.', '.'] ∧ seg ≠ ['.'] ∧ seg ≠ [] := by
  simp [isInsideName, not_or, and_assoc]

/-- Without backslashes the segments of Windows are those of the guard. -/
theorem splitOn_isSeparator {name : List Char} (h : '\\' ∉ name) :
    splitOn isSeparator name = splitOn (· == '/') name := by
  induction name with
  | nil => rfl
  | cons c cs ih =>
      rw [List.mem_cons, not_or] at h
      have hc : isSeparator c = (c == '/') := by
        simp [isSeparator, Ne.symm h.1]
      rw [splitOn, splitOn, ih h.2, hc]

/-- A name that passes the guard stays under the directory unless it begins with a drive. -/
theorem under_stagedPath_iff {staging name : List Char} (h : isInsideName name = true) :
    Under staging (stagedPath staging name) ↔ hasDrive name = false := by
  obtain ⟨-, hback, hsegs⟩ := isInsideName_iff.mp h
  unfold stagedPath
  constructor
  · intro hunder
    by_contra hdrive
    rw [if_pos (by simpa using hdrive)] at hunder
    obtain ⟨rest, heq, -⟩ := hunder
    exact hback (heq ▸ List.mem_append_right _ List.mem_cons_self)
  · intro hdrive
    rw [if_neg (by simp [hdrive])]
    refine ⟨name, rfl, fun seg hseg => ?_⟩
    rw [splitOn_isSeparator hback] at hseg
    exact (hsegs seg hseg).1

/-- A reader of a package with a file on a drive. -/
def driveReader : EnvelopeReader String where
  fromSlice _ := some (.object [("contract_version", .string CONTRACT_VERSION),
    ("files", .object [("C:a", .string "aGk="), ("main.py", .string "aGk=")]),
    ("manifest", .null)])
  manifest _ := .ok "demo"
  id m := m
  effectiveExecutable _ := "main.py"

end AuraLauncher.Package
