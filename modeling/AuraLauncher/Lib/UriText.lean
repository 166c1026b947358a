import AuraLauncher.Lib.Uri
import Mathlib.Data.List.TakeWhile
import Mathlib.Tactic.SplitIfs

/-!
# The texts of URIs

What can be said of the text of a URI without reading it: which characters its parts have, what an
IPv6 address begins with, and that a text is the text of one URI only, so that one may speak of the
host of a URL.

* `isUserChar_of_mem_ipv6`, `Authority.of_mem_text` — the characters of addresses and authorities.
* `ipv6Address_head` — an IPv6 address begins with two colons or with its first group.
* `Authority.text_injective`, `Uri.text_injective` — the reading is unique.
-/

namespace AuraLauncher.Lib

/-! ## Characters -/

theorem isAlphanum_iff {c : Char} : c.isAlphanum = true ↔
    (48 ≤ c.toNat ∧ c.toNat ≤ 57) ∨ (65 ≤ c.toNat ∧ c.toNat ≤ 90) ∨
      (97 ≤ c.toNat ∧ c.toNat ≤ 122) := by
  have hupper : c.isUpper = (decide (65 ≤ c.toNat) && decide (c.toNat ≤ 90)) :=
    Bool.decide_and (65 ≤ c.toNat) (c.toNat ≤ 90)
  have hlower : c.isLower = (decide (97 ≤ c.toNat) && decide (c.toNat ≤ 122)) := rfl
  have hdigit : c.isDigit = (decide (48 ≤ c.toNat) && decide (c.toNat ≤ 57)) := rfl
  have hall : c.isAlphanum = ((c.isUpper || c.isLower) || c.isDigit) := rfl
  rw [hall, hupper, hlower, hdigit]
  simp only [Bool.or_eq_true, Bool.and_eq_true, decide_eq_true_eq]
  omega

/-- The characters of a name are printable. -/
theorem isNameChar_range {c : Char} (h : isNameChar c = true) : 33 ≤ c.toNat ∧ c.toNat ≤ 126 := by
  simp only [isNameChar, isUnreserved, isSubDelim, Bool.or_eq_true, isAlphanum_iff, beq_iff_eq,
    decide_eq_true_eq, List.mem_cons, List.not_mem_nil, or_false] at h
  rcases h with ((((h | rfl) | rfl) | rfl) | rfl) |
    (rfl | rfl | rfl | rfl | rfl | rfl | rfl | rfl | rfl | rfl | rfl)
  · omega
  all_goals decide

theorem isUserChar_range {c : Char} (h : isUserChar c = true) : 33 ≤ c.toNat ∧ c.toNat ≤ 126 := by
  rcases Bool.or_eq_true _ _ ▸ h with h | h
  · exact isNameChar_range h
  · obtain rfl := beq_iff_eq.mp h
    decide

theorem isUserChar_of_isNameChar {c : Char} (h : isNameChar c = true) : isUserChar c = true := by
  simp [isUserChar, h]

theorem isNameChar_of_hexCharValue {c : Char} (h : (hexCharValue c).isSome = true) :
    isNameChar c = true := by
  have hc : c.isAlphanum = true := by
    rw [isAlphanum_iff]
    simp only [hexCharValue] at h
    split_ifs at h
    all_goals first | omega | cases h
  simp [isNameChar, isUnreserved, hc]

theorem isNameChar_of_isDigit {c : Char} (h : c.isDigit = true) : isNameChar c = true := by
  simp [isNameChar, isUnreserved, Char.isAlphanum, h]

/-- Lower case, in numbers. -/
theorem toNat_toLower (c : Char) :
    c.toLower.toNat = if 65 ≤ c.toNat ∧ c.toNat ≤ 90 then c.toNat + 32 else c.toNat := by
  have hc : c.toNat = c.val.toNat := rfl
  have hle : ('A'.val ≤ c.val ∧ c.val ≤ 'Z'.val) ↔ 65 ≤ c.toNat ∧ c.toNat ≤ 90 := by
    rw [UInt32.le_iff_toNat_le, UInt32.le_iff_toNat_le, hc]
    rfl
  unfold Char.toLower
  split_ifs with h h' h'
  · have hadd : (c.val + ('a'.val - 'A'.val)).toNat = c.toNat + 32 := by
      rw [UInt32.toNat_add, ← hc, show ('a'.val - 'A'.val).toNat = 32 from rfl]
      omega
    exact hadd
  · exact absurd (hle.mp h) h'
  · exact absurd (hle.mpr h') h
  · rfl

/-- What is no letter is its own lower case and that of nothing else. -/
theorem toLower_eq_iff {c p : Char}
    (hp : ¬(65 ≤ p.toNat ∧ p.toNat ≤ 90 ∨ 97 ≤ p.toNat ∧ p.toNat ≤ 122)) :
    c.toLower = p ↔ c = p := by
  rw [← Char.toNat_inj, ← Char.toNat_inj, toNat_toLower]
  split_ifs <;> omega

/-- The lower case of a hexadecimal digit tells its value. -/
theorem toNat_toLower_of_hexCharValue {c : Char} {v : ℕ} (h : hexCharValue c = some v) :
    v < 10 ∧ c.toLower.toNat = 48 + v ∨ 10 ≤ v ∧ v < 16 ∧ c.toLower.toNat = 87 + v := by
  rw [toNat_toLower]
  simp only [hexCharValue] at h
  split_ifs at h <;> obtain rfl := Option.some.inj h <;> split_ifs <;> omega

/-- A character of a text is allowed or belongs to an escape. -/
theorem of_mem_isText {allowed : Char → Bool} {s : List Char} (h : isText allowed s = true)
    {c : Char} (hc : c ∈ s) : allowed c = true ∨ c = '%' ∨ (hexCharValue c).isSome = true := by
  fun_induction isText allowed s with
  | case1 => cases hc
  | case2 a b rest ih =>
      simp only [Bool.and_eq_true] at h
      simp only [List.mem_cons] at hc
      rcases hc with rfl | rfl | rfl | hc
      · exact .inr (.inl rfl)
      · exact .inr (.inr h.1.1)
      · exact .inr (.inr h.1.2)
      · exact ih h.2 hc
  | case3 d rest _ ih =>
      simp only [Bool.and_eq_true] at h
      rcases List.mem_cons.mp hc with rfl | hc
      · exact .inl h.1
      · exact ih h.2 hc

theorem not_mem_of_isText {allowed : Char → Bool} {s : List Char} (h : isText allowed s = true)
    {c : Char} (hc : allowed c = false ∧ c ≠ '%' ∧ hexCharValue c = none) : c ∉ s := by
  intro hmem
  rcases of_mem_isText h hmem with h' | h' | h'
  · rw [hc.1] at h'
    cases h'
  · exact hc.2.1 h'
  · rw [hc.2.2] at h'
    cases h'

/-! ## Pieces -/

section splitOn

variable {sep : Char} {s : List Char}

/-- The first piece is in front. -/
theorem eq_of_splitOn_cons {p q : List Char} {ps : List (List Char)}
    (h : s.splitOn sep = p :: q :: ps) : s = p ++ sep :: [sep].intercalate (q :: ps) := by
  have hs : [sep].intercalate (s.splitOn sep) = s := List.intercalate_splitOn sep
  rw [h, List.intercalate_cons_cons] at hs
  simp [← hs]

theorem eq_of_splitOn_singleton {p : List Char} (h : s.splitOn sep = [p]) : s = p := by
  have hs : [sep].intercalate (s.splitOn sep) = s := List.intercalate_splitOn sep
  rw [h] at hs
  simpa [List.intercalate] using hs.symm

/-- A character is a separator or in a piece. -/
theorem mem_piece_of_mem (sep : Char) {s : List Char} {c : Char} (hc : c ∈ s) :
    c = sep ∨ ∃ p ∈ s.splitOn sep, c ∈ p := by
  induction s with
  | nil => cases hc
  | cons d rest ih =>
      rw [List.splitOn_cons_eq_if_modifyHead]
      obtain ⟨p, ps, hsplit⟩ := List.exists_cons_of_ne_nil (List.splitOn_ne_nil sep rest)
      rw [hsplit] at ih ⊢
      rcases List.mem_cons.mp hc with rfl | hc
      · by_cases hd : c = sep
        · exact .inl hd
        · simp [hd]
      · rcases ih hc with h | ⟨q, hq, hcq⟩
        · exact .inl h
        · refine .inr ?_
          split_ifs
          · exact ⟨q, by simpa using .inr (List.mem_cons.mp hq), hcq⟩
          · rcases List.mem_cons.mp hq with rfl | hq
            · exact ⟨d :: q, by simp, by simp [hcq]⟩
            · exact ⟨q, by simp [hq], hcq⟩

end splitOn

/-! ## Addresses -/

/-- A digit, a hexadecimal digit, a colon or a dot. -/
def isAddressChar (c : Char) : Bool := (hexCharValue c).isSome || c == ':' || c == '.'

theorem isUserChar_of_isAddressChar {c : Char} (h : isAddressChar c = true) :
    isUserChar c = true := by
  simp only [isAddressChar, Bool.or_eq_true, beq_iff_eq] at h
  rcases h with (h | rfl) | rfl
  · exact isUserChar_of_isNameChar (isNameChar_of_hexCharValue h)
  · rfl
  · rfl

theorem isSome_hexCharValue_of_isDigit {c : Char} (h : c.isDigit = true) :
    (hexCharValue c).isSome = true := by
  have hc : 48 ≤ c.toNat ∧ c.toNat ≤ 57 := by
    simpa [Char.isDigit, UInt32.le_iff_toNat_le] using h
  simp [hexCharValue, hc]

theorem decOctet_eq_some {s : List Char} {n : ℕ} (h : decOctet s = some n) :
    s ≠ [] ∧ s.all Char.isDigit = true ∧ digitsValue s = n ∧ n ≤ 255 := by
  unfold decOctet at h
  split_ifs at h with hs
  obtain rfl := Option.some.inj h
  exact ⟨hs.1, hs.2.1, rfl, hs.2.2.2⟩

/-- The pieces of an IPv4 address. -/
theorem ipv4Address_eq_some {s : List Char} {a b c d : ℕ}
    (h : ipv4Address s = some (a, b, c, d)) :
    ∃ pa pb pc pd, s.splitOn '.' = [pa, pb, pc, pd] ∧ decOctet pa = some a ∧
      decOctet pb = some b ∧ decOctet pc = some c ∧ decOctet pd = some d := by
  unfold ipv4Address at h
  split at h
  · next hmap =>
      obtain ⟨rfl, rfl, rfl, rfl⟩ := by simpa using h
      rcases hs : s.splitOn '.' with _ | ⟨pa, _ | ⟨pb, _ | ⟨pc, _ | ⟨pd, _ | ⟨pe, ps⟩⟩⟩⟩⟩ <;>
        rw [hs] at hmap <;> simp at hmap
      exact ⟨pa, pb, pc, pd, rfl, hmap⟩
  · cases h

theorem mem_ipv4Address {s : List Char} (h : (ipv4Address s).isSome = true) {c : Char}
    (hc : c ∈ s) : c.isDigit = true ∨ c = '.' := by
  obtain ⟨⟨a, b, x, y⟩, hs⟩ := Option.isSome_iff_exists.mp h
  obtain ⟨pa, pb, pc, pd, hsplit, ha, hb, hx, hy⟩ := ipv4Address_eq_some hs
  rcases mem_piece_of_mem '.' hc with hdot | ⟨p, hp, hcp⟩
  · exact .inr hdot
  · have hp' : ∃ n, decOctet p = some n := by
      rw [hsplit] at hp
      simp only [List.mem_cons, List.not_mem_nil, or_false] at hp
      rcases hp with rfl | rfl | rfl | rfl
      exacts [⟨a, ha⟩, ⟨b, hb⟩, ⟨x, hx⟩, ⟨y, hy⟩]
    obtain ⟨n, hn⟩ := hp'
    exact .inl (List.all_eq_true.mp (decOctet_eq_some hn).2.1 c hcp)

theorem mem_hexGroup {s : List Char} (h : (hexGroup s).isSome = true) {c : Char} (hc : c ∈ s) :
    (hexCharValue c).isSome = true := by
  have hfold : ∀ (s : List Char) (n : ℕ),
      (s.foldlM (fun n c => (hexCharValue c).map (16 * n + ·)) n).isSome = true →
        ∀ c ∈ s, (hexCharValue c).isSome = true := by
    intro s
    induction s with
    | nil => simp
    | cons d rest ih =>
        intro n hn c hc
        rw [List.foldlM_cons] at hn
        cases hd : hexCharValue d with
        | none => simp [hd] at hn
        | some v =>
            rw [hd] at hn
            rcases List.mem_cons.mp hc with rfl | hc
            · simp [hd]
            · exact ih _ hn c hc
  unfold hexGroup at h
  split_ifs at h
  · exact hfold s 0 h c hc
  · cases h

theorem mem_hexGroups {pieces : List (List Char)} (h : (hexGroups pieces).isSome = true)
    {p : List Char} (hp : p ∈ pieces) {c : Char} (hc : c ∈ p) :
    (hexCharValue c).isSome = true ∨ c = '.' := by
  induction pieces with
  | nil => cases hp
  | cons q rest ih =>
      rcases rest with _ | ⟨r, rest⟩
      · obtain rfl := List.mem_singleton.mp hp
        rw [hexGroups] at h
        cases hv4 : ipv4Address p with
        | some quad =>
            rcases mem_ipv4Address (by rw [hv4]; rfl) hc with hdigit | hdot
            · exact .inl (isSome_hexCharValue_of_isDigit hdigit)
            · exact .inr hdot
        | none =>
            rw [hv4, Option.isSome_map] at h
            exact .inl (mem_hexGroup h hc)
      · rw [hexGroups] at h
        · cases hq : hexGroup q with
          | none => simp [hq] at h
          | some g =>
              cases hrest : hexGroups (r :: rest) with
              | none => simp [hq, hrest] at h
              | some gs =>
                  rcases List.mem_cons.mp hp with rfl | hp
                  · exact .inl (mem_hexGroup (by rw [hq]; rfl) hc)
                  · exact ih (by rw [hrest]; rfl) hp
        · simp

theorem eq_of_splitColons {s l r : List Char} (h : splitColons s = some (l, r)) :
    s = l ++ ':' :: ':' :: r := by
  fun_induction splitColons s generalizing l with
  | case1 rest =>
      obtain ⟨rfl, rfl⟩ := by simpa using h
      rfl
  | case2 c rest _ ih =>
      obtain ⟨⟨l', r'⟩, hsplit, heq⟩ := Option.map_eq_some_iff.mp h
      obtain ⟨rfl, rfl⟩ := by simpa using heq
      rw [ih hsplit]
      rfl
  | case3 => cases h

theorem sideGroups_eq_some {groups : List (List Char) → Option (List ℕ)} {s : List Char}
    {gs : List ℕ} (h : sideGroups groups s = some gs) :
    s = [] ∧ gs = [] ∨ s ≠ [] ∧ groups (s.splitOn ':') = some gs := by
  unfold sideGroups at h
  split_ifs at h with hs
  · exact .inl ⟨hs, by simpa using h.symm⟩
  · exact .inr ⟨hs, h⟩

/-- The two ways in which an IPv6 address is written. -/
theorem ipv6Address_cases {s : List Char} {gs : List ℕ} (h : ipv6Address s = some gs) :
    hexGroups (s.splitOn ':') = some gs ∧ gs.length = 8 ∨
    ∃ l r ls rs, s = l ++ ':' :: ':' :: r ∧
      sideGroups (fun pieces => pieces.mapM hexGroup) l = some ls ∧
      sideGroups hexGroups r = some rs ∧ ls.length + rs.length ≤ 7 ∧
      gs = ls ++ List.replicate (8 - (ls.length + rs.length)) 0 ++ rs := by
  unfold ipv6Address at h
  cases hsplit : splitColons s with
  | none =>
      rw [hsplit] at h
      cases hgroups : hexGroups (s.splitOn ':') with
      | none => simp [hgroups] at h
      | some gs' =>
          simp only [hgroups, Option.ite_none_right_eq_some, Option.some.injEq] at h
          obtain ⟨hlen, rfl⟩ := h
          exact .inl ⟨rfl, hlen⟩
  | some p =>
      obtain ⟨l, r⟩ := p
      rw [hsplit] at h
      cases hl : sideGroups (fun pieces => pieces.mapM hexGroup) l with
      | none => simp [hl] at h
      | some ls =>
          cases hr : sideGroups hexGroups r with
          | none => simp [hl, hr] at h
          | some rs =>
              simp only [hl, hr, Option.ite_none_right_eq_some, Option.some.injEq] at h
              exact .inr ⟨l, r, ls, rs, eq_of_splitColons hsplit, hl, hr, h.1, h.2.symm⟩

theorem mem_of_mapM_hexGroup {pieces : List (List Char)} {gs : List ℕ}
    (h : pieces.mapM hexGroup = some gs) {p : List Char} (hp : p ∈ pieces) :
    (hexGroup p).isSome = true := by
  induction pieces generalizing gs with
  | nil => cases hp
  | cons q rest ih =>
      rw [List.mapM_cons] at h
      obtain ⟨g, hq, h⟩ := Option.bind_eq_some_iff.mp h
      obtain ⟨gs', hrest, -⟩ := Option.bind_eq_some_iff.mp h
      rcases List.mem_cons.mp hp with rfl | hp
      · rw [hq]
        rfl
      · exact ih hrest hp

/-- The characters of an IPv6 address. -/
theorem isAddressChar_of_mem_ipv6 {s : List Char} (h : (ipv6Address s).isSome = true) {c : Char}
    (hc : c ∈ s) : isAddressChar c = true := by
  have hhex {d : Char} (hd : (hexCharValue d).isSome = true ∨ d = '.') :
      isAddressChar d = true := by
    rcases hd with hd | rfl
    · simp [isAddressChar, hd]
    · rfl
  have hgroups {s : List Char} (hs : (hexGroups (s.splitOn ':')).isSome = true)
      (hcs : c ∈ s) : isAddressChar c = true := by
    rcases mem_piece_of_mem ':' hcs with rfl | ⟨p, hp, hcp⟩
    · rfl
    · exact hhex (mem_hexGroups hs hp hcp)
  obtain ⟨gs, hs⟩ := Option.isSome_iff_exists.mp h
  rcases ipv6Address_cases hs with ⟨hgs, -⟩ | ⟨l, r, ls, rs, rfl, hl, hr, -, -⟩
  · exact hgroups (by rw [hgs]; rfl) hc
  · simp only [List.mem_append, List.mem_cons] at hc
    rcases hc with hc | rfl | rfl | hc
    · rcases sideGroups_eq_some hl with ⟨rfl, -⟩ | ⟨-, hl⟩
      · cases hc
      · rcases mem_piece_of_mem ':' hc with rfl | ⟨p, hp, hcp⟩
        · rfl
        · exact hhex (.inl (mem_hexGroup (mem_of_mapM_hexGroup hl hp) hcp))
    · rfl
    · rfl
    · rcases sideGroups_eq_some hr with ⟨rfl, -⟩ | ⟨-, hr⟩
      · cases hc
      · exact hgroups (by rw [hr]; rfl) hc

/-- An IPv6 address begins with two colons or with its first group. -/
theorem ipv6Address_head {s : List Char} {gs : List ℕ} (h : ipv6Address s = some gs) :
    (∃ rest, s = ':' :: ':' :: rest ∧ gs.head? = some 0) ∨
    ∃ p rest g, s = p ++ ':' :: rest ∧ hexGroup p = some g ∧ gs.head? = some g := by
  rcases ipv6Address_cases h with ⟨hgs, hlen⟩ | ⟨l, r, ls, rs, rfl, hl, hr, hlen, rfl⟩
  · obtain ⟨p, ps, hsplit⟩ := List.exists_cons_of_ne_nil (List.splitOn_ne_nil ':' s)
    rw [hsplit] at hgs
    rcases ps with _ | ⟨q, ps⟩
    · -- one piece gives two groups at most
      rw [hexGroups] at hgs
      split at hgs
      · obtain rfl := by simpa using hgs
        cases hlen
      · obtain ⟨g, -, rfl⟩ := Option.map_eq_some_iff.mp hgs
        cases hlen
    · rw [hexGroups] at hgs
      · cases hp : hexGroup p with
        | none => simp [hp] at hgs
        | some g =>
            cases hrest : hexGroups (q :: ps) with
            | none => simp [hp, hrest] at hgs
            | some gs' =>
                simp only [hp, hrest, Option.some.injEq] at hgs
                exact .inr ⟨p, _, g, eq_of_splitOn_cons hsplit, hp, by rw [← hgs]; rfl⟩
      · simp
  · rcases sideGroups_eq_some hl with ⟨rfl, rfl⟩ | ⟨hne, hl⟩
    · refine .inl ⟨r, rfl, ?_⟩
      obtain ⟨k, hk⟩ : ∃ k, 8 - ([].length + rs.length) = k + 1 :=
        ⟨7 - rs.length, by rw [List.length_nil] at hlen ⊢; omega⟩
      rw [hk]
      rfl
    · obtain ⟨p, ps, hsplit⟩ := List.exists_cons_of_ne_nil (List.splitOn_ne_nil ':' l)
      rw [hsplit, List.mapM_cons] at hl
      obtain ⟨g, hp, hl⟩ := Option.bind_eq_some_iff.mp hl
      obtain ⟨gs', -, heq⟩ := Option.bind_eq_some_iff.mp hl
      obtain rfl := by simpa using heq.symm
      rcases ps with _ | ⟨q, ps⟩
      · obtain rfl := eq_of_splitOn_singleton hsplit
        exact .inr ⟨l, _, g, rfl, hp, rfl⟩
      · refine .inr ⟨p, [':'].intercalate (q :: ps) ++ ':' :: ':' :: r, g, ?_, hp, rfl⟩
        conv_lhs => rw [eq_of_splitOn_cons hsplit]
        simp

theorem isUserChar_of_mem_future {s : List Char} (h : isIpvFuture s = true) {c : Char}
    (hc : c ∈ s) : isUserChar c = true := by
  rcases s with _ | ⟨v, rest⟩
  · cases hc
  · simp only [isIpvFuture, Bool.and_eq_true, Bool.or_eq_true, beq_iff_eq] at h
    obtain ⟨⟨hv, -⟩, htext⟩ := h
    rcases List.mem_cons.mp hc with rfl | hc
    · rcases hv with rfl | rfl
      · rfl
      · rfl
    · rw [← List.take_append_drop (rest.takeWhile fun d => (hexCharValue d).isSome).length rest,
        List.mem_append, ← List.prefix_iff_eq_take.mp (List.takeWhile_prefix _)] at hc
      rcases hc with hc | hc
      · have hhex : (hexCharValue c).isSome = true :=
          List.mem_takeWhile_imp (p := fun d => (hexCharValue d).isSome) hc
        exact isUserChar_of_isNameChar (isNameChar_of_hexCharValue hhex)
      · split at htext
        · next text hdrop =>
            rw [hdrop] at hc
            simp only [Bool.and_eq_true, List.all_eq_true] at htext
            rcases List.mem_cons.mp hc with rfl | hc
            · rfl
            · exact htext.2 c hc
        · cases htext

/-! ## Hosts -/

/-- The characters of an address in brackets. -/
theorem isUserChar_of_mem_literal {t : List Char}
    (ok : (ipv6Address t).isSome = true ∨ isIpvFuture t = true) {c : Char} (hc : c ∈ t) :
    isUserChar c = true := by
  rcases ok with h6 | hfuture
  · exact isUserChar_of_isAddressChar (isAddressChar_of_mem_ipv6 h6 hc)
  · exact isUserChar_of_mem_future hfuture hc

/-- An address in brackets ends at the bracket. -/
theorem bracket_not_mem_literal {t : List Char}
    (ok : (ipv6Address t).isSome = true ∨ isIpvFuture t = true) : ']' ∉ t :=
  fun hmem => absurd (isUserChar_of_mem_literal ok hmem) (by decide)

/-! ## Authorities -/

namespace Authority

/-- The characters of an authority. -/
theorem of_mem_text (a : Authority) {c : Char} (hc : c ∈ a.text) :
    isUserChar c = true ∨ c = '%' ∨ c = '@' ∨ c = '[' ∨ c = ']' := by
  obtain ⟨userinfo, host, port, huser, hport⟩ := a
  have hisText {allowed : Char → Bool} (hallowed : ∀ d, allowed d = true → isUserChar d = true)
      {s : List Char} (hs : isText allowed s = true) (hcs : c ∈ s) :
      isUserChar c = true ∨ c = '%' := by
    rcases of_mem_isText hs hcs with h | h | h
    · exact .inl (hallowed c h)
    · exact .inr h
    · exact .inl (isUserChar_of_isNameChar (isNameChar_of_hexCharValue h))
  simp only [text, List.mem_append] at hc
  rcases hc with (hc | hc) | hc
  · rcases userinfo with _ | u
    · cases hc
    · rcases List.mem_append.mp hc with hc | hc
      · rcases hisText (fun _ h => h) (huser u rfl) hc with h | h <;> simp [h]
      · simp [List.mem_singleton.mp hc]
  · cases host with
    | literal t ok =>
        simp only [HostText.text, List.mem_cons, List.mem_append, List.not_mem_nil,
          or_false] at hc
        rcases hc with rfl | hc | rfl
        · simp
        · exact .inl (isUserChar_of_mem_literal ok hc)
        · simp
    | name t ok =>
        rcases hisText (fun _ => isUserChar_of_isNameChar) ok hc with h | h <;> simp [h]
  · rcases port with _ | p
    · cases hc
    · rcases List.mem_cons.mp hc with rfl | hc
      · exact .inl rfl
      · have hdigit := List.all_eq_true.mp (hport p rfl) c hc
        exact .inl (isUserChar_of_isNameChar (isNameChar_of_isDigit hdigit))

/-- Nothing in an authority ends it. -/
theorem not_endsAuthorityPart (a : Authority) {c : Char} (hc : c ∈ a.text) :
    endsAuthorityPart c = false := by
  by_contra h
  have hend : c = '/' ∨ c = '?' ∨ c = '#' := by
    simpa only [endsAuthorityPart, Bool.not_eq_false, Bool.or_eq_true, beq_iff_eq, or_assoc] using h
  have hmem := a.of_mem_text hc
  rcases hend with rfl | rfl | rfl
  all_goals exact absurd hmem (by decide)

end Authority

/-! ## The reading is unique -/

/-- A text is split at its first separator in one way. -/
theorem append_cons_inj {sep : Char} {a b c d : List Char} (ha : sep ∉ a) (hc : sep ∉ c)
    (h : a ++ sep :: b = c ++ sep :: d) : a = c ∧ b = d := by
  induction a generalizing c with
  | nil =>
      rcases c with _ | ⟨x, c⟩
      · simpa using h
      · obtain rfl : sep = x := by simpa using congrArg List.head? h
        simp at hc
  | cons x a ih =>
      rcases c with _ | ⟨y, c⟩
      · obtain rfl : x = sep := by simpa using congrArg List.head? h
        simp at ha
      · obtain ⟨rfl, htail⟩ : x = y ∧ a ++ sep :: b = c ++ sep :: d := by simpa using h
        obtain ⟨rfl, rfl⟩ := ih (fun hx => ha (by simp [hx])) (fun hx => hc (by simp [hx])) htail
        exact ⟨rfl, rfl⟩

theorem HostText.append_injective {h k : HostText} {p q : Option (List Char)}
    (heq : h.text ++ (p.elim [] fun p => ':' :: p) = k.text ++ q.elim [] fun q => ':' :: q) :
    h = k ∧ p = q := by
  have hname {n : List Char} (ok : isText isNameChar n = true) : ':' ∉ n ∧ '[' ∉ n :=
    ⟨not_mem_of_isText ok (by decide), not_mem_of_isText ok (by decide)⟩
  have hbracket {n t : List Char} (ok : isText isNameChar n = true) {p q : Option (List Char)}
      (h : n ++ (p.elim [] fun p => ':' :: p) =
        '[' :: (t ++ [']']) ++ q.elim [] fun q => ':' :: q) :
      False := by
    rcases n with _ | ⟨c, rest⟩
    · cases p <;> simp at h
    · obtain rfl : c = '[' := by simpa using congrArg List.head? h
      exact (hname ok).2 (by simp)
  cases h with
  | literal t ok =>
      cases k with
      | literal s ok' =>
          simp only [HostText.text, List.cons_append, List.append_assoc, List.nil_append,
            List.cons.injEq, true_and] at heq
          obtain ⟨rfl, hport⟩ := append_cons_inj (bracket_not_mem_literal ok)
            (bracket_not_mem_literal ok') heq
          refine ⟨rfl, ?_⟩
          cases p <;> cases q <;> simp_all
      | name n ok' => exact (hbracket ok' heq.symm).elim
  | name n ok =>
      cases k with
      | literal s ok' => exact (hbracket ok heq).elim
      | name m ok' =>
          simp only [HostText.text] at heq
          cases p with
          | none =>
              cases q with
              | none =>
                  obtain rfl : n = m := by simpa using heq
                  exact ⟨rfl, rfl⟩
              | some q =>
                  refine absurd ?_ (hname ok).1
                  rw [show n = m ++ ':' :: q by simpa using heq]
                  simp
          | some p =>
              cases q with
              | none =>
                  refine absurd ?_ (hname ok').1
                  rw [show m = n ++ ':' :: p by simpa using heq.symm]
                  simp
              | some q =>
                  obtain ⟨rfl, rfl⟩ := append_cons_inj (hname ok).1 (hname ok').1 heq
                  exact ⟨rfl, rfl⟩

/-- The user information ends at the only sign of its kind. -/
theorem Authority.at_not_mem (a : Authority) :
    (∀ u, a.userinfo = some u → '@' ∉ u) ∧
      '@' ∉ a.host.text ++ a.port.elim [] fun p => ':' :: p := by
  refine ⟨fun u hu => not_mem_of_isText (a.userinfo_ok u hu) (by decide), ?_⟩
  intro hmem
  rcases List.mem_append.mp hmem with hmem | hmem
  · cases hhost : a.host with
    | literal t ok =>
        rw [hhost] at hmem
        have ht : '@' ∈ t := by simpa [HostText.text] using hmem
        exact absurd (isUserChar_of_mem_literal ok ht) (by decide)
    | name t ok =>
        rw [hhost] at hmem
        exact not_mem_of_isText ok (by decide) hmem
  · cases hport : a.port with
    | none => simp [hport] at hmem
    | some p =>
        have hp : '@' ∈ p := by simpa [hport] using hmem
        exact absurd (List.all_eq_true.mp (a.port_ok p hport) _ hp) (by decide)

/-- An authority is read from its text in one way. -/
theorem Authority.text_injective {a b : Authority} (h : a.text = b.text) : a = b := by
  have hparts : a.userinfo = b.userinfo ∧
      (a.host.text ++ a.port.elim [] fun p => ':' :: p) =
        b.host.text ++ b.port.elim [] fun p => ':' :: p := by
    simp only [Authority.text, List.append_assoc] at h
    obtain ⟨hua, ha⟩ := a.at_not_mem
    obtain ⟨hub, hb⟩ := b.at_not_mem
    cases hu : a.userinfo with
    | none =>
        cases hv : b.userinfo with
        | none => exact ⟨rfl, by simpa [hu, hv] using h⟩
        | some v =>
            rw [hu, hv] at h
            simp only [Option.elim_none, List.nil_append] at h
            rw [h] at ha
            simp at ha
    | some u =>
        cases hv : b.userinfo with
        | none =>
            rw [hu, hv] at h
            simp only [Option.elim_none, List.nil_append] at h
            rw [← h] at hb
            simp at hb
        | some v =>
            rw [hu, hv] at h
            simp only [Option.elim_some, List.append_assoc, List.cons_append,
              List.nil_append] at h
            obtain ⟨rfl, hrest⟩ := append_cons_inj (hua u hu) (hub v hv) h
            exact ⟨rfl, hrest⟩
  obtain ⟨hhost, hport⟩ := HostText.append_injective hparts.2
  obtain ⟨ua, ha, pa, _, _⟩ := a
  obtain ⟨ub, hb, pb, _, _⟩ := b
  obtain rfl : ua = ub := hparts.1
  obtain rfl : ha = hb := hhost
  obtain rfl : pa = pb := hport
  rfl

/-- The authority is what stands before the first character that ends one. -/
theorem Uri.takeWhile_authority (u : Uri) :
    (u.authority.text ++ u.rest).takeWhile (fun c => !endsAuthorityPart c) =
      u.authority.text := by
  have hrest : u.rest.takeWhile (fun c => !endsAuthorityPart c) = [] := by
    have hend := u.rest_ok
    rcases hr : u.rest with _ | ⟨c, cs⟩
    · rfl
    · rw [hr] at hend
      rw [List.takeWhile_cons, hend c rfl]
      rfl
  rw [List.takeWhile_append_of_pos, hrest, List.append_nil]
  intro c hc
  rw [u.authority.not_endsAuthorityPart hc]
  rfl

/-- A URI is read from its text in one way. -/
theorem Uri.text_injective {u v : Uri} (h : u.text = v.text) : u = v := by
  simp only [Uri.text, List.append_assoc, show "://".toList = [':', '/', '/'] from rfl,
    List.cons_append, List.nil_append] at h
  obtain ⟨hscheme, hafter⟩ := append_cons_inj u.scheme_ok v.scheme_ok h
  have hparts : u.authority.text ++ u.rest = v.authority.text ++ v.rest := by
    simpa using hafter
  have hauthority : u.authority.text = v.authority.text := by
    rw [← u.takeWhile_authority, hparts, v.takeWhile_authority]
  have hrest : u.rest = v.rest := by
    rw [hauthority] at hparts
    exact List.append_cancel_left hparts
  obtain ⟨us, ua, ur, _, _⟩ := u
  obtain ⟨vs, va, vr, _, _⟩ := v
  obtain rfl : us = vs := hscheme
  obtain rfl : ua = va := Authority.text_injective hauthority
  obtain rfl : ur = vr := hrest
  rfl

end AuraLauncher.Lib
