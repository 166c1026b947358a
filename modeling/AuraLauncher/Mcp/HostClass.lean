import AuraLauncher.Domain.Splitting
import AuraLauncher.Lib.UriText
import AuraLauncher.Mcp.HttpPolicy

/-!
# What `classify_host` makes of an authority

`classify_host` is given everything between the `://` and the path of a URL, which is an authority
with its user information and its port. This file says which class comes out, for each of the forms
an authority has.

* `prefixClass` — the class by the beginning of a text, which is all that is left when a text is
  neither one of the known ones nor a dotted quad.
* `classifyHost_of_userinfo` — with a user information its beginning is classified, and the host is
  not looked at.
* `classifyHost_of_literal`, `prefixClass_ipv6` — an address in brackets is classified by the text
  of its first group.
* `classifyHost_of_name` — a name is classified as it is written; a port that is not understood
  stays part of it.
-/

namespace AuraLauncher.Mcp

open AuraLauncher.Domain AuraLauncher.Lib

/-! ## Texts -/

theorem trim_eq_self {s : List Char} (h : ∀ c ∈ s, isWhitespace c = false) : trim s = s := by
  have hdrop {l : List Char} (hl : ∀ c ∈ l, isWhitespace c = false) :
      l.dropWhile isWhitespace = l := by
    cases l with
    | nil => rfl
    | cons c cs => rw [List.dropWhile_cons, hl c (by simp), if_neg Bool.false_ne_true]
  rw [trim, hdrop h, hdrop (fun c hc => h c (List.mem_reverse.mp hc)), List.reverse_reverse]

theorem rsplitOnce_append {sep : Char} {a b : List Char} (h : sep ∉ b) :
    rsplitOnce sep (a ++ sep :: b) = some (a, b) := by
  have hb : sep ∉ b.reverse := fun hmem => h (List.mem_reverse.mp hmem)
  rw [rsplitOnce, List.reverse_append, List.reverse_cons, List.append_assoc, List.singleton_append,
    splitOnce_append hb]
  simp

theorem eq_of_rsplitOnce {sep : Char} {s a b : List Char} (h : rsplitOnce sep s = some (a, b)) :
    s = a ++ sep :: b := by
  obtain ⟨⟨b', a'⟩, hsplit, heq⟩ := Option.map_eq_some_iff.mp h
  obtain ⟨rfl, rfl⟩ := Prod.mk.inj heq
  rw [← List.reverse_reverse s, (eq_of_splitOnce hsplit).1]
  simp

theorem rsplitOnce_eq_none {sep : Char} {s : List Char} (h : sep ∉ s) :
    rsplitOnce sep s = none := by
  rw [rsplitOnce, splitOnce_eq_none_iff.mpr fun hmem => h (List.mem_reverse.mp hmem)]
  rfl

/-- Only the end of a text is trimmed. -/
theorem trimEndMatches_append {d c : Char} (hne : c ≠ d) (a b : List Char) :
    trimEndMatches d (a ++ c :: b) = a ++ c :: trimEndMatches d b := by
  have hdrop (l : List Char) : (l ++ c :: a.reverse).dropWhile (· == d) =
      l.dropWhile (· == d) ++ c :: a.reverse := by
    induction l with
    | nil => simp [hne]
    | cons x xs ih =>
        rw [List.cons_append, List.dropWhile_cons, List.dropWhile_cons, ih]
        split_ifs <;> rfl
  simp only [trimEndMatches, List.reverse_append, List.reverse_cons, List.append_assoc,
    List.singleton_append, hdrop]
  simp

theorem trimEndMatches_eq_self {d : Char} {s : List Char} (h : d ∉ s) : trimEndMatches d s = s := by
  cases hs : s.reverse with
  | nil =>
      obtain rfl : s = [] := by simpa using hs
      rfl
  | cons x xs =>
      have hx : x ≠ d := by
        rintro rfl
        exact h (List.mem_reverse.mp (by rw [hs]; simp))
      rw [trimEndMatches, hs, List.dropWhile_cons, beq_eq_false_iff_ne.mpr hx,
        if_neg Bool.false_ne_true, ← hs, List.reverse_reverse]

theorem mem_of_mem_trimEndMatches {d c : Char} {s : List Char} (h : c ∈ trimEndMatches d s) :
    c ∈ s :=
  List.mem_reverse.mp ((List.dropWhile_suffix _).subset (List.mem_reverse.mp h))

/-- A beginning without a separator is that of what stands before the separator. -/
theorem isPrefixOf_append_cons {c : Char} {pre : List Char} (h : c ∉ pre) (a b : List Char) :
    pre.isPrefixOf (a ++ c :: b) = pre.isPrefixOf a := by
  induction pre generalizing a with
  | nil => rfl
  | cons x pre ih =>
      obtain ⟨hx, hpre⟩ : c ≠ x ∧ c ∉ pre := by simpa using h
      cases a with
      | nil => simp [List.isPrefixOf, hx.symm]
      | cons y a => simp [List.isPrefixOf, ih hpre]

/-- A number has digits, and a plus sign at most. -/
theorem mem_of_parseUnsigned {max : ℕ} {s : List Char} (h : (parseUnsigned max s).isSome = true)
    {c : Char} (hc : c ∈ s) : c.isDigit = true ∨ c = '+' := by
  have hall : ((if s.head? = some '+' then s.tail else s).all Char.isDigit) = true := by
    unfold parseUnsigned at h
    generalize (if s.head? = some '+' then s.tail else s) = digits at h
    by_contra hnot
    rw [Bool.not_eq_true] at hnot
    simp only [hnot, Bool.not_false, Bool.or_true, if_true] at h
    cases h
  rw [List.all_eq_true] at hall
  cases s with
  | nil => cases hc
  | cons d rest =>
      split_ifs at hall with hplus
      · rcases List.mem_cons.mp hc with rfl | hc
        · exact .inr (by simpa using hplus)
        · exact .inl (hall c hc)
      · exact .inl (hall c hc)

/-! ## The class by the beginning -/

/-- Source: `http_policy.rs`, `classify_host` (the tests of prefixes). -/
def prefixClass (host : List Char) : NetworkClass :=
  if "169.254.169.".toList.isPrefixOf host then .metadata
  else if "fe80:".toList.isPrefixOf host ∨ "fc".toList.isPrefixOf host ∨
      "fd".toList.isPrefixOf host then .privateNetwork
  else .publicNetwork

theorem prefixClass_ne_loopback (host : List Char) : prefixClass host ≠ .loopback := by
  unfold prefixClass
  split_ifs <;> simp

/-- The texts that are known. -/
def loopbackTexts : List (List Char) :=
  ["localhost".toList, "127.0.0.1".toList, "0.0.0.0".toList, "::1".toList]

/-- The characters of a dotted quad. -/
theorem mem_of_quad {host : List Char} {a b c d : ℕ}
    (h : (splitOn (· == '.') host).map (parseUnsigned 255) = [some a, some b, some c, some d])
    {x : Char} (hx : x ∈ host) : x = '.' ∨ x.isDigit = true ∨ x = '+' := by
  rw [splitOn_eq_splitOnP, ← List.splitOn_eq_splitOnP] at h
  rcases mem_piece_of_mem '.' hx with hdot | ⟨p, hp, hxp⟩
  · exact .inl hdot
  · have hparse : parseUnsigned 255 p ∈ [some a, some b, some c, some d] := by
      rw [← h]
      exact List.mem_map_of_mem hp
    have hsome : (parseUnsigned 255 p).isSome = true := by
      simp only [List.mem_cons, List.not_mem_nil, or_false] at hparse
      rcases hparse with hparse | hparse | hparse | hparse <;> rw [hparse] <;> rfl
    exact .inr (mem_of_parseUnsigned hsome hxp)

/-- A text that is neither known nor a dotted quad is classified by its beginning. -/
theorem classifyText_of_foreign {host : List Char} {x : Char} (hx : x ∈ host)
    (hforeign : x ≠ '.' ∧ x.isDigit = false ∧ x ≠ '+') (hknown : host ∉ loopbackTexts) :
    classifyText host = prefixClass host := by
  have hmetadata : host = "169.254.169.254".toList ∨ "169.254.169.".toList.isPrefixOf host ↔
      "169.254.169.".toList.isPrefixOf host = true :=
    ⟨fun h => h.elim (fun h => h ▸ rfl) id, .inr⟩
  rw [loopbackTexts] at hknown
  unfold classifyText prefixClass
  rw [if_neg hknown]
  simp only [hmetadata]
  split_ifs
  · rfl
  · rfl
  · split
    · next hquad =>
        rcases mem_of_quad hquad hx with h | h | h
        · exact absurd h hforeign.1
        · rw [hforeign.2.1] at h
          cases h
        · exact absurd h hforeign.2.2
    · rfl

/-! ## Addresses in brackets -/

/-- The digits of a group, and what they are worth. -/
theorem hexGroup_cases {p : List Char} {g : ℕ} (h : hexGroup p = some g) :
    (∃ a va, p = [a] ∧ hexCharValue a = some va ∧ g = va) ∨
    (∃ a b va vb, p = [a, b] ∧ hexCharValue a = some va ∧ hexCharValue b = some vb ∧
      g = 16 * va + vb) ∨
    (∃ a b c va vb vc, p = [a, b, c] ∧ hexCharValue a = some va ∧ hexCharValue b = some vb ∧
      hexCharValue c = some vc ∧ g = 256 * va + 16 * vb + vc) ∨
    (∃ a b c d va vb vc vd, p = [a, b, c, d] ∧ hexCharValue a = some va ∧
      hexCharValue b = some vb ∧ hexCharValue c = some vc ∧ hexCharValue d = some vd ∧
      g = 4096 * va + 256 * vb + 16 * vc + vd) := by
  have hvalues : ∀ c ∈ p, ∃ v, hexCharValue c = some v := fun c hc =>
    Option.isSome_iff_exists.mp (mem_hexGroup (by rw [h]; rfl) hc)
  unfold hexGroup at h
  split_ifs at h with hp
  obtain ⟨hne, hlen⟩ := hp
  rcases p with _ | ⟨a, _ | ⟨b, _ | ⟨c, _ | ⟨d, _ | ⟨e, rest⟩⟩⟩⟩⟩
  · exact absurd rfl hne
  · obtain ⟨va, ha⟩ := hvalues a (by simp)
    exact .inl ⟨a, va, rfl, ha, by simpa [hexValue, ha, eq_comm] using h⟩
  · obtain ⟨va, ha⟩ := hvalues a (by simp)
    obtain ⟨vb, hb⟩ := hvalues b (by simp)
    exact .inr (.inl ⟨a, b, va, vb, rfl, ha, hb, by simpa [hexValue, ha, hb, eq_comm] using h⟩)
  · obtain ⟨va, ha⟩ := hvalues a (by simp)
    obtain ⟨vb, hb⟩ := hvalues b (by simp)
    obtain ⟨vc, hc⟩ := hvalues c (by simp)
    refine .inr (.inr (.inl ⟨a, b, c, va, vb, vc, rfl, ha, hb, hc, ?_⟩))
    have hg : 16 * (16 * va + vb) + vc = g := by simpa [hexValue, ha, hb, hc] using h
    omega
  · obtain ⟨va, ha⟩ := hvalues a (by simp)
    obtain ⟨vb, hb⟩ := hvalues b (by simp)
    obtain ⟨vc, hc⟩ := hvalues c (by simp)
    obtain ⟨vd, hd⟩ := hvalues d (by simp)
    refine .inr (.inr (.inr ⟨a, b, c, d, va, vb, vc, vd, rfl, ha, hb, hc, hd, ?_⟩))
    have hg : 16 * (16 * (16 * va + vb) + vc) + vd = g := by
      simpa [hexValue, ha, hb, hc, hd] using h
    omega
  · simp only [List.length_cons] at hlen
    omega

theorem prefixClass_ipv6 {t : List Char} {g : ℕ} {gs : List ℕ}
    (h : ipv6Address t = some (g :: gs)) :
    ((0xfc00 ≤ g ∧ g ≤ 0xfdff ∨ g = 0xfe80) →
      prefixClass (asciiLowercase t) = .privateNetwork) ∧
    ((g = 0 ∨ 0xfe81 ≤ g ∧ g ≤ 0xfebf) →
      prefixClass (asciiLowercase t) = .publicNetwork) := by
  have hchar (c p : Char) : (p == c.toLower) = decide (c.toLower.toNat = p.toNat) := by
    rw [Bool.eq_iff_iff, beq_iff_eq, decide_eq_true_eq, eq_comm, Char.toNat_inj]
  -- a digit is told by its value
  have hdigit {c : Char} {v : ℕ} (hc : hexCharValue c = some v) :
      v < 16 ∧ (c.toLower.toNat = 48 ↔ v = 0) ∧ (c.toLower.toNat = 56 ↔ v = 8) ∧
        (c.toLower.toNat = 99 ↔ v = 12) ∧ (c.toLower.toNat = 100 ↔ v = 13) ∧
          (c.toLower.toNat = 101 ↔ v = 14) ∧ (c.toLower.toNat = 102 ↔ v = 15) := by
    have hvalue := toNat_toLower_of_hexCharValue hc
    omega
  rcases ipv6Address_head h with ⟨rest, rfl, hg⟩ | ⟨p, rest, g', rfl, hp, hg⟩
  · obtain rfl : g = 0 := by simpa using hg
    exact ⟨by omega, fun _ => rfl⟩
  · obtain rfl : g = g' := by simpa using hg
    rcases hexGroup_cases hp with ⟨a, va, rfl, ha, rfl⟩ | ⟨a, b, va, vb, rfl, ha, hb, rfl⟩ |
      ⟨a, b, c, va, vb, vc, rfl, ha, hb, hc, rfl⟩ |
      ⟨a, b, c, d, va, vb, vc, vd, rfl, ha, hb, hc, hd, rfl⟩
    all_goals
      simp [prefixClass, asciiLowercase, List.isPrefixOf, hchar]
    · have hlta := (hdigit ha).1
      omega
    · have hlta := (hdigit ha).1
      have hltb := (hdigit hb).1
      simp only [(hdigit ha).2, (hdigit hb).2]
      omega
    · have hlta := (hdigit ha).1
      have hltb := (hdigit hb).1
      have hltc := (hdigit hc).1
      simp only [(hdigit ha).2, (hdigit hb).2]
      omega
    · have hltb := (hdigit hb).1
      have hltc := (hdigit hc).1
      have hltd := (hdigit hd).1
      simp only [(hdigit ha).2, (hdigit hb).2, (hdigit hc).2, (hdigit hd).2]
      omega

/-! ## Authorities -/

theorem isWhitespace_of_mem_authority (a : Authority) {c : Char} (hc : c ∈ a.text) :
    isWhitespace c = false := by
  have hrange : 33 ≤ c.toNat ∧ c.toNat ≤ 126 := by
    rcases a.of_mem_text hc with h | rfl | rfl | rfl | rfl
    · exact isUserChar_range h
    all_goals decide
  simp [isWhitespace]
  omega

theorem asciiLowercase_append (a b : List Char) :
    asciiLowercase (a ++ b) = asciiLowercase a ++ asciiLowercase b := List.map_append

theorem mem_asciiLowercase {s : List Char} {p : Char}
    (hp : ¬(65 ≤ p.toNat ∧ p.toNat ≤ 90 ∨ 97 ≤ p.toNat ∧ p.toNat ≤ 122)) :
    p ∈ asciiLowercase s ↔ p ∈ s := by
  simp [asciiLowercase, toLower_eq_iff hp]

/-- Without a bracket in front, a port that is read is taken off. -/
theorem hostText_of_not_bracket {s : List Char} (hspace : ∀ c ∈ s, isWhitespace c = false)
    (hhead : s.head? ≠ some '[') :
    hostText s =
      match rsplitOnce ':' (trimEndMatches '.' (asciiLowercase s)) with
      | some (h, port) => if (parseUnsigned 65535 port).isSome then h
          else trimEndMatches '.' (asciiLowercase s)
      | none => trimEndMatches '.' (asciiLowercase s) := by
  rw [hostText, trim_eq_self hspace]
  split
  · next rest hs =>
      rcases s with _ | ⟨c, cs⟩
      · cases hs
      · have hc : c.toLower = '[' := (List.cons.inj hs).1
        rw [toLower_eq_iff (by decide)] at hc
        exact absurd (by rw [hc]; rfl) hhead
  · rfl

section userinfo

variable {a : Authority} {u : List Char}

/-- What is classified begins with the user information. -/
theorem hostText_of_userinfo (hu : a.userinfo = some u) :
    ∃ y, hostText a.text = asciiLowercase u ++ '@' :: y := by
  have htext : a.text = u ++ '@' :: (a.host.text ++ a.port.elim [] fun p => ':' :: p) := by
    rw [Authority.text, hu]
    simp
  have hhead : a.text.head? ≠ some '[' := by
    rw [htext]
    have hnot : '[' ∉ u := not_mem_of_isText (a.userinfo_ok u hu) (by decide)
    cases u with
    | nil => simp
    | cons c cs =>
        rintro hc
        obtain rfl : c = '[' := by simpa using hc
        simp at hnot
  rw [hostText_of_not_bracket (fun c => isWhitespace_of_mem_authority a) hhead]
  have hlower : trimEndMatches '.' (asciiLowercase a.text) = asciiLowercase u ++ '@' ::
      trimEndMatches '.' (asciiLowercase (a.host.text ++ a.port.elim [] fun p => ':' :: p)) := by
    rw [htext, asciiLowercase_append]
    exact trimEndMatches_append (by decide) _ _
  generalize trimEndMatches '.' (asciiLowercase (a.host.text ++ _)) = z at hlower
  rw [hlower]
  split
  · next h port hsplit =>
      split_ifs with hparse
      · -- a port has no sign of a user information, which is therefore in front of it
        have hport : '@' ∉ port := fun hmem =>
          (mem_of_parseUnsigned hparse hmem).elim (fun h => by cases h) (fun h => by cases h)
        rcases List.append_eq_append_iff.mp (eq_of_rsplitOnce hsplit) with
          ⟨_ | ⟨c, y⟩, rfl, hrest⟩ | ⟨_ | ⟨c, y⟩, -, hrest⟩
        · cases hrest
        · obtain ⟨rfl, -⟩ := List.cons.inj hrest
          exact ⟨y, rfl⟩
        · cases hrest
        · obtain ⟨-, rfl⟩ := List.cons.inj hrest
          simp at hport
      · exact ⟨z, rfl⟩
  · exact ⟨z, rfl⟩

/-- **With a user information, its beginning is what is classified.** -/
theorem classifyHost_of_userinfo (hu : a.userinfo = some u) :
    classifyHost a.text = prefixClass (asciiLowercase u) := by
  obtain ⟨y, hy⟩ := hostText_of_userinfo hu
  have hat : '@' ∈ asciiLowercase u ++ '@' :: y := by simp
  rw [classifyHost, hy, classifyText_of_foreign hat (by decide)]
  · unfold prefixClass
    rw [isPrefixOf_append_cons (by decide), isPrefixOf_append_cons (by decide),
      isPrefixOf_append_cons (by decide), isPrefixOf_append_cons (by decide)]
  · intro hknown
    have hnone : ∀ t ∈ loopbackTexts, '@' ∉ t := by decide
    exact hnone _ hknown hat

end userinfo

section literal

variable {a : Authority} {t : List Char}
  {ok : (ipv6Address t).isSome = true ∨ isIpvFuture t = true}

/-- What is classified is what stands in the brackets. -/
theorem hostText_of_literal (hu : a.userinfo = none) (hhost : a.host = .literal t ok) :
    hostText a.text = asciiLowercase t := by
  have htext : a.text = '[' :: (t ++ ']' :: a.port.elim [] fun p => ':' :: p) := by
    rw [Authority.text, hu, hhost, HostText.text]
    simp
  have hlower : asciiLowercase a.text = '[' :: (asciiLowercase t ++ ']' ::
      asciiLowercase (a.port.elim [] fun p => ':' :: p)) := by
    rw [htext]
    simp [asciiLowercase]
  have hend : ∀ c ∈ asciiLowercase t, (!(c == ']')) = true := by
    intro c hc
    rw [Bool.not_eq_true', beq_eq_false_iff_ne]
    rintro rfl
    exact bracket_not_mem_literal ok ((mem_asciiLowercase (by decide)).mp hc)
  rw [hostText, trim_eq_self fun c => isWhitespace_of_mem_authority a, hlower]
  show firstPiece _ _ = _
  rw [firstPiece, List.takeWhile_append_of_pos hend]
  simp

/-- An address in brackets has a character that no dotted quad has. -/
theorem exists_foreign_of_literal
    (ok : (ipv6Address t).isSome = true ∨ isIpvFuture t = true) :
    ':' ∈ asciiLowercase t ∨ ∃ rest, asciiLowercase t = 'v' :: rest := by
  rcases ok with h6 | hfuture
  · obtain ⟨gs, hgs⟩ := Option.isSome_iff_exists.mp h6
    rw [mem_asciiLowercase (by decide)]
    rcases ipv6Address_head hgs with ⟨rest, rfl, -⟩ | ⟨p, rest, g, rfl, -, -⟩ <;> simp
  · rcases t with _ | ⟨v, rest⟩
    · cases hfuture
    · simp only [isIpvFuture, Bool.and_eq_true, Bool.or_eq_true, beq_iff_eq] at hfuture
      rcases hfuture.1.1 with rfl | rfl
      · exact .inr ⟨_, rfl⟩
      · exact .inr ⟨_, rfl⟩

/-- **An address in brackets is classified by its text**; one of them only is known. -/
theorem classifyHost_of_literal (hu : a.userinfo = none) (hhost : a.host = .literal t ok) :
    classifyHost a.text =
      if t = "::1".toList then .loopback else prefixClass (asciiLowercase t) := by
  rw [classifyHost, hostText_of_literal hu hhost]
  split_ifs with h1
  · rw [h1]
    rfl
  · have hknown : asciiLowercase t ∉ loopbackTexts := by
      intro hmem
      rcases exists_foreign_of_literal ok with hcolon | ⟨rest, hv⟩
      · have honly : ∀ s ∈ loopbackTexts, ':' ∈ s → s = "::1".toList := by decide
        have heq := honly _ hmem hcolon
        have hsame : t = asciiLowercase t := by
          have hall : ∀ c ∈ asciiLowercase t,
              ¬(65 ≤ c.toNat ∧ c.toNat ≤ 90 ∨ 97 ≤ c.toNat ∧ c.toNat ≤ 122) := by
            rw [heq]
            simp
          refine (List.map_id' t).symm.trans (List.map_congr_left fun c hc => ?_)
          exact (toLower_eq_iff (hall _ (List.mem_map_of_mem hc))).mp rfl
        exact h1 (hsame.trans heq)
      · rw [hv] at hmem
        have hnone : ∀ s ∈ loopbackTexts, s.head? ≠ some 'v' := by decide
        exact hnone _ hmem rfl
    rcases exists_foreign_of_literal ok with hcolon | ⟨rest, hv⟩
    · exact classifyText_of_foreign hcolon (by decide) hknown
    · exact classifyText_of_foreign (x := 'v') (by rw [hv]; simp) (by decide) hknown

end literal

/-! ## Names -/

/-- A port that the code reads. -/
def PortRead (p : List Char) : Prop := p ≠ [] ∧ decimalValue p ≤ 65535

instance (p : List Char) : Decidable (PortRead p) := inferInstanceAs (Decidable (_ ∧ _))

/-- What is classified of a name. -/
def nameText (n : List Char) : Option (List Char) → List Char
  | none => trimEndMatches '.' (asciiLowercase n)
  | some p => if PortRead p then asciiLowercase n else asciiLowercase n ++ ':' :: p

theorem asciiLowercase_digits {p : List Char} (h : p.all Char.isDigit = true) :
    asciiLowercase p = p := by
  refine (List.map_congr_left fun c hc => ?_).trans (List.map_id' p)
  have hc : 48 ≤ c.toNat ∧ c.toNat ≤ 57 := by
    simpa [Char.isDigit, UInt32.le_iff_toNat_le] using List.all_eq_true.mp h c hc
  exact (toLower_eq_iff (by omega)).mpr rfl

theorem isSome_parseUnsigned_iff {max : ℕ} {p : List Char} (h : p.all Char.isDigit = true) :
    (parseUnsigned max p).isSome = true ↔ p ≠ [] ∧ decimalValue p ≤ max := by
  have hplus : p.head? ≠ some '+' := by
    intro hp
    have hmem : '+' ∈ p := List.mem_of_head? hp
    exact absurd (List.all_eq_true.mp h _ hmem) (by decide)
  unfold parseUnsigned
  rw [if_neg hplus]
  simp only [h, Bool.not_true, Bool.or_false, List.isEmpty_iff]
  split_ifs with hnil hmax <;> simp [*]

section name

variable {a : Authority} {n : List Char} {ok : isText isNameChar n = true}

theorem hostText_of_name (hu : a.userinfo = none) (hhost : a.host = .name n ok) :
    hostText a.text = nameText n a.port := by
  have htext : a.text = n ++ a.port.elim [] fun p => ':' :: p := by
    rw [Authority.text, hu, hhost, HostText.text]
    simp
  have hcolon : ':' ∉ asciiLowercase n := by
    rw [mem_asciiLowercase (by decide)]
    exact not_mem_of_isText ok (by decide)
  have hhead : a.text.head? ≠ some '[' := by
    have hnot : '[' ∉ n := not_mem_of_isText ok (by decide)
    rw [htext]
    cases n with
    | nil => cases a.port <;> simp
    | cons c cs =>
        intro hc
        obtain rfl : c = '[' := by simpa using hc
        simp at hnot
  rw [hostText_of_not_bracket (fun c => isWhitespace_of_mem_authority a) hhead, htext]
  cases hport : a.port with
  | none =>
      have hnone : ':' ∉ trimEndMatches '.' (asciiLowercase n) := fun hmem =>
        hcolon (mem_of_mem_trimEndMatches hmem)
      simp only [Option.elim_none, List.append_nil]
      rw [rsplitOnce_eq_none hnone]
      rfl
  | some p =>
      have hdigits := a.port_ok p hport
      have hnot : ∀ c, c.isDigit = false → c ∉ p := fun c hc hmem => by
        rw [List.all_eq_true.mp hdigits c hmem] at hc
        cases hc
      have hlower : trimEndMatches '.' (asciiLowercase (n ++ ':' :: p)) =
          asciiLowercase n ++ ':' :: p := by
        rw [asciiLowercase_append,
          show asciiLowercase (':' :: p) = ':' :: asciiLowercase p from rfl,
          asciiLowercase_digits hdigits, trimEndMatches_append (by decide),
          trimEndMatches_eq_self (hnot '.' rfl)]
      simp only [Option.elim_some, hlower, nameText]
      rw [rsplitOnce_append (hnot ':' rfl)]
      simp only [isSome_parseUnsigned_iff hdigits]
      rfl

/-- **A name is classified as it is written**, with a port that is not read. -/
theorem classifyHost_of_name (hu : a.userinfo = none) (hhost : a.host = .name n ok) :
    classifyHost a.text = classifyText (nameText n a.port) := by
  rw [classifyHost, hostText_of_name hu hhost]

/-- A name with a port that is not read is classified by its beginning. -/
theorem classifyText_of_not_portRead (ok : isText isNameChar n = true) {p : List Char}
    (hdigits : p.all Char.isDigit = true) (hp : ¬PortRead p) :
    classifyText (nameText n (some p)) = prefixClass (asciiLowercase n ++ ':' :: p) := by
  rw [nameText, if_neg hp]
  refine classifyText_of_foreign (x := ':') (by simp) (by decide) ?_
  intro hmem
  have honly : ∀ s ∈ loopbackTexts, ':' ∈ s → s = ':' :: ":1".toList := by decide
  have heq := honly _ hmem (by simp)
  rcases append_cons_inj (c := []) (by
    rw [mem_asciiLowercase (by decide)]
    exact not_mem_of_isText ok (by decide)) (by simp) heq with ⟨-, rfl⟩
  cases hdigits

end name

/-! ## IPv4 addresses -/

section ipv4

variable {n : List Char} {a b c d : ℕ}

/-- An IPv4 address is four numbers and three dots. -/
theorem eq_of_ipv4Address (h : ipv4Address n = some (a, b, c, d)) :
    ∃ pa pb pc pd, n = pa ++ '.' :: (pb ++ '.' :: (pc ++ '.' :: pd)) ∧
      decOctet pa = some a ∧ decOctet pb = some b ∧ decOctet pc = some c ∧
      decOctet pd = some d := by
  obtain ⟨pa, pb, pc, pd, hsplit, ha, hb, hc, hd⟩ := ipv4Address_eq_some h
  refine ⟨pa, pb, pc, pd, ?_, ha, hb, hc, hd⟩
  have hn : ['.'].intercalate (n.splitOn '.') = n := List.intercalate_splitOn '.'
  rw [← hn, hsplit]
  simp [List.intercalate]

theorem dot_not_mem_of_decOctet {p : List Char} (h : decOctet p = some a) : '.' ∉ p :=
  fun hmem => absurd (List.all_eq_true.mp (decOctet_eq_some h).2.1 _ hmem) (by decide)

theorem parseUnsigned_of_decOctet {p : List Char} (h : decOctet p = some a) :
    parseUnsigned 255 p = some a := by
  obtain ⟨hne, hdigits, hvalue, hle⟩ := decOctet_eq_some h
  have hvalue : decimalValue p = a := hvalue
  have hplus : p.head? ≠ some '+' := by
    intro hp
    exact absurd (List.all_eq_true.mp hdigits _ (List.mem_of_head? hp)) (by decide)
  unfold parseUnsigned
  rw [if_neg hplus]
  simp only [hdigits, Bool.not_true, Bool.or_false, List.isEmpty_iff, hne, if_false, hvalue, hle,
    if_true]

theorem asciiLowercase_ipv4 (h : ipv4Address n = some (a, b, c, d)) : asciiLowercase n = n := by
  refine (List.map_congr_left fun x hx => ?_).trans (List.map_id' n)
  have hrange : 46 ≤ x.toNat ∧ x.toNat ≤ 57 := by
    rcases mem_ipv4Address (by rw [h]; rfl) hx with hdigit | rfl
    · have hdigit : 48 ≤ x.toNat ∧ x.toNat ≤ 57 := by
        simpa [Char.isDigit, UInt32.le_iff_toNat_le] using hdigit
      omega
    · decide
  exact (toLower_eq_iff (by omega)).mpr rfl

/-- An IPv4 address does not end with a dot. -/
theorem trimEndMatches_ipv4 (h : ipv4Address n = some (a, b, c, d)) :
    trimEndMatches '.' n = n := by
  obtain ⟨pa, pb, pc, pd, rfl, -, -, -, hd⟩ := eq_of_ipv4Address h
  have hne : pd ≠ [] := (decOctet_eq_some hd).1
  have hlast : pd.getLast hne ≠ '.' := fun heq =>
    dot_not_mem_of_decOctet hd (heq ▸ List.getLast_mem hne)
  have hsplit : pa ++ '.' :: (pb ++ '.' :: (pc ++ '.' :: pd)) =
      (pa ++ '.' :: (pb ++ '.' :: (pc ++ '.' :: pd.dropLast))) ++ pd.getLast hne :: [] := by
    conv_lhs => rw [← List.dropLast_append_getLast hne]
    simp
  rw [hsplit, trimEndMatches_append hlast]
  rfl

/-- An IPv4 address begins with a digit. -/
theorem not_private_of_ipv4 (h : ipv4Address n = some (a, b, c, d)) (m : List Char) :
    ¬("fe80:".toList.isPrefixOf (n ++ m) ∨ "fc".toList.isPrefixOf (n ++ m) ∨
      "fd".toList.isPrefixOf (n ++ m)) := by
  obtain ⟨pa, pb, pc, pd, rfl, ha, -, -, -⟩ := eq_of_ipv4Address h
  obtain ⟨hne, hdigits, -, -⟩ := decOctet_eq_some ha
  obtain ⟨x, rest, rfl⟩ := List.exists_cons_of_ne_nil hne
  have hx : x ≠ 'f' := by
    rintro rfl
    cases hdigits
  simp [List.isPrefixOf, hx.symm]

/-- The numbers of an address that begins like the one of the metadata service. -/
theorem eq_of_metadata_ipv4 (h : ipv4Address n = some (a, b, c, d))
    (hpre : "169.254.169.".toList.isPrefixOf n = true) : a = 169 ∧ b = 254 := by
  obtain ⟨pa, pb, pc, pd, rfl, ha, hb, -, -⟩ := eq_of_ipv4Address h
  obtain ⟨m, hm⟩ := List.isPrefixOf_iff_prefix.mp hpre
  have hm : "169".toList ++ '.' :: ("254".toList ++ '.' :: ("169.".toList ++ m)) =
      pa ++ '.' :: (pb ++ '.' :: (pc ++ '.' :: pd)) := hm
  obtain ⟨rfl, hrest⟩ := append_cons_inj (by decide) (dot_not_mem_of_decOctet ha) hm
  obtain ⟨rfl, -⟩ := append_cons_inj (by decide) (dot_not_mem_of_decOctet hb) hrest
  have h169 : decOctet "169".toList = some 169 := by decide
  have h254 : decOctet "254".toList = some 254 := by decide
  exact ⟨Option.some.inj (ha.symm.trans h169), Option.some.inj (hb.symm.trans h254)⟩

/-- **An IPv4 address gets the class of its numbers**, or is known. -/
theorem classifyText_ipv4 (h : ipv4Address n = some (a, b, c, d)) :
    classifyText n = if n ∈ loopbackTexts then .loopback else classifyQuad a b := by
  have hquad : (splitOn (· == '.') n).map (parseUnsigned 255) =
      [some a, some b, some c, some d] := by
    obtain ⟨pa, pb, pc, pd, hsplit, ha, hb, hc, hd⟩ := ipv4Address_eq_some h
    rw [splitOn_eq_splitOnP, ← List.splitOn_eq_splitOnP, hsplit]
    simp [parseUnsigned_of_decOctet, *]
  have hprivate := not_private_of_ipv4 h []
  rw [List.append_nil] at hprivate
  unfold classifyText
  rw [hquad, if_neg hprivate, loopbackTexts]
  split_ifs with hknown hmetadata
  · rfl
  · obtain ⟨rfl, rfl⟩ := eq_of_metadata_ipv4 h (hmetadata.elim (fun hn => hn ▸ rfl) id)
    rfl
  · rfl

/-- The addresses that are known. -/
theorem ipv4Address_known (h : ipv4Address n = some (a, b, c, d)) (hmem : n ∈ loopbackTexts) :
    a = 127 ∨ a = 0 := by
  have hall : ∀ t ∈ loopbackTexts, (ipv4Address t).all fun q => q.1 == 127 || q.1 == 0 := by
    decide
  have hn := hall n hmem
  rw [h] at hn
  simpa using hn

/-- With a port that is not read, an IPv4 address is classified by its beginning. -/
theorem prefixClass_ipv4 (h : ipv4Address n = some (a, b, c, d)) (p : List Char) :
    prefixClass (n ++ ':' :: p) =
      if "169.254.169.".toList.isPrefixOf n then .metadata else .publicNetwork := by
  rw [prefixClass, if_neg (not_private_of_ipv4 h _), isPrefixOf_append_cons (by decide)]

end ipv4

/-! ## What is taken for the machine itself -/

/-- A known name or address, or four numbers of which the first is 127; the numbers may have zeros
and plus signs in front. -/
def LooksLoopback (host : List Char) : Prop :=
  host = "localhost".toList ∨ host = "0.0.0.0".toList ∨
    ∃ b c d, (splitOn (· == '.') host).map (parseUnsigned 255) =
      [some 127, some b, some c, some d]

theorem classifyText_eq_loopback_iff {host : List Char} (hcolon : ':' ∉ host) :
    classifyText host = .loopback ↔ LooksLoopback host := by
  constructor
  · intro h
    by_cases hknown : host ∈ loopbackTexts
    · simp only [loopbackTexts, List.mem_cons, List.not_mem_nil, or_false] at hknown
      rcases hknown with rfl | rfl | rfl | rfl
      · exact .inl rfl
      · exact .inr (.inr ⟨0, 0, 1, by decide⟩)
      · exact .inr (.inl rfl)
      · simp at hcolon
    · rw [loopbackTexts] at hknown
      unfold classifyText at h
      rw [if_neg hknown] at h
      split_ifs at h
      split at h
      · next a b c d hquad =>
          obtain rfl : a = 127 := by
            unfold classifyQuad at h
            split_ifs at h with ha
            exact ha
          exact .inr (.inr ⟨b, c, d, hquad⟩)
      · cases h
  · rintro (rfl | rfl | ⟨b, c, d, hquad⟩)
    · rfl
    · rfl
    · have hmetadata : ¬(host = "169.254.169.254".toList ∨
          "169.254.169.".toList.isPrefixOf host = true) := by
        intro hpre
        obtain ⟨m, rfl⟩ := List.isPrefixOf_iff_prefix.mp (hpre.elim (fun hn => hn ▸ rfl) id)
        have h169 : parseUnsigned 255 "169".toList = some 169 := by decide
        rw [show "169.254.169.".toList ++ m = "169".toList ++ '.' :: ("254.169.".toList ++ m)
          from rfl, splitOn_eq_splitOnP, List.splitOnP_append_cons _ _ rfl,
          List.splitOnP_eq_singleton (by simp)] at hquad
        have hfirst : parseUnsigned 255 "169".toList = some 127 := (List.cons.inj hquad).1
        rw [h169] at hfirst
        simp at hfirst
      have hprivate : ¬("fe80:".toList.isPrefixOf host ∨ "fc".toList.isPrefixOf host ∨
          "fd".toList.isPrefixOf host) := by
        intro hpre
        have hf : 'f' ∈ host := by
          rcases hpre with h | h | h <;> obtain ⟨m, rfl⟩ := List.isPrefixOf_iff_prefix.mp h <;> simp
        exact absurd (mem_of_quad hquad hf) (by decide)
      unfold classifyText
      rw [if_neg hmetadata, if_neg hprivate, hquad]
      split_ifs <;> rfl

end AuraLauncher.Mcp
