import AuraLauncher.Agent.PromptCatalog
import AuraLauncher.Domain.PathSegments
import AuraLauncher.Domain.Splitting
import AuraLauncher.Search.Rank
import Mathlib.Data.List.DropRight

/-!
# Normalised queries

`launcher-search/src/intelligence.rs`, `normalize_query_v2`: a query is cut to its first 512 bytes,
every run of whitespace becomes one space, and every other character its lower case. The cut comes
first, and some characters are longer in lower case.

* `NormalizedQuery`, `normalizeQueryV2` — the function.
* `QueryLaws` — what the results rely on of `char::to_lowercase`.
* `normalText_eq` — the text: the words of the query in lower case, with a space between them.
* `growth`, `spare` — the bytes that lower case adds, and those that there is room for.
* `IsNormal` — the bound, the cut and the fixpoint.
* `isNormal_iff` — a query is normalised when lower case adds no more than there is room for.
* `not_isNormal_dotted` — 256 capital dotted `I`.
-/

namespace AuraLauncher.Search

open AuraLauncher.Agent (takeBytes takeBytes_isPrefix takeBytes_eq_self_iff size_ofList_cons)
open AuraLauncher.Domain

/-- Source: `intelligence.rs`, `NormalizedQuery`. -/
structure NormalizedQuery where
  raw : String
  normalized : String
  tokens : List String
  hasWildcard : Bool
  hasPathSeparator : Bool

/-- Source: `intelligence.rs`, `MAX_QUERY_BYTES`. -/
def MAX_QUERY_BYTES : ℕ := 512

section

variable (std : RustStd)

/-- One character: the text so far, and whether the last character was whitespace. Source:
`intelligence.rs`, the loop of `normalize_query_v2`. -/
def normalStep (text : List Char × Bool) (ch : Char) : List Char × Bool :=
  if isWhitespace ch then
    (if !text.1.isEmpty && !text.2 then text.1 ++ [' '] else text.1, true)
  else (text.1 ++ std.toLowercase ch, false)

/-- The normalised text, without the spaces that its end is popped of. -/
def normalText (raw : List Char) : List Char :=
  (raw.foldl (normalStep std) ([], false)).1.rdropWhile (· == ' ')

/-- The pieces of a normalised text between single spaces. -/
def queryTokens (normalized : List Char) : List String :=
  ((splitOn (· == ' ') normalized).filter fun t => !t.isEmpty).map String.ofList

/-- Source: `intelligence.rs`, `normalize_query_v2`. -/
def normalizeQueryV2 (raw : String) : NormalizedQuery :=
  let raw := takeBytes (min MAX_QUERY_BYTES raw.utf8ByteSize) raw.toList
  let normalized := normalText std raw
  { raw := String.ofList raw
    normalized := String.ofList normalized
    tokens := queryTokens normalized
    hasWildcard := raw.contains '*' || raw.contains '?'
    hasPathSeparator := raw.contains '/' || raw.contains '\\' }

/-! ## What is relied on -/

/-- What the normalisation relies on of `char::to_lowercase`, beside what path identities do:
nothing but whitespace has whitespace in its lower case. -/
structure QueryLaws : Prop extends LowercaseLaws std where
  nonspace : ∀ c, isWhitespace c = false → ∀ d ∈ std.toLowercase c, isWhitespace d = false

/-- The bytes of a text. -/
def byteLength (s : List Char) : ℕ := (s.map Char.utf8Size).sum

/-- The characters of a text that are no whitespace. -/
def inked (s : List Char) : List Char := s.filter fun c => !isWhitespace c

/-- The bytes that lower case adds to a text, less those that it saves. -/
def growth (s : List Char) : ℤ := byteLength (lowered std (inked s)) - byteLength (inked s)

/-- The bytes that there is room for: those up to the bound, and those of the whitespace beyond one
byte between two words. -/
def spare (s : List Char) : ℤ :=
  (MAX_QUERY_BYTES - byteLength s : ℤ) + byteLength (s.filter isWhitespace) -
    ((splitWhitespace s).length - 1 : ℕ)

/-- The text is within its bound, the query is cut after the last character that ends within it,
and normalising the text changes neither it nor its tokens. -/
structure IsNormal (raw : String) : Prop where
  bounded : (normalizeQueryV2 std raw).normalized.utf8ByteSize ≤ MAX_QUERY_BYTES
  cut : (normalizeQueryV2 std raw).raw.toList <+: raw.toList ∧
    ∀ p, p <+: raw.toList → byteLength p ≤ MAX_QUERY_BYTES →
      p <+: (normalizeQueryV2 std raw).raw.toList
  again : (normalizeQueryV2 std (normalizeQueryV2 std raw).normalized).normalized =
      (normalizeQueryV2 std raw).normalized ∧
    (normalizeQueryV2 std (normalizeQueryV2 std raw).normalized).tokens =
      (normalizeQueryV2 std raw).tokens

end

/-! ## The cut -/

theorem utf8ByteSize_ofList (s : List Char) : (String.ofList s).utf8ByteSize = byteLength s := by
  induction s with
  | nil => rfl
  | cons c cs ih => rw [size_ofList_cons, ih, byteLength, byteLength, List.map_cons, List.sum_cons]

theorem byteLength_append (s t : List Char) :
    byteLength (s ++ t) = byteLength s + byteLength t := by
  simp [byteLength]

/-- The prefix that is kept is the longest within the bytes. -/
theorem isPrefix_takeBytes {n : ℕ} {s p : List Char} (hp : p <+: s) (hle : byteLength p ≤ n) :
    p <+: takeBytes n s := by
  induction s generalizing n p with
  | nil => rwa [takeBytes]
  | cons c cs ih =>
      cases p with
      | nil => exact List.nil_prefix
      | cons d p =>
          obtain ⟨rfl, htail⟩ := List.cons_prefix_cons.mp hp
          have hsize : byteLength (d :: p) = d.utf8Size + byteLength p := rfl
          rw [takeBytes, if_pos (by omega)]
          exact List.cons_prefix_cons.mpr ⟨rfl, ih htail (by omega)⟩

/-- A text is cut at the bound or at its end, whichever comes first. -/
theorem takeBytes_min (n : ℕ) (s : String) :
    takeBytes (min n s.utf8ByteSize) s.toList = takeBytes n s.toList := by
  have hsize : s.utf8ByteSize = (String.ofList s.toList).utf8ByteSize := by
    rw [String.ofList_toList]
  rcases le_total n s.utf8ByteSize with hle | hle
  · rw [min_eq_left hle]
  · rw [min_eq_right hle, takeBytes_eq_self_iff.mpr hsize.ge,
      takeBytes_eq_self_iff.mpr (hsize ▸ hle)]

/-! ## Words -/

/-- The words of a text hold its characters, but for the whitespace. -/
theorem flatten_splitWhitespace (s : List Char) : (splitWhitespace s).flatten = inked s := by
  induction s with
  | nil => rfl
  | cons c cs ih =>
      obtain ⟨piece, pieces, hsplit, -⟩ := splitOn_infix isWhitespace cs
      unfold splitWhitespace inked at *
      rw [splitOn, List.filter_cons, ← ih, hsplit]
      cases hc : isWhitespace c with
      | true => simp
      | false => cases piece <;> simp

theorem splitWhitespace_ne_nil {s w : List Char} (h : w ∈ splitWhitespace s) : w ≠ [] := by
  simpa using (List.mem_filter.mp h).2

/-- A word has no whitespace in it. -/
theorem not_isWhitespace_of_mem {s w : List Char} (h : w ∈ splitWhitespace s) {c : Char}
    (hc : c ∈ w) : isWhitespace c = false := by
  have hmem : c ∈ (splitWhitespace s).flatten := List.mem_flatten.mpr ⟨w, h, hc⟩
  rw [flatten_splitWhitespace] at hmem
  simpa using (List.mem_filter.mp hmem).2

/-- Words with a space between them are the words of the text. -/
theorem splitWhitespace_intercalate {ws : List (List Char)} (hne : ∀ w ∈ ws, w ≠ [])
    (hword : ∀ w ∈ ws, ∀ c ∈ w, isWhitespace c = false) :
    splitWhitespace (List.intercalate [' '] ws) = ws := by
  induction ws with
  | nil => rfl
  | cons w ws ih =>
      rw [List.forall_mem_cons] at hne hword
      have hfirst : (splitOn isWhitespace w).filter (fun t => !t.isEmpty) = [w] := by
        rw [splitOn_of_forall hword.1]
        simp [hne.1]
      cases ws with
      | nil => simpa [splitWhitespace] using hfirst
      | cons w' ws =>
          have hrest := ih hne.2 hword.2
          unfold splitWhitespace at hrest ⊢
          rw [List.intercalate_cons_cons, List.append_assoc, List.singleton_append,
            splitOn_append_cons w _ (by decide), List.filter_append, hfirst, hrest]
          rfl

/-! ## The normalised text -/

section laws

variable {std : RustStd} (h : QueryLaws std)

/-- A text that does not end in a space, nor is empty. -/
def Solid (s : List Char) : Prop := ∃ front c, s = front ++ [c] ∧ c ≠ ' '

theorem Solid.ne_nil {s : List Char} (hs : Solid s) : s ≠ [] := by
  obtain ⟨front, c, rfl, -⟩ := hs
  simp

/-- Nothing is popped of a solid text, -/
theorem Solid.rdropWhile {s : List Char} (hs : Solid s) : s.rdropWhile (· == ' ') = s := by
  obtain ⟨front, c, rfl, hc⟩ := hs
  exact List.rdropWhile_concat_neg _ _ _ (by simpa using hc)

/-- and of a solid text with a space the space. -/
theorem Solid.rdropWhile_space {s : List Char} (hs : Solid s) :
    (s ++ [' ']).rdropWhile (· == ' ') = s := by
  rw [List.rdropWhile_concat_pos _ _ _ (by decide), hs.rdropWhile]

include h in
/-- The lower case of a character that is no whitespace is solid. -/
theorem QueryLaws.solid_append {c : Char} (hc : isWhitespace c = false) (s : List Char) :
    Solid (s ++ std.toLowercase c) := by
  obtain ⟨front, d, hlower⟩ := (List.eq_nil_or_concat (std.toLowercase c)).resolve_left (h.ne_nil c)
  refine ⟨s ++ front, d, by rw [hlower]; simp, ?_⟩
  rintro rfl
  have hspace := h.nonspace c hc ' ' (by rw [hlower]; simp)
  exact absurd hspace (by decide)

/-- The words that follow a word, each after a space. -/
def spaced (std : RustStd) (ws : List (List Char)) : List Char :=
  ws.flatMap fun w => ' ' :: lowered std w

theorem intercalate_lowered (w : List Char) (ws : List (List Char)) :
    List.intercalate [' '] ((w :: ws).map (lowered std)) = lowered std w ++ spaced std ws := by
  induction ws generalizing w with
  | nil => simp [List.intercalate, spaced]
  | cons w' ws ih =>
      rw [List.map_cons, List.map_cons, List.intercalate_cons_cons, ← List.map_cons, ih]
      simp [spaced]

/-- A letter is added in lower case. -/
theorem normalStep_of_ink {c : Char} (hc : isWhitespace c = false) (text : List Char)
    (last : Bool) : normalStep std (text, last) c = (text ++ std.toLowercase c, false) := by
  simp [normalStep, hc]

/-- Whitespace adds a space behind a word. -/
theorem normalStep_of_solid {c : Char} (hc : isWhitespace c = true) {text : List Char}
    (ht : Solid text) : normalStep std (text, false) c = (text ++ [' '], true) := by
  simp [normalStep, hc, ht.ne_nil]

/-- Whitespace adds nothing behind whitespace, nor at the start. -/
theorem normalStep_of_space {c : Char} (hc : isWhitespace c = true) {text : List Char} {last : Bool}
    (h : text = [] ∨ last = true) : normalStep std (text, last) c = (text, true) := by
  rcases h with rfl | rfl <;> simp [normalStep, hc]

include h in
/-- **The loop**, from within a word, from behind a word, and from the start: what is left of the
query adds its words. -/
theorem QueryLaws.foldl_normalStep (s : List Char) :
    (∀ text, Solid text → ∃ piece pieces, splitOn isWhitespace s = piece :: pieces ∧
      (s.foldl (normalStep std) (text, false)).1.rdropWhile (· == ' ') =
        text ++ lowered std piece ++ spaced std (pieces.filter fun t => !t.isEmpty)) ∧
    (∀ text, Solid text →
      (s.foldl (normalStep std) (text ++ [' '], true)).1.rdropWhile (· == ' ') =
        text ++ spaced std (splitWhitespace s)) ∧
    ∀ last, (s.foldl (normalStep std) ([], last)).1.rdropWhile (· == ' ') =
      List.intercalate [' '] ((splitWhitespace s).map (lowered std)) := by
  induction s with
  | nil =>
      refine ⟨fun text ht => ⟨[], [], rfl, ?_⟩, fun text ht => ?_, fun last => rfl⟩
      · simpa [lowered, spaced] using ht.rdropWhile
      · simpa [splitWhitespace, splitOn, spaced] using ht.rdropWhile_space
  | cons c s ih =>
      obtain ⟨hwithin, hbehind, hstart⟩ := ih
      obtain ⟨piece, pieces, hsplit, -⟩ := splitOn_infix isWhitespace s
      cases hc : isWhitespace c with
      | true =>
          have hwords : splitWhitespace (c :: s) = splitWhitespace s := by
            simp [splitWhitespace, splitOn, hc]
          refine ⟨fun text ht => ⟨[], splitOn isWhitespace s, by rw [splitOn, if_pos hc], ?_⟩,
            fun text ht => ?_, fun last => ?_⟩
          · rw [List.foldl_cons, normalStep_of_solid hc ht, hbehind text ht]
            simp [lowered, splitWhitespace]
          · rw [List.foldl_cons, normalStep_of_space hc (.inr rfl), hbehind text ht, hwords]
          · rw [List.foldl_cons, normalStep_of_space hc (.inl rfl), hstart true, hwords]
      | false =>
          have hpieces : splitOn isWhitespace (c :: s) = (c :: piece) :: pieces := by
            simp [splitOn, hc, hsplit]
          have hwords : splitWhitespace (c :: s) =
              (c :: piece) :: pieces.filter fun t => !t.isEmpty := by
            simp [splitWhitespace, hpieces]
          have hlower : lowered std (c :: piece) = std.toLowercase c ++ lowered std piece := rfl
          -- The character goes to the word it is in, or starts one.
          have hnext : ∀ text last, (((c :: s).foldl (normalStep std) (text, last)).1.rdropWhile
              (· == ' ')) = text ++ lowered std (c :: piece) ++
                spaced std (pieces.filter fun t => !t.isEmpty) := by
            intro text last
            obtain ⟨piece', pieces', hsplit', hloop⟩ := hwithin _ (h.solid_append hc text)
            obtain ⟨rfl, rfl⟩ := List.cons.inj (hsplit'.symm.trans hsplit)
            rw [List.foldl_cons, normalStep_of_ink hc, hloop, hlower, List.append_assoc text]
          refine ⟨fun text _ => ⟨c :: piece, pieces, hpieces, hnext text false⟩,
            fun text _ => ?_, fun last => ?_⟩
          · rw [hnext, hwords]
            simp [spaced]
          · rw [hnext, hwords, intercalate_lowered, List.nil_append]

include h in
/-- **The normalised text**: the words in lower case, with a space between them. -/
theorem QueryLaws.normalText_eq (s : List Char) : normalText std s =
    List.intercalate [' '] ((splitWhitespace s).map (lowered std)) :=
  (h.foldl_normalStep s).2.2 false

/-! ## Its bytes -/

theorem byteLength_intercalate (ws : List (List Char)) :
    byteLength (List.intercalate [' '] ws) = byteLength ws.flatten + (ws.length - 1) := by
  induction ws with
  | nil => rfl
  | cons w ws ih =>
      cases ws with
      | nil => simp [List.intercalate]
      | cons w' ws =>
          have hspace : byteLength (' ' :: List.intercalate [' '] (w' :: ws)) =
              1 + byteLength (List.intercalate [' '] (w' :: ws)) := rfl
          have hflatten : byteLength (w :: w' :: ws).flatten =
              byteLength w + byteLength (w' :: ws).flatten := byteLength_append _ _
          rw [List.intercalate_cons_cons, List.append_assoc, List.singleton_append,
            byteLength_append, hspace, ih, hflatten]
          simp only [List.length_cons]
          omega

theorem flatten_map_lowered (ws : List (List Char)) :
    (ws.map (lowered std)).flatten = lowered std ws.flatten := by
  induction ws with
  | nil => rfl
  | cons w ws ih =>
      rw [List.map_cons, List.flatten_cons, ih, List.flatten_cons, lowered, lowered, lowered,
        List.flatMap_append]

theorem byteLength_inked (s : List Char) :
    byteLength (s.filter isWhitespace) + byteLength (inked s) = byteLength s := by
  rw [← byteLength_append, byteLength, byteLength]
  exact ((List.filter_append_perm isWhitespace s).map Char.utf8Size).sum_nat

include h in
/-- Lower case adds `growth` bytes, and the bound has room for `spare` more. -/
theorem QueryLaws.byteLength_normalText_le_iff (s : List Char) :
    byteLength (normalText std s) ≤ MAX_QUERY_BYTES ↔ growth std s ≤ spare s := by
  have hparts := byteLength_inked s
  rw [h.normalText_eq, byteLength_intercalate, flatten_map_lowered, flatten_splitWhitespace,
    List.length_map, growth, spare]
  omega

/-! ## Normalising again -/

include h in
/-- The words of the normalised text are in lower case. -/
theorem QueryLaws.normalText_normalText (s : List Char) :
    normalText std (normalText std s) = normalText std s := by
  have hwords : splitWhitespace (List.intercalate [' '] ((splitWhitespace s).map (lowered std))) =
      (splitWhitespace s).map (lowered std) := by
    refine splitWhitespace_intercalate (fun w hw => ?_) fun w hw c hc => ?_
    · obtain ⟨v, hv, rfl⟩ := List.mem_map.mp hw
      obtain ⟨c, v, rfl⟩ := List.exists_cons_of_ne_nil (splitWhitespace_ne_nil hv)
      exact List.append_ne_nil_of_left_ne_nil (h.ne_nil c) _
    · obtain ⟨v, hv, rfl⟩ := List.mem_map.mp hw
      obtain ⟨d, hd, hc⟩ := List.mem_flatMap.mp hc
      exact h.nonspace d (not_isWhitespace_of_mem hv hd) c hc
  rw [h.normalText_eq, h.normalText_eq, hwords, List.map_map]
  refine congrArg _ (List.map_congr_left fun w _ => ?_)
  exact h.lowered_lowered w

/-- What is made of a query, by what is kept of it. -/
theorem normalizeQueryV2_eq (std : RustStd) (raw : String) :
    (normalizeQueryV2 std raw).raw = String.ofList (takeBytes MAX_QUERY_BYTES raw.toList) ∧
      (normalizeQueryV2 std raw).normalized =
        String.ofList (normalText std (takeBytes MAX_QUERY_BYTES raw.toList)) ∧
      (normalizeQueryV2 std raw).tokens =
        queryTokens (normalText std (takeBytes MAX_QUERY_BYTES raw.toList)) := by
  rw [normalizeQueryV2, takeBytes_min]
  exact ⟨rfl, rfl, rfl⟩

/-- **When a query is normalised**: when lower case adds no more bytes to what is kept of it than
there is room for. -/
theorem isNormal_iff (h : QueryLaws std) (raw : String) : IsNormal std raw ↔
    growth std (takeBytes MAX_QUERY_BYTES raw.toList) ≤
      spare (takeBytes MAX_QUERY_BYTES raw.toList) := by
  obtain ⟨hraw, htext, htokens⟩ := normalizeQueryV2_eq std raw
  rw [← h.byteLength_normalText_le_iff, ← utf8ByteSize_ofList, ← htext]
  refine ⟨fun hnormal => hnormal.bounded, fun hbounded => ⟨hbounded, ?_, ?_⟩⟩
  · rw [hraw, String.toList_ofList]
    exact ⟨takeBytes_isPrefix _ _, fun p hp hle => isPrefix_takeBytes hp hle⟩
  · obtain ⟨-, htext', htokens'⟩ := normalizeQueryV2_eq std (normalizeQueryV2 std raw).normalized
    -- The text is short enough to be kept whole.
    have hwhole : takeBytes MAX_QUERY_BYTES (normalizeQueryV2 std raw).normalized.toList =
        normalText std (takeBytes MAX_QUERY_BYTES raw.toList) := by
      rw [htext] at hbounded ⊢
      rw [String.toList_ofList, takeBytes_eq_self_iff.mpr hbounded]
    rw [htext', htokens', htokens, hwhole, h.normalText_normalText]
    exact ⟨htext.symm, rfl⟩

end laws

/-! ## Queries that grow -/

/-- The laws hold of the standard library on ASCII. -/
theorem queryLaws_ascii : QueryLaws RustStd.ascii where
  toLowercaseLaws := lowercaseLaws_ascii
  nonspace c hc d hd := by
    obtain rfl : d = c.toLower := List.mem_singleton.mp hd
    rcases toLower_cases c with ⟨hlow, hhigh, hlower⟩ | ⟨-, hself⟩
    · have hletter : 97 ≤ c.toLower.toNat ∧ c.toLower.toNat ≤ 122 := by omega
      simp only [isWhitespace, Bool.or_eq_false_iff, Bool.and_eq_false_iff, beq_eq_false_iff_ne,
        decide_eq_false_iff_not]
      omega
    · rwa [hself]

/-- A query with capitals, and with whitespace around and between its words. -/
theorem isNormal_chrome : IsNormal RustStd.ascii "  Chrome \t  Beta " :=
  (isNormal_iff queryLaws_ascii _).mpr (by decide +kernel)

/-- The standard library on ASCII and on the capital dotted `I`, which is an `i` and a combining dot
in lower case. -/
def dottedStd : RustStd :=
  { RustStd.ascii with toLowercase := fun c => if c = 'İ' then ['i', '\u0307'] else [c.toLower] }

/-- No other character is lowered to the capital dotted `I`. -/
theorem toLower_ne_dotted {c : Char} (hc : c ≠ 'İ') : c.toLower ≠ 'İ' := by
  intro heq
  rcases toLower_cases c with ⟨hlow, hhigh, hlower⟩ | ⟨-, hself⟩
  · rw [heq] at hlower
    have hdotted : 'İ'.toNat = 304 := rfl
    omega
  · exact hc (hself.symm.trans heq)

/-- The lower case on this library: the two characters of the dotted `I`, or that on ASCII. -/
theorem mem_toLowercase_dotted {c d : Char} (hd : d ∈ dottedStd.toLowercase c) :
    (d = 'i' ∨ d = '\u0307') ∨ c ≠ 'İ' ∧ d ∈ [c.toLower] := by
  by_cases hc : c = 'İ'
  · exact .inl (by simpa [dottedStd, hc] using hd)
  · exact .inr ⟨hc, by simpa [dottedStd, hc] using hd⟩

theorem queryLaws_dotted : QueryLaws dottedStd where
  ascii c hc := by
    have hne : c ≠ 'İ' := by
      rintro rfl
      exact absurd hc (by decide)
    exact if_neg hne
  ne_nil c := by
    show (if c = 'İ' then ['i', '\u0307'] else [c.toLower]) ≠ []
    split_ifs <;> exact List.cons_ne_nil _ _
  lower c d hd := by
    rcases mem_toLowercase_dotted hd with (rfl | rfl) | ⟨hc, hd⟩
    · decide
    · decide
    · have hne : d ≠ 'İ' := List.mem_singleton.mp hd ▸ toLower_ne_dotted hc
      exact (if_neg hne).trans (lowercaseLaws_ascii.lower c d hd)
  syntactic c d hd hsyn := by
    rcases mem_toLowercase_dotted hd with (rfl | rfl) | ⟨-, hd⟩
    · exact absurd hsyn (by decide)
    · exact absurd hsyn (by decide)
    · exact lowercaseLaws_ascii.syntactic c d hd hsyn
  nonspace c hspace d hd := by
    rcases mem_toLowercase_dotted hd with (rfl | rfl) | ⟨-, hd⟩
    · decide
    · decide
    · exact queryLaws_ascii.nonspace c hspace d hd

/-- As many of them as are kept take half as many bytes again in lower case. -/
theorem not_isNormal_dotted :
    ¬ ∀ std : RustStd, QueryLaws std → ∀ raw : String, IsNormal std raw := by
  intro h
  have hbounded := (h dottedStd queryLaws_dotted (String.ofList (List.replicate 256 'İ'))).bounded
  rw [(normalizeQueryV2_eq _ _).2.1, utf8ByteSize_ofList, String.toList_ofList,
    queryLaws_dotted.byteLength_normalText_le_iff] at hbounded
  exact absurd hbounded (by decide +kernel)

end AuraLauncher.Search
