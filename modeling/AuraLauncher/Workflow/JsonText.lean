import AuraLauncher.Workflow.Json

/-!
# The brackets of JSON texts

A text of a value closes every bracket it opens, and that of an array or an object closes its first
bracket with its last character. So an array cut short is not the text of any array.

* `Scan`, `scan` — a reader that follows the brackets outside of strings.
* `Keeps` — a text that leaves the reader at the depth it started at, and never takes it below.
* `SerdeJson.PlainFloats` — the texts of floats have no quotes and no brackets.
* `keeps_text` — the texts of values keep the depth.
* `not_array_text_of_prefix` — no text of an array is a proper part at the front of another.
* `Printable`, `printable_text` — the texts of values have no control characters.
-/

namespace AuraLauncher.Workflow

/-! ## Following the brackets -/

/-- Where a reader is: outside of strings, inside of one, or behind a backslash in one. -/
inductive ScanMode where
  | plain
  | inString
  | escaped
deriving DecidableEq, Repr

/-- The depth of the brackets that are open, and the mode. -/
structure Scan where
  depth : ℕ
  mode : ScanMode
deriving DecidableEq, Repr

/-- One character is read. -/
def Scan.next (s : Scan) (c : Char) : Scan :=
  match s.mode with
  | .plain =>
      if c = '"' then { s with mode := .inString }
      else if c = '[' ∨ c = '\x7b' then { s with depth := s.depth + 1 }
      else if c = ']' ∨ c = '\x7d' then { s with depth := s.depth - 1 }
      else s
  | .inString =>
      if c = '\\' then { s with mode := .escaped }
      else if c = '"' then { s with mode := .plain }
      else s
  | .escaped => { s with mode := .inString }

/-- A text is read. -/
def scan (s : Scan) (text : List Char) : Scan := text.foldl Scan.next s

theorem scan_append (s : Scan) (a b : List Char) : scan s (a ++ b) = scan (scan s a) b :=
  List.foldl_append

/-- The text takes the reader from mode `m` to mode `m'`, at the depth it started at, and never
below. -/
def Keeps (m m' : ScanMode) (text : List Char) : Prop :=
  ∀ d, scan ⟨d, m⟩ text = ⟨d, m'⟩ ∧ ∀ p, p <+: text → d ≤ (scan ⟨d, m⟩ p).depth

namespace Keeps

variable {m m' m'' : ScanMode} {a b : List Char}

theorem nil : Keeps m m [] := by
  intro d
  refine ⟨rfl, fun p hp => ?_⟩
  rw [List.prefix_nil.mp hp]
  exact Nat.le_refl d

theorem append (ha : Keeps m m' a) (hb : Keeps m' m'' b) : Keeps m m'' (a ++ b) := by
  intro d
  obtain ⟨hend, hfront⟩ := ha d
  obtain ⟨hend', hfront'⟩ := hb d
  refine ⟨by rw [scan_append, hend, hend'], fun p hp => ?_⟩
  rcases List.prefix_or_prefix_of_prefix hp (List.prefix_append a b) with hp' | ⟨q, rfl⟩
  · exact hfront p hp'
  · rw [scan_append, hend]
    exact hfront' q ((List.prefix_append_right_inj a).mp hp)

/-- A character that changes no depth. -/
theorem singleton {c : Char} (h : ∀ d, Scan.next ⟨d, m⟩ c = ⟨d, m'⟩) : Keeps m m' [c] := by
  intro d
  refine ⟨h d, fun p hp => ?_⟩
  rcases List.prefix_cons_iff.mp hp with rfl | ⟨t, rfl, ht⟩
  · exact Nat.le_refl d
  · rw [List.prefix_nil.mp ht]
    exact (congrArg Scan.depth (h d)).ge

theorem of_forall (h : ∀ c ∈ a, ∀ d, Scan.next ⟨d, m⟩ c = ⟨d, m⟩) : Keeps m m a := by
  induction a with
  | nil => exact nil
  | cons c cs ih =>
      have hc := singleton (h c List.mem_cons_self)
      exact hc.append (ih fun c' hc' => h c' (List.mem_cons_of_mem c hc'))

theorem flatMap {f : Char → List Char} (h : ∀ c ∈ a, Keeps m m (f c)) :
    Keeps m m (a.flatMap f) := by
  induction a with
  | nil => exact nil
  | cons c cs ih =>
      rw [List.flatMap_cons]
      have hc := h c List.mem_cons_self
      exact hc.append (ih fun c' hc' => h c' (List.mem_cons_of_mem c hc'))

end Keeps

/-! ## The texts of values -/

/-- A character without a meaning for the brackets. -/
def IsPlain (c : Char) : Prop := c ∉ ['"', '[', ']', '\x7b', '\x7d']

theorem keeps_of_plain {text : List Char} (h : ∀ c ∈ text, IsPlain c) :
    Keeps .plain .plain text := by
  refine Keeps.of_forall fun c hc d => ?_
  have hplain := h c hc
  simp only [IsPlain, List.mem_cons, List.not_mem_nil, or_false, not_or] at hplain
  obtain ⟨hquote, hopen, hclose, hbrace, hbrace'⟩ := hplain
  simp [Scan.next, hquote, hopen, hclose, hbrace, hbrace']

/-- The texts of floats are digits, signs, points and exponents. -/
def SerdeJson.PlainFloats (sj : SerdeJson) : Prop :=
  ∀ x, ∀ c ∈ (sj.floatText x).toList, IsPlain c

theorem SerdeJson.plainFloats_withoutFloats : SerdeJson.withoutFloats.PlainFloats :=
  fun _ _ hc => absurd hc List.not_mem_nil

theorem isPlain_of_isDigit {c : Char} (h : c.isDigit = true) : IsPlain c := by
  simp only [IsPlain, List.mem_cons, List.not_mem_nil, or_false]
  rintro (rfl | rfl | rfl | rfl | rfl) <;> exact absurd h (by decide)

theorem isPlain_of_mem_nat {n : ℕ} {c : Char} (hc : c ∈ (toString n).toList) : IsPlain c := by
  have hmem : c ∈ Nat.toDigits 10 n := by simpa [toString, Nat.repr] using hc
  exact isPlain_of_isDigit (Nat.isDigit_of_mem_toDigits (by decide) (by decide) hmem)

theorem isPlain_of_mem_int {z : ℤ} {c : Char} (hc : c ∈ (toString z).toList) : IsPlain c := by
  cases z with
  | ofNat n => exact isPlain_of_mem_nat hc
  | negSucc n =>
      have htext : toString (Int.negSucc n) = "-" ++ toString (n + 1) := rfl
      rw [htext, String.toList_append] at hc
      rcases List.mem_append.mp hc with hc | hc
      · have hminus : c = '-' := by simpa using hc
        simp [IsPlain, hminus]
      · exact isPlain_of_mem_nat hc

theorem keeps_hexDigit (n : ℕ) : Keeps .inString .inString [hexDigit n] := by
  have hall : ("0123456789abcdef".toList.all fun c => c != '\\' && c != '"') = true := by decide
  have hdigit : hexDigit n ≠ '\\' ∧ hexDigit n ≠ '"' := by
    unfold hexDigit
    rw [List.getD_eq_getElem?_getD]
    cases hget : "0123456789abcdef".toList[n]? with
    | none => decide
    | some c => simpa using List.all_eq_true.mp hall c (List.mem_of_getElem? hget)
  refine Keeps.singleton fun d => ?_
  simp [Scan.next, hdigit]

theorem keeps_escapeChar (c : Char) : Keeps .inString .inString (escapeChar c) := by
  have hslash : Keeps .inString .escaped ['\\'] := Keeps.singleton fun _ => rfl
  have hpair : ∀ e, Keeps .inString .inString ['\\', e] := fun e =>
    hslash.append (b := [e]) (Keeps.singleton fun _ => rfl)
  have hzero : Keeps .inString .inString ['0'] := Keeps.singleton fun _ => rfl
  unfold escapeChar
  split_ifs with hquote hbackslash
  all_goals try exact hpair _
  · exact (hpair 'u').append (hzero.append
      (hzero.append ((keeps_hexDigit _).append (keeps_hexDigit _))))
  · refine Keeps.singleton fun d => ?_
    simp [Scan.next, hquote, hbackslash]

theorem keeps_quote (s : String) : Keeps .plain .plain (quote s).toList := by
  have hbody : Keeps .inString .inString (s.toList.flatMap escapeChar) :=
    Keeps.flatMap fun c _ => keeps_escapeChar c
  have hopen : Keeps .plain .inString ['"'] := Keeps.singleton fun _ => rfl
  have hclose : Keeps .inString .plain ['"'] := Keeps.singleton fun _ => rfl
  have htext : (quote s).toList = ['"'] ++ (s.toList.flatMap escapeChar ++ ['"']) := by
    simp [quote]
  rw [htext]
  exact hopen.append (hbody.append hclose)

/-- A text in brackets: the depth inside is one more. -/
theorem Keeps.brackets {text : List Char} (h : Keeps .plain .plain text) (opening closing : Char)
    (hopen : ∀ d, Scan.next ⟨d, .plain⟩ opening = ⟨d + 1, .plain⟩)
    (hclose : ∀ d, Scan.next ⟨d + 1, .plain⟩ closing = ⟨d, .plain⟩) :
    Keeps .plain .plain (opening :: (text ++ [closing])) ∧
      ∀ d p, p <+: opening :: (text ++ [closing]) → p ≠ [] → p ≠ opening :: (text ++ [closing]) →
        d + 1 ≤ (scan ⟨d, .plain⟩ p).depth := by
  have hinside : ∀ d p, p <+: opening :: (text ++ [closing]) → p ≠ [] →
      p ≠ opening :: (text ++ [closing]) → d + 1 ≤ (scan ⟨d, .plain⟩ p).depth := by
    intro d p hp hne hproper
    rcases List.prefix_cons_iff.mp hp with rfl | ⟨t, rfl, ht⟩
    · exact absurd rfl hne
    · rcases List.prefix_concat_iff.mp ht with rfl | ht
      · exact absurd rfl hproper
      · have hrest := (h (d + 1)).2 t ht
        simpa [scan, hopen] using hrest
  refine ⟨fun d => ?_, hinside⟩
  have hend : scan ⟨d, .plain⟩ (opening :: (text ++ [closing])) = ⟨d, .plain⟩ := by
    have hall : scan ⟨d, .plain⟩ (opening :: (text ++ [closing])) =
        scan (scan ⟨d + 1, .plain⟩ text) [closing] := by
      rw [← scan_append, ← hopen]
      rfl
    rw [hall, (h (d + 1)).1]
    exact hclose d
  refine ⟨hend, fun p hp => ?_⟩
  by_cases hne : p = []
  · rw [hne]
    exact Nat.le_refl d
  · by_cases hproper : p = opening :: (text ++ [closing])
    · rw [hproper, hend]
    · exact Nat.le_of_succ_le (hinside d p hp hne hproper)

variable {sj : SerdeJson}

theorem keeps_number (hfloats : sj.PlainFloats) (n : JsonNumber) :
    Keeps .plain .plain (n.text sj).toList := by
  refine keeps_of_plain ?_
  cases n with
  | posInt n => exact fun c => isPlain_of_mem_nat
  | negInt n => exact fun c => isPlain_of_mem_int
  | float x _ => exact hfloats x

theorem keeps_bracketed {text : String} (h : Keeps .plain .plain text.toList) :
    Keeps .plain .plain ("[" ++ text ++ "]").toList := by
  have htext : ("[" ++ text ++ "]").toList = '[' :: (text.toList ++ [']']) := by simp
  rw [htext]
  exact (h.brackets '[' ']' (fun _ => rfl) fun _ => rfl).1

theorem keeps_braced {text : String} (h : Keeps .plain .plain text.toList) :
    Keeps .plain .plain ("\x7b" ++ text ++ "\x7d").toList := by
  have htext : ("\x7b" ++ text ++ "\x7d").toList = '\x7b' :: (text.toList ++ ['\x7d']) := by simp
  rw [htext]
  exact (h.brackets '\x7b' '\x7d' (fun _ => rfl) fun _ => rfl).1

mutual

/-- **The text of a value keeps the depth.** -/
theorem keeps_text (hfloats : sj.PlainFloats) : ∀ v : Json, Keeps .plain .plain (v.text sj).toList
  | .null => keeps_of_plain (by simp [IsPlain, Json.text])
  | .bool true => keeps_of_plain (by simp [IsPlain, Json.text])
  | .bool false => keeps_of_plain (by simp [IsPlain, Json.text])
  | .number n => keeps_number hfloats n
  | .string s => keeps_quote s
  | .array items => keeps_bracketed (keeps_itemsText hfloats items)
  | .object fields => keeps_braced (keeps_fieldsText hfloats fields)

theorem keeps_itemsText (hfloats : sj.PlainFloats) :
    ∀ items : List Json, Keeps .plain .plain (Json.itemsText sj items).toList
  | [] => Keeps.nil
  | [v] => keeps_text hfloats v
  | v :: w :: items => by
      have hcomma : Keeps .plain .plain [','] := keeps_of_plain (by simp [IsPlain])
      have htext : (Json.itemsText sj (v :: w :: items)).toList =
          (v.text sj).toList ++ ([','] ++ (Json.itemsText sj (w :: items)).toList) := by
        simp [Json.itemsText]
      rw [htext]
      exact (keeps_text hfloats v).append (hcomma.append (keeps_itemsText hfloats (w :: items)))

theorem keeps_fieldsText (hfloats : sj.PlainFloats) :
    ∀ fields : List (String × Json), Keeps .plain .plain (Json.fieldsText sj fields).toList
  | [] => Keeps.nil
  | [(k, v)] => by
      have hcolon : Keeps .plain .plain [':'] := keeps_of_plain (by simp [IsPlain])
      have htext : (Json.fieldsText sj [(k, v)]).toList =
          (quote k).toList ++ ([':'] ++ (v.text sj).toList) := by
        simp [Json.fieldsText]
      rw [htext]
      exact (keeps_quote k).append (hcolon.append (keeps_text hfloats v))
  | (k, v) :: (l, w) :: fields => by
      have hcolon : Keeps .plain .plain [':'] := keeps_of_plain (by simp [IsPlain])
      have hcomma : Keeps .plain .plain [','] := keeps_of_plain (by simp [IsPlain])
      have htext : (Json.fieldsText sj ((k, v) :: (l, w) :: fields)).toList =
          (quote k).toList ++ ([':'] ++ ((v.text sj).toList ++
            ([','] ++ (Json.fieldsText sj ((l, w) :: fields)).toList))) := by
        simp [Json.fieldsText]
      rw [htext]
      exact (keeps_quote k).append (hcolon.append ((keeps_text hfloats v).append
        (hcomma.append (keeps_fieldsText hfloats ((l, w) :: fields)))))

end

/-- **An array cut short is not the text of an array.** -/
theorem not_array_text_of_prefix (hfloats : sj.PlainFloats) {items items' : List Json}
    {p : List Char} (hp : p <+: ((Json.array items).text sj).toList) (hne : p ≠ [])
    (hproper : p ≠ ((Json.array items).text sj).toList) :
    p ≠ ((Json.array items').text sj).toList := by
  have htext : ((Json.array items).text sj).toList =
      '[' :: ((Json.itemsText sj items).toList ++ [']']) := by
    simp [Json.text]
  rw [htext] at hp hproper
  have hdeep := ((keeps_itemsText hfloats items).brackets '[' ']' (fun _ => rfl)
    fun _ => rfl).2 0 p hp hne hproper
  rintro rfl
  rw [((keeps_text hfloats (.array items')) 0).1] at hdeep
  exact absurd hdeep (by decide)

/-! ## Control characters -/

/-- A text without control characters, and with it on one line. -/
def Printable (text : List Char) : Prop := ∀ c ∈ text, 0x20 ≤ c.toNat

namespace Printable

variable {a b : List Char}

theorem nil : Printable [] := fun _ h => absurd h List.not_mem_nil

theorem append (ha : Printable a) (hb : Printable b) : Printable (a ++ b) := by
  intro c hc
  rcases List.mem_append.mp hc with hc | hc
  · exact ha c hc
  · exact hb c hc

theorem flatMap {f : Char → List Char} (h : ∀ c ∈ a, Printable (f c)) :
    Printable (a.flatMap f) := by
  intro c hc
  obtain ⟨d, hd, hmem⟩ := List.mem_flatMap.mp hc
  exact h d hd c hmem

/-- A text without control characters has no line feed. -/
theorem not_mem_newline (h : Printable a) : '\n' ∉ a := fun hmem => absurd (h '\n' hmem) (by decide)

end Printable

/-- The texts of floats have no control characters. -/
def SerdeJson.PrintableFloats (sj : SerdeJson) : Prop := ∀ x, Printable (sj.floatText x).toList

theorem printable_of_isDigit {c : Char} (h : c.isDigit = true) : 0x20 ≤ c.toNat := by
  have hle : (48 : UInt32) ≤ c.val := of_decide_eq_true ((Bool.and_eq_true _ _).mp h).1
  exact Nat.le_trans (by decide) (UInt32.le_iff_toNat_le.mp hle)

theorem printable_nat (n : ℕ) : Printable (toString n).toList := by
  intro c hc
  have hmem : c ∈ Nat.toDigits 10 n := by simpa [toString, Nat.repr] using hc
  exact printable_of_isDigit (Nat.isDigit_of_mem_toDigits (by decide) (by decide) hmem)

theorem printable_int (z : ℤ) : Printable (toString z).toList := by
  cases z with
  | ofNat n => exact printable_nat n
  | negSucc n =>
      have htext : (toString (Int.negSucc n)).toList = ['-'] ++ (toString (n + 1)).toList := by
        rw [show toString (Int.negSucc n) = "-" ++ toString (n + 1) from rfl, String.toList_append]
        rfl
      rw [htext]
      exact Printable.append (by simp [Printable]) (printable_nat (n + 1))

theorem printable_hexDigit (n : ℕ) : 0x20 ≤ (hexDigit n).toNat := by
  have hall : ("0123456789abcdef".toList.all fun c => 0x20 ≤ c.toNat) = true := by decide
  unfold hexDigit
  rw [List.getD_eq_getElem?_getD]
  cases hget : "0123456789abcdef".toList[n]? with
  | none => decide
  | some c => simpa using List.all_eq_true.mp hall c (List.mem_of_getElem? hget)

/-- What a control character is escaped as has none. -/
theorem printable_escapeChar (c : Char) : Printable (escapeChar c) := by
  have hhex := printable_hexDigit
  unfold escapeChar Printable
  split_ifs with _ _ _ _ _ _ _ hcontrol
  all_goals simp [hhex]
  omega

theorem printable_quote (s : String) : Printable (quote s).toList := by
  have htext : (quote s).toList = ['"'] ++ (s.toList.flatMap escapeChar ++ ['"']) := by
    simp [quote]
  rw [htext]
  exact Printable.append (by simp [Printable])
    (Printable.append (Printable.flatMap fun c _ => printable_escapeChar c) (by simp [Printable]))

mutual

/-- **The text of a value has no control characters**: it stands on one line. -/
theorem printable_text (hfloats : sj.PrintableFloats) : ∀ v : Json, Printable (v.text sj).toList
  | .null => by simp [Printable, Json.text]
  | .bool true => by simp [Printable, Json.text]
  | .bool false => by simp [Printable, Json.text]
  | .number (.posInt n) => printable_nat n.toNat
  | .number (.negInt n) => printable_int n.toInt
  | .number (.float x _) => hfloats x
  | .string s => printable_quote s
  | .array items => by
      have hitems := printable_itemsText hfloats items
      rw [Json.text, String.toList_append, String.toList_append]
      exact Printable.append (Printable.append (by simp [Printable]) hitems) (by simp [Printable])
  | .object fields => by
      have hfields := printable_fieldsText hfloats fields
      rw [Json.text, String.toList_append, String.toList_append]
      exact Printable.append (Printable.append (by simp [Printable]) hfields) (by simp [Printable])

theorem printable_itemsText (hfloats : sj.PrintableFloats) :
    ∀ items : List Json, Printable (Json.itemsText sj items).toList
  | [] => Printable.nil
  | [v] => printable_text hfloats v
  | v :: w :: items => by
      have htext : (Json.itemsText sj (v :: w :: items)).toList =
          (v.text sj).toList ++ ([','] ++ (Json.itemsText sj (w :: items)).toList) := by
        simp [Json.itemsText]
      rw [htext]
      exact (printable_text hfloats v).append
        (Printable.append (by simp [Printable]) (printable_itemsText hfloats (w :: items)))

theorem printable_fieldsText (hfloats : sj.PrintableFloats) :
    ∀ fields : List (String × Json), Printable (Json.fieldsText sj fields).toList
  | [] => Printable.nil
  | [(k, v)] => by
      have htext : (Json.fieldsText sj [(k, v)]).toList =
          (quote k).toList ++ ([':'] ++ (v.text sj).toList) := by
        simp [Json.fieldsText]
      rw [htext]
      exact (printable_quote k).append
        (Printable.append (by simp [Printable]) (printable_text hfloats v))
  | (k, v) :: (l, w) :: fields => by
      have htext : (Json.fieldsText sj ((k, v) :: (l, w) :: fields)).toList =
          (quote k).toList ++ ([':'] ++ ((v.text sj).toList ++
            ([','] ++ (Json.fieldsText sj ((l, w) :: fields)).toList))) := by
        simp [Json.fieldsText]
      rw [htext]
      exact (printable_quote k).append (Printable.append (by simp [Printable])
        ((printable_text hfloats v).append (Printable.append (by simp [Printable])
          (printable_fieldsText hfloats ((l, w) :: fields)))))

end

end AuraLauncher.Workflow
