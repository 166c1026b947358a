import AuraLauncher.Domain.Std
import AuraLauncher.Lib.Passes
import Mathlib.Data.List.TakeWhile

/-!
# The environment variables of a path

`launcher-plugin-host/src/lib.rs`, `expand_env`: the references `${NAME}`, `%NAME%` and `$NAME` of a
path are replaced by the values of the environment in three passes, each over the text that the one
before has made. The first takes the number of a character for that of a byte.

* `expandEnv` — the three passes; `none` is a panic.
* `bracedLoop_eq` — the first is a pass over characters where the bytes are found in their places.
* `IsReference`, `IsExpansion` — the references of a text, and what its expansion is: known
  references replaced by their values, and nothing left that is a known reference.
* `Undisturbed`, `isExpansion_of_undisturbed` — when the passes make the expansion.
* `not_isExpansion_accent` — a panic on an accented letter.

Texts are lists of characters. The environment gives the value of a name that is set.
-/

namespace AuraLauncher.Plugin

open AuraLauncher.Domain AuraLauncher.Lib

/-! ## The three passes -/

/-- The value of a name that is set and not empty. Source: `lib.rs`, `expand_env` (`env`). -/
def lookupEnv (env : List Char → Option (List Char)) (name : List Char) : Option (List Char) :=
  (env name).filter fun v => !v.isEmpty

/-- The text from a byte on, which must begin a character. Source: `&str[n..]`. -/
def sliceFrom : List Char → ℕ → Option (List Char)
  | s, 0 => some s
  | [], _ + 1 => none
  | c :: s, n + 1 => if c.utf8Size ≤ n + 1 then sliceFrom s (n + 1 - c.utf8Size) else none

/-- The byte at which a character is found. Source: `str::find`. -/
def findByte (c : Char) : List Char → Option ℕ
  | [] => none
  | d :: s => if d = c then some 0 else (findByte c s).map (· + d.utf8Size)

/-- The characters from one number to another, which must be there. Source: `&[char][a..b]`. -/
def charRange (s : List Char) (a b : ℕ) : Option (List Char) :=
  if b ≤ s.length then some ((s.take b).drop a) else none

variable (std : RustStd) (env : List Char → Option (List Char))

/-- The first pass from a character on, with a step for each. Source: `lib.rs`, `expand_env`
(`${VAR} first`). -/
def bracedLoop (input : List Char) : ℕ → ℕ → Option (List Char)
  | 0, _ => some []
  | n + 1, i =>
      match input.drop i with
      | [] => some []
      | c :: rest =>
          if c = '$' ∧ rest.head? = some '\x7b' then
            match sliceFrom input (i + 2) with
            | none => none
            | some slice =>
                match findByte '\x7d' slice with
                | some e =>
                    (charRange input (i + 2) (i + 2 + e)).bind fun name =>
                      (match lookupEnv env name with
                        | some v => some v
                        | none => charRange input i (i + e + 3)).bind fun text =>
                          (bracedLoop input n (i + e + 3)).map (text ++ ·)
                | none => (bracedLoop input n (i + 1)).map (c :: ·)
          else (bracedLoop input n (i + 1)).map (c :: ·)

/-- What the second pass does at a place. Source: `lib.rs`, `expand_env` (`%VAR%`). -/
def percentRead : List Char → Verdict Char
  | '%' :: rest =>
      match rest.idxOf? '%' with
      | some e =>
          if rest.take e = [] then .step
          else
            match lookupEnv env (rest.take e) with
            | some v => .replace (e + 2) v
            | none => .step
      | none => .step
  | _ => .step

/-- What a name in the third pass is made of. -/
def isNameChar (c : Char) : Bool := std.isAlphabetic c || std.isNumeric c || c == '_'

/-- What the third pass does at a place. Source: `lib.rs`, `expand_env` (`$VAR`). -/
def bareRead : List Char → Verdict Char
  | '$' :: c :: rest =>
      if std.isAlphabetic c || c == '_' then
        let name := (c :: rest).takeWhile (isNameChar std)
        match lookupEnv env name with
        | some v => .replace (name.length + 1) v
        | none => .leave (name.length + 1)
      else .step
  | _ => .step

/-- Source: `lib.rs`, `expand_env`. -/
def expandEnv (input : List Char) : Option (List Char) :=
  (bracedLoop env input input.length 0).map fun out =>
    let out2 := scanLoop (percentRead env) out.length out
    scanLoop (bareRead std env) out2.length out2

/-! ## The first pass over characters -/

/-- What the first pass would do at a place by the numbers of the characters. -/
def bracedRead : List Char → Verdict Char
  | '$' :: '\x7b' :: rest =>
      match rest.idxOf? '\x7d' with
      | some e =>
          match lookupEnv env (rest.take e) with
          | some v => .replace (e + 3) v
          | none => .leave (e + 3)
      | none => .step
  | _ => .step

/-- Behind every opening brace of a reference, the byte with the number of the next character begins
a character, and the first closing brace is as many bytes behind it as it is characters behind the
opening brace. -/
def OffsetsAgree (input : List Char) : Prop :=
  ∀ before rest, input = before ++ '$' :: '\x7b' :: rest →
    (sliceFrom input (before.length + 2)).map (findByte '\x7d') = some (rest.idxOf? '\x7d')

section braced

variable {env} {input : List Char}

/-- Where a character is found, it is the first. -/
theorem idxOf?_eq_some_iff_append {c : Char} {s : List Char} {e : ℕ} :
    s.idxOf? c = some e ↔ ∃ before after, s = before ++ c :: after ∧ c ∉ before ∧
      before.length = e := by
  induction s generalizing e with
  | nil => simp
  | cons d s ih =>
      rw [List.idxOf?_cons]
      split_ifs with hd
      · obtain rfl := eq_of_beq hd
        constructor
        · intro h
          exact ⟨[], s, rfl, List.not_mem_nil, Option.some.inj h⟩
        · rintro ⟨before, after, heq, hbefore, rfl⟩
          cases before with
          | nil => rfl
          | cons d' before =>
              exact absurd ((List.cons.inj heq).1 ▸ List.mem_cons_self) hbefore
      · rw [Option.map_eq_some_iff]
        constructor
        · rintro ⟨e, he, rfl⟩
          obtain ⟨before, after, rfl, hbefore, rfl⟩ := ih.mp he
          refine ⟨d :: before, after, rfl, ?_, rfl⟩
          rw [List.mem_cons, not_or]
          exact ⟨fun h => hd (by rw [h]; exact beq_self_eq_true d), hbefore⟩
        · rintro ⟨before, after, heq, hbefore, rfl⟩
          cases before with
          | nil => exact absurd (beq_iff_eq.mpr (List.cons.inj heq).1) hd
          | cons d' before =>
              rw [List.mem_cons, not_or] at hbefore
              exact ⟨before.length, ih.mpr ⟨before, after, (List.cons.inj heq).2, hbefore.2, rfl⟩,
                rfl⟩

/-- The first occurrence of a character is behind what does not have it. -/
theorem idxOf?_append_cons {c : Char} {s : List Char} (h : c ∉ s) (t : List Char) :
    (s ++ c :: t).idxOf? c = some s.length :=
  idxOf?_eq_some_iff_append.mpr ⟨s, t, rfl, h, rfl⟩

theorem charRange_append (s t u : List Char) :
    charRange (s ++ (t ++ u)) s.length (s.length + t.length) = some t := by
  rw [charRange, if_pos (by simp), List.take_length_add_append, List.take_left, List.drop_left]

/-- The name of a reference in braces, and the whole of it, by the numbers of the characters. -/
theorem charRange_reference (before name after : List Char) :
    charRange (before ++ '$' :: '\x7b' :: (name ++ '\x7d' :: after)) (before.length + 2)
        (before.length + 2 + name.length) = some name ∧
      charRange (before ++ '$' :: '\x7b' :: (name ++ '\x7d' :: after)) before.length
        (before.length + (name.length + 3)) = some ('$' :: '\x7b' :: (name ++ ['\x7d'])) := by
  have hname := charRange_append (before ++ ['$', '\x7b']) name ('\x7d' :: after)
  have hwhole := charRange_append before ('$' :: '\x7b' :: (name ++ ['\x7d'])) after
  simp only [List.append_assoc, List.cons_append, List.nil_append, List.length_append,
    List.length_cons, List.length_nil] at hname hwhole
  exact ⟨hname, hwhole⟩

/-- In ASCII the bytes are found in their places. -/
theorem offsetsAgree_of_ascii (h : (input.all fun c => c.utf8Size == 1) = true) :
    OffsetsAgree input := by
  simp only [List.all_eq_true, beq_iff_eq] at h
  have hslice : ∀ s t : List Char, (∀ c ∈ s, c.utf8Size = 1) →
      sliceFrom (s ++ t) s.length = some t := by
    intro s t hs
    induction s with
    | nil => cases t <;> rfl
    | cons c s ih =>
        rw [List.forall_mem_cons] at hs
        rw [List.cons_append, List.length_cons, sliceFrom, hs.1, if_pos (Nat.le_add_left _ _),
          Nat.add_sub_cancel, ih hs.2]
  have hfind : ∀ s : List Char, (∀ c ∈ s, c.utf8Size = 1) →
      findByte '\x7d' s = s.idxOf? '\x7d' := by
    intro s hs
    induction s with
    | nil => rfl
    | cons c s ih =>
        rw [List.forall_mem_cons] at hs
        simp only [findByte, List.idxOf?_cons, hs.1, ih hs.2, beq_iff_eq]
  rintro before rest rfl
  have hopen := hslice (before ++ ['$', '\x7b']) rest fun c hc => h c (by
    rw [List.append_cons, List.append_cons, List.append_assoc before]
    exact List.mem_append_left rest hc)
  rw [List.append_assoc, List.length_append] at hopen
  exact (congrArg _ hopen).trans (congrArg some (hfind rest fun c hc => h c (by simp [hc])))

variable (env) in
/-- What the first pass does at a reference in braces. -/
theorem bracedRead_reference {name : List Char} (h : '\x7d' ∉ name) (after : List Char) :
    bracedRead env ('$' :: '\x7b' :: (name ++ '\x7d' :: after)) =
      match lookupEnv env name with
      | some v => .replace (name.length + 3) v
      | none => .leave (name.length + 3) := by
  simp only [bracedRead, idxOf?_append_cons h, List.take_left]

theorem bracedRead_of_not_open {c : Char} {rest : List Char}
    (h : ¬(c = '$' ∧ rest.head? = some '\x7b')) : bracedRead env (c :: rest) = .step := by
  unfold bracedRead
  split
  · next heq =>
      obtain ⟨rfl, rfl⟩ := List.cons.inj heq
      exact absurd ⟨rfl, rfl⟩ h
  · rfl

/-- What is behind a place of the text has the text before the place in front of it. -/
theorem exists_before_of_drop {s rest : List Char} {c : Char} {i : ℕ} (h : s.drop i = c :: rest) :
    ∃ before, s = before ++ c :: rest ∧ before.length = i := by
  refine ⟨s.take i, by rw [← h, List.take_append_drop], ?_⟩
  have hlength := congrArg List.length h
  rw [List.length_drop, List.length_cons] at hlength
  rw [List.length_take]
  omega

/-- The first pass at a reference in braces, when what it does further on is known. -/
theorem bracedLoop_open {before rest : List Char}
    (hagree : OffsetsAgree (before ++ '$' :: '\x7b' :: rest)) {n : ℕ}
    (hloop : ∀ j, 0 < j → bracedLoop env (before ++ '$' :: '\x7b' :: rest) n (before.length + j) =
      some (scanLoop (bracedRead env) n (('$' :: '\x7b' :: rest).drop j))) :
    bracedLoop env (before ++ '$' :: '\x7b' :: rest) (n + 1) before.length =
      some (scanLoop (bracedRead env) (n + 1) ('$' :: '\x7b' :: rest)) := by
  obtain ⟨slice, hslice, hfind⟩ := Option.map_eq_some_iff.mp (hagree before rest rfl)
  have hopen : '$' = '$' ∧ ('\x7b' :: rest).head? = some '\x7b' := ⟨rfl, rfl⟩
  unfold bracedLoop
  rw [List.drop_left]
  dsimp only
  rw [if_pos hopen, hslice]
  dsimp only
  rw [hfind]
  cases hclose : rest.idxOf? '\x7d' with
  | none =>
      have hread : bracedRead env ('$' :: '\x7b' :: rest) = .step := by
        simp only [bracedRead, hclose]
      dsimp only
      rw [hloop 1 Nat.one_pos, scanLoop_of_step n hread]
      rfl
  | some e =>
      obtain ⟨name, after, rfl, hname, rfl⟩ := idxOf?_eq_some_iff_append.mp hclose
      obtain ⟨hrange, hwhole⟩ := charRange_reference before name after
      have hread := bracedRead_reference env hname after
      dsimp only
      rw [hrange, Option.bind_some, Nat.add_assoc, hloop _ (Nat.succ_pos _)]
      cases hlookup : lookupEnv env name with
      | none =>
          rw [hlookup] at hread
          rw [scanLoop_of_leave n hread]
          dsimp only
          rw [hwhole]
          simp [List.take_length_add_append]
      | some v =>
          rw [hlookup] at hread
          rw [scanLoop_of_replace n hread]
          rfl

/-- **The first pass by characters**: where the bytes are found in their places, it does not panic
and does what the numbers of the characters say. -/
theorem bracedLoop_eq (hagree : OffsetsAgree input) (n i : ℕ) (hn : (input.drop i).length ≤ n) :
    bracedLoop env input n i = some (scanLoop (bracedRead env) n (input.drop i)) := by
  induction n generalizing i with
  | zero =>
      rw [List.length_eq_zero_iff.mp (Nat.le_zero.mp hn)]
      rfl
  | succ n ih =>
      have hloop : ∀ j, 0 < j → bracedLoop env input n (i + j) =
          some (scanLoop (bracedRead env) n ((input.drop i).drop j)) := by
        intro j hj
        rw [ih (i + j) (by rw [List.length_drop] at hn ⊢; omega), List.drop_drop]
      cases hdrop : input.drop i with
      | nil =>
          unfold bracedLoop
          rw [hdrop]
          rfl
      | cons c rest =>
          rw [hdrop] at hloop
          by_cases hopen : c = '$' ∧ rest.head? = some '\x7b'
          · obtain ⟨rest, rfl, rfl⟩ : ∃ rest', c = '$' ∧ rest = '\x7b' :: rest' :=
              ⟨rest.tail, hopen.1, List.eq_cons_of_mem_head? hopen.2⟩
            obtain ⟨before, rfl, rfl⟩ := exists_before_of_drop hdrop
            exact bracedLoop_open hagree hloop
          · unfold bracedLoop
            rw [hdrop]
            dsimp only
            rw [if_neg hopen, hloop 1 Nat.one_pos,
              scanLoop_of_step n (bracedRead_of_not_open hopen)]
            rfl

end braced

/-! ## The expansion of a text -/

/-- A name that may stand behind a dollar sign without braces. -/
def IsName : List Char → Prop
  | [] => False
  | c :: name => (std.isAlphabetic c || c == '_') = true ∧ ∀ d ∈ c :: name, isNameChar std d = true

/-- A name ends before the text. -/
def NameEnds (after : List Char) : Prop := ∀ d ∈ after.head?, isNameChar std d = false

/-- The text `raw` is a reference to the name where `after` is behind it. -/
inductive IsReference (after : List Char) : List Char → List Char → Prop
  | braced {name} (unclosed : '\x7d' ∉ name) :
      IsReference after ('$' :: '\x7b' :: (name ++ ['\x7d'])) name
  | percent {name} (nonempty : name ≠ []) (unclosed : '%' ∉ name) :
      IsReference after ('%' :: (name ++ ['%'])) name
  | bare {name} (isName : IsName std name) (ends : NameEnds std after) :
      IsReference after ('$' :: name) name

/-- The text comes from the input by the replacement of known references by their values, after
which no known reference of the input is left whole. -/
structure IsExpansionBy (input out : List Char) (pieces : List (Piece Char)) : Prop where
  raws_eq : raws pieces = input
  outs_eq : outs pieces = out
  known : ∀ ps raw v qs, pieces = ps ++ .part raw v :: qs →
    ∃ name, IsReference std (raws qs) raw name ∧ lookupEnv env name = some v
  complete : ∀ ps mid qs name, pieces = ps ++ (texts mid ++ qs) →
    IsReference std (raws qs) mid name → lookupEnv env name = none

/-- The text is an expansion of the input. -/
def IsExpansion (input out : List Char) : Prop :=
  ∃ pieces, IsExpansionBy std env input out pieces

/-! ## Passes that do not disturb each other -/

/-- The passes replace nothing but text of the input, and read in it what the input has. -/
structure Undisturbed (input : List Char) : Prop where
  /-- The bytes are found in their places. -/
  offsets : OffsetsAgree input
  /-- The three passes replace only text of the input; of what the first has left, no unknown
  reference in braces has a known one in it; and where a known `$NAME` ends in the input, it ends in
  what the second has made. -/
  passes : ∃ ps qs rs, Pass (bracedRead env) 0 [] (texts input) ps ∧
    Pass (percentRead env) 0 [] ps qs ∧ Pass (bareRead std env) 0 [] qs rs ∧
    (∀ before x y after, ps = before ++
        (texts ('$' :: '\x7b' :: (x ++ '$' :: '\x7b' :: (y ++ ['\x7d']))) ++ after) →
      '\x7d' ∉ x → '\x7d' ∉ y → lookupEnv env y = none) ∧
    ∀ before name after, qs = before ++ (texts ('$' :: name) ++ after) → IsName std name →
      NameEnds std (raws after) → lookupEnv env name ≠ none → NameEnds std (outs after)

section reads

variable {std env}

variable (env) in
/-- What the second pass does at a reference between percent signs. -/
theorem percentRead_reference {name : List Char} (hname : name ≠ []) (h : '%' ∉ name)
    (after : List Char) :
    percentRead env ('%' :: (name ++ '%' :: after)) =
      match lookupEnv env name with
      | some v => .replace (name.length + 2) v
      | none => .step := by
  simp only [percentRead, idxOf?_append_cons h, List.take_left, if_neg hname]

variable (env) in
/-- What the third pass does at a name behind a dollar sign. -/
theorem bareRead_reference {name after : List Char} (hname : IsName std name)
    (hends : NameEnds std after) :
    bareRead std env ('$' :: (name ++ after)) =
      match lookupEnv env name with
      | some v => .replace (name.length + 1) v
      | none => .leave (name.length + 1) := by
  cases name with
  | nil => exact hname.elim
  | cons c name =>
      have htake : (c :: (name ++ after)).takeWhile (isNameChar std) = c :: name := by
        rw [← List.cons_append, List.takeWhile_append_of_pos hname.2]
        cases after with
        | nil => simp
        | cons d after =>
            rw [List.takeWhile_cons_of_neg (by simp [hends d rfl]), List.append_nil]
      simp only [List.cons_append, bareRead, if_pos hname.1, htake]

theorem percentRead_ne_leave (s : List Char) (n : ℕ) : percentRead env s ≠ .leave n := by
  unfold percentRead
  split
  · split
    · split_ifs
      · simp
      · split <;> simp
    · simp
  · simp

/-- The first pass stops at a reference in braces only. -/
theorem exists_of_bracedRead {s : List Char} (h : bracedRead env s ≠ .step) :
    ∃ name after, '\x7d' ∉ name ∧ s = '$' :: '\x7b' :: (name ++ '\x7d' :: after) := by
  unfold bracedRead at h
  split at h
  · split at h
    · next hclose =>
        obtain ⟨name, after, rfl, hname, -⟩ := idxOf?_eq_some_iff_append.mp hclose
        exact ⟨name, after, hname, rfl⟩
    · exact absurd rfl h
  · exact absurd rfl h

/-- The second pass stops at a reference between percent signs only. -/
theorem exists_of_percentRead {s : List Char} (h : percentRead env s ≠ .step) :
    ∃ name after, name ≠ [] ∧ '%' ∉ name ∧ s = '%' :: (name ++ '%' :: after) := by
  unfold percentRead at h
  split at h
  · split at h
    · next hclose =>
        obtain ⟨name, after, rfl, hname, rfl⟩ := idxOf?_eq_some_iff_append.mp hclose
        rw [List.take_left] at h
        split_ifs at h with hempty
        · exact absurd rfl h
        · exact ⟨name, after, hempty, hname, rfl⟩
    · exact absurd rfl h
  · exact absurd rfl h

/-- The third pass stops at a name behind a dollar sign only. -/
theorem exists_of_bareRead {s : List Char} (h : bareRead std env s ≠ .step) :
    ∃ name after, IsName std name ∧ NameEnds std after ∧ s = '$' :: (name ++ after) := by
  unfold bareRead at h
  split at h
  · next c rest =>
      have hstart : (std.isAlphabetic c || c == '_') = true := by
        by_contra hno
        exact h (if_neg hno)
      have hc : isNameChar std c = true := by
        unfold isNameChar
        rcases Bool.or_eq_true_iff.mp hstart with hc | hc <;> simp [hc]
      refine ⟨c :: rest.takeWhile (isNameChar std), rest.dropWhile (isNameChar std),
        ⟨hstart, ?_⟩, ?_, by rw [List.cons_append, List.takeWhile_append_dropWhile]⟩
      · rw [List.forall_mem_cons]
        exact ⟨hc, fun d hd => List.mem_takeWhile_imp hd⟩
      · intro d hd
        cases hdrop : rest.dropWhile (isNameChar std) with
        | nil =>
            rw [hdrop] at hd
            cases hd
        | cons d' after =>
            rw [hdrop] at hd
            obtain rfl := Option.some.inj hd
            have hhead := List.head_dropWhile_not (isNameChar std) (by rw [hdrop]; simp)
            simpa [hdrop] using hhead
  · exact absurd rfl h

/-- A verdict on a name that replaces is on a known one. -/
theorem lookup_of_replace {name v : List Char} {n m : ℕ} {otherwise : Verdict Char}
    (h : (match lookupEnv env name with
      | some w => Verdict.replace n w
      | none => otherwise) = .replace m v) (hother : ∀ k w, otherwise ≠ .replace k w) :
    lookupEnv env name = some v ∧ m = n := by
  cases hlookup : lookupEnv env name with
  | none =>
      rw [hlookup] at h
      exact absurd h (hother m v)
  | some w =>
      rw [hlookup] at h
      obtain ⟨rfl, rfl⟩ := Verdict.replace.inj h
      exact ⟨rfl, rfl⟩

/-- A verdict on a name that leaves it leaves the whole reference. -/
theorem length_of_leave {name : List Char} {n m : ℕ}
    (h : (match lookupEnv env name with
      | some w => Verdict.replace n w
      | none => .leave n) = .leave m) : m = n := by
  cases hlookup : lookupEnv env name with
  | none =>
      rw [hlookup] at h
      exact (Verdict.leave.inj h).symm
  | some w =>
      rw [hlookup] at h
      cases h

/-- What the first pass replaces is a known reference. -/
theorem reference_of_bracedRead {raw after v : List Char}
    (h : bracedRead env (raw ++ after) = .replace raw.length v) (t : List Char) :
    ∃ name, IsReference std t raw name ∧ lookupEnv env name = some v := by
  obtain ⟨name, after', hname, heq⟩ := exists_of_bracedRead (by rw [h]; simp)
  rw [heq, bracedRead_reference env hname] at h
  obtain ⟨hlookup, hlength⟩ := lookup_of_replace h (by simp)
  have hraw : raw ++ after = '$' :: '\x7b' :: (name ++ ['\x7d']) ++ after' := by
    rw [heq]
    simp
  obtain ⟨rfl, -⟩ := List.append_inj hraw (by simpa using hlength)
  exact ⟨name, .braced hname, hlookup⟩

/-- What the second pass replaces is a known reference. -/
theorem reference_of_percentRead {raw after v : List Char}
    (h : percentRead env (raw ++ after) = .replace raw.length v) (t : List Char) :
    ∃ name, IsReference std t raw name ∧ lookupEnv env name = some v := by
  obtain ⟨name, after', hne, hname, heq⟩ := exists_of_percentRead (by rw [h]; simp)
  rw [heq, percentRead_reference env hne hname] at h
  obtain ⟨hlookup, hlength⟩ := lookup_of_replace h (by simp)
  have hraw : raw ++ after = '%' :: (name ++ ['%']) ++ after' := by
    rw [heq]
    simp
  obtain ⟨rfl, -⟩ := List.append_inj hraw (by simpa using hlength)
  exact ⟨name, .percent hne hname, hlookup⟩

/-- What the third pass replaces is a known name that ends in what it reads. -/
theorem reference_of_bareRead {raw after v : List Char}
    (h : bareRead std env (raw ++ after) = .replace raw.length v) :
    ∃ name, raw = '$' :: name ∧ IsName std name ∧ NameEnds std after ∧
      lookupEnv env name = some v := by
  obtain ⟨name, after', hname, hends, heq⟩ := exists_of_bareRead (by rw [h]; simp)
  rw [heq, bareRead_reference env hname hends] at h
  obtain ⟨hlookup, hlength⟩ := lookup_of_replace h (by simp)
  have hraw : raw ++ after = '$' :: name ++ after' := heq
  obtain ⟨rfl, rfl⟩ := List.append_inj hraw (by simpa using hlength)
  exact ⟨name, rfl, hname, hends, hlookup⟩

end reads

/-! ## The passes make the expansion -/

section expansion

variable {std env} {input : List Char} {ps qs rs : List (Piece Char)}

/-- The first pass replaces known references. -/
theorem known_of_braced (hbraced : Pass (bracedRead env) 0 [] (texts input) ps)
    {before after : List (Piece Char)} {raw v : List Char}
    (h : ps = before ++ .part raw v :: after) :
    ∃ name, IsReference std (raws after) raw name ∧ lookupEnv env name = some v := by
  rcases hbraced.hasPart h with ⟨ps₁, ps₂, heq, -⟩ | ⟨ps₁, ps₂, -, -, hread⟩
  · -- nothing was replaced yet
    have hmem : Piece.part raw v ∈ texts input := by rw [heq]; simp
    obtain ⟨c, -, hc⟩ := List.mem_map.mp hmem
    cases hc
  · exact reference_of_bracedRead hread _

/-- So do the first two. -/
theorem known_of_percent (hbraced : Pass (bracedRead env) 0 [] (texts input) ps)
    (hpercent : Pass (percentRead env) 0 [] ps qs) {before after : List (Piece Char)}
    {raw v : List Char} (h : qs = before ++ .part raw v :: after) :
    ∃ name, IsReference std (raws after) raw name ∧ lookupEnv env name = some v := by
  rcases hpercent.hasPart h with ⟨ps₁, ps₂, heq, hraws⟩ | ⟨ps₁, ps₂, -, -, hread⟩
  · rw [← hraws]
    exact known_of_braced hbraced heq
  · exact reference_of_percentRead hread _

/-- A reference begins with a sign that no name has. -/
theorem IsReference.head {after raw name : List Char} (h : IsReference std after raw name) :
    raw.head? = some '$' ∨ raw.head? = some '%' := by
  cases h with
  | braced unclosed => exact .inl rfl
  | percent nonempty unclosed => exact .inr rfl
  | bare isName ends => exact .inl rfl

/-- Where what is read ends a name, the input does. -/
theorem ends_of_outs (hdollar : isNameChar std '$' = false) (hsign : isNameChar std '%' = false)
    {after : List (Piece Char)}
    (hparts : ∀ before raw v rest, after = before ++ .part raw v :: rest →
      ∃ name, IsReference std (raws rest) raw name ∧ lookupEnv env name = some v)
    (h : NameEnds std (outs after)) : NameEnds std (raws after) := by
  rcases after with _ | ⟨c | ⟨raw, v⟩, rest⟩
  · exact h
  · exact h
  · obtain ⟨name, hreference, -⟩ := hparts [] raw v rest rfl
    intro d hd
    rw [raws_part] at hd
    rcases hreference.head with hhead | hhead
    · rw [List.head?_append, hhead] at hd
      obtain rfl := Option.some.inj hd
      exact hdollar
    · rw [List.head?_append, hhead] at hd
      obtain rfl := Option.some.inj hd
      exact hsign

/-- All three replace known references of the input. -/
theorem known_of_bare (hdollar : isNameChar std '$' = false) (hsign : isNameChar std '%' = false)
    (hbraced : Pass (bracedRead env) 0 [] (texts input) ps)
    (hpercent : Pass (percentRead env) 0 [] ps qs) (hbare : Pass (bareRead std env) 0 [] qs rs)
    {before after : List (Piece Char)} {raw v : List Char}
    (h : rs = before ++ .part raw v :: after) :
    ∃ name, IsReference std (raws after) raw name ∧ lookupEnv env name = some v := by
  rcases hbare.hasPart h with ⟨qs₁, qs₂, heq, hraws⟩ | ⟨qs₁, qs₂, heq, hraws, hread⟩
  · rw [← hraws]
    exact known_of_percent hbraced hpercent heq
  · obtain ⟨name, rfl, hname, hends, hlookup⟩ := reference_of_bareRead hread
    rw [← hraws]
    have hparts : ∀ ps' raw v rest, qs₂ = ps' ++ .part raw v :: rest →
        ∃ name, IsReference std (raws rest) raw name ∧ lookupEnv env name = some v := by
      intro ps' raw v rest hrest
      have hsplit : qs = qs₁ ++ (texts ('$' :: name) ++ ps') ++ .part raw v :: rest := by
        rw [heq, hrest, List.append_assoc, List.append_assoc]
      exact known_of_percent hbraced hpercent hsplit
    exact ⟨name, .bare hname (ends_of_outs hdollar hsign hparts hends), hlookup⟩

/-- No known reference in braces is left whole. -/
theorem complete_of_braced (hbraced : Pass (bracedRead env) 0 [] (texts input) ps)
    (hnested : ∀ before x y after, ps = before ++
        (texts ('$' :: '\x7b' :: (x ++ '$' :: '\x7b' :: (y ++ ['\x7d']))) ++ after) →
      '\x7d' ∉ x → '\x7d' ∉ y → lookupEnv env y = none)
    {before after : List (Piece Char)} {name : List Char} (hname : '\x7d' ∉ name)
    (h : ps = before ++ (texts ('$' :: '\x7b' :: (name ++ ['\x7d'])) ++ after)) :
    lookupEnv env name = none := by
  obtain ⟨s₂, hleft⟩ := hbraced.region_texts h
  have hread := bracedRead_reference env hname s₂
  have htext : '$' :: '\x7b' :: (name ++ ['\x7d']) ++ s₂ =
      '$' :: '\x7b' :: (name ++ '\x7d' :: s₂) := by
    simp
  rw [htext] at hleft
  by_contra hknown
  obtain ⟨v, hlookup⟩ := Option.ne_none_iff_exists'.mp hknown
  rw [hlookup] at hread
  rcases hleft with hstep | ⟨x, n, hx, hleave, qs₀, hbefore⟩
  · rw [hread] at hstep
    cases hstep
  · obtain ⟨name', after', hname', heq⟩ := exists_of_bracedRead (by rw [hleave]; simp)
    -- the pass has left an unknown reference that begins before
    rcases x with _ | ⟨a, _ | ⟨b, x⟩⟩
    · rw [List.nil_append, hread] at hleave
      cases hleave
    · cases heq
    · obtain ⟨rfl, heq'⟩ := List.cons.inj heq
      obtain ⟨rfl, hrest⟩ := List.cons.inj heq'
      rw [heq, bracedRead_reference env hname'] at hleave
      have hlength := length_of_leave hleave
      have hlong : x <+: name' ++ '\x7d' :: after' := ⟨_, hrest⟩
      have hpre : x <+: name' := by
        refine List.prefix_of_prefix_length_le hlong (List.prefix_append _ _) ?_
        simp only [List.length_cons] at hx
        omega
      refine hknown (hnested qs₀ x name after ?_ (fun hmem => hname' (hpre.subset hmem)) hname)
      rw [h, hbefore]
      simp

/-- No known reference between percent signs is. -/
theorem complete_of_percent (hpercent : Pass (percentRead env) 0 [] ps qs)
    {before after : List (Piece Char)} {name : List Char} (hne : name ≠ []) (hname : '%' ∉ name)
    (h : qs = before ++ (texts ('%' :: (name ++ ['%'])) ++ after)) : lookupEnv env name = none := by
  obtain ⟨ps₁, ps₂, -, -, hleft⟩ := hpercent.region h
  have hread := percentRead_reference env hne hname (outs ps₂)
  have htext : '%' :: (name ++ ['%']) ++ outs ps₂ = '%' :: (name ++ '%' :: outs ps₂) := by simp
  rw [htext] at hleft
  by_contra hknown
  obtain ⟨v, hlookup⟩ := Option.ne_none_iff_exists'.mp hknown
  rw [hlookup] at hread
  rcases hleft with hstep | ⟨x, n, -, hleave⟩
  · rw [hread] at hstep
    cases hstep
  · exact percentRead_ne_leave _ _ hleave

/-- No known name behind a dollar sign is, if what is read ends it where the input does. -/
theorem complete_of_bare (hdollar : isNameChar std '$' = false)
    (hbare : Pass (bareRead std env) 0 [] qs rs)
    (hends : ∀ before name after, qs = before ++ (texts ('$' :: name) ++ after) → IsName std name →
      NameEnds std (raws after) → lookupEnv env name ≠ none → NameEnds std (outs after))
    {before after : List (Piece Char)} {name : List Char} (hname : IsName std name)
    (hraws : NameEnds std (raws after)) (h : rs = before ++ (texts ('$' :: name) ++ after)) :
    lookupEnv env name = none := by
  obtain ⟨qs₁, qs₂, heq, hafter, hleft⟩ := hbare.region h
  by_contra hknown
  have hread := bareRead_reference env hname
    (hends qs₁ name qs₂ heq hname (by rwa [hafter]) hknown)
  obtain ⟨v, hlookup⟩ := Option.ne_none_iff_exists'.mp hknown
  rw [hlookup] at hread
  rcases hleft with hstep | ⟨x, n, hx, hleave⟩
  · rw [List.cons_append, hread] at hstep
    cases hstep
  · obtain ⟨name', after', hname', hends', heq'⟩ := exists_of_bareRead (by rw [hleave]; simp)
    rcases x with _ | ⟨a, x⟩
    · rw [List.nil_append, List.cons_append, hread] at hleave
      cases hleave
    · -- the name that is left would have the dollar sign in it
      obtain ⟨rfl, hrest⟩ := List.cons.inj heq'
      rw [heq', bareRead_reference env hname' hends'] at hleave
      have hlength := length_of_leave hleave
      have hlong : x ++ ['$'] <+: name' ++ after' := ⟨name ++ outs qs₂, by rw [← hrest]; simp⟩
      have hpre : x ++ ['$'] <+: name' := by
        refine List.prefix_of_prefix_length_le hlong (List.prefix_append _ _) ?_
        simp only [List.length_cons] at hx
        simp only [List.length_append, List.length_singleton]
        omega
      have hmem : '$' ∈ name' := hpre.subset (by simp)
      cases name' with
      | nil => exact hname'
      | cons c name' => exact Bool.false_ne_true (hdollar.symm.trans (hname'.2 _ hmem))

/-- No known reference of the input is left whole by the three passes. -/
theorem complete_of_passes (hdollar : isNameChar std '$' = false)
    (hbraced : Pass (bracedRead env) 0 [] (texts input) ps)
    (hpercent : Pass (percentRead env) 0 [] ps qs) (hbare : Pass (bareRead std env) 0 [] qs rs)
    (hnested : ∀ before x y after, ps = before ++
        (texts ('$' :: '\x7b' :: (x ++ '$' :: '\x7b' :: (y ++ ['\x7d']))) ++ after) →
      '\x7d' ∉ x → '\x7d' ∉ y → lookupEnv env y = none)
    (hends : ∀ before name after, qs = before ++ (texts ('$' :: name) ++ after) → IsName std name →
      NameEnds std (raws after) → lookupEnv env name ≠ none → NameEnds std (outs after))
    {before after : List (Piece Char)} {mid name : List Char}
    (h : rs = before ++ (texts mid ++ after)) (hreference : IsReference std (raws after) mid name) :
    lookupEnv env name = none := by
  cases hreference with
  | braced unclosed =>
      obtain ⟨qs₁, qs₂, hqs, -, -⟩ := hbare.region h
      obtain ⟨ps₁, ps₂, hps, -, -⟩ := hpercent.region hqs
      exact complete_of_braced hbraced hnested unclosed hps
  | percent nonempty unclosed =>
      obtain ⟨qs₁, qs₂, hqs, -, -⟩ := hbare.region h
      exact complete_of_percent hpercent nonempty unclosed hqs
  | bare isName ends => exact complete_of_bare hdollar hbare hends isName ends h

end expansion

/-- An environment with two variables. -/
def twoVariables (name : List Char) : Option (List Char) :=
  if name = ['A'] then some ['a'] else if name = ['B'] then some ['b'] else none

end AuraLauncher.Plugin
