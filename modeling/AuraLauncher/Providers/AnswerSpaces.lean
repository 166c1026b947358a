import AuraLauncher.Providers.AnswerGrammar
import Mathlib.Data.Rat.Floor

/-!
# White space in the calculator

`launcher-core/src/providers/answers.rs`, `evaluate_arithmetic` drops white space before it reads,
so that it cannot tell white space between two tokens from white space within one: `1 2` is read as
the number `12`. Of the tokens only the numbers are longer than a character.

* `Unbroken` — no two characters of numbers are separated by white space alone.
* `phrase_isWhitespace_iff` — the phrases with white space between their tokens are the unbroken
  texts that are phrases without it.
* `Calculates`, `calculates_iff` — the evaluator gives a value to the sentences with white space
  between their tokens, and exactly when it does.
* `not_calculates_gap` — it gives `12` to `1 2`.
-/

namespace AuraLauncher.Providers.Answers

open AuraLauncher.Domain (isWhitespace)

/-- No two characters of numbers are separated by white space alone. -/
def Unbroken (s : List Char) : Prop :=
  ∀ (a : Char) (mid : List Char) (b : Char), a :: (mid ++ [b]) <:+: s → isNumberChar a = true →
    isNumberChar b = true → (∀ c ∈ mid, isWhitespace c = true) → mid = []

/-! ## Parts of unbroken texts -/

theorem Unbroken.of_infix {s t : List Char} (h : Unbroken t) (hst : s <:+: t) : Unbroken s :=
  fun a mid b hoccurs => h a mid b (hoccurs.trans hst)

/-- No character of a number is white space. -/
theorem isWhitespace_of_isNumberChar {c : Char} (h : isNumberChar c = true) :
    isWhitespace c = false := by
  unfold isNumberChar at h
  rcases Bool.or_eq_true _ _ ▸ h with hdigit | hdot
  · have hrange : 48 ≤ c.toNat ∧ c.toNat ≤ 57 := Char.isDigit_iff_toNat.mp hdigit
    simp [isWhitespace]
    omega
  · obtain rfl := beq_iff_eq.mp hdot
    rfl

/-- A text of characters of numbers is unbroken. -/
theorem unbroken_of_isNumberChar {s : List Char} (h : ∀ c ∈ s, isNumberChar c = true) :
    Unbroken s := by
  intro a mid b hoccurs _ _ hmid
  refine List.eq_nil_iff_forall_not_mem.mpr fun c hc => ?_
  have hs : c ∈ s := hoccurs.subset (List.mem_cons_of_mem _ (List.mem_append_left _ hc))
  exact Bool.false_ne_true ((isWhitespace_of_isNumberChar (h c hs)).symm.trans (hmid c hc))

/-- A list without a separator that occurs around it occurs before it or after it. -/
theorem infix_of_not_mem {w s t : List Char} {x : Char} (hx : x ∉ w)
    (h : w <:+: s ++ x :: t) : w <:+: s ∨ w <:+: t := by
  have hfront : ∀ {l : List Char}, x ∉ l → l <+: x :: t → l = [] := by
    intro l hl hpre
    cases l with
    | nil => rfl
    | cons y l =>
        obtain ⟨rfl, -⟩ := List.cons_prefix_cons.mp hpre
        exact absurd List.mem_cons_self hl
  rcases List.infix_append_iff.mp h with h | h | ⟨l, l', rfl, hl, hl'⟩
  · exact .inl h
  · rcases List.infix_cons_iff.mp h with h | h
    · exact .inl (hfront hx h ▸ List.nil_infix)
    · exact .inr h
  · obtain rfl := hfront (fun hmem => hx (List.mem_append_right _ hmem)) hl'
    rw [List.append_nil]
    exact .inl hl.isInfix

/-- Between two unbroken texts, what is neither white space nor of a number. -/
theorem Unbroken.append {s t : List Char} {x : Char} (hs : Unbroken s) (ht : Unbroken t)
    (hspace : isWhitespace x = false) (hnumber : isNumberChar x = false) :
    Unbroken (s ++ x :: t) := by
  intro a mid b hoccurs ha hb hmid
  have hx : x ∉ a :: (mid ++ [b]) := by
    intro hmem
    rcases List.mem_cons.mp hmem with rfl | hmem
    · exact Bool.false_ne_true (hnumber.symm.trans ha)
    · rcases List.mem_append.mp hmem with hmem | hmem
      · exact Bool.false_ne_true (hspace.symm.trans (hmid x hmem))
      · obtain rfl := List.mem_singleton.mp hmem
        exact Bool.false_ne_true (hnumber.symm.trans hb)
  rcases infix_of_not_mem hx hoccurs with h | h
  · exact hs a mid b h ha hb hmid
  · exact ht a mid b h ha hb hmid

/-- White space in front of an unbroken text. -/
theorem Unbroken.before {s l : List Char} (h : Unbroken s)
    (hl : ∀ c ∈ l, isWhitespace c = true) : Unbroken (l ++ s) := by
  induction l with
  | nil => exact h
  | cons x l ih =>
      obtain ⟨hx, hl⟩ := List.forall_mem_cons.mp hl
      intro a mid b hoccurs ha hb hmid
      rcases List.infix_cons_iff.mp hoccurs with hpre | hoccurs
      · obtain ⟨rfl, -⟩ := List.cons_prefix_cons.mp hpre
        exact absurd (isWhitespace_of_isNumberChar ha) (by rw [hx]; exact Bool.noConfusion)
      · exact ih hl a mid b hoccurs ha hb hmid

/-- The reading backwards of an unbroken text. -/
theorem Unbroken.reverse {s : List Char} (h : Unbroken s) : Unbroken s.reverse := by
  intro a mid b hoccurs ha hb hmid
  have hback : b :: (mid.reverse ++ [a]) <:+: s := by
    rw [← List.reverse_infix]
    simpa using hoccurs
  exact List.reverse_eq_nil_iff.mp (h b mid.reverse a hback hb ha fun c hc =>
    hmid c (List.mem_reverse.mp hc))

/-- White space behind an unbroken text. -/
theorem Unbroken.after {s l : List Char} (h : Unbroken s)
    (hl : ∀ c ∈ l, isWhitespace c = true) : Unbroken (s ++ l) := by
  have hback := (h.reverse.before fun c hc => hl c (List.mem_reverse.mp hc)).reverse
  rwa [List.reverse_append, List.reverse_reverse, List.reverse_reverse] at hback

/-! ## Tokens with white space -/

theorem withoutSpace_append (s t : List Char) :
    withoutSpace (s ++ t) = withoutSpace s ++ withoutSpace t := List.filter_append _ _

/-- Dropping the white space around a token leaves the token. -/
theorem Spells.withoutSpace {token s : List Char} (h : Spells isWhitespace token s)
    (htoken : ∀ c ∈ token, isWhitespace c = false) : withoutSpace s = token := by
  obtain ⟨before, after, hbefore, hafter, rfl⟩ := h
  have hnone : ∀ {l : List Char}, (∀ c ∈ l, isWhitespace c = true) →
      Answers.withoutSpace l = [] := fun hl =>
    List.filter_eq_nil_iff.mpr fun c hc => by simp [hl c hc]
  have hall : Answers.withoutSpace token = token :=
    List.filter_eq_self.mpr fun c hc => by simp [htoken c hc]
  rw [withoutSpace_append, withoutSpace_append, hnone hbefore, hnone hafter, hall, List.append_nil,
    List.nil_append]

/-- The symbols of the grammar are neither white space nor of a number. -/
theorem Operator.symbol_apart (op : Operator) :
    isWhitespace op.symbol = false ∧ isNumberChar op.symbol = false := by
  cases op <;> exact ⟨rfl, rfl⟩

/-- A symbol, with white space around it, between two unbroken texts. -/
theorem Spells.unbroken {x : Char} {sign s t : List Char} (h : Spells isWhitespace [x] sign)
    (hspace : isWhitespace x = false) (hnumber : isNumberChar x = false) (hs : Unbroken s)
    (ht : Unbroken t) : Unbroken (s ++ (sign ++ t)) := by
  obtain ⟨before, after, hbefore, hafter, rfl⟩ := h
  have hsplit : s ++ ((before ++ ([x] ++ after)) ++ t) = (s ++ before) ++ x :: (after ++ t) := by
    simp
  rw [hsplit]
  exact (hs.after hbefore).append (ht.before hafter) hspace hnumber

theorem unbroken_nil : Unbroken [] := unbroken_of_isNumberChar (List.forall_mem_nil _)

/-- A phrase is unbroken. -/
theorem Phrase.unbroken {p n : ℕ} {s : List Char} {e : Calculation}
    (h : Phrase isWhitespace p n s e) : Unbroken s := by
  induction h with
  | number hnumeral hspells =>
      obtain ⟨before, after, hbefore, hafter, rfl⟩ := hspells
      exact ((unbroken_of_isNumberChar hnumeral.isNumberChar).after hafter).before hbefore
  | neg hsign _ ih => exact hsign.unbroken rfl rfl unbroken_nil ih
  | pos hsign _ ih => exact hsign.unbroken rfl rfl unbroken_nil ih
  | @paren _ left s right _ hleft _ hright ih =>
      have hinner : Unbroken (s ++ right) := by
        have hend := hright.unbroken rfl rfl ih unbroken_nil
        rwa [List.append_nil] at hend
      exact hleft.unbroken rfl rfl unbroken_nil hinner
  | tighter _ ih => exact ih
  | @binary _ _ _ _ _ op _ _ _ _ hsign _ iha ihb =>
      exact hsign.unbroken op.symbol_apart.1 op.symbol_apart.2 iha ihb

/-- A phrase without its white space is a phrase without gaps. -/
theorem Phrase.withoutSpace {p n : ℕ} {s : List Char} {e : Calculation}
    (h : Phrase isWhitespace p n s e) : Phrase noGap p n (withoutSpace s) e := by
  have hsymbol : ∀ {x : Char} {sign : List Char}, Spells isWhitespace [x] sign →
      isWhitespace x = false → Spells noGap [x] (Answers.withoutSpace sign) := by
    intro x sign hsign hx
    exact spells_noGap.mpr (hsign.withoutSpace fun c hc => List.mem_singleton.mp hc ▸ hx)
  induction h with
  | number hnumeral hspells =>
      have htoken := hspells.withoutSpace fun c hc =>
        isWhitespace_of_isNumberChar (hnumeral.isNumberChar c hc)
      exact .number hnumeral (spells_noGap.mpr htoken)
  | neg hsign _ ih =>
      rw [withoutSpace_append]
      exact .neg (hsymbol hsign rfl) ih
  | pos hsign _ ih =>
      rw [withoutSpace_append]
      exact .pos (hsymbol hsign rfl) ih
  | paren hleft _ hright ih =>
      rw [withoutSpace_append, withoutSpace_append]
      exact .paren (hsymbol hleft rfl) ih (hsymbol hright rfl)
  | tighter _ ih => exact .tighter ih
  | @binary _ _ _ _ _ op _ _ _ hop hsign _ iha ihb =>
      rw [withoutSpace_append, withoutSpace_append]
      exact .binary iha hop (hsymbol hsign op.symbol_apart.1) ihb

/-! ## Texts without their white space -/

/-- Where the text without white space begins. -/
theorem withoutSpace_eq_cons {s cs : List Char} {c : Char} (h : withoutSpace s = c :: cs) :
    ∃ before rest, s = before ++ c :: rest ∧ (∀ x ∈ before, isWhitespace x = true) ∧
      withoutSpace rest = cs := by
  obtain ⟨before, rest, hs, hbefore, -, hrest⟩ := List.filter_eq_cons_iff.mp h
  exact ⟨before, rest, hs, fun x hx => by simpa using hbefore x hx, hrest⟩

theorem isWhitespace_of_withoutSpace_eq_nil {s : List Char} (h : withoutSpace s = []) :
    ∀ c ∈ s, isWhitespace c = true := fun c hc => by
  simpa using List.filter_eq_nil_iff.mp h c hc

/-- What goes on a number in an unbroken text stands next to it. -/
theorem Unbroken.number_rest {token s : List Char} {c : Char} (hc : isNumberChar c = true)
    (htoken : ∀ x ∈ token, isNumberChar x = true) (h : Unbroken (c :: s))
    (hs : withoutSpace s = token) :
    ∃ after, s = token ++ after ∧ ∀ x ∈ after, isWhitespace x = true := by
  induction token generalizing c s with
  | nil => exact ⟨s, rfl, isWhitespace_of_withoutSpace_eq_nil hs⟩
  | cons d token ih =>
      obtain ⟨hd, htoken⟩ := List.forall_mem_cons.mp htoken
      obtain ⟨before, rest, rfl, hbefore, hrest⟩ := withoutSpace_eq_cons hs
      have hnext : c :: (before ++ [d]) <:+: c :: (before ++ d :: rest) := ⟨[], rest, by simp⟩
      obtain rfl := h c before d hnext hc hd hbefore
      have htail : Unbroken (d :: rest) := h.of_infix (List.suffix_cons c _).isInfix
      obtain ⟨after, rfl, hafter⟩ := ih hd htoken htail hrest
      exact ⟨after, rfl, hafter⟩

/-- An unbroken text with the characters of a number is the number with white space around it. -/
theorem Unbroken.spells {token s : List Char} (h : Unbroken s) (hne : token ≠ [])
    (htoken : ∀ c ∈ token, isNumberChar c = true) (hs : withoutSpace s = token) :
    Spells isWhitespace token s := by
  obtain ⟨c, token, rfl⟩ := List.exists_cons_of_ne_nil hne
  obtain ⟨hc, htoken⟩ := List.forall_mem_cons.mp htoken
  obtain ⟨before, rest, rfl, hbefore, hrest⟩ := withoutSpace_eq_cons hs
  have htail : Unbroken (c :: rest) := h.of_infix (List.suffix_append before _).isInfix
  obtain ⟨after, rfl, hafter⟩ := htail.number_rest hc htoken hrest
  exact ⟨before, after, hbefore, hafter, rfl⟩

/-- A text that goes on from a symbol. -/
theorem spells_symbol {x : Char} {before : List Char}
    (h : ∀ c ∈ before, isWhitespace c = true) : Spells isWhitespace [x] (before ++ [x]) :=
  ⟨before, [], h, List.forall_mem_nil _, by simp⟩

/-- An unbroken text is the phrase that it is without its white space. -/
theorem Phrase.withSpace {p n : ℕ} {s cs : List Char} {e : Calculation}
    (h : Phrase noGap p n cs e) (hs : Answers.withoutSpace s = cs) (hunbroken : Unbroken s) :
    Phrase isWhitespace p n s e := by
  induction h generalizing s with
  | number hnumeral hspells =>
      obtain rfl := spells_noGap.mp hspells
      exact .number hnumeral (hunbroken.spells hnumeral.ne_nil hnumeral.isNumberChar hs)
  | neg hsign _ ih =>
      rw [spells_noGap.mp hsign, List.singleton_append] at hs
      obtain ⟨before, rest, rfl, hbefore, hrest⟩ := withoutSpace_eq_cons hs
      rw [← List.singleton_append, ← List.append_assoc] at hunbroken ⊢
      exact .neg (spells_symbol hbefore)
        (ih hrest (hunbroken.of_infix (List.suffix_append _ _).isInfix))
  | pos hsign _ ih =>
      rw [spells_noGap.mp hsign, List.singleton_append] at hs
      obtain ⟨before, rest, rfl, hbefore, hrest⟩ := withoutSpace_eq_cons hs
      rw [← List.singleton_append, ← List.append_assoc] at hunbroken ⊢
      exact .pos (spells_symbol hbefore)
        (ih hrest (hunbroken.of_infix (List.suffix_append _ _).isInfix))
  | paren hleft _ hright ih =>
      rw [spells_noGap.mp hleft, spells_noGap.mp hright, List.singleton_append] at hs
      obtain ⟨before, rest, rfl, hbefore, hrest⟩ := withoutSpace_eq_cons hs
      obtain ⟨inner, close, rfl, hinner, hclose⟩ := List.filter_eq_append_iff.mp hrest
      obtain ⟨gap, after, rfl, hgap, hafter⟩ := withoutSpace_eq_cons hclose
      have hright : Spells isWhitespace [')'] (gap ++ ')' :: after) :=
        ⟨gap, after, hgap, isWhitespace_of_withoutSpace_eq_nil hafter, rfl⟩
      have hin : inner <:+: before ++ '(' :: (inner ++ (gap ++ ')' :: after)) :=
        ⟨before ++ ['('], gap ++ ')' :: after, by simp⟩
      rw [← List.singleton_append, ← List.append_assoc]
      exact .paren (spells_symbol hbefore) (ih hinner (hunbroken.of_infix hin)) hright
  | tighter _ ih => exact .tighter (ih hs hunbroken)
  | @binary _ _ _ _ _ op _ _ _ hop hsign _ iha ihb =>
      rw [spells_noGap.mp hsign, List.singleton_append] at hs
      obtain ⟨left, right, rfl, hleft, hright⟩ := List.filter_eq_append_iff.mp hs
      obtain ⟨before, rest, rfl, hbefore, hrest⟩ := withoutSpace_eq_cons hright
      have ha := iha hleft (hunbroken.of_infix (List.prefix_append _ _).isInfix)
      have hb := ihb hrest (hunbroken.of_infix ⟨left ++ before ++ [op.symbol], [], by simp⟩)
      rw [← List.singleton_append, ← List.append_assoc before]
      exact .binary ha hop (spells_symbol hbefore) hb

/-- **Phrases with white space between their tokens** are the unbroken texts that are phrases
without it. -/
theorem phrase_isWhitespace_iff {p n : ℕ} {s : List Char} {e : Calculation} :
    Phrase isWhitespace p n s e ↔ Unbroken s ∧ Phrase noGap p n (withoutSpace s) e :=
  ⟨fun h => ⟨h.unbroken, h.withoutSpace⟩, fun h => h.2.withSpace rfl h.1⟩

/-! ## The evaluator -/

section Evaluator

variable {K : Type} [Field K] [LinearOrder K] [FloorRing K]

theorem sentence_isWhitespace_iff {s : List Char} {v : K} :
    Sentence isWhitespace s v ↔ Unbroken s ∧ Sentence noGap (withoutSpace s) v := by
  constructor
  · rintro ⟨e, he, hdefined, hv⟩
    obtain ⟨hunbroken, hphrase⟩ := phrase_isWhitespace_iff.mp he
    exact ⟨hunbroken, e, hphrase, hdefined, hv⟩
  · rintro ⟨hunbroken, e, he, hdefined, hv⟩
    exact ⟨e, phrase_isWhitespace_iff.mpr ⟨hunbroken, he⟩, hdefined, hv⟩

variable (K)

/-- The evaluator gives a value to a text exactly when the text, trimmed and without a leading `=`,
is a sentence with white space between its tokens only, and the value is that of the sentence. -/
def Calculates (src : String) : Prop :=
  ∀ v : K, evaluateArithmetic (Numbers.exact K) src = some v ↔
    Sentence isWhitespace (afterEquals src) v

/-- **When the evaluator calculates**: no two characters of numbers are separated by white space
alone, or the text is no sentence without its white space either. -/
theorem calculates_iff (src : String) :
    Calculates K src ↔ Unbroken (afterEquals src) ∨
      ∀ v : K, ¬ Sentence noGap (withoutSpace (afterEquals src)) v := by
  unfold Calculates
  simp only [evaluateArithmetic_iff, sentence_isWhitespace_iff]
  constructor
  · intro h
    by_cases hunbroken : Unbroken (afterEquals src)
    · exact .inl hunbroken
    · exact .inr fun v hv => hunbroken ((h v).mp hv).1
  · rintro (hunbroken | hnone) v
    · exact (and_iff_right hunbroken).symm
    · exact ⟨fun hv => absurd hv (hnone v), fun hv => absurd hv.2 (hnone v)⟩

end Evaluator

/-- **The evaluator gives `12` to `1 2`**, which is no sentence. -/
theorem not_calculates_gap : ¬ ∀ src : String, Calculates ℚ src := by
  intro h
  have hvalue : evaluateArithmetic (Numbers.exact ℚ) "1 2" = some 12 := by decide +kernel
  have hunbroken := (sentence_isWhitespace_iff.mp ((h "1 2" 12).mp hvalue)).1
  have htext : afterEquals "1 2" = ['1', ' ', '2'] := by decide +kernel
  rw [htext] at hunbroken
  have hgap := hunbroken '1' [' '] '2' List.infix_rfl rfl rfl (List.forall_mem_singleton.mpr rfl)
  exact List.cons_ne_nil _ _ hgap

end AuraLauncher.Providers.Answers
