import Mathlib.Tactic.Common

/-!
# Parser steps that recognize a grammar

A parser step reads a value off the front of a list of tokens. `Recognizes p G follow` says what it
reads: only phrases of `G` (`sound`), and every phrase of `G` that is followed by tokens with
`follow` (`complete`), which is how a step without backtracking knows where a phrase ends.

* `Recognizes.accepts_iff` — what a step says of a whole text.
* `leftChain` — the loop of a left-associative operator, on fuel taken from the tokens that are
  left; `LeftChain` is the grammar of its phrases.
* `Recognizes.leftChain` — the loop recognizes the chains of what its operand recognizes.
-/

namespace AuraLauncher.Lib

universe u v w

variable {τ : Type u} {α : Type v} {ε : Type w}

/-- Reads a value off the front of the tokens and leaves the rest, or refuses. -/
abbrev Step (ε : Type w) (τ : Type u) (α : Type v) := List τ → Except ε (α × List τ)

/-- The step reads phrases of `G` only, and every phrase of `G` that stands before a rest with
`follow`. -/
structure Recognizes (p : Step ε τ α) (G : List τ → α → Prop) (follow : List τ → Prop) : Prop where
  sound : ∀ {toks a rest}, p toks = .ok (a, rest) → ∃ pre, toks = pre ++ rest ∧ G pre a
  complete : ∀ {pre a rest}, G pre a → follow rest → p (pre ++ rest) = .ok (a, rest)

namespace Recognizes

variable {p : Step ε τ α} {G G' : List τ → α → Prop} {follow follow' : List τ → Prop}

/-- Before fewer rests, and for a grammar with the same phrases. -/
theorem congr (h : Recognizes p G follow) (hG : ∀ ts a, G ts a ↔ G' ts a)
    (hfollow : ∀ rest, follow' rest → follow rest) : Recognizes p G' follow' where
  sound hp := by
    obtain ⟨pre, happ, hpre⟩ := h.sound hp
    exact ⟨pre, happ, (hG _ _).mp hpre⟩
  complete hpre hrest := h.complete ((hG _ _).mpr hpre) (hfollow _ hrest)

/-- A step reads a whole text as the values the text has as a phrase. -/
theorem accepts_iff (h : Recognizes p G follow) (hnil : follow []) {toks : List τ} {a : α} :
    p toks = .ok (a, []) ↔ G toks a := by
  constructor
  · intro hp
    obtain ⟨pre, happ, hpre⟩ := h.sound hp
    rw [happ, List.append_nil]
    exact hpre
  · intro hG
    rw [← List.append_nil toks]
    exact h.complete hG hnil

end Recognizes

/-! ## Left-associative chains -/

/-- Phrases of `G` with separators between them; `mk` joins them from the left. -/
inductive LeftChain (sep : τ → Bool) (mk : α → α → α) (G : List τ → α → Prop) :
    List τ → α → Prop
  | one {ts : List τ} {a : α} : G ts a → LeftChain sep mk G ts a
  | more {ts ts' : List τ} {t : τ} {a b : α} : LeftChain sep mk G ts a → sep t = true →
      G ts' b → LeftChain sep mk G (ts ++ t :: ts') (mk a b)

/-- What may follow the first operands, joined to `a`, of a chain. -/
inductive ChainTail (sep : τ → Bool) (mk : α → α → α) (G : List τ → α → Prop) :
    α → List τ → α → Prop
  | nil {a : α} : ChainTail sep mk G a [] a
  | cons {ts ts' : List τ} {t : τ} {a b c : α} : sep t = true → G ts b →
      ChainTail sep mk G (mk a b) ts' c → ChainTail sep mk G a (t :: ts ++ ts') c

variable {sep : τ → Bool} {mk : α → α → α} {G : List τ → α → Prop}

theorem ChainTail.snoc {ts ts' : List τ} {t : τ} {a b c : α}
    (h : ChainTail sep mk G a ts b) (ht : sep t = true) (hc : G ts' c) :
    ChainTail sep mk G a (ts ++ t :: ts') (mk b c) := by
  induction h with
  | nil => simpa using ChainTail.cons ht hc .nil
  | cons hsep hG _ ih =>
      rw [List.append_assoc]
      exact .cons hsep hG ih

/-- A chain goes on with a tail. -/
theorem ChainTail.append_leftChain {pre tail : List τ} {a c : α}
    (h : ChainTail sep mk G a tail c) (hpre : LeftChain sep mk G pre a) :
    LeftChain sep mk G (pre ++ tail) c := by
  induction h generalizing pre with
  | nil =>
      rw [List.append_nil]
      exact hpre
  | cons ht hG _ ih =>
      rw [← List.append_assoc]
      exact ih (.more hpre ht hG)

/-- A chain is its first operand and a tail. -/
theorem leftChain_iff {ts : List τ} {c : α} :
    LeftChain sep mk G ts c ↔
      ∃ first a tail, ts = first ++ tail ∧ G first a ∧ ChainTail sep mk G a tail c := by
  constructor
  · intro h
    induction h with
    | one hG => exact ⟨_, _, [], (List.append_nil _).symm, hG, .nil⟩
    | more _ ht hb ih =>
        obtain ⟨first, a, tail, rfl, hfirst, htail⟩ := ih
        exact ⟨first, a, _, List.append_assoc _ _ _, hfirst, htail.snoc ht hb⟩
  · rintro ⟨first, a, tail, rfl, hfirst, htail⟩
    exact htail.append_leftChain (.one hfirst)

/-- The loop after the first operand. -/
def leftLoop (sep : τ → Bool) (mk : α → α → α) (p : Step ε τ α) : ℕ → α → Step ε τ α
  | 0, a, toks => .ok (a, toks)
  | _ + 1, a, [] => .ok (a, [])
  | n + 1, a, t :: toks =>
      if sep t then
        match p toks with
        | .ok (b, rest) => leftLoop sep mk p n (mk a b) rest
        | .error e => .error e
      else .ok (a, t :: toks)

/-- An operand and then the loop, which each round takes a token at least. -/
def leftChain (sep : τ → Bool) (mk : α → α → α) (p : Step ε τ α) : Step ε τ α := fun toks =>
  match p toks with
  | .ok (a, rest) => leftLoop sep mk p rest.length a rest
  | .error e => .error e

/-- The first token is not a separator. -/
def NoSep (sep : τ → Bool) (rest : List τ) : Prop := ∀ t ts, rest = t :: ts → sep t = false

variable {p : Step ε τ α} {follow : List τ → Prop}

theorem leftLoop_sound (hp : Recognizes p G follow) {n : ℕ} {a c : α} {toks rest : List τ}
    (h : leftLoop sep mk p n a toks = .ok (c, rest)) :
    ∃ pre, toks = pre ++ rest ∧ ChainTail sep mk G a pre c := by
  have hstop : ∀ {b : α} {ts : List τ}, (Except.ok (b, ts) : Except ε _) = .ok (c, rest) →
      ∃ pre, ts = pre ++ rest ∧ ChainTail sep mk G b pre c := by
    intro b ts heq
    obtain ⟨rfl, rfl⟩ := Prod.mk.inj (Except.ok.inj heq)
    exact ⟨[], rfl, .nil⟩
  induction n generalizing a toks with
  | zero => exact hstop h
  | succ n ih =>
      cases toks with
      | nil => exact hstop h
      | cons t toks =>
          unfold leftLoop at h
          by_cases ht : sep t = true
          · rw [if_pos ht] at h
            cases hread : p toks with
            | error e => rw [hread] at h; cases h
            | ok r =>
                rw [hread] at h
                obtain ⟨first, rfl, hfirst⟩ := hp.sound hread
                obtain ⟨tail, hrest, htail⟩ := ih h
                refine ⟨t :: first ++ tail, ?_, .cons ht hfirst htail⟩
                rw [hrest]
                simp
          · rw [if_neg ht] at h
            exact hstop h

theorem leftLoop_complete (hp : Recognizes p G follow)
    (hsep : ∀ t ts, sep t = true → follow (t :: ts)) {a c : α} {tail rest : List τ}
    (h : ChainTail sep mk G a tail c) (hfollow : follow rest) (hno : NoSep sep rest) {n : ℕ}
    (hn : tail.length ≤ n) :
    leftLoop sep mk p n a (tail ++ rest) = .ok (c, rest) := by
  induction h generalizing n with
  | nil =>
      cases n with
      | zero => rfl
      | succ n =>
          cases rest with
          | nil => rfl
          | cons t ts => exact if_neg (by rw [hno t ts rfl]; exact Bool.false_ne_true)
  | @cons ts ts' t a b c ht hG htail ih =>
      cases n with
      | zero => exact absurd hn (by simp)
      | succ n =>
          have hnext : follow (ts' ++ rest) := by
            cases htail with
            | nil => exact hfollow
            | cons ht' _ _ => exact hsep _ _ ht'
          have hread : p (ts ++ (ts' ++ rest)) = .ok (b, ts' ++ rest) := hp.complete hG hnext
          have hlen : ts'.length ≤ n := by
            simp only [List.cons_append, List.length_cons, List.length_append] at hn
            omega
          rw [List.cons_append, List.cons_append, List.append_assoc, leftLoop, if_pos ht, hread]
          exact ih hlen

/-- **The loop of a left-associative operator** recognizes chains, before a rest that may follow an
operand and does not begin with a separator. -/
theorem Recognizes.leftChain (hp : Recognizes p G follow)
    (hsep : ∀ t ts, sep t = true → follow (t :: ts)) :
    Recognizes (leftChain sep mk p) (LeftChain sep mk G)
      (fun rest => follow rest ∧ NoSep sep rest) where
  sound {toks c rest} h := by
    unfold Lib.leftChain at h
    cases hread : p toks with
    | error e => rw [hread] at h; cases h
    | ok r =>
        rw [hread] at h
        obtain ⟨first, rfl, hfirst⟩ := hp.sound hread
        obtain ⟨tail, hrest, htail⟩ := leftLoop_sound hp h
        refine ⟨first ++ tail, ?_, leftChain_iff.mpr ⟨first, _, tail, rfl, hfirst, htail⟩⟩
        rw [hrest, List.append_assoc]
  complete {pre c rest} h hrest := by
    obtain ⟨first, a, tail, rfl, hfirst, htail⟩ := leftChain_iff.mp h
    have hnext : follow (tail ++ rest) := by
      cases htail with
      | nil => exact hrest.1
      | cons ht _ _ => exact hsep _ _ ht
    rw [List.append_assoc, Lib.leftChain, hp.complete hfirst hnext]
    exact leftLoop_complete hp hsep htail hrest.1 hrest.2 (by simp)

end AuraLauncher.Lib
