import AuraLauncher.Lib.Recognizes

/-!
# Left-associative operators that compute

One level of left-associative operators, evaluated while it is read. As in `leftChain` a step reads
the operands and they are joined from the left; here every operator has a function of its own, which
may refuse its operands.

* `Operators` — what the tokens of a level do.
* `OperatorChain` — the phrases of a level with their values.
* `operatorLoop`, `operatorChain` — the loop, on fuel taken from the tokens that are left.
* `Recognizes.operatorChain` — the loop recognizes the phrases of the level.
-/

namespace AuraLauncher.Lib

universe u v w

variable {τ : Type u} {α : Type v} {ε : Type w}

/-- The operators of a level; a token that is none of them ends the level. -/
abbrev Operators (ε : Type w) (τ : Type u) (α : Type v) := τ → Option (α → α → Except ε α)

/-- Phrases of `G` with operators between them, evaluated from the left. -/
inductive OperatorChain (ops : Operators ε τ α) (G : List τ → α → Prop) : List τ → α → Prop
  | one {ts : List τ} {a : α} : G ts a → OperatorChain ops G ts a
  | more {ts ts' : List τ} {t : τ} {f : α → α → Except ε α} {a b c : α} :
      OperatorChain ops G ts a → ops t = some f → G ts' b → f a b = .ok c →
      OperatorChain ops G (ts ++ t :: ts') c

/-- The loop after the first operand. -/
def operatorLoop (ops : Operators ε τ α) (p : Step ε τ α) : ℕ → α → Step ε τ α
  | 0, a, toks => .ok (a, toks)
  | _ + 1, a, [] => .ok (a, [])
  | n + 1, a, t :: toks =>
      match ops t with
      | none => .ok (a, t :: toks)
      | some f =>
          match p toks with
          | .error e => .error e
          | .ok (b, rest) =>
              match f a b with
              | .error e => .error e
              | .ok c => operatorLoop ops p n c rest

/-- An operand and then the loop, which each round takes a token at least. -/
def operatorChain (ops : Operators ε τ α) (p : Step ε τ α) : Step ε τ α := fun toks =>
  match p toks with
  | .ok (a, rest) => operatorLoop ops p rest.length a rest
  | .error e => .error e

/-- The first token is no operator of the level. -/
def NoOperator (ops : Operators ε τ α) (rest : List τ) : Prop :=
  ∀ t ts, rest = t :: ts → ops t = none

variable {ops : Operators ε τ α} {p : Step ε τ α} {G : List τ → α → Prop}
  {follow : List τ → Prop}

/-- A round of the loop. -/
theorem operatorLoop_more {n : ℕ} {t : τ} {f : α → α → Except ε α} {a b c : α} {toks rest : List τ}
    (ht : ops t = some f) (hread : p toks = .ok (b, rest)) (hc : f a b = .ok c) :
    operatorLoop ops p (n + 1) a (t :: toks) = operatorLoop ops p n c rest := by
  simp only [operatorLoop, ht, hread, hc]

/-- The loop stops before a token that is no operator. -/
theorem operatorLoop_stop {n : ℕ} {a : α} {rest : List τ} (h : NoOperator ops rest) :
    operatorLoop ops p n a rest = .ok (a, rest) := by
  cases n with
  | zero => rfl
  | succ n =>
      cases rest with
      | nil => rfl
      | cons t ts => rw [operatorLoop, h t ts rfl]

/-- A round that is not the last reads an operator and an operand. -/
theorem operatorLoop_cases {n : ℕ} {a : α} {toks : List τ} {r : α × List τ}
    (h : operatorLoop ops p (n + 1) a toks = .ok r) :
    r = (a, toks) ∨ ∃ t toks' f b rest c, toks = t :: toks' ∧ ops t = some f ∧
      p toks' = .ok (b, rest) ∧ f a b = .ok c ∧ operatorLoop ops p n c rest = .ok r := by
  cases toks with
  | nil => exact .inl (Except.ok.inj h).symm
  | cons t toks =>
      rw [operatorLoop] at h
      cases ht : ops t with
      | none =>
          rw [ht] at h
          exact .inl (Except.ok.inj h).symm
      | some f =>
          rw [ht] at h
          cases hread : p toks with
          | error e =>
              simp only [hread] at h
              cases h
          | ok q =>
              obtain ⟨b, rest⟩ := q
              cases hc : f a b with
              | error e =>
                  simp only [hread, hc] at h
                  cases h
              | ok c =>
                  simp only [hread, hc] at h
                  exact .inr ⟨t, toks, f, b, rest, c, rfl, ht, hread, hc, h⟩

/-- The loop goes on with a chain. -/
theorem operatorLoop_sound (hp : Recognizes p G follow) {n : ℕ} {a c : α}
    {done toks rest : List τ} (hdone : OperatorChain ops G done a)
    (h : operatorLoop ops p n a toks = .ok (c, rest)) :
    ∃ pre, toks = pre ++ rest ∧ OperatorChain ops G (done ++ pre) c := by
  have hstop : ∀ {b : α} {done ts : List τ}, OperatorChain ops G done b → (c, rest) = (b, ts) →
      ∃ pre, ts = pre ++ rest ∧ OperatorChain ops G (done ++ pre) c := by
    intro b done ts hdone heq
    obtain ⟨rfl, rfl⟩ := Prod.mk.inj heq
    exact ⟨[], rfl, (List.append_nil done).symm ▸ hdone⟩
  induction n generalizing a done toks with
  | zero => exact hstop hdone (Except.ok.inj h).symm
  | succ n ih =>
      rcases operatorLoop_cases h with heq | ⟨t, toks, f, b, mid, d, rfl, ht, hread, hd, hloop⟩
      · exact hstop hdone heq
      · obtain ⟨operand, rfl, hoperand⟩ := hp.sound hread
        obtain ⟨pre, rfl, hpre⟩ := ih (hdone.more ht hoperand hd) hloop
        exact ⟨t :: operand ++ pre, by simp, by simpa using hpre⟩

/-- The loop after the first operand of a chain arrives at the chain's value, as many rounds later
as the chain has operators. -/
theorem OperatorChain.reaches (hp : Recognizes p G follow)
    (hops : ∀ t ts, (ops t).isSome → follow (t :: ts)) {ts : List τ} {c : α}
    (h : OperatorChain ops G ts c) {rest : List τ} (hrest : follow rest) :
    ∃ a mid k, p (ts ++ rest) = .ok (a, mid) ∧ k + rest.length ≤ mid.length ∧
      ∀ n, operatorLoop ops p (k + n) a mid = operatorLoop ops p n c rest := by
  induction h generalizing rest with
  | @one ts a hG =>
      refine ⟨a, rest, 0, hp.complete hG hrest, Nat.le_of_eq (Nat.zero_add _), fun n => ?_⟩
      rw [Nat.zero_add]
  | @more ts ts' t f a b c _ ht hG hc ih =>
      have hnext : follow (t :: (ts' ++ rest)) := hops _ _ (by rw [ht]; rfl)
      obtain ⟨first, mid, k, hread, hlen, hloop⟩ := ih hnext
      refine ⟨first, mid, k + 1, ?_, ?_, fun n => ?_⟩
      · rw [List.append_assoc]
        exact hread
      · simp only [List.length_cons, List.length_append] at hlen
        omega
      · rw [Nat.add_assoc, Nat.add_comm 1 n, hloop]
        exact operatorLoop_more ht (hp.complete hG hrest) hc

/-- **The loop of a level of operators** recognizes its chains, before a rest that may follow an
operand and does not begin with an operator. -/
theorem Recognizes.operatorChain (hp : Recognizes p G follow)
    (hops : ∀ t ts, (ops t).isSome → follow (t :: ts)) :
    Recognizes (operatorChain ops p) (OperatorChain ops G)
      (fun rest => follow rest ∧ NoOperator ops rest) where
  sound {toks c rest} h := by
    unfold Lib.operatorChain at h
    cases hread : p toks with
    | error e =>
        rw [hread] at h
        cases h
    | ok r =>
        obtain ⟨a, mid⟩ := r
        rw [hread] at h
        obtain ⟨first, rfl, hfirst⟩ := hp.sound hread
        obtain ⟨pre, rfl, hpre⟩ := operatorLoop_sound hp (.one hfirst) h
        exact ⟨first ++ pre, (List.append_assoc _ _ _).symm, hpre⟩
  complete {pre c rest} h hrest := by
    obtain ⟨a, mid, k, hread, hlen, hloop⟩ := h.reaches hp hops hrest.1
    obtain ⟨n, hn⟩ := Nat.exists_eq_add_of_le (Nat.le_of_add_right_le hlen)
    unfold Lib.operatorChain
    rw [hread]
    show operatorLoop ops p mid.length a mid = _
    rw [hn, hloop, operatorLoop_stop hrest.2]

end AuraLauncher.Lib
