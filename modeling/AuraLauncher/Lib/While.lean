import Mathlib.Tactic.Common

/-!
# Terminating `while` loops

A `While σ ρ` is a loop given as data: the body, which either goes on with a new state or leaves
with a result, together with a bound that every pass lowers. The bound is part of the loop, so a
loop that could run forever cannot be written down.

* `While.run` — the loop as a total function. It is computed on fuel taken from the bound, so a
  closed run evaluates by `decide`.
* `While.run_of_inl`, `While.run_of_inr` — one pass of the body.
* `While.run_induct` — the invariant rule: what the body keeps and the exit turns into `P` holds of
  the result.
* `While.run_cost_le` — the cost rule, for a cost that a pass raises by one at most.
* `While.passes` — the state after a number of passes. `While.exists_passes_run` takes a run apart
  into the passes that go on and the one that leaves, `While.passes_induct` is the invariant rule
  for the states on the way.
* `While.Reaches` — the states a run meets; `While.run_induct_of_reaches` is the invariant rule for
  bodies that are understood in those states only.
* `While.run_related`, `While.run_related_or` — two loops in step: related passes give related
  results.
-/

namespace AuraLauncher.Lib

universe u v

/-- A `while` loop with its termination bound. `body s = .inl s'` goes on with `s'`, and
`body s = .inr r` leaves the loop with `r`. -/
structure While (σ : Type u) (ρ : Type v) where
  /-- One pass through the loop. -/
  body : σ → σ ⊕ ρ
  /-- A bound on the number of passes left. -/
  bound : σ → ℕ
  /-- Every pass that goes on lowers the bound. -/
  decreases : ∀ {s s' : σ}, body s = .inl s' → bound s' < bound s

namespace While

variable {σ : Type u} {ρ : Type v} (L : While σ ρ)

/-- At most `fuel` passes of the loop. -/
def runFuel : ℕ → σ → Option ρ
  | 0, _ => none
  | fuel + 1, s =>
      match L.body s with
      | .inl s' => runFuel fuel s'
      | .inr r => some r

/-- More fuel than the bound always reaches the exit. -/
theorem runFuel_isSome (fuel : ℕ) (s : σ) (h : L.bound s < fuel) :
    (L.runFuel fuel s).isSome := by
  induction fuel generalizing s with
  | zero => omega
  | succ fuel ih =>
      unfold runFuel
      cases hb : L.body s with
      | inl s' =>
          have hlt := L.decreases hb
          exact ih s' (by omega)
      | inr r => rfl

/-- Once the fuel is enough, its amount does not matter. -/
theorem runFuel_eq_of_bound_lt (fuel fuel' : ℕ) (s : σ) (h : L.bound s < fuel)
    (h' : L.bound s < fuel') : L.runFuel fuel s = L.runFuel fuel' s := by
  induction fuel generalizing s fuel' with
  | zero => omega
  | succ fuel ih =>
      obtain _ | fuel' := fuel'
      · omega
      · unfold runFuel
        cases hb : L.body s with
        | inl s' =>
            have hlt := L.decreases hb
            exact ih fuel' s' (by omega) (by omega)
        | inr r => rfl

/-- The loop as a total function. -/
def run (s : σ) : ρ :=
  (L.runFuel (L.bound s + 1) s).get (L.runFuel_isSome _ s (Nat.lt_succ_self _))

theorem runFuel_eq_some_run (s : σ) : L.runFuel (L.bound s + 1) s = some (L.run s) :=
  (Option.some_get _).symm

/-- A pass that goes on leaves the result unchanged. -/
theorem run_of_inl {s s' : σ} (h : L.body s = .inl s') : L.run s = L.run s' := by
  have hlt := L.decreases h
  apply Option.some.inj
  rw [← runFuel_eq_some_run, ← runFuel_eq_some_run]
  have hunfold : L.runFuel (L.bound s + 1) s = L.runFuel (L.bound s) s' := by
    rw [runFuel, h]
  rw [hunfold]
  exact L.runFuel_eq_of_bound_lt _ _ s' hlt (Nat.lt_succ_self _)

/-- A pass that leaves gives the result. -/
theorem run_of_inr {s : σ} {r : ρ} (h : L.body s = .inr r) : L.run s = r := by
  apply Option.some.inj
  rw [← runFuel_eq_some_run, runFuel, h]

/-- **The invariant rule.** If every pass that goes on keeps `I`, and every exit from a state with
`I` gives a result with `P`, then a run from a state with `I` ends with `P`. -/
theorem run_induct {I : σ → Prop} {P : ρ → Prop}
    (hstep : ∀ s s', I s → L.body s = .inl s' → I s')
    (hexit : ∀ s r, I s → L.body s = .inr r → P r) (s : σ) (hs : I s) : P (L.run s) := by
  induction hn : L.bound s using Nat.strongRecOn generalizing s with
  | _ n ih =>
      cases hb : L.body s with
      | inl s' =>
          rw [L.run_of_inl hb]
          exact ih (L.bound s') (hn ▸ L.decreases hb) s' (hstep s s' hs hb) rfl
      | inr r =>
          rw [L.run_of_inr hb]
          exact hexit s r hs hb

/-- **The cost rule.** If every pass costs at most one, a run costs at most its bound and one
more. -/
theorem run_cost_le (cost : σ → ℕ) (cost' : ρ → ℕ)
    (hstep : ∀ s s', L.body s = .inl s' → cost s' ≤ cost s + 1)
    (hexit : ∀ s r, L.body s = .inr r → cost' r ≤ cost s + 1) (s : σ) :
    cost' (L.run s) ≤ cost s + L.bound s + 1 := by
  refine L.run_induct (I := fun t => cost t + L.bound t ≤ cost s + L.bound s)
    (P := fun r => cost' r ≤ cost s + L.bound s + 1) ?_ ?_ s (Nat.le_refl _)
  · intro t t' ht hb
    have hlt := L.decreases hb
    have hle := hstep t t' hb
    omega
  · intro t r ht hb
    have hle := hexit t r hb
    omega

/-! ## The states on the way -/

/-- The state after `n` passes that all went on. -/
def passes : ℕ → σ → Option σ
  | 0, s => some s
  | n + 1, s =>
      match L.body s with
      | .inl s' => passes n s'
      | .inr _ => none

theorem passes_succ_of_inl {n : ℕ} {s s' : σ} (h : L.body s = .inl s') :
    L.passes (n + 1) s = L.passes n s' := by
  rw [passes, h]

theorem passes_succ_eq_some {n : ℕ} {s t : σ} :
    L.passes (n + 1) s = some t ↔ ∃ s', L.body s = .inl s' ∧ L.passes n s' = some t := by
  rw [passes]
  cases L.body s with
  | inl s' => simp
  | inr r => simp

theorem passes_add {m n : ℕ} {s t : σ} :
    L.passes (m + n) s = some t ↔ ∃ u, L.passes m s = some u ∧ L.passes n u = some t := by
  induction m generalizing s with
  | zero => simp [passes]
  | succ m ih =>
      rw [Nat.succ_add, passes_succ_eq_some]
      simp only [passes_succ_eq_some, ih]
      constructor
      · rintro ⟨s', hs', u, hu, ht⟩
        exact ⟨u, ⟨s', hs', hu⟩, ht⟩
      · rintro ⟨u, ⟨s', hs', hu⟩, ht⟩
        exact ⟨s', hs', u, hu, ht⟩

/-- A run ends after no more passes than its bound. -/
theorem exists_passes_run (s : σ) :
    ∃ n t, n ≤ L.bound s ∧ L.passes n s = some t ∧ L.body t = .inr (L.run s) := by
  induction hn : L.bound s using Nat.strongRecOn generalizing s with
  | _ b ih =>
      cases hb : L.body s with
      | inl s' =>
          have hlt := L.decreases hb
          obtain ⟨n, t, hle, hpasses, ht⟩ := ih (L.bound s') (hn ▸ hlt) s' rfl
          refine ⟨n + 1, t, by omega, ?_, ?_⟩
          · rw [L.passes_succ_of_inl hb, hpasses]
          · rw [ht, L.run_of_inl hb]
      | inr r => exact ⟨0, s, Nat.zero_le _, rfl, by rw [hb, L.run_of_inr hb]⟩

/-- The result of a run is the result from every state on its way. -/
theorem run_of_passes {n : ℕ} {s t : σ} (h : L.passes n s = some t) : L.run s = L.run t := by
  induction n generalizing s with
  | zero =>
      obtain rfl : s = t := Option.some.inj h
      rfl
  | succ n ih =>
      obtain ⟨s', hs', hrest⟩ := L.passes_succ_eq_some.mp h
      rw [L.run_of_inl hs', ih hrest]

/-- The invariant rule for the states on the way. -/
theorem passes_induct {I : σ → Prop} (hstep : ∀ s s', I s → L.body s = .inl s' → I s') {n : ℕ}
    {s t : σ} (hs : I s) (h : L.passes n s = some t) : I t := by
  induction n generalizing s with
  | zero =>
      obtain rfl : s = t := Option.some.inj h
      exact hs
  | succ n ih =>
      obtain ⟨s', hs', hrest⟩ := L.passes_succ_eq_some.mp h
      exact ih (hstep s s' hs hs') hrest

/-- `t` is met by the run from `s`. -/
def Reaches (s t : σ) : Prop := ∃ n, L.passes n s = some t

theorem Reaches.refl (s : σ) : L.Reaches s s := ⟨0, rfl⟩

variable {L} in
theorem Reaches.step {s t t' : σ} (h : L.Reaches s t) (hbody : L.body t = .inl t') :
    L.Reaches s t' := by
  obtain ⟨n, hn⟩ := h
  exact ⟨n + 1, L.passes_add.mpr ⟨t, hn, L.passes_succ_eq_some.mpr ⟨t', hbody, rfl⟩⟩⟩

variable {L} in
theorem Reaches.trans {s t u : σ} (h : L.Reaches s t) (h' : L.Reaches t u) : L.Reaches s u := by
  obtain ⟨m, hm⟩ := h
  obtain ⟨n, hn⟩ := h'
  exact ⟨m + n, L.passes_add.mpr ⟨t, hm, hn⟩⟩

variable {L} in
theorem Reaches.run_eq {s t : σ} (h : L.Reaches s t) : L.run s = L.run t :=
  L.run_of_passes h.choose_spec

/-- The invariant rule, where the body is looked at only in states that the run meets. -/
theorem run_induct_of_reaches {I : σ → Prop} {P : ρ → Prop} {s : σ}
    (hstep : ∀ t t', L.Reaches s t → I t → L.body t = .inl t' → I t')
    (hexit : ∀ t r, L.Reaches s t → I t → L.body t = .inr r → P r) (hs : I s) : P (L.run s) :=
  L.run_induct (I := fun t => L.Reaches s t ∧ I t)
    (fun t t' h hbody => ⟨h.1.step hbody, hstep t t' h.1 h.2 hbody⟩)
    (fun t r h hbody => hexit t r h.1 h.2 hbody) s ⟨.refl L s, hs⟩

/-! ## Two loops in step -/

/-- **Two loops in step**: if related states make related passes, or stand where the comparison
stops, then either the runs end related, or they meet such states. -/
theorem run_related_or {σ' : Type*} {ρ' : Type*} (M : While σ' ρ') {I Q : σ → σ' → Prop}
    {P : ρ → ρ' → Prop} {s : σ} {t : σ'}
    (hpass : ∀ s' t', L.Reaches s s' → M.Reaches t t' → I s' t' →
      Q s' t' ∨ Sum.LiftRel I P (L.body s') (M.body t')) (h : I s t) :
    P (L.run s) (M.run t) ∨ ∃ s' t', L.Reaches s s' ∧ M.Reaches t t' ∧ I s' t' ∧ Q s' t' := by
  have hfrom : ∀ n s' t', L.bound s' = n → L.Reaches s s' → M.Reaches t t' → I s' t' →
      P (L.run s') (M.run t') ∨ ∃ s' t', L.Reaches s s' ∧ M.Reaches t t' ∧ I s' t' ∧ Q s' t' := by
    intro n
    induction n using Nat.strongRecOn with
    | _ n ih =>
        intro s' t' hn hs ht hI
        rcases hpass s' t' hs ht hI with hstop | hlift
        · exact .inr ⟨s', t', hs, ht, hI, hstop⟩
        · cases hb : L.body s' with
          | inl u =>
              cases hb' : M.body t' with
              | inl u' =>
                  rw [hb, hb', Sum.liftRel_inl_inl] at hlift
                  rw [L.run_of_inl hb, M.run_of_inl hb']
                  exact ih _ (hn ▸ L.decreases hb) u u' rfl (hs.step hb) (ht.step hb') hlift
              | inr r' =>
                  rw [hb, hb'] at hlift
                  cases hlift
          | inr r =>
              cases hb' : M.body t' with
              | inl u' =>
                  rw [hb, hb'] at hlift
                  cases hlift
              | inr r' =>
                  rw [hb, hb', Sum.liftRel_inr_inr] at hlift
                  rw [L.run_of_inr hb, M.run_of_inr hb']
                  exact .inl hlift
  exact hfrom _ s t rfl (.refl L s) (.refl M t) h

/-- Two loops in step after a related first pass. -/
theorem run_related {σ' : Type*} {ρ' : Type*} (M : While σ' ρ') {I : σ → σ' → Prop}
    {P : ρ → ρ' → Prop} {s : σ} {t : σ'} (hfirst : Sum.LiftRel I P (L.body s) (M.body t))
    (hpass : ∀ s' t', L.Reaches s s' → M.Reaches t t' → I s' t' →
      Sum.LiftRel I P (L.body s') (M.body t')) : P (L.run s) (M.run t) := by
  cases hb : L.body s with
  | inl u =>
      cases hb' : M.body t with
      | inl u' =>
          rw [hb, hb', Sum.liftRel_inl_inl] at hfirst
          have hs : L.Reaches s u := .step (.refl L s) hb
          have ht : M.Reaches t u' := .step (.refl M t) hb'
          rw [hs.run_eq, ht.run_eq]
          exact (L.run_related_or M (Q := fun _ _ => False)
            (fun s' t' hs' ht' hI => .inr (hpass s' t' (hs.trans hs') (ht.trans ht') hI))
            hfirst).resolve_right fun ⟨_, _, _, _, _, hno⟩ => hno
      | inr r' =>
          rw [hb, hb'] at hfirst
          cases hfirst
  | inr r =>
      cases hb' : M.body t with
      | inl u' =>
          rw [hb, hb'] at hfirst
          cases hfirst
      | inr r' =>
          rw [hb, hb', Sum.liftRel_inr_inr] at hfirst
          rwa [L.run_of_inr hb, M.run_of_inr hb']

end While

end AuraLauncher.Lib
