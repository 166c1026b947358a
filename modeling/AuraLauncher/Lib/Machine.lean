import Mathlib.Data.List.Infix
import Mathlib.Tactic.Common

/-!
# Labelled machines and their runs

A `Machine σ α` is a partial step function: `step s a` is the state after action `a` from `s`, and
`none` when `a` is not possible there. A run is a list of actions; everything a whole run keeps is
proved from what one step keeps.

* `Machine.run`, `Machine.Visits` — the state after a run, and the states met on the way.
* `Machine.Along` — a condition met by every step of a run.
* `Machine.run_inv`, `Machine.run_inv_past` — the invariant rule, for the steps that meet a
  condition; in the second form the invariant may speak of the actions so far.
* `Machine.forall_visits_iff_along` — the exact rule: the steps that keep an invariant are the
  runs that do.
* `Machine.iff_along_of_run` — the same for a property that, once lost, stays lost.
* `Machine.withHistory` — the machine with its past as part of the state.
* `Machine.count_le_of_bound` — the termination rule: a bound that some actions lower and no action
  raises limits how often those actions occur in a run.
* `Machine.exists_run_to` — the progress rule: with such a bound, a state from which some step is
  always possible until `Q` holds can be run to `Q`.

The threads of a program each have a name of their own: `Threads ι τ` gives the state of the thread
of a name, and `none` for a name that no thread has yet. A step of a concurrent program moves one
thread, so what is kept of all threads is proved of that one.

* `Threads.set` — the state of one thread replaced, or a thread begun.
* `Threads.Every` — something holds of every thread.
* `Threads.Every.set`, `Threads.Every.imp` — what a step of one thread keeps of all.
-/

namespace AuraLauncher.Lib

universe u v

/-- A partial step function on states `σ` with actions `α`. -/
structure Machine (σ : Type u) (α : Type v) where
  /-- The state after one action, if the action is possible. -/
  step : σ → α → Option σ

namespace Machine

variable {σ : Type u} {α : Type v} (M : Machine σ α)

/-- The state after a list of actions, if each was possible in its turn. -/
def run : σ → List α → Option σ
  | s, [] => some s
  | s, a :: as => (M.step s a).bind fun s' => run s' as

theorem run_cons (s : σ) (a : α) (as : List α) :
    M.run s (a :: as) = (M.step s a).bind fun s' => M.run s' as := rfl

theorem run_cons_eq_some {s t : σ} {a : α} {as : List α} :
    M.run s (a :: as) = some t ↔ ∃ s', M.step s a = some s' ∧ M.run s' as = some t := by
  rw [run_cons, Option.bind_eq_some_iff]

theorem run_append (s : σ) (as bs : List α) :
    M.run s (as ++ bs) = (M.run s as).bind fun s' => M.run s' bs := by
  induction as generalizing s with
  | nil => rfl
  | cons a as ih =>
      rw [List.cons_append, run_cons, run_cons, Option.bind_assoc]
      congr 1
      funext s'
      exact ih s'

theorem run_append_eq_some {s t : σ} {as bs : List α} :
    M.run s (as ++ bs) = some t ↔ ∃ s', M.run s as = some s' ∧ M.run s' bs = some t := by
  rw [run_append, Option.bind_eq_some_iff]

/-- A machine whose every action is possible runs as a fold. -/
theorem run_eq_foldl {f : σ → α → σ} (hstep : ∀ s a, M.step s a = some (f s a)) (s : σ)
    (as : List α) : M.run s as = some (as.foldl f s) := by
  induction as generalizing s with
  | nil => rfl
  | cons a as ih => rw [run_cons, hstep, Option.bind_some, ih, List.foldl_cons]

/-- `t` is one of the states met by the run of `as` from `s`. -/
def Visits (s : σ) (as : List α) (t : σ) : Prop :=
  ∃ bs, bs <+: as ∧ M.run s bs = some t

theorem Visits.of_run {M : Machine σ α} {s t : σ} {as : List α} (h : M.run s as = some t) :
    M.Visits s as t :=
  ⟨as, List.prefix_rfl, h⟩

/-- A state met by a run is met by every run that continues it. -/
theorem Visits.append {M : Machine σ α} {s t : σ} {as : List α} (h : M.Visits s as t)
    (bs : List α) : M.Visits s (as ++ bs) t := by
  obtain ⟨cs, hcs, hrun⟩ := h
  exact ⟨cs, hcs.trans (List.prefix_append as bs), hrun⟩

/-- Every step of the run of `as` from `s` meets the condition `G` on the state it starts from and
its action. -/
def Along (G : σ → α → Prop) : σ → List α → Prop
  | _, [] => True
  | s, a :: as => G s a ∧ ∀ s', M.step s a = some s' → Along G s' as

instance Along.decidable {G : σ → α → Prop} [hG : ∀ s a, Decidable (G s a)] :
    ∀ s as, Decidable (M.Along G s as)
  | _, [] => .isTrue trivial
  | s, a :: as =>
      match hstep : M.step s a with
      | none => @decidable_of_iff _ (G s a) (by simp [Along, hstep]) (hG s a)
      | some s' =>
          @decidable_of_iff _ (G s a ∧ M.Along G s' as) (by simp [Along, hstep])
            (@instDecidableAnd _ _ (hG s a) (Along.decidable s' as))

theorem along_append {G : σ → α → Prop} {s t : σ} {as bs : List α} (h : M.run s as = some t) :
    M.Along G s (as ++ bs) ↔ M.Along G s as ∧ M.Along G t bs := by
  induction as generalizing s with
  | nil =>
      obtain rfl : s = t := Option.some.inj h
      simp [Along]
  | cons a as ih =>
      obtain ⟨s', hstep, hrun⟩ := M.run_cons_eq_some.mp h
      have huniq : ∀ {p : σ → Prop}, (∀ r, M.step s a = some r → p r) ↔ p s' := by
        intro p
        rw [hstep]
        simp
      simp only [List.cons_append, Along, huniq, ih hrun, and_assoc]

/-- A condition along a run, read off the places of its actions. -/
theorem along_iff_forall_split {G : σ → α → Prop} {s : σ} {as : List α} :
    M.Along G s as ↔
      ∀ past a after, past ++ a :: after = as → ∀ t, M.run s past = some t → G t a := by
  induction as generalizing s with
  | nil => exact iff_of_true trivial fun past a after h => by simp at h
  | cons b as ih =>
      rw [Along]
      constructor
      · rintro ⟨hfirst, hrest⟩ past a after hsplit t hrun
        cases past with
        | nil =>
            obtain rfl := Option.some.inj hrun
            obtain ⟨rfl, -⟩ := List.cons.inj hsplit
            exact hfirst
        | cons c past =>
            obtain ⟨rfl, htail⟩ := List.cons.inj hsplit
            obtain ⟨s', hs', hrest'⟩ := M.run_cons_eq_some.mp hrun
            exact ih.mp (hrest s' hs') past a after htail t hrest'
      · intro h
        refine ⟨h [] b as rfl s rfl, fun s' hs' => ih.mpr fun past a after hsplit t hrun => ?_⟩
        exact h (b :: past) a after (by rw [List.cons_append, hsplit]) t
          (M.run_cons_eq_some.mpr ⟨s', hs', hrun⟩)

theorem Along.mono {M : Machine σ α} {G H : σ → α → Prop} (hGH : ∀ s a, G s a → H s a) {s : σ}
    {as : List α} (h : M.Along G s as) : M.Along H s as := by
  induction as generalizing s with
  | nil => trivial
  | cons a as ih => exact ⟨hGH s a h.1, fun s' hs' => ih (h.2 s' hs')⟩

theorem Along.and {M : Machine σ α} {G H : σ → α → Prop} {s : σ} {as : List α}
    (hG : M.Along G s as) (hH : M.Along H s as) : M.Along (fun s a => G s a ∧ H s a) s as := by
  induction as generalizing s with
  | nil => trivial
  | cons a as ih => exact ⟨⟨hG.1, hH.1⟩, fun s' hs' => ih (hG.2 s' hs') (hH.2 s' hs')⟩

/-- A condition on the actions alone holds along a run when every action of the run has it. -/
theorem along_of_forall {p : α → Prop} {s : σ} {as : List α} (h : ∀ a ∈ as, p a) :
    M.Along (fun _ a => p a) s as := by
  induction as generalizing s with
  | nil => trivial
  | cons a as ih =>
      exact ⟨h a List.mem_cons_self, fun s' _ => ih fun b hb => h b (List.mem_cons_of_mem a hb)⟩

/-- Every action of a run has what all its steps ask of their actions. -/
theorem forall_of_along {p : α → Prop} {s t : σ} {as : List α} (h : M.run s as = some t)
    (halong : M.Along (fun _ a => p a) s as) : ∀ a ∈ as, p a := by
  induction as generalizing s with
  | nil => exact fun a ha => absurd ha List.not_mem_nil
  | cons a as ih =>
      obtain ⟨s', hs', hrun⟩ := M.run_cons_eq_some.mp h
      intro b hb
      rcases List.mem_cons.mp hb with rfl | hb
      · exact halong.1
      · exact ih hrun (halong.2 s' hs') b hb

/-- **The invariant rule.** What every step that meets `G` keeps, every run whose steps all meet
`G` keeps. -/
theorem run_inv {I : σ → Prop} {G : σ → α → Prop}
    (hstep : ∀ s a s', I s → G s a → M.step s a = some s' → I s') {s t : σ} {as : List α}
    (hs : I s) (hG : M.Along G s as) (h : M.run s as = some t) : I t := by
  induction as generalizing s with
  | nil =>
      obtain rfl : s = t := Option.some.inj h
      exact hs
  | cons a as ih =>
      obtain ⟨s', hs', hrun⟩ := M.run_cons_eq_some.mp h
      exact ih (hstep s a s' hs hG.1 hs') (hG.2 s' hs') hrun

/-- What the steps that meet `G` do from states with `I`, they do along every run whose steps meet
`G`, if they keep `I`. -/
theorem Along.imp_inv {M : Machine σ α} {I : σ → Prop} {G H : σ → α → Prop} {s : σ} {as : List α}
    (hG : M.Along G s as) (hstep : ∀ s a s', I s → G s a → M.step s a = some s' → I s') (hs : I s)
    (hGH : ∀ s a, I s → G s a → H s a) : M.Along H s as := by
  induction as generalizing s with
  | nil => trivial
  | cons a as ih =>
      exact ⟨hGH s a hs hG.1, fun s' hs' => ih (hG.2 s' hs') (hstep s a s' hs hG.1 hs')⟩

/-- The invariant rule for every step. -/
theorem run_inv_of_step {I : σ → Prop} (hstep : ∀ s a s', I s → M.step s a = some s' → I s')
    {s t : σ} {as : List α} (hs : I s) (h : M.run s as = some t) : I t :=
  M.run_inv (G := fun _ _ => True) (fun s a s' hI _ => hstep s a s' hI) hs
    (M.along_of_forall fun _ _ => trivial) h

/-- **The exact rule.** If `G` is exactly what a step needs to keep `I`, and no step is impossible
from a state with `I`, then a run keeps `I` in every state it meets when, and only when, all its
steps meet `G`. -/
theorem forall_visits_iff_along {I : σ → Prop} {G : σ → α → Prop}
    (htotal : ∀ s a, I s → ∃ s', M.step s a = some s')
    (hstep : ∀ s a s', I s → M.step s a = some s' → (I s' ↔ G s a)) {s : σ} {as : List α}
    (hs : I s) : (∀ t, M.Visits s as t → I t) ↔ M.Along G s as := by
  constructor
  · intro hall
    induction as generalizing s with
    | nil => trivial
    | cons a as ih =>
        have hvisit : ∀ s', M.step s a = some s' → I s' := fun s' hs' =>
          hall s' ⟨[a], ⟨as, rfl⟩, M.run_cons_eq_some.mpr ⟨s', hs', rfl⟩⟩
        constructor
        · obtain ⟨s', hs'⟩ := htotal s a hs
          exact (hstep s a s' hs hs').mp (hvisit s' hs')
        · intro s' hs'
          refine ih (hvisit s' hs') fun t => ?_
          rintro ⟨bs, hbs, hrun⟩
          refine hall t ⟨a :: bs, ?_, M.run_cons_eq_some.mpr ⟨s', hs', hrun⟩⟩
          exact List.cons_prefix_cons.mpr ⟨rfl, hbs⟩
  · rintro halong t ⟨bs, ⟨cs, rfl⟩, hrun⟩
    exact M.run_inv (fun s a s' hI hG hs' => (hstep s a s' hI hs').mpr hG) hs
      ((M.along_append hrun).mp halong).1 hrun

/-- The exact rule for a property that no step brings back: if a step has `I` after it when, and
only when, `I` held before and the step meets `G`, then a run ends with `I` when, and only when, it
started with it and all its steps meet `G`. What every step keeps, `J`, may be used. -/
theorem iff_along_of_run {I J : σ → Prop} {G : σ → α → Prop}
    (hstep : ∀ s a s', J s → M.step s a = some s' → J s' ∧ (I s' ↔ I s ∧ G s a)) {s t : σ}
    {as : List α} (hs : J s) (h : M.run s as = some t) : I t ↔ I s ∧ M.Along G s as := by
  induction as generalizing s with
  | nil =>
      obtain rfl : s = t := Option.some.inj h
      simp [Along]
  | cons a as ih =>
      obtain ⟨s', hs', hrun⟩ := M.run_cons_eq_some.mp h
      obtain ⟨hJ, hI⟩ := hstep s a s' hs hs'
      have hnext : (∀ r, M.step s a = some r → M.Along G r as) ↔ M.Along G s' as := by
        rw [hs']
        simp
      rw [ih hJ hrun, hI, Along, hnext, and_assoc]

/-- The invariant rule for an invariant of the actions so far and the state they lead to. -/
theorem run_inv_past {I : List α → σ → Prop} {G : σ → α → Prop} {s₀ t : σ} {as : List α}
    (hstep : ∀ past s a s', past ++ [a] <+: as → M.run s₀ past = some s → I past s → G s a →
      M.step s a = some s' → I (past ++ [a]) s')
    (hstart : I [] s₀) (hG : M.Along G s₀ as) (h : M.run s₀ as = some t) : I as t := by
  have hgen : ∀ rest past s, past ++ rest = as → M.run s₀ past = some s → I past s →
      M.Along G s rest → M.run s rest = some t → I as t := by
    intro rest
    induction rest with
    | nil =>
        rintro past s rfl - hI - hrun
        obtain rfl : s = t := Option.some.inj hrun
        rwa [List.append_nil]
    | cons a rest ih =>
        intro past s hsplit hpast hI hG hrun
        obtain ⟨s', hs', hrest⟩ := M.run_cons_eq_some.mp hrun
        have hsplit' : past ++ [a] ++ rest = as := by
          rw [List.append_assoc, List.singleton_append, hsplit]
        refine ih (past ++ [a]) s' hsplit' ?_ ?_ (hG.2 s' hs') hrest
        · exact M.run_append_eq_some.mpr ⟨s, hpast, M.run_cons_eq_some.mpr ⟨s', hs', rfl⟩⟩
        · exact hstep past s a s' ⟨rest, hsplit'⟩ hpast hI hG.1 hs'
  exact hgen as [] s₀ rfl rfl hstart hG h

/-- **The termination rule.** If every step from a state with `I` keeps `I` and does not raise
`bound`, and the steps by an action with `p` lower it, then a run from a state with `I` has no more
actions with `p` than the bound of the state. -/
theorem count_le_of_bound {I : σ → Prop} {G : σ → α → Prop} {bound : σ → ℕ} {p : α → Bool}
    (hstep : ∀ s a s', I s → G s a → M.step s a = some s' →
      I s' ∧ bound s' + (if p a then 1 else 0) ≤ bound s)
    {s t : σ} {as : List α} (hs : I s) (hG : M.Along G s as) (h : M.run s as = some t) :
    as.countP p + bound t ≤ bound s := by
  induction as generalizing s with
  | nil =>
      obtain rfl : s = t := Option.some.inj h
      simp
  | cons a as ih =>
      obtain ⟨s', hs', hrun⟩ := M.run_cons_eq_some.mp h
      obtain ⟨hI, hle⟩ := hstep s a s' hs hG.1 hs'
      have hrest := ih hI (hG.2 s' hs') hrun
      rw [List.countP_cons]
      omega

/-- **The progress rule.** If the steps that meet `G` lower `bound` and keep `I`, and from every
state with `I` that has not reached `Q` such a step is possible, then every state with `I` can be
run to `Q` by such steps. -/
theorem exists_run_to {I Q : σ → Prop} {G : σ → α → Prop} {bound : σ → ℕ}
    (hstep : ∀ s a s', I s → G s a → M.step s a = some s' → I s' ∧ bound s' < bound s)
    (hprog : ∀ s, I s → ¬ Q s → ∃ a s', G s a ∧ M.step s a = some s') (s : σ) (hs : I s) :
    ∃ as t, M.run s as = some t ∧ M.Along G s as ∧ Q t := by
  induction hn : bound s using Nat.strongRecOn generalizing s with
  | _ n ih =>
      by_cases hQ : Q s
      · exact ⟨[], s, rfl, trivial, hQ⟩
      · obtain ⟨a, s', hGa, hs'⟩ := hprog s hs hQ
        obtain ⟨hI, hlt⟩ := hstep s a s' hs hGa hs'
        obtain ⟨as, t, hrun, hG, ht⟩ := ih (bound s') (hn ▸ hlt) s' hI rfl
        refine ⟨a :: as, t, M.run_cons_eq_some.mpr ⟨s', hs', hrun⟩, ⟨hGa, ?_⟩, ht⟩
        intro r hr
        obtain rfl : s' = r := Option.some.inj (hs'.symm.trans hr)
        exact hG

/-! ## History -/

/-- The machine that also keeps its past: the states it left and the actions it left them by,
newest first. Conditions of its steps may speak of the past. -/
def withHistory : Machine (σ × List (σ × α)) α where
  step p a := (M.step p.1 a).map fun s' => (s', (p.1, a) :: p.2)

theorem withHistory_step_eq_some {p q : σ × List (σ × α)} {a : α} :
    M.withHistory.step p a = some q ↔ M.step p.1 a = some q.1 ∧ q.2 = (p.1, a) :: p.2 := by
  obtain ⟨t, past⟩ := q
  simp only [withHistory, Option.map_eq_some_iff, Prod.mk.injEq]
  constructor
  · rintro ⟨s', hs', rfl, rfl⟩
    exact ⟨hs', rfl⟩
  · rintro ⟨hs', rfl⟩
    exact ⟨t, hs', rfl, rfl⟩

/-- The past only grows. -/
theorem withHistory_suffix {p q : σ × List (σ × α)} {as : List α}
    (h : M.withHistory.run p as = some q) : p.2 <:+ q.2 :=
  M.withHistory.run_inv_of_step (I := fun r => p.2 <:+ r.2)
    (fun r a r' hr hstep => by
      rw [(M.withHistory_step_eq_some.mp hstep).2]
      exact hr.trans (List.suffix_cons _ _))
    List.suffix_rfl h

/-- A condition that does not speak of the past holds along a run with history when it does along
the run. -/
theorem along_withHistory {G : σ → α → Prop} (p : σ × List (σ × α)) (as : List α) :
    M.withHistory.Along (fun q a => G q.1 a) p as ↔ M.Along G p.1 as := by
  induction as generalizing p with
  | nil => exact Iff.rfl
  | cons a as ih =>
      refine and_congr Iff.rfl ?_
      constructor
      · intro h s' hs'
        exact (ih (s', (p.1, a) :: p.2)).mp
          (h _ (M.withHistory_step_eq_some.mpr ⟨hs', rfl⟩))
      · intro h q hq
        exact (ih q).mpr (h q.1 (M.withHistory_step_eq_some.mp hq).1)

end Machine

/-! ## Threads by their names -/

/-- The threads that have begun, by their names. -/
abbrev Threads (ι : Type u) (τ : Type v) := ι → Option τ

namespace Threads

variable {ι : Type u} {τ : Type v}

/-- No thread has begun. -/
def empty : Threads ι τ := fun _ => none

/-- Something holds of every thread. -/
def Every (P : ι → τ → Prop) (f : Threads ι τ) : Prop := ∀ i t, f i = some t → P i t

theorem every_empty (P : ι → τ → Prop) : (empty : Threads ι τ).Every P := by
  intro i t h
  cases h

theorem Every.imp {P Q : ι → τ → Prop} {f : Threads ι τ} (h : f.Every P)
    (hPQ : ∀ i t, f i = some t → P i t → Q i t) : f.Every Q :=
  fun i t ht => hPQ i t ht (h i t ht)

variable [DecidableEq ι]

/-- The thread `i` is now in the state `t`. -/
def set (f : Threads ι τ) (i : ι) (t : τ) : Threads ι τ :=
  fun j => if j = i then some t else f j

@[simp] theorem set_self (f : Threads ι τ) (i : ι) (t : τ) : f.set i t i = some t :=
  if_pos rfl

theorem set_of_ne (f : Threads ι τ) {i j : ι} (t : τ) (h : j ≠ i) : f.set i t j = f j :=
  if_neg h

/-- **What a step of one thread keeps of all**: it holds of the thread that moved, and of the
others as before. -/
theorem Every.set {P Q : ι → τ → Prop} {f : Threads ι τ} {i : ι} {t : τ} (h : f.Every P)
    (hi : Q i t) (hPQ : ∀ j u, j ≠ i → f j = some u → P j u → Q j u) : (f.set i t).Every Q := by
  intro j u hu
  by_cases hj : j = i
  · subst hj
    rw [set_self] at hu
    exact Option.some.inj hu ▸ hi
  · rw [set_of_ne f t hj] at hu
    exact hPQ j u hj hu (h j u hu)

end Threads

end AuraLauncher.Lib
