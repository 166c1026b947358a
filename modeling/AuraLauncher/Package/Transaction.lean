import AuraLauncher.Package.Resolver
import Mathlib.Data.Set.Basic

/-!
# Carrying out an install plan

`transactional.rs`: the steps of a plan are staged and activated in turn; when one fails, the ones
before it are removed in reverse order.

* `PackageInstaller` — the three operations, on a state of any type. `PackageInstaller.Lawful` is
  what their documentation says about the set of active packages.
* `executePlan` — the executor, with the texts it answers with.
* `executePlan_spec` — what is active after it, and what it reports.
* `restores_iff` — after a failure and its rollback the active packages are the ones from before
  exactly when none of the steps that were undone had been active before.
* `PackageInstaller.recording` — the same installer, keeping every state it goes through.
* `closed_throughout` — a plan of the resolver never shows a package without its dependencies: on
  the way to success from any closed set, and through a rollback if nothing active before depends
  on a package of the plan.
-/

namespace AuraLauncher.Package

open AuraLauncher.Lib

universe u

variable {σ : Type u}

/-! ## The executor -/

/-- The operations of an installer; each answers and leaves a state.
Source: `transactional.rs`, `PackageInstaller`. -/
structure PackageInstaller (σ : Type u) where
  stage : String → σ → Except String Unit × σ
  activate : String → σ → Except String Unit × σ
  remove : String → σ → Except String Unit × σ

namespace PackageInstaller

variable (inst : PackageInstaller σ)

/-- One step of a plan. Source: `transactional.rs`, `execute_plan`
(`installer.stage(id).and_then(|_| installer.activate(id))`). -/
def install (id : String) (s : σ) : Except String Unit × σ :=
  match inst.stage id s with
  | (.ok (), s') => inst.activate id s'
  | (.error e, s') => (.error e, s')

/-- The removals of a rollback, with what each answered.
Source: `transactional.rs`, `execute_plan` (the loop over `activated.iter().rev()`). -/
def rollback : List String → σ → List (String × Except String Unit) × σ
  | [], s => ([], s)
  | done :: rest, s =>
      let removed := inst.remove done s
      let result := rollback rest removed.2
      ((done, removed.1) :: result.1, result.2)

end PackageInstaller

/-- The line that a removal leaves in the log. Source: `transactional.rs`, `execute_plan`. -/
def rollbackLine : String × Except String Unit → String
  | (done, .ok ()) => "rolled back " ++ done
  | (done, .error re) => "ROLLBACK FAILED for " ++ done ++ ": " ++ re

/-- Source: `transactional.rs`, `execute_plan` (the error). -/
def failureText (id e : String) (log : List (String × Except String Unit)) : String :=
  "install failed at `" ++ id ++ "`: " ++ e ++ "; rollback: " ++
    if log.isEmpty then "nothing to roll back" else ", ".intercalate (log.map rollbackLine)

/-- The steps of a plan after the packages of `activated`.
Source: `transactional.rs`, `execute_plan` (the loop over `plan.steps`). -/
def executeSteps (inst : PackageInstaller σ) :
    List String → List PackageMeta → σ → Except String ℕ × σ
  | activated, [], s => (.ok activated.length, s)
  | activated, step :: steps, s =>
      match inst.install step.id s with
      | (.ok (), s') => executeSteps inst (activated ++ [step.id]) steps s'
      | (.error e, s') =>
          let undone := inst.rollback activated.reverse s'
          (.error (failureText step.id e undone.1), undone.2)

/-- Source: `transactional.rs`, `execute_plan`. -/
def executePlan (plan : InstallPlan) (inst : PackageInstaller σ) (s : σ) : Except String ℕ × σ :=
  executeSteps inst [] plan.steps s

/-- The installer of the tests, which fails to stage one id; its state is the active ids.
Source: `transactional.rs`, `tests::MockInstaller`. -/
def mockInstaller (failAt : Option String) : PackageInstaller (List String) where
  stage id active :=
    if failAt = some id then (.error ("stage corruption for " ++ id), active) else (.ok (), active)
  activate id active := (.ok (), active ++ [id])
  remove id active := (.ok (), active.filter fun a => a ≠ id)

/-! ## What the operations promise -/

namespace PackageInstaller

/-- What the documentation of the operations says about the active packages: staging shows nothing,
an activation shows its package or changes nothing, a removal touches its package only. -/
structure Lawful (inst : PackageInstaller σ) (active : σ → Set String) : Prop where
  stage : ∀ id s, active (inst.stage id s).2 = active s
  activate_ok : ∀ id s, (inst.activate id s).1 = .ok () →
    active (inst.activate id s).2 = insert id (active s)
  activate_error : ∀ id s e, (inst.activate id s).1 = .error e →
    active (inst.activate id s).2 = active s
  remove_ok : ∀ id s, (inst.remove id s).1 = .ok () → id ∉ active (inst.remove id s).2
  remove_subset : ∀ id s, active (inst.remove id s).2 ⊆ active s
  remove_other : ∀ id s, ∀ x ∈ active s, x ≠ id → x ∈ active (inst.remove id s).2

variable {inst : PackageInstaller σ} {active : σ → Set String}

theorem Lawful.install_ok (h : inst.Lawful active) {id : String} {s s' : σ}
    (hok : inst.install id s = (.ok (), s')) : active s' = insert id (active s) := by
  unfold install at hok
  split at hok
  · next t hstage =>
      have hactive := h.activate_ok id t (by rw [hok])
      have hkept := h.stage id s
      rw [hstage] at hkept
      rw [hok] at hactive
      rw [hactive, hkept]
  · simp at hok

theorem Lawful.install_error (h : inst.Lawful active) {id e : String} {s s' : σ}
    (herror : inst.install id s = (.error e, s')) : active s' = active s := by
  have hkept := h.stage id s
  unfold install at herror
  split at herror
  · next t hstage =>
      have hactive := h.activate_error id t e (by rw [herror])
      rw [hstage] at hkept
      rw [herror] at hactive
      rw [hactive, hkept]
  · next e' t hstage =>
      rw [hstage] at hkept
      obtain ⟨-, rfl⟩ := Prod.mk.inj herror
      exact hkept

/-- A rollback answers for each of its packages, touches no other package, adds nothing and leaves
nothing of what it removed. -/
theorem Lawful.rollback_spec (h : inst.Lawful active) (ids : List String) (s : σ) :
    (inst.rollback ids s).1.map (·.1) = ids ∧
      active (inst.rollback ids s).2 ⊆ active s ∧
      (∀ x ∈ active s, x ∉ ids → x ∈ active (inst.rollback ids s).2) ∧
      ∀ x, (x, Except.ok ()) ∈ (inst.rollback ids s).1 → x ∉ active (inst.rollback ids s).2 := by
  induction ids generalizing s with
  | nil => simp [rollback]
  | cons done rest ih =>
      obtain ⟨hids, hsubset, hother, hgone⟩ := ih (inst.remove done s).2
      refine ⟨by simp [rollback, hids], hsubset.trans (h.remove_subset done s), ?_, ?_⟩
      · intro x hx hmem
        obtain ⟨hne, hrest⟩ : x ≠ done ∧ x ∉ rest := by simpa using hmem
        exact hother x (h.remove_other done s x hx hne) hrest
      · intro x hx
        rcases List.mem_cons.mp hx with heq | hx
        · obtain ⟨rfl, hok⟩ := Prod.mk.inj heq
          exact fun hmem => h.remove_ok x s hok.symm (hsubset hmem)
        · exact hgone x hx

end PackageInstaller

theorem mockInstaller_lawful (failAt : Option String) :
    (mockInstaller failAt).Lawful fun active => { x | x ∈ active } where
  stage id s := by
    simp only [mockInstaller]
    split <;> rfl
  activate_ok id s _ := by
    ext x
    simp [mockInstaller, or_comm]
  activate_error id s e h := by simp [mockInstaller] at h
  remove_ok id s _ := by simp [mockInstaller]
  remove_subset id s := by
    intro x hx
    exact List.mem_of_mem_filter hx
  remove_other id s x hx hne := by simpa [mockInstaller, hne] using hx

/-! ## What a plan leaves active -/

/-- The ids of a list of steps. -/
def ids (steps : List PackageMeta) : Set String := { x | x ∈ steps.map (·.id) }

/-- What a rollback of `undone` has made of the packages that were active before the plan. -/
structure RolledBack (before : Set String) (undone : List PackageMeta)
    (log : List (String × Except String Unit)) (after : Set String) : Prop where
  /-- Each undone step was removed, the last one first. -/
  answered : log.map (·.1) = (undone.map (·.id)).reverse
  kept : before \ ids undone ⊆ after
  added : after ⊆ before ∪ ids undone
  gone : ∀ x, (x, Except.ok ()) ∈ log → x ∉ after

variable {inst : PackageInstaller σ} {active : σ → Set String}

theorem ids_append (xs ys : List PackageMeta) : ids (xs ++ ys) = ids xs ∪ ids ys := by
  ext x
  simp [ids]

theorem ids_singleton (p : PackageMeta) : ids [p] = {p.id} := by
  ext x
  simp [ids]

/-- The steps left, when those of `done` have been activated: all of them are activated, or one of
them fails and the ones before it are removed from a state in which they are active. -/
theorem executeSteps_cases (h : inst.Lawful active) {before : Set String} (done : List PackageMeta)
    (steps : List PackageMeta) {s : σ} (hs : active s = before ∪ ids done) :
    (∃ t, executeSteps inst (done.map (·.id)) steps s = (.ok (done ++ steps).length, t) ∧
      active t = before ∪ ids (done ++ steps)) ∨
    ∃ undone p rest e s', done ++ steps = undone ++ p :: rest ∧ active s' = before ∪ ids undone ∧
      executeSteps inst (done.map (·.id)) steps s =
        (.error (failureText p.id e (inst.rollback (undone.map (·.id)).reverse s').1),
          (inst.rollback (undone.map (·.id)).reverse s').2) := by
  induction steps generalizing done s with
  | nil => exact .inl ⟨s, by simp [executeSteps], by simpa using hs⟩
  | cons step steps ih =>
      rcases hinstall : inst.install step.id s with ⟨e | ⟨⟩, s'⟩
      · have hkept := h.install_error hinstall
        exact .inr ⟨done, step, steps, e, s', rfl, hkept.trans hs, by rw [executeSteps, hinstall]⟩
      · have hactive : active s' = before ∪ ids (done ++ [step]) := by
          rw [h.install_ok hinstall, hs, ids_append, ids_singleton, ← Set.union_assoc,
            Set.union_singleton]
        have hrest := ih (done ++ [step]) hactive
        simp only [List.append_assoc, List.singleton_append, List.map_append, List.map_cons,
          List.map_nil] at hrest
        simpa only [executeSteps, hinstall] using hrest

theorem executePlan_cases (h : inst.Lawful active) (plan : InstallPlan) (s : σ) :
    (∃ t, executePlan plan inst s = (.ok plan.steps.length, t) ∧
      active t = active s ∪ ids plan.steps) ∨
    ∃ undone p rest e s', plan.steps = undone ++ p :: rest ∧ active s' = active s ∪ ids undone ∧
      executePlan plan inst s =
        (.error (failureText p.id e (inst.rollback (undone.map (·.id)).reverse s').1),
          (inst.rollback (undone.map (·.id)).reverse s').2) := by
  have hnone : ids [] = ∅ := by simp [ids]
  exact executeSteps_cases h [] plan.steps (by rw [hnone, Set.union_empty])

theorem RolledBack.of_rollback (h : inst.Lawful active) {before : Set String}
    {undone : List PackageMeta} {s : σ} (hs : active s = before ∪ ids undone) :
    RolledBack before undone (inst.rollback (undone.map (·.id)).reverse s).1
      (active (inst.rollback (undone.map (·.id)).reverse s).2) := by
  obtain ⟨hids, hsubset, hother, hgone⟩ := h.rollback_spec (undone.map (·.id)).reverse s
  refine ⟨hids, ?_, hs ▸ hsubset, hgone⟩
  rintro x ⟨hx, hnot⟩
  exact hother x (by rw [hs]; exact .inl hx) (by simpa [ids] using hnot)

/-- An application and the library it depends on, as a plan. -/
def appPlan : InstallPlan where
  steps := [⟨"lib", "1.0.0", []⟩, ⟨"app", "1.0.0", ["lib"]⟩]

/-- An installer whose removals succeed. -/
def PackageInstaller.Removes (inst : PackageInstaller σ) : Prop :=
  ∀ id s, (inst.remove id s).1 = .ok ()

theorem PackageInstaller.Removes.rollback (h : inst.Removes) (undone : List String) (s : σ) :
    ∀ entry ∈ (inst.rollback undone s).1, entry.2 = .ok () := by
  induction undone generalizing s with
  | nil => simp [PackageInstaller.rollback]
  | cons done rest ih =>
      intro entry hentry
      rcases List.mem_cons.mp hentry with rfl | hentry
      · exact h done s
      · exact ih _ entry hentry

/-- A rollback whose removals succeed leaves what was active before the plan, less what it undid. -/
theorem RolledBack.eq_diff {before after : Set String} {undone : List PackageMeta}
    {log : List (String × Except String Unit)} (h : RolledBack before undone log after)
    (hlog : ∀ entry ∈ log, entry.2 = .ok ()) : after = before \ ids undone := by
  apply subset_antisymm _ h.kept
  intro x hx
  have hnot : x ∉ ids undone := by
    intro hmem
    have hfst : x ∈ log.map (·.1) := by rw [h.answered]; simpa [ids] using hmem
    obtain ⟨entry, hentry, rfl⟩ := List.mem_map.mp hfst
    have hok := hlog entry hentry
    exact h.gone entry.1 (by rw [← hok]; exact hentry) hx
  exact ⟨(h.added hx).resolve_right hnot, hnot⟩

/-- **When a failed plan leaves the system as it was.** With removals that succeed, what is active
after a failure is what was active before, less the steps that were undone; so it is the same
exactly when none of those had been active before. -/
theorem restores_iff (h : inst.Lawful active) (hremoves : inst.Removes) (plan : InstallPlan)
    (s t : σ) (report : String) (hfailed : executePlan plan inst s = (.error report, t)) :
    ∃ undone p rest, plan.steps = undone ++ p :: rest ∧ active t = active s \ ids undone ∧
      (active t = active s ↔ ∀ q ∈ undone, q.id ∉ active s) := by
  rcases executePlan_cases h plan s with ⟨t', hok, -⟩ | ⟨undone, p, rest, e, s', hsplit, hs', heq⟩
  · rw [hok] at hfailed
    simp at hfailed
  · rw [heq] at hfailed
    obtain ⟨-, rfl⟩ := Prod.mk.inj hfailed
    have hdiff := (RolledBack.of_rollback h hs').eq_diff (hremoves.rollback _ s')
    refine ⟨undone, p, rest, hsplit, hdiff, ?_⟩
    rw [hdiff, sdiff_eq_left, Set.disjoint_right]
    simp [ids]

theorem mockInstaller_removes (failAt : Option String) : (mockInstaller failAt).Removes :=
  fun _ _ => rfl

/-- The library had been there before: undoing its second installation takes it away. -/
theorem restores_iff_app :
    ∃ undone p rest, appPlan.steps = undone ++ p :: rest ∧
      { x | x ∈ ([] : List String) } = { x | x ∈ ["lib"] } \ ids undone ∧
      ({ x | x ∈ ([] : List String) } = { x | x ∈ ["lib"] } ↔
        ∀ q ∈ undone, q.id ∉ { x | x ∈ ["lib"] }) :=
  restores_iff (mockInstaller_lawful (some "app")) (mockInstaller_removes (some "app"))
    appPlan ["lib"] []
    "install failed at `app`: stage corruption for app; rollback: rolled back lib" (by decide)

/-! ## The states on the way -/

/-- The same installer, keeping the states that its operations leave. -/
def PackageInstaller.recording (inst : PackageInstaller σ) : PackageInstaller (σ × List σ) where
  stage id s := ((inst.stage id s.1).1, (inst.stage id s.1).2, s.2 ++ [(inst.stage id s.1).2])
  activate id s :=
    ((inst.activate id s.1).1, (inst.activate id s.1).2, s.2 ++ [(inst.activate id s.1).2])
  remove id s := ((inst.remove id s.1).1, (inst.remove id s.1).2, s.2 ++ [(inst.remove id s.1).2])

/-- The states that carrying out a plan goes through, after the first. -/
def statesOf (plan : InstallPlan) (inst : PackageInstaller σ) (s : σ) : List σ :=
  (executePlan plan inst.recording (s, [])).2.2

/-- Every package of `A` has all it depends on in `A`. -/
def DependencyClosed (index : List PackageMeta) (A : Set String) : Prop :=
  ∀ x ∈ A, ∀ d, Depends index x d → d ∈ A

theorem install_recording (h : inst.Lawful active) (id : String) (s : σ) (past : List σ) :
    ∃ new, inst.recording.install id (s, past) =
        ((inst.install id s).1, (inst.install id s).2, past ++ new) ∧
      ∀ t ∈ new, active t = active s ∨ t = (inst.install id s).2 := by
  have hkept := h.stage id s
  rcases hstage : inst.stage id s with ⟨e | ⟨⟩, s'⟩
  · exact ⟨[s'], by simp [PackageInstaller.install, PackageInstaller.recording, hstage],
      by simp [PackageInstaller.install, hstage]⟩
  · rw [hstage] at hkept
    exact ⟨[s', (inst.activate id s').2],
      by simp [PackageInstaller.install, PackageInstaller.recording, hstage],
      by simp [PackageInstaller.install, hstage, hkept]⟩

theorem rollback_recording (inst : PackageInstaller σ) (undone : List String) (s : σ)
    (past : List σ) :
    ∃ new, inst.recording.rollback undone (s, past) =
      ((inst.rollback undone s).1, (inst.rollback undone s).2, past ++ new) := by
  induction undone generalizing s past with
  | nil => exact ⟨[], by simp [PackageInstaller.rollback]⟩
  | cons done rest ih =>
      obtain ⟨new, hnew⟩ := ih (inst.remove done s).2 (past ++ [(inst.remove done s).2])
      refine ⟨(inst.remove done s).2 :: new, ?_⟩
      simp only [PackageInstaller.rollback]
      rw [show inst.recording.remove done (s, past) = ((inst.remove done s).1,
        (inst.remove done s).2, past ++ [(inst.remove done s).2]) from rfl, hnew]
      simp

/-- The recording changes neither the answer nor the state. -/
theorem executeSteps_recording (h : inst.Lawful active) (done : List String)
    (steps : List PackageMeta) (s : σ) (past : List σ) :
    (executeSteps inst.recording done steps (s, past)).1 = (executeSteps inst done steps s).1 ∧
      (executeSteps inst.recording done steps (s, past)).2.1 =
        (executeSteps inst done steps s).2 := by
  induction steps generalizing done s past with
  | nil => exact ⟨rfl, rfl⟩
  | cons step steps ih =>
      obtain ⟨new, hnew, -⟩ := install_recording h step.id s past
      rcases hinstall : inst.install step.id s with ⟨e | ⟨⟩, s'⟩
      · obtain ⟨later, hlater⟩ := rollback_recording inst done.reverse s' (past ++ new)
        rw [hinstall] at hnew
        simp only [executeSteps, hnew, hinstall, hlater, and_self]
      · rw [hinstall] at hnew
        simpa only [executeSteps, hnew, hinstall] using ih (done ++ [step.id]) s' (past ++ new)

theorem executePlan_recording (h : inst.Lawful active) (plan : InstallPlan) (s : σ) :
    (executePlan plan inst.recording (s, [])).1 = (executePlan plan inst s).1 ∧
      (executePlan plan inst.recording (s, [])).2.1 = (executePlan plan inst s).2 :=
  executeSteps_recording h [] plan.steps s []

/-- A rollback that succeeds goes through the sets left by removing more and more of its ids. -/
theorem rollback_states (h : inst.Lawful active) (hremoves : inst.Removes)
    {C : Set String → Prop} {undone : List String} {s : σ} {past : List σ}
    (hC : ∀ gone left, undone = gone ++ left → C (active s \ { x | x ∈ gone }))
    (hpast : ∀ t ∈ past, C (active t)) :
    ∀ t ∈ (inst.recording.rollback undone (s, past)).2.2, C (active t) := by
  induction undone generalizing s past with
  | nil => exact hpast
  | cons done rest ih =>
      have hremoved : active (inst.remove done s).2 = active s \ {done} := by
        ext x
        constructor
        · intro hx
          refine ⟨h.remove_subset done s hx, ?_⟩
          rintro rfl
          exact h.remove_ok x s (hremoves x s) hx
        · rintro ⟨hx, hne⟩
          exact h.remove_other done s x hx hne
      have hgone : ∀ gone : List String,
          active s \ { x | x ∈ done :: gone } =
            active (inst.remove done s).2 \ { x | x ∈ gone } := by
        intro gone
        rw [hremoved]
        ext x
        simp [not_or, and_assoc]
      refine ih ?_ ?_
      · rintro gone left rfl
        have := hC (done :: gone) left rfl
        rwa [hgone] at this
      · intro t ht
        rcases List.mem_append.mp ht with ht | ht
        · exact hpast t ht
        · obtain rfl : t = (inst.remove done s).2 := by simpa using ht
          have := hC [done] rest rfl
          rw [hgone] at this
          simpa using this

/-- The states of a plan: sets with more and more of its steps, and after a failure sets with fewer
and fewer of the steps before it. -/
theorem executeSteps_states (h : inst.Lawful active) {C : Set String → Prop} {before : Set String}
    (done : List PackageMeta) (steps : List PackageMeta) {s : σ} {past : List σ}
    (hs : active s = before ∪ ids done)
    (hinstall : ∀ l r, done ++ steps = l ++ r → C (before ∪ ids l))
    (hundo : (∃ n, (executeSteps inst (done.map (·.id)) steps s).1 = .ok n) ∨
      inst.Removes ∧ ∀ l m r, done ++ steps = (l ++ m) ++ r →
        C ((before ∪ ids (l ++ m)) \ ids m))
    (hpast : ∀ t ∈ past, C (active t)) :
    ∀ t ∈ (executeSteps inst.recording (done.map (·.id)) steps (s, past)).2.2, C (active t) := by
  induction steps generalizing done s past with
  | nil => exact hpast
  | cons step steps ih =>
      obtain ⟨new, hnew, hstates⟩ := install_recording h step.id s past
      have hdone := hinstall done (step :: steps) rfl
      rcases hresult : inst.install step.id s with ⟨e | ⟨⟩, s'⟩
      · have hkept := h.install_error hresult
        rw [hresult] at hnew hstates
        have hpast' : ∀ t ∈ past ++ new, C (active t) := by
          intro t ht
          rcases List.mem_append.mp ht with ht | ht
          · exact hpast t ht
          · rcases hstates t ht with ht | rfl
            · rw [ht, hs]
              exact hdone
            · rw [hkept, hs]
              exact hdone
        rcases hundo with ⟨n, hok⟩ | ⟨hremoves, hundo⟩
        · simp [executeSteps, hresult] at hok
        · simp only [executeSteps, hnew]
          refine rollback_states h hremoves ?_ hpast'
          intro gone left hsplit
          -- the ids that are gone are those of the last steps
          have hids : done.map (·.id) = left.reverse ++ gone.reverse := by
            rw [← List.reverse_append, ← hsplit, List.reverse_reverse]
          obtain ⟨l, m, rfl, -, hm⟩ := List.map_eq_append_iff.mp hids
          have hgone : { x | x ∈ gone } = ids m := by
            ext x
            simp only [ids, hm, List.mem_reverse]
          rw [hkept, hs, hgone]
          exact hundo l m (step :: steps) rfl
      · have hactive : active s' = before ∪ ids (done ++ [step]) := by
          rw [h.install_ok hresult, hs, ids_append, ids_singleton, ← Set.union_assoc,
            Set.union_singleton]
        have hnext := hinstall (done ++ [step]) steps (by simp)
        rw [hresult] at hnew hstates
        have hpast' : ∀ t ∈ past ++ new, C (active t) := by
          intro t ht
          rcases List.mem_append.mp ht with ht | ht
          · exact hpast t ht
          · rcases hstates t ht with ht | rfl
            · rw [ht, hs]
              exact hdone
            · rw [hactive]
              exact hnext
        have hrest := ih (done ++ [step]) hactive (by simpa using hinstall)
          (by simpa [executeSteps, hresult] using hundo) hpast'
        simpa only [executeSteps, hnew, List.map_append, List.map_cons, List.map_nil] using hrest

/-- A plan of the resolver can be cut anywhere: what stands before the cut is closed. -/
theorem InstallOrder.depends_before {index : List PackageMeta} {requested : List String}
    {plan : InstallPlan} (h : InstallOrder index requested plan) {l r : List PackageMeta}
    (hsplit : plan.steps = l ++ r) : DependencyClosed index (ids l) := by
  intro x hx d hd
  obtain ⟨p, hp, rfl⟩ := List.mem_map.mp hx
  obtain ⟨before, after, rfl⟩ := List.append_of_mem hp
  obtain ⟨q, hq, hd⟩ := hd
  have hentry := h.entries p (by simp [hsplit])
  obtain rfl : p = q := by simpa [hentry] using hq
  have hbefore := h.first before p (after ++ r) (by simpa using hsplit) d hd
  simp only [ids, Set.mem_ofPred_eq, List.map_append]
  exact List.mem_append_left _ hbefore

/-- **No package without its dependencies.** Carried out from a set of active packages that has all
it depends on, a plan of the resolver goes through such sets only, if it succeeds; and if removals
succeed and no active package depends on one of the plan, also if it fails and is undone. -/
theorem closed_throughout (h : inst.Lawful active) {index : List PackageMeta}
    {requested : List String} {plan : InstallPlan}
    (hplan : resolve index requested = some (.ok plan)) {s : σ}
    (hs : DependencyClosed index (active s))
    (hcase : (∃ n, (executePlan plan inst s).1 = .ok n) ∨
      inst.Removes ∧ ∀ x ∈ active s, ∀ d ∈ ids plan.steps, ¬ Depends index x d) :
    ∀ t ∈ statesOf plan inst s, DependencyClosed index (active t) := by
  have horder := installOrder_of_ok hplan
  have hunion : ∀ {A B : Set String}, DependencyClosed index A → DependencyClosed index B →
      DependencyClosed index (A ∪ B) := by
    rintro A B hA hB x (hx | hx) d hd
    · exact .inl (hA x hx d hd)
    · exact .inr (hB x hx d hd)
  have hnone : ids [] = ∅ := by simp [ids]
  refine executeSteps_states h [] plan.steps
    (show active s = active s ∪ ids [] by rw [hnone, Set.union_empty])
    ?_ ?_ (by simp)
  · exact fun l r hsplit => hunion hs (horder.depends_before hsplit)
  · refine hcase.imp_right fun ⟨hremoves, hnot⟩ => ⟨hremoves, fun l m r hsteps => ?_⟩
    have hsplit : plan.steps = (l ++ m) ++ r := hsteps
    -- what is left: active packages outside the removed steps, and the steps before those
    have hleft : (active s ∪ ids (l ++ m)) \ ids m = active s \ ids m ∪ ids l := by
      have hdisjoint : Disjoint (ids l) (ids m) := by
        rw [Set.disjoint_left]
        have honce := horder.once
        rw [hsplit, List.append_assoc, List.map_append, List.map_append] at honce
        intro x hl hm
        exact List.disjoint_of_nodup_append honce hl (List.mem_append_left _ hm)
      rw [ids_append, ← Set.union_assoc, Set.union_sdiff_right, Set.union_sdiff_distrib,
        hdisjoint.sdiff_eq_left]
    rw [hleft]
    refine hunion ?_ (horder.depends_before (hsplit.trans (List.append_assoc l m r)))
    rintro x ⟨hx, hxm⟩ d hd
    refine ⟨hs x hx d hd, fun hdm => hnot x hx d ?_ hd⟩
    have hsub : ids m ⊆ ids plan.steps := by
      rw [hsplit, ids_append, ids_append]
      exact fun y hy => .inl (.inr hy)
    exact hsub hdm

theorem closed_throughout_app :
    ["lib"] ∈ statesOf appPlan (mockInstaller (some "app")) [] ∧
      DependencyClosed appPlan.steps.reverse { x | x ∈ ["lib"] } := by
  have hmem : ["lib"] ∈ statesOf appPlan (mockInstaller (some "app")) [] := by decide
  exact ⟨hmem, closed_throughout (mockInstaller_lawful (some "app"))
    (show resolve appPlan.steps.reverse ["app"] = some (.ok appPlan) by decide)
    (by simp [DependencyClosed]) (.inr ⟨mockInstaller_removes (some "app"), by simp⟩) _ hmem⟩

end AuraLauncher.Package
