import AuraLauncher.Lib.Machine
import AuraLauncher.Runner.Advance

/-!
# Sessions of the runner

A session is one fresh run and the resumes that follow it, each on the record the call before it
returned. It is a machine whose actions are the passes of the loop and the starts of the resumes, so
every moment inside a call is a state of it.

* `Session`, `runner`, `started` — the machine.
* `run_call` — the calls `advance` makes are runs of the machine.
* `session_single_success` — every call returns, retries are bounded, a step that is `Complete` or
  `Skipped` is never executed again, and a run that has `Succeeded` has all its steps done.
* `namedStep`, `clickHost`, `emptyHost` — small steps and hosts for runs on fixed inputs.
-/

namespace AuraLauncher.Runner

open AuraLauncher.Domain AuraLauncher.Lib
open AuraLauncher.Workflow (Json)

universe u

variable (std : RustStd) {σ : Type u} (H : Host σ) (d : WorkflowDefinition)

/-! ## The machine -/

/-- Where a session stands: between two calls, inside a call, or without a record because a call
returned an error. -/
inductive Phase
  | idle
  | inCall (gen : UInt64) (confirmed : Bool)
  | lost
  deriving DecidableEq

/-- A session: the walk as the calls so far left it, and where it stands. -/
structure Session (d : WorkflowDefinition) (σ : Type u) where
  walk : Walk d σ
  phase : Phase

/-- A pass through the loop, or the start of a resume. -/
inductive Act
  | pass
  | resume (gen : UInt64)

/-- Whether an action is a pass. -/
def Act.isPass : Act → Bool
  | .pass => true
  | .resume _ => false

variable {d}

/-- The session after a pass of a call. -/
def afterPass (gen : UInt64) (confirmed : Bool) : Pass d σ → Session d σ
  | .inl w => ⟨w, .inCall gen confirmed⟩
  | .inr (.ok _, w) => ⟨w, .idle⟩
  | .inr (.error _, w) => ⟨w, .lost⟩

/-- The session once a call has returned. -/
def afterCall (r : Except String Unit × Walk d σ) : Session d σ :=
  match r with
  | (.ok _, w) => ⟨w, .idle⟩
  | (.error _, w) => ⟨w, .lost⟩

variable (d)

/-- One action of a session; only a paused run is resumed. -/
def sessionStep (s : Session d σ) : Act → Option (Session d σ)
  | .pass =>
      match s.phase with
      | .inCall gen confirmed =>
          some (afterPass gen confirmed (advanceBody std H d gen confirmed s.walk))
      | _ => none
  | .resume gen =>
      match s.phase with
      | .idle =>
          if s.walk.run.status = .paused then
            some ⟨({ s.walk with run := resumed s.walk.run } : Walk d σ).restart, .inCall gen true⟩
          else none
      | _ => none

/-- The machine of the sessions of a definition. -/
def runner : Machine (Session d σ) Act := ⟨sessionStep std H d⟩

/-- The session when a fresh run has passed its checks. -/
def started (gen : UInt64) (workflowRunId : String) (host : σ) : Session d σ :=
  ⟨(freshWalk d workflowRunId host).restart, .inCall gen false⟩

variable {d}

/-- A pass is possible inside a call only. -/
theorem step_pass_eq_some {s t : Session d σ} :
    (runner std H d).step s .pass = some t ↔ ∃ gen confirmed, s.phase = .inCall gen confirmed ∧
      t = afterPass gen confirmed (advanceBody std H d gen confirmed s.walk) := by
  unfold runner sessionStep
  dsimp only
  split
  · rename_i gen confirmed hphase
    rw [hphase]
    constructor
    · intro h
      exact ⟨gen, confirmed, rfl, (Option.some.inj h).symm⟩
    · rintro ⟨_, _, ⟨⟩, rfl⟩
      rfl
  · rename_i hphase
    constructor
    · rintro ⟨⟩
    · rintro ⟨gen, confirmed, h, -⟩
      exact absurd h (hphase gen confirmed)

/-- A resume is possible between two calls only, for a paused run. -/
theorem step_resume_eq_some {s t : Session d σ} {gen : UInt64} :
    (runner std H d).step s (.resume gen) = some t ↔
      s.phase = .idle ∧ s.walk.run.status = .paused ∧
        t = ⟨({ s.walk with run := resumed s.walk.run } : Walk d σ).restart, .inCall gen true⟩ := by
  unfold runner sessionStep
  dsimp only
  split
  · rename_i hphase
    split_ifs with hp <;> simp [hphase, hp, eq_comm]
  · rename_i hphase
    constructor
    · rintro ⟨⟩
    · rintro ⟨h, -⟩
      exact absurd h hphase

theorem afterPass_walk (gen : UInt64) (confirmed : Bool) (p : Pass d σ) :
    (afterPass gen confirmed p).walk = Pass.walk d p := by
  rcases p with w | ⟨_ | _, w⟩ <;> rfl

/-- **A call is a run of the machine**: the passes of a call lead to what `advance` returns, and no
more than the limit and one are needed. -/
theorem run_call (gen : UInt64) (confirmed : Bool) (w : Walk d σ) :
    ∃ n, n ≤ maxStepsPerRun + 1 ∧
      (runner std H d).run ⟨w, .inCall gen confirmed⟩ (List.replicate n .pass) =
        some (afterCall ((advanceLoop std H d gen confirmed).run w)) := by
  obtain ⟨n, t, hle, hpasses, hexit⟩ := (advanceLoop std H d gen confirmed).exists_passes_run w
  refine ⟨n + 1, Nat.succ_le_succ (hle.trans (Nat.sub_le _ _)), ?_⟩
  clear hle
  have hlast : (runner std H d).step ⟨t, .inCall gen confirmed⟩ .pass =
      some (afterCall ((advanceLoop std H d gen confirmed).run w)) := by
    refine (step_pass_eq_some std H).mpr ⟨gen, confirmed, rfl, ?_⟩
    rw [show advanceBody std H d gen confirmed t = _ from hexit]
    rcases (advanceLoop std H d gen confirmed).run w with ⟨_ | _, w'⟩ <;> rfl
  have hgen : ∀ m u, (advanceLoop std H d gen confirmed).passes m u = some t →
      (runner std H d).run ⟨u, .inCall gen confirmed⟩ (List.replicate m .pass) =
        some ⟨t, .inCall gen confirmed⟩ := by
    intro m
    induction m with
    | zero =>
        intro u hu
        obtain rfl : u = t := Option.some.inj hu
        rfl
    | succ m ih =>
        intro u hu
        obtain ⟨u', hu', hrest⟩ := (advanceLoop std H d gen confirmed).passes_succ_eq_some.mp hu
        refine (Machine.run_cons_eq_some _).mpr ⟨⟨u', .inCall gen confirmed⟩, ?_, ih u' hrest⟩
        refine (step_pass_eq_some std H).mpr ⟨gen, confirmed, rfl, ?_⟩
        rw [show advanceBody std H d gen confirmed u = _ from hu']
        rfl
  rw [List.replicate_succ', Machine.run_append_eq_some]
  exact ⟨_, hgen n w hpasses, (Machine.run_cons_eq_some _).mpr ⟨_, hlast, rfl⟩⟩

/-! ## What every step of a session keeps -/

/-- The calls of a session only grow, and what is added is for steps that were not done. -/
theorem step_calls {s t : Session d σ} {a : Act} (h : (runner std H d).step s a = some t) :
    ∃ tail, t.walk.calls = s.walk.calls ++ tail ∧
      ∀ c ∈ tail, (s.walk.run.steps c.1).status.isDone = false := by
  cases a with
  | pass =>
      obtain ⟨gen, confirmed, -, rfl⟩ := (step_pass_eq_some std H).mp h
      rw [afterPass_walk]
      obtain ⟨tail, hcalls, htail⟩ := advanceBody_calls std H gen confirmed s.walk
      exact ⟨tail, hcalls, fun c hc => (htail c hc).2⟩
  | resume gen =>
      obtain ⟨-, -, rfl⟩ := (step_resume_eq_some std H).mp h
      exact ⟨[], (List.append_nil _).symm, by simp⟩

/-- A step that is done keeps its status. -/
theorem step_keeps {s t : Session d σ} {a : Act} (h : (runner std H d).step s a = some t)
    {i : Fin d.steps.length} (hi : (s.walk.run.steps i).status.isDone = true) :
    (t.walk.run.steps i).status = (s.walk.run.steps i).status := by
  cases a with
  | pass =>
      obtain ⟨gen, confirmed, -, rfl⟩ := (step_pass_eq_some std H).mp h
      rw [afterPass_walk]
      exact advanceBody_keeps std H gen confirmed s.walk hi
  | resume gen =>
      obtain ⟨-, -, rfl⟩ := (step_resume_eq_some std H).mp h
      rfl

/-- Once a step is done, the rest of the session leaves its status and makes no call for it. -/
theorem run_done {s t : Session d σ} {acts : List Act} (h : (runner std H d).run s acts = some t)
    {i : Fin d.steps.length} (hi : (s.walk.run.steps i).status.isDone = true) :
    (t.walk.run.steps i).status = (s.walk.run.steps i).status ∧
      ∃ tail, t.walk.calls = s.walk.calls ++ tail ∧ ∀ c ∈ tail, c.1 ≠ i := by
  refine (runner std H d).run_inv_of_step
    (I := fun r => (r.walk.run.steps i).status = (s.walk.run.steps i).status ∧
      ∃ tail, r.walk.calls = s.walk.calls ++ tail ∧ ∀ c ∈ tail, c.1 ≠ i)
    ?_ ⟨rfl, [], (List.append_nil _).symm, by simp⟩ h
  rintro r a r' ⟨hstatus, tail, hcalls, htail⟩ hstep
  have hr : (r.walk.run.steps i).status.isDone = true := by rw [hstatus]; exact hi
  obtain ⟨tail', hcalls', htail'⟩ := step_calls std H hstep
  refine ⟨(step_keeps std H hstep hr).trans hstatus, tail ++ tail', ?_, fun c hc => ?_⟩
  · rw [hcalls', hcalls, List.append_assoc]
  · rcases List.mem_append.mp hc with hc | hc
    · exact htail c hc
    · rintro rfl
      rw [htail' c hc] at hr
      cases hr

/-- What holds of the status of the run at every moment: inside a call it is `Running`, and it is
`Succeeded` only when every step is done. -/
structure StatusInv (s : Session d σ) : Prop where
  running : ∀ gen confirmed, s.phase = .inCall gen confirmed → s.walk.run.status = .running
  allDone : s.walk.run.status = .succeeded → s.walk.run.AllDone

theorem StatusInv.started (gen : UInt64) (workflowRunId : String) (host : σ) :
    StatusInv (started d gen workflowRunId host) :=
  ⟨fun _ _ _ => rfl, by rintro ⟨⟩⟩

theorem StatusInv.step {s t : Session d σ} {a : Act} (hs : StatusInv s)
    (h : (runner std H d).step s a = some t) : StatusInv t := by
  cases a with
  | pass =>
      obtain ⟨gen, confirmed, hphase, rfl⟩ := (step_pass_eq_some std H).mp h
      have hrunning := hs.running gen confirmed hphase
      obtain ⟨hinl, hinr⟩ := advanceBody_status std H gen confirmed s.walk
      cases hbody : advanceBody std H d gen confirmed s.walk with
      | inl w =>
          have hstatus : w.run.status = .running := (hinl w hbody).trans hrunning
          refine ⟨fun _ _ _ => hstatus, fun hsucc => ?_⟩
          rw [afterPass_walk] at hsucc
          exact absurd (hstatus.symm.trans hsucc) (by decide)
      | inr r =>
          obtain ⟨r, w⟩ := r
          have hend : w.run.status = .succeeded → w.run.AllDone := fun hsucc =>
            (hinr r w hbody hsucc).resolve_right fun hs' =>
              absurd (hrunning.symm.trans hs') (by decide)
          cases r with
          | ok _ => exact ⟨by rintro _ _ ⟨⟩, hend⟩
          | error _ => exact ⟨by rintro _ _ ⟨⟩, hend⟩
  | resume gen =>
      obtain ⟨-, -, rfl⟩ := (step_resume_eq_some std H).mp h
      exact ⟨fun _ _ _ => rfl, by rintro ⟨⟩⟩

/-- A step of a session executes a step of the definition only in a pass, and boundedly often. -/
theorem step_executionsOf_le {s t : Session d σ} {a : Act}
    (h : (runner std H d).step s a = some t) (i : Fin d.steps.length) :
    executionsOf t.walk.calls i ≤ executionsOf s.walk.calls i +
      if a.isPass then (maxAttempts d (d.steps.get i)).toNat + 5 else 0 := by
  cases a with
  | pass =>
      obtain ⟨gen, confirmed, -, rfl⟩ := (step_pass_eq_some std H).mp h
      rw [afterPass_walk]
      exact advanceBody_executionsOf_le std H gen confirmed s.walk i
  | resume gen =>
      obtain ⟨-, -, rfl⟩ := (step_resume_eq_some std H).mp h
      exact le_rfl

theorem run_executionsOf_le {s t : Session d σ} {acts : List Act}
    (h : (runner std H d).run s acts = some t) (i : Fin d.steps.length) :
    executionsOf t.walk.calls i ≤ executionsOf s.walk.calls i +
      acts.countP Act.isPass * ((maxAttempts d (d.steps.get i)).toNat + 5) := by
  induction acts generalizing s with
  | nil =>
      obtain rfl : s = t := Option.some.inj h
      simp
  | cons a acts ih =>
      obtain ⟨s', hstep, hrest⟩ := (Machine.run_cons_eq_some _).mp h
      have hle := step_executionsOf_le std H hstep i
      have hrest := ih hrest
      rw [List.countP_cons, Nat.add_mul]
      split_ifs at hle ⊢ <;> omega

variable (d)

/-- **Sessions terminate and never repeat a step that is done.** At every moment of every session:

* a call in progress returns after no more passes than the limit and one, and with what `advance`
  returns;
* a pass executes a step no more often than its attempts allow;
* a step that was `Complete` or `Skipped` at an earlier moment has kept its status since, and no
  call has been made for it;
* a run that has `Succeeded` has every step `Complete` or `Skipped`. -/
theorem session_single_success {gen : UInt64} {workflowRunId : String} {host : σ} {acts : List Act}
    {s : Session d σ} (h : (runner std H d).run (started d gen workflowRunId host) acts = some s) :
    (∀ gen' confirmed, s.phase = .inCall gen' confirmed → ∃ n, n ≤ maxStepsPerRun + 1 ∧
      (runner std H d).run s (List.replicate n .pass) =
        some (afterCall ((advanceLoop std H d gen' confirmed).run s.walk))) ∧
    (∀ i, executionsOf s.walk.calls i ≤
      acts.countP Act.isPass * ((maxAttempts d (d.steps.get i)).toNat + 5)) ∧
    (∀ before after s₁, acts = before ++ after →
      (runner std H d).run (started d gen workflowRunId host) before = some s₁ →
      ∀ i, (s₁.walk.run.steps i).status.isDone = true →
        (s.walk.run.steps i).status = (s₁.walk.run.steps i).status ∧
          ∃ tail, s.walk.calls = s₁.walk.calls ++ tail ∧ ∀ c ∈ tail, c.1 ≠ i) ∧
    (s.walk.run.status = .succeeded → s.walk.run.AllDone) := by
  refine ⟨fun gen' confirmed hphase => ?_, fun i => ?_, ?_, ?_⟩
  · obtain ⟨w, phase⟩ := s
    obtain rfl : phase = .inCall gen' confirmed := hphase
    exact run_call std H gen' confirmed w
  · have hle := run_executionsOf_le std H h i
    rwa [show executionsOf (started d gen workflowRunId host).walk.calls i = 0 from rfl,
      Nat.zero_add] at hle
  · rintro before after s₁ rfl hbefore i hi
    obtain ⟨s₂, hs₂, hafter⟩ := (Machine.run_append_eq_some _).mp h
    obtain rfl : s₁ = s₂ := Option.some.inj (hbefore.symm.trans hs₂)
    exact run_done std H hafter hi
  · exact ((runner std H d).run_inv_of_step (fun _ _ _ hs hstep => hs.step std H hstep)
      (StatusInv.started gen workflowRunId host) h).allDone

/-! ## Small runs -/

/-- A step that refers to the action `go` of the command of its own name. -/
def namedStep (id : String) (onSuccess : Option String) : WorkflowStep where
  stepId := id
  action := .reference ⟨"host", id, "go"⟩
  input := .null
  failurePolicy := .inherited
  condition := none
  output := none
  onSuccess := onSuccess
  onFailure := none
  onConditionFalse := none

/-- A definition without overrides that starts with its first step. -/
def plainDefinition (steps : List WorkflowStep) : WorkflowDefinition :=
  ⟨"wf", 1, steps, .inherited, none⟩

/-- A host without a state that has every command in its session, with an action that always
succeeds; the commands in `confirm` ask for a confirmation. -/
def clickHost (confirm : List String) : Host Unit where
  inSession _ provider command :=
    some ⟨command, provider,
      [⟨.copy, some (.text command), some "go", none, none, none, confirm.contains command⟩]⟩
  freshQuery s _ := (.ok [], s)
  execute s _ _ _ _ := (.ok ⟨none, none⟩, s)

/-- A host without commands. -/
def emptyHost : Host Unit := { clickHost [] with inSession := fun _ _ _ => none }

/-- Step `b` of a linear definition asks for a confirmation; the session pauses, is resumed and
succeeds, with both steps done. -/
theorem session_single_success_two :
    ∃ s, (runner .ascii (clickHost ["b"]) (plainDefinition [namedStep "a" none,
        namedStep "b" none])).run (started _ 0 "run" ())
          [.pass, .pass, .resume 0, .pass, .pass, .pass] = some s ∧
      s.walk.run.status = .succeeded ∧ s.walk.run.AllDone := by
  have hrun : ((runner .ascii (clickHost ["b"]) (plainDefinition [namedStep "a" none,
      namedStep "b" none])).run (started _ 0 "run" ())
        [.pass, .pass, .resume 0, .pass, .pass, .pass]).map (fun s => s.walk.run.status) =
          some .succeeded := by decide +kernel
  obtain ⟨s, hs, hstatus⟩ := Option.map_eq_some_iff.mp hrun
  exact ⟨s, hs, hstatus,
    (session_single_success .ascii (clickHost ["b"]) _ hs).2.2.2 hstatus⟩

end AuraLauncher.Runner
