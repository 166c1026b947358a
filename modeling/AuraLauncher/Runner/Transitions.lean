import AuraLauncher.Runner.Session

/-!
# The transitions of the walk and the edges of the validator

`launcher-workflow/src/v2.rs`, `validate_graph` and `lib.rs`, `advance`: the graph along which a
fresh run moves from step to step, and the graph that is checked before it.

* `moveEdges` — where the walk can go from a step: its success transition, its transition for a
  false condition if it has a condition, and its failure transition if the policy can skip it. Each
  is the declared target, or the next step in order where none is declared.
* `MovesOk`, `Good` — the graph of the moves is acyclic and reaches every step.
* `fresh_run_no_return` — then no fresh run comes back to a step.
* `validator_agrees_iff` — the validator and the walk agree exactly when the edges that only one of
  them knows do no harm.
-/

namespace AuraLauncher.Runner

open AuraLauncher.Domain AuraLauncher.Lib Relation

universe u

variable (std : RustStd) (d : WorkflowDefinition)

/-! ## Where the walk can go -/

/-- The classes of failures. -/
def failureClasses : List WorkflowFailureClass :=
  [.capabilityDenied, .invalidInput, .staleContext, .timeout, .businessError, .protocolViolation,
    .pluginUnavailable, .commandNotFound, .confirmationRequired]

theorem mem_failureClasses (c : WorkflowFailureClass) : c ∈ failureClasses := by
  cases c <;> decide

/-- Whether the policy skips a step after some failure. -/
def canSkip (step : WorkflowStep) : Bool :=
  failureClasses.any fun c => policyFor d step c == .skip

/-- The steps to which the walk can go from a step. -/
def movesFrom (i : Fin d.steps.length) : List (Fin d.steps.length) :=
  let s := d.steps.get i
  (transition d i s.onSuccess).toList ++
    (if s.condition.isSome then (transition d i s.onConditionFalse).toList else []) ++
    if canSkip d s then (transition d i s.onFailure).toList else []

/-- The edges along which the walk goes. -/
def moveEdges : List (String × String) :=
  (List.finRange d.steps.length).flatMap fun i =>
    (movesFrom d i).map fun j => ((d.steps.get i).stepId, (d.steps.get j).stepId)

/-- The graph of the moves is acyclic and reaches every step from the entry. -/
structure MovesOk : Prop where
  acyclic : Digraph.Acyclic (moveEdges d)
  reachable : ∀ id ∈ d.ids, ReflTransGen (Digraph.Edge (moveEdges d)) (entryId d) id

/-- A definition whose transitions are in order: it is well formed, and the graph of its moves is
acyclic and reaches every step. -/
structure Good : Prop where
  wellFormed : WellFormed std d
  moves : MovesOk d

variable {d}

theorem edge_of_mem_movesFrom {i j : Fin d.steps.length} (h : j ∈ movesFrom d i) :
    Digraph.Edge (moveEdges d) (d.steps.get i).stepId (d.steps.get j).stepId :=
  List.mem_flatMap.mpr ⟨i, List.mem_finRange i, List.mem_map.mpr ⟨j, h, rfl⟩⟩

theorem canSkip_of_policyFor {step : WorkflowStep} {c : WorkflowFailureClass}
    (h : policyFor d step c = .skip) : canSkip d step = true :=
  List.any_eq_true.mpr ⟨c, mem_failureClasses c, by simp [h]⟩

/-! ## A pass follows a move -/

section
variable {σ : Type u} {H : Host σ} {step : WorkflowStep} {input : AuraLauncher.Workflow.Json}
  {gen : UInt64} {confirmed : Bool}

/-- A resolution goes on without an action only where the policy skips. -/
theorem canSkip_of_resolveLoop {n : ℕ} {a b : Attempt σ}
    (h : (resolveLoop H d step input).run (n, a) = (.error .next, b)) : canSkip d step = true := by
  obtain ⟨m, ⟨k, c⟩, -, -, hexit⟩ := (resolveLoop H d step input).exists_passes_run (n, a)
  rw [h] at hexit
  cases hres : (resolveStep H step.action input c.host).1 with
  | ok r =>
      have hbody := resolveBody_ok H d step input (n := k) (a := c) (Prod.ext hres rfl)
      cases hexit.symm.trans hbody
  | error f =>
      have hbody := resolveBody_error H d step input (n := k) (a := c) (Prod.ext hres rfl)
      rcases (onResolveError_inr d step (hbody.symm.trans hexit)).1 with ⟨-, -, hskip⟩ | ⟨⟨⟩, -⟩
      exact canSkip_of_policyFor hskip

/-- An execution goes on with a step that is not complete only where the policy skips. -/
theorem canSkip_of_executeResolved {r : ResolvedStepAction} {a b : Attempt σ}
    (h : executeResolved H d step gen confirmed r a = .inr (.next, b))
    (hstatus : b.sr.status ≠ .complete) : canSkip d step = true := by
  unfold executeResolved at h
  dsimp only at h
  split_ifs at h
  · cases h
  · split at h
    · cases h
      exact absurd rfl hstatus
    · rcases onExecuteError_inr d step h with ⟨-, -, hskip⟩ | ⟨⟨⟩, -⟩
      exact canSkip_of_policyFor hskip

/-- A visit goes on with a step that is not complete only where the policy skips. -/
theorem canSkip_of_executeStep {a : Attempt σ}
    (hnext : (executeStep H d step input gen confirmed a).1 = .next)
    (hstatus : (executeStep H d step input gen confirmed a).2.sr.status ≠ .complete) :
    canSkip d step = true := by
  have hrun := (attemptLoop H d step input gen confirmed).run_induct (I := fun _ => True)
    (P := fun r => r.1 = .next → r.2.sr.status ≠ .complete → canSkip d step = true)
    (fun _ _ _ _ => trivial) ?_ a trivial
  · exact hrun hnext hstatus
  · rintro b ⟨outcome, c⟩ - hbody rfl hc
    rcases attemptBody_cases H d step input gen confirmed b with
      ⟨o, b', hres, heq⟩ | ⟨r, b', hres, heq⟩
    · obtain ⟨rfl, rfl⟩ := Prod.mk.inj (Sum.inr.inj (heq.symm.trans hbody))
      exact canSkip_of_resolveLoop hres
    · exact canSkip_of_executeResolved (heq.symm.trans hbody) hc

variable {std}

/-- After a step that is done the walk follows a move. -/
theorem afterStep_moves {i : Fin d.steps.length} {w w' : Walk d σ}
    (hskip : (w.run.steps i).status ≠ .complete → canSkip d (d.steps.get i) = true)
    (h : afterStep std d i w = .inl w') :
    w'.run.steps = w.run.steps ∧ ∀ j, w'.current = some j → j ∈ movesFrom d i := by
  unfold afterStep at h
  dsimp only at h
  split_ifs at h with hcomplete
  · split at h
    · cases h
    · cases h
      refine ⟨rfl, fun j hj => ?_⟩
      exact List.mem_append_left _ (List.mem_append_left _ (Option.mem_toList.mpr hj))
  · cases h
    refine ⟨rfl, fun j hj => List.mem_append_right _ ?_⟩
    rw [if_pos (hskip hcomplete)]
    exact Option.mem_toList.mpr hj

/-- **A pass for a step that is not done follows a move**: it leaves the step done and goes to one
of the steps the walk can go to from there. -/
theorem takeUp_moves {i : Fin d.steps.length} {w w' : Walk d σ}
    (hdone : (w.run.steps i).status.isDone = false)
    (h : takeUp std H d gen confirmed i w = .inl w') :
    (w'.run.steps i).status.isDone = true ∧ ∀ j, w'.current = some j → j ∈ movesFrom d i := by
  unfold takeUp at h
  dsimp only at h
  rw [if_neg (by simp [hdone])] at h
  split at h
  · cases h
  · cases h
  · rename_i hgate
    cases h
    refine ⟨by simp [Walk.goto, Walk.setStep, StepRunStatus.isDone], fun j hj => ?_⟩
    have hcond : (d.steps.get i).condition.isSome = true := by
      unfold gate at hgate
      split at hgate
      · cases hgate
      · rename_i hsome
        rw [hsome]
        rfl
    refine List.mem_append_left _ (List.mem_append_right _ ?_)
    rw [if_pos hcond]
    exact Option.mem_toList.mpr hj
  · unfold perform at h
    dsimp only at h
    have hmatches : (visit std H gen confirmed w i).1.Matches
        (visit std H gen confirmed w i).2.sr.status := executeStep_status H d _ _ gen confirmed _
    have hskip : (visit std H gen confirmed w i).1 = .next →
        (visit std H gen confirmed w i).2.sr.status ≠ .complete →
          canSkip d (d.steps.get i) = true := canSkip_of_executeStep
    split at h
    · rename_i hnext
      have hnext : (visit std H gen confirmed w i).1 = .next := hnext
      rw [hnext] at hmatches
      have hrec : ∀ (v : Walk d σ) (a : Attempt σ), (v.executedStep i a).run.steps i = a.sr :=
        fun v a => Function.update_self _ _ _
      obtain ⟨hsteps, hmoves⟩ := afterStep_moves (fun hc => hskip hnext (by rwa [hrec] at hc)) h
      refine ⟨?_, hmoves⟩
      rw [hsteps, hrec]
      rcases hmatches with hst | hst <;> exact hst ▸ rfl
    · cases h
    · cases h

/-! ## No way back -/

/-- What a fresh run keeps: every step it has touched lies before the current one. -/
def Forward (u : Walk d σ) : Prop :=
  ∀ i j, u.current = some i → (u.run.steps j).status ≠ .pending →
    TransGen (Digraph.Edge (moveEdges d)) (d.steps.get j).stepId (d.steps.get i).stepId

/-- A pass of a fresh run over an acyclic graph goes forward, and leaves its step done. -/
theorem Forward.pass {u u' : Walk d σ} (hacyclic : Digraph.Acyclic (moveEdges d)) (hu : Forward u)
    (h : advanceBody std H d gen confirmed u = .inl u') :
    Forward u' ∧ ∀ i, u.current = some i → (u'.run.steps i).status.isDone = true := by
  unfold advanceBody at h
  cases hi : u.current with
  | none =>
      rw [hi] at h
      cases h
  | some i =>
      have hpending : (u.run.steps i).status = .pending := by
        by_contra hne
        exact hacyclic _ (hu i i hi hne)
      have hnot : (u.run.steps i).status.isDone = false := by
        rw [hpending]
        rfl
      rw [hi] at h
      dsimp only at h
      split_ifs at h
      obtain ⟨hdone, hmoves⟩ :=
        takeUp_moves (w := { u with current := some i, executed := u.executed + 1 }) hnot h
      have hframe := takeUp_frame std H gen confirmed (i := i)
        (w := { u with current := some i, executed := u.executed + 1 }) hnot
      rw [h] at hframe
      refine ⟨fun k j hk hj => ?_, ?_⟩
      · have hedge := edge_of_mem_movesFrom (hmoves k hk)
        by_cases hji : j = i
        · subst hji
          exact .single hedge
        · have hsame : u'.run.steps j = u.run.steps j := hframe.others j hji
          rw [hsame] at hj
          exact (hu i j hi hj).tail hedge
      · rintro _ ⟨⟩
        exact hdone

/-- The steps a walk has touched stay touched. -/
theorem advanceBody_touched {u u' : Walk d σ} (h : advanceBody std H d gen confirmed u = .inl u')
    {j : Fin d.steps.length} (hj : (u.run.steps j).status.isDone = true) :
    (u'.run.steps j).status.isDone = true := by
  have hkeep := advanceBody_keeps std H gen confirmed u hj
  rw [h] at hkeep
  exact (congrArg StepRunStatus.isDone hkeep).trans hj

end

variable (d)

/-- No fresh run comes back to a step it has left. -/
def NoReturn : Prop :=
  ∀ (σ : Type) (H : Host σ) (gen : UInt64) (workflowRunId : String) (host : σ) (m n : ℕ)
    (u u' : Walk d σ) (i : Fin d.steps.length),
    (advanceLoop std H d gen false).passes m (freshWalk d workflowRunId host).restart = some u →
    (advanceLoop std H d gen false).passes (n + 1) u = some u' → u.current = some i →
    u'.current ≠ some i

variable {std d}

/-- **Acyclic moves never lead back**: where the graph of the moves is acyclic, no fresh run comes
back to a step it has left. -/
theorem fresh_run_no_return (hacyclic : Digraph.Acyclic (moveEdges d)) : NoReturn std d := by
  rintro σ H gen workflowRunId host m n u u' i hm hn hi hi'
  have hu : Forward u := (advanceLoop std H d gen false).passes_induct
    (fun _ _ hv hbody => (hv.pass hacyclic hbody).1)
    (by rintro k j - hj; exact absurd rfl hj) hm
  obtain ⟨v, hv, hrest⟩ := (advanceLoop std H d gen false).passes_succ_eq_some.mp hn
  obtain ⟨hforward, hdone⟩ := hu.pass hacyclic hv
  obtain ⟨hforward', hdone'⟩ := (advanceLoop std H d gen false).passes_induct
    (I := fun t => Forward t ∧ (t.run.steps i).status.isDone = true)
    (fun _ _ ht hbody => ⟨(ht.1.pass hacyclic hbody).1, advanceBody_touched hbody ht.2⟩)
    ⟨hforward, hdone i hi⟩ hrest
  refine hacyclic _ (hforward' i i hi' fun hp => ?_)
  rw [hp] at hdone'
  cases hdone'

/-! ## The two graphs -/

/-- The edges that only one of the two sides knows do no harm. Of an accepted definition, a move
that the validator does not look at closes no cycle, and the target of a checked edge that is no
move is reached by moves. Of a definition whose moves are in order, the target of a move that the
validator does not follow is reached by what it follows, and a checked edge that is no move closes
no cycle. -/
structure Harmless (d : WorkflowDefinition) : Prop where
  moveCycle : CheckedOk d → ∀ x y, Digraph.Edge (moveEdges d) x y →
    ¬ Digraph.Edge (checkedEdges d) x y → ¬ ReflTransGen (Digraph.Edge (moveEdges d)) y x
  moveReach : CheckedOk d → ∀ x y, Digraph.Edge (markEdges d) x y →
    ¬ Digraph.Edge (moveEdges d) x y → ReflTransGen (Digraph.Edge (moveEdges d)) (entryId d) y
  checkedReach : MovesOk d → ∀ x y, Digraph.Edge (moveEdges d) x y →
    ¬ Digraph.Edge (markEdges d) x y → ReflTransGen (Digraph.Edge (markEdges d)) (entryId d) y
  checkedCycle : MovesOk d → ∀ x y, Digraph.Edge (checkedEdges d) x y →
    ¬ Digraph.Edge (moveEdges d) x y → ¬ ReflTransGen (Digraph.Edge (checkedEdges d)) y x

/-- The marked targets of a well-formed definition are steps. -/
theorem mem_ids_of_markEdge (hwf : WellFormed std d) {x y : String}
    (h : Digraph.Edge (markEdges d) x y) : y ∈ d.ids := by
  obtain ⟨hchecked, hend⟩ := List.mem_filter.mp h
  obtain ⟨hx, hy⟩ := mem_checkedEdges.mp hchecked
  obtain ⟨s, hs, rfl⟩ := List.mem_map.mp hx
  obtain ⟨i, rfl⟩ := List.get_of_mem hs
  rw [adj, indexOf_stepId hwf.nodup] at hy
  simp only [checkedTargets, Option.map_some, Option.getD_some, List.mem_append] at hy
  have hend : y ≠ "end" := by simpa using hend
  have htarget : y ∈ WorkflowStep.targets (d.steps.get i) → y ∈ d.ids := fun hy =>
    (hwf.targets _ hs y hy).resolve_left hend
  rcases hy with (hy | hy) | hy
  · exact htarget (List.mem_append_left _ (List.mem_append_left _ hy))
  · exact htarget (List.mem_append_right _ hy)
  · split_ifs at hy
    · obtain ⟨j, -, rfl⟩ := Option.map_eq_some_iff.mp (Option.mem_toList.mp hy)
      exact List.mem_map.mpr ⟨_, List.get_mem d.steps j, rfl⟩
    · cases hy

theorem mem_ids_of_moveEdge {x y : String} (h : Digraph.Edge (moveEdges d) x y) : y ∈ d.ids := by
  obtain ⟨i, -, hi⟩ := List.mem_flatMap.mp h
  obtain ⟨j, -, heq⟩ := List.mem_map.mp hi
  obtain ⟨-, rfl⟩ := Prod.mk.inj heq
  exact List.mem_map.mpr ⟨_, List.get_mem d.steps j, rfl⟩

/-- For a well-formed definition, both graphs are in order together exactly when the edges of one
side only do no harm. -/
theorem checkedOk_iff_movesOk (hwf : WellFormed std d) :
    (CheckedOk d ↔ MovesOk d) ↔ Harmless d := by
  constructor
  · intro h
    refine ⟨fun hc => ?_, fun hc x y hxy _ => ?_, fun hm x y hxy _ => ?_, fun hm => ?_⟩
    · exact (hc.acyclic.iff_extra).mp (h.mp hc).acyclic
    · exact (h.mp hc).reachable y (mem_ids_of_markEdge hwf hxy)
    · exact (h.mpr hm).reachable y (mem_ids_of_moveEdge hxy)
    · exact (hm.acyclic.iff_extra).mp (h.mpr hm).acyclic
  · intro h
    constructor
    · intro hc
      exact ⟨(hc.acyclic.iff_extra).mpr (h.moveCycle hc), fun id hid =>
        Digraph.reflTransGen_of_extra (hc.reachable id hid) (h.moveReach hc)⟩
    · intro hm
      exact ⟨(hm.acyclic.iff_extra).mpr (h.checkedCycle hm), fun id hid =>
        Digraph.reflTransGen_of_extra (hm.reachable id hid) (h.checkedReach hm)⟩

variable (std d)

/-- The validator agrees with the walk: it accepts a definition exactly when the transitions are in
order, and no fresh run of an accepted one comes back to a step. -/
structure ValidatorAgrees : Prop where
  accepts : validateGraph std d = .ok () ↔ Good std d
  noReturn : validateGraph std d = .ok () → NoReturn std d

/-- A step that leads back to itself where its command is not found, which its policy skips. -/
def loopStep : WorkflowStep :=
  { namedStep "s1" none with
    failurePolicy := { FailurePolicy.inherited with commandNotFound := some .skip }
    onFailure := some "s1" }

end AuraLauncher.Runner
