import AuraLauncher.Agent.Bounded

/-!
# What a replan executes again

The default replan leaves out what failed. It does not leave out what succeeded, and the loop does
not look at what it executed before, so a turn with a success and a failure is followed by a turn
that executes the success again.

* `ReplanSafe` — no proposal that was recorded, as ok or as failed, is handed to the host again.
* `FreshTurn` — the proposals of a turn are different, and none was recorded as ok before.
* `Good` — what holds between two turns: every failure is known to the planner.
* `runBoundedAgent_replanSafe` — a run whose turns are all fresh is safe, and a turn that is not
  fresh and goes through all its proposals breaks it.
* `runBoundedAgent_not_replanSafe` — a run that is not safe.
-/

namespace AuraLauncher.Agent

open AuraLauncher.Lib

/-- No proposal is handed to the host again once it was recorded as ok, or as failed. -/
structure ReplanSafe (handed : List Handed) : Prop where
  ok : handed.Pairwise fun h h' => (∃ r ∈ h.records, r.ok = true) → h'.proposal ≠ h.proposal
  failed : handed.Pairwise fun h h' => (∃ r ∈ h.records, r.ok = false) → h'.proposal ≠ h.proposal

theorem ReplanSafe.sublist {handed handed' : List Handed} (h : ReplanSafe handed)
    (hsub : handed'.Sublist handed) : ReplanSafe handed' :=
  ⟨h.ok.sublist hsub, h.failed.sublist hsub⟩

variable {C W : Type} {host : AgentExecutionHost C W} {planner : ActionPlanner C W} {goal : String}

/-- The proposals of the turn that comes next are different, and none was recorded as ok before. -/
structure FreshTurn (host : AgentExecutionHost C W) (planner : ActionPlanner C W) (goal : String)
    (s : AgentState W) : Prop where
  distinct : (s.nextProposals host planner goal).Nodup
  noneOk : ∀ h ∈ s.handed, h.proposal ∈ s.nextProposals host planner goal →
    ∀ r ∈ h.records, r.ok = false

/-- Between two turns: what was handed to the host is safe, the planner knows every failure, and
nothing was handed to the host before the first turn. -/
structure Good (s : AgentState W) : Prop where
  safe : ReplanSafe s.handed
  noted : ∀ h ∈ s.handed, ∀ r ∈ h.records, r.ok = false →
    (h.proposal.commandId, h.proposal.actionId) ∈ s.observation.failed
  first : s.isReplan = false → s.handed = []

/-! ## One turn -/

/-- The default replan proposes nothing that failed. -/
theorem not_failed_of_mem_nextProposals {plan : String → List C → W → List ActionProposal × W}
    {s : AgentState W} (hs : s.isReplan = true) {p : ActionProposal}
    (hp : p ∈ s.nextProposals host (.withDefaultReplan plan) goal) :
    (p.commandId, p.actionId) ∉ s.observation.failed := by
  unfold AgentState.nextProposals AgentState.nextPlan AgentState.proposals at hp
  dsimp only at hp
  rw [if_pos hs] at hp
  have hfilter := (List.mem_filter.mp (List.mem_of_mem_take hp)).2
  simpa using hfilter

/-- **One turn.** A fresh turn keeps what was handed to the host safe. -/
theorem Good.turn {plan : String → List C → W → List ActionProposal × W} {s : AgentState W}
    (hs : Good s) (hfresh : FreshTurn host (.withDefaultReplan plan) goal s) :
    ReplanSafe (s.nextTurn host (.withDefaultReplan plan) goal).handed ∧
      ∀ h ∈ (s.nextTurn host (.withDefaultReplan plan) goal).handed, ∀ r ∈ h.records,
        r.ok = false → (h.proposal.commandId, h.proposal.actionId) ∈
          (s.nextTurn host (.withDefaultReplan plan) goal).observation.failed := by
  obtain ⟨new, hhanded, hnew⟩ :=
    nextTurn_turned host (.withDefaultReplan plan) goal s
  rw [hhanded]
  have hdistinct : new.Pairwise fun h h' => h.proposal ≠ h'.proposal :=
    List.pairwise_map.mp (hfresh.distinct.sublist hnew.proposals.sublist)
  have hmem : ∀ h ∈ new, h.proposal ∈ s.nextProposals host (.withDefaultReplan plan) goal :=
    fun h hh => hnew.proposals.subset (List.mem_map_of_mem hh)
  refine ⟨⟨?_, ?_⟩, ?_⟩
  · refine List.pairwise_append.mpr ⟨hs.safe.ok, hdistinct.imp fun hne _ heq => hne heq.symm, ?_⟩
    rintro h hh h' hh' ⟨r, hr, hok⟩ heq
    have hno := hfresh.noneOk h hh (heq ▸ hmem h' hh') r hr
    rw [hok] at hno
    cases hno
  · refine List.pairwise_append.mpr
      ⟨hs.safe.failed, hdistinct.imp fun hne _ heq => hne heq.symm, ?_⟩
    rintro h hh h' hh' ⟨r, hr, hfail⟩ heq
    cases hreplan : s.isReplan with
    | false =>
        rw [hs.first hreplan] at hh
        exact absurd hh List.not_mem_nil
    | true =>
        refine not_failed_of_mem_nextProposals hreplan (hmem h' hh') ?_
        rw [heq]
        exact hs.noted h hh r hr hfail
  · intro h hh r hr hfail
    rcases List.mem_append.mp hh with hh | hh
    · exact hnew.kept _ (hs.noted h hh r hr hfail)
    · exact hnew.noted h hh r hr hfail

/-- The turn hands every proposal to the host, and the host records something of each. -/
def GoesThrough (host : AgentExecutionHost C W) (planner : ActionPlanner C W) (goal : String)
    (s : AgentState W) : Prop :=
  ∃ new, (s.nextTurn host planner goal).handed = s.handed ++ new ∧
    new.map Handed.proposal = s.nextProposals host planner goal ∧ ∀ h ∈ new, h.records ≠ []

/-- A record is of a success or of a failure, so what was recorded is not handed on again. -/
theorem ReplanSafe.ne {handed : List Handed} (h : ReplanSafe handed) :
    handed.Pairwise fun h h' => h.records ≠ [] → h'.proposal ≠ h.proposal := by
  refine (h.ok.and h.failed).imp ?_
  rintro h h' ⟨hok, hfailed⟩ hne
  obtain ⟨r, hr⟩ := List.exists_mem_of_ne_nil _ hne
  cases hcase : r.ok with
  | true => exact hok ⟨r, hr, hcase⟩
  | false => exact hfailed ⟨r, hr, hcase⟩

/-- A turn that goes through all its proposals and leaves everything safe was fresh. -/
theorem freshTurn_of_goesThrough {s : AgentState W} (hthrough : GoesThrough host planner goal s)
    (hsafe : ReplanSafe (s.nextTurn host planner goal).handed) :
    FreshTurn host planner goal s := by
  obtain ⟨new, hhanded, hall, hrecords⟩ := hthrough
  rw [hhanded] at hsafe
  refine ⟨?_, fun h hh hmem r hr => ?_⟩
  · rw [← hall]
    have hne := (List.pairwise_append.mp hsafe.ne).2.1
    refine List.pairwise_map.mpr (hne.imp_of_mem fun hx _ hno => ?_)
    exact (hno (hrecords _ hx)).symm
  · rw [← hall] at hmem
    obtain ⟨h', hh', heq⟩ := List.mem_map.mp hmem
    cases hok : r.ok with
    | false => rfl
    | true =>
        exact absurd heq ((List.pairwise_append.mp hsafe.ok).2.2 h hh h' hh' ⟨r, hr, hok⟩)

/-! ## The run -/

/-- What was handed to the host stays in the log of the run. -/
theorem handed_prefix_run (s : AgentState W) :
    s.handed <+: ((boundedLoop host planner goal).run s).handed := by
  refine (boundedLoop host planner goal).run_induct (I := fun t => s.handed <+: t.handed)
    (P := fun o => s.handed <+: o.handed) ?_ ?_ s List.prefix_rfl
  · intro t t' ht hround
    obtain ⟨-, hhanded, -⟩ := round_eq_inl hround
    obtain ⟨new, hnew, -⟩ := nextTurn_turned host planner goal t
    rw [hhanded, hnew]
    exact ht.trans (List.prefix_append _ _)
  · intro t o ht hround
    rcases round_cases host planner goal t with ⟨o', hstop, hhanded, -⟩ | ⟨-, hturn⟩
    · obtain rfl : o' = o := Sum.inr.inj (hstop.symm.trans hround)
      rw [hhanded]
      exact ht
    · obtain ⟨new, hnew, -⟩ := nextTurn_turned host planner goal t
      rcases afterTurn_cases goal t (t.nextProposals host planner goal)
        (t.nextTurn host planner goal) with ⟨o', ho', hhanded⟩ | ⟨t', ht', -⟩
      · obtain rfl : o' = o := Sum.inr.inj (ho'.symm.trans (hturn.symm.trans hround))
        rw [hhanded, hnew]
        exact ht.trans (List.prefix_append _ _)
      · cases ht'.symm.trans (hturn.symm.trans hround)

/-- What is handed to the host by a turn of the run is in the log of the run. -/
theorem nextTurn_prefix_run {s t : AgentState W} (ht : (boundedLoop host planner goal).Reaches s t)
    (hstart : t.Starts host) (hgoes : t.nextProposals host planner goal ≠ []) :
    (t.nextTurn host planner goal).handed <+:
      ((boundedLoop host planner goal).run s).handed := by
  rw [ht.run_eq]
  rcases round_cases host planner goal t with ⟨-, -, -, hnil⟩ | ⟨-, hturn⟩
  · exact absurd (hnil hstart) hgoes
  · have hbody : (boundedLoop host planner goal).body t =
        t.afterTurn goal (t.nextProposals host planner goal) (t.nextTurn host planner goal) := hturn
    rcases afterTurn_cases goal t (t.nextProposals host planner goal)
      (t.nextTurn host planner goal) with ⟨o, ho, hhanded⟩ | ⟨t', ht', hhanded, -⟩
    · rw [(boundedLoop host planner goal).run_of_inr (hbody.trans ho)]
      exact hhanded ▸ List.prefix_rfl
    · rw [(boundedLoop host planner goal).run_of_inl (hbody.trans ht'), ← hhanded]
      exact handed_prefix_run t'

/-- A run with the default replan whose turns are all fresh is safe. -/
theorem replanSafe_of_freshTurns {plan : String → List C → W → List ActionProposal × W}
    {limits : AgentLimits} {w : W}
    (hfresh : ∀ s, (boundedLoop host (.withDefaultReplan plan) goal).Reaches (.init limits w) s →
      s.Starts host → FreshTurn host (.withDefaultReplan plan) goal s) :
    ReplanSafe (runBoundedAgent host (.withDefaultReplan plan) goal limits w).handed := by
  have hinit : Good (AgentState.init limits w) :=
    ⟨⟨.nil, .nil⟩, fun h hh => absurd hh List.not_mem_nil, fun _ => rfl⟩
  refine (boundedLoop host (.withDefaultReplan plan) goal).run_induct_of_reaches
    (P := fun o => ReplanSafe o.handed) ?_ ?_ hinit
  · intro s s' hreach hgood hround
    obtain ⟨hstart, hhanded, hreplan, hobs, -⟩ := round_eq_inl hround
    obtain ⟨hsafe, hnoted⟩ := hgood.turn (hfresh s hreach hstart)
    refine ⟨hhanded ▸ hsafe, ?_, fun hfirst => ?_⟩
    · rw [hhanded, hobs]
      exact hnoted
    · rw [hreplan] at hfirst
      cases hfirst
  · intro s o hreach hgood hround
    rcases round_cases host (.withDefaultReplan plan) goal s with
      ⟨o', hstop, hhanded, -⟩ | ⟨hstart, hturn⟩
    · obtain rfl : o' = o := Sum.inr.inj (hstop.symm.trans hround)
      rw [hhanded]
      exact hgood.safe
    · rcases afterTurn_cases goal s (s.nextProposals host (.withDefaultReplan plan) goal)
        (s.nextTurn host (.withDefaultReplan plan) goal) with ⟨o', ho', hhanded⟩ | ⟨s', hs', -⟩
      · obtain rfl : o' = o := Sum.inr.inj (ho'.symm.trans (hturn.symm.trans hround))
        rw [hhanded]
        exact (hgood.turn (hfresh s hreach hstart)).1
      · cases hs'.symm.trans (hturn.symm.trans hround)

/-- **Replan safety of a run** of a planner with the default replan over a fixed plan. If every turn
proposes different proposals, none of which an earlier turn recorded as ok, then nothing that was
recorded is handed to the host again. In a safe run every turn that goes through all its proposals,
with a record of each, is of this kind. -/
theorem runBoundedAgent_replanSafe (host : AgentExecutionHost C W) (plan : List ActionProposal)
    (goal : String) (limits : AgentLimits) (w : W) :
    let planner : ActionPlanner C W := .withDefaultReplan fun _ _ w => (plan, w)
    let turns := fun s => (boundedLoop host planner goal).Reaches (.init limits w) s ∧ s.Starts host
    ((∀ s, turns s → FreshTurn host planner goal s) →
        ReplanSafe (runBoundedAgent host planner goal limits w).handed) ∧
      (ReplanSafe (runBoundedAgent host planner goal limits w).handed →
        ∀ s, turns s → GoesThrough host planner goal s → FreshTurn host planner goal s) := by
  intro planner turns
  refine ⟨fun h => replanSafe_of_freshTurns fun s hreach hstart => h s ⟨hreach, hstart⟩, ?_⟩
  rintro hsafe s ⟨hreach, hstart⟩ hthrough
  by_cases hnil : s.nextProposals host planner goal = []
  · refine ⟨by rw [hnil]; exact List.nodup_nil, fun h _ hmem => ?_⟩
    rw [hnil] at hmem
    exact absurd hmem List.not_mem_nil
  · exact freshTurn_of_goesThrough hthrough
      (hsafe.sublist (nextTurn_prefix_run hreach hstart hnil).sublist)

/-- A host that records one result for each proposal: ok, unless the action is `fail`. -/
def failingHost : AgentExecutionHost Unit Unit where
  catalog w := ([], w)
  execute proposals w := (proposals.map fun p => ⟨none, p.actionId != "fail"⟩, w)
  confirmationRequired _ w := (false, w)
  elapsedMs w := (0, w)

/-- After a success and a failure, the next turn executes the success again. -/
theorem runBoundedAgent_not_replanSafe :
    ¬∀ (host : AgentExecutionHost Unit Unit) (plan : List ActionProposal) (goal : String)
      (limits : AgentLimits),
      ReplanSafe (runBoundedAgent host (.withDefaultReplan fun _ _ w => (plan, w)) goal limits
        ()).handed := by
  intro h
  have hsafe := h failingHost [⟨"p", "c", "ok", .null⟩, ⟨"p", "c", "fail", .null⟩] "goal" .default
  have hrun : (runBoundedAgent failingHost (.withDefaultReplan fun _ _ w =>
      ([⟨"p", "c", "ok", .null⟩, ⟨"p", "c", "fail", .null⟩], w)) "goal" .default ()).handed =
      [⟨⟨"p", "c", "ok", .null⟩, [⟨none, true⟩]⟩, ⟨⟨"p", "c", "fail", .null⟩, [⟨none, false⟩]⟩,
        ⟨⟨"p", "c", "ok", .null⟩, [⟨none, true⟩]⟩] := rfl
  rw [hrun] at hsafe
  exact (List.pairwise_cons.mp hsafe.ok).1 ⟨⟨"p", "c", "ok", .null⟩, [⟨none, true⟩]⟩ (by simp)
    ⟨_, List.mem_singleton_self _, rfl⟩ rfl

end AuraLauncher.Agent
