import AuraLauncher.Workflow.Scheduler.Session

/-!
# Progress and completeness

Why a call of `run_graph` on a graph that passes the validator comes to an end, and what it has done
then.

* `Call.rank` — a bound on the steps a call has left. Every move lowers it: the two sets of the loop
  only grow, and a round that goes around disposes of what it took up.
* `Call.no_stall` — the loop never runs dry with nodes left: the graph is acyclic, so some node is
  ready, and it is taken up or skipped by its condition.
* `Session.Reached` — the invariant of the sessions that start without a checkpoint.
* `run_graph_progress` — the assembled result.
-/

namespace AuraLauncher.Workflow

open AuraLauncher.Lib

/-! ## The rank of a call -/

/-- How many times a node of the graph can still be finished or skipped. -/
def LoopState.left (g : WorkflowGraph) (st : LoopState) : ℕ :=
  (g.ids.toFinset.filter fun id => id ∉ st.finished).card +
    (g.ids.toFinset.filter fun id => id ∉ st.skipped).card

/-- More steps than one round of the loop takes. -/
def roundBound (g : WorkflowGraph) : ℕ := 4 * g.nodes.length + 8

/-- More steps than a call takes. -/
def callBound (g : WorkflowGraph) : ℕ := roundBound g * (2 * g.nodes.length) + 1

namespace LoopState

variable {g : WorkflowGraph} {st : LoopState}

theorem card_filter_insert_lt {s t : Finset NodeId} {id : NodeId} (hs : id ∈ s) (ht : id ∉ t) :
    (s.filter fun x => x ∉ insert id t).card < (s.filter fun x => x ∉ t).card := by
  apply Finset.card_lt_card
  rw [Finset.ssubset_iff_of_subset]
  · exact ⟨id, by simp [hs, ht], by simp⟩
  · intro x hx
    simp only [Finset.mem_filter, Finset.mem_insert, not_or] at hx ⊢
    exact ⟨hx.1, hx.2.2⟩

theorem card_filter_mono {s t t' : Finset NodeId} (h : t ⊆ t') :
    (s.filter fun x => x ∉ t').card ≤ (s.filter fun x => x ∉ t).card := by
  apply Finset.card_le_card
  intro x hx
  simp only [Finset.mem_filter] at hx ⊢
  exact ⟨hx.1, fun hxt => hx.2 (h hxt)⟩

theorem left_skip_lt {id : NodeId} (hid : id ∈ g.ids) (hnot : id ∉ st.skipped) :
    left g { st with skipped := insert id st.skipped } < left g st :=
  Nat.add_lt_add_left (card_filter_insert_lt (List.mem_toFinset.mpr hid) hnot) _

theorem left_finish_lt {id : NodeId} (hid : id ∈ g.ids) (hnot : id ∉ st.finished)
    (vars : VariableStore) : left g ⟨insert id st.finished, st.skipped, vars⟩ < left g st :=
  Nat.add_lt_add_right (card_filter_insert_lt (List.mem_toFinset.mpr hid) hnot) _

theorem left_mark_le (sj : SerdeJson) : left g (st.mark sj g) ≤ left g st :=
  Nat.add_le_add_left (card_filter_mono (subset_mark_skipped sj g st)) _

/-- Marking that makes progress leaves less. -/
theorem left_mark_lt {sj : SerdeJson}
    (h : (markConditionSkips sj g st.skipped st.vars).2 = true) :
    left g (st.mark sj g) < left g st := by
  obtain ⟨n, hn, hnot, hcond⟩ := markConditionSkips_progressed.mp h
  have hmark : insert n.nodeId st.skipped ⊆ (st.mark sj g).skipped := by
    intro x hx
    rcases Finset.mem_insert.mp hx with rfl | hx
    · exact mem_mark_skipped.mpr (.inr ⟨n, hn, rfl, hcond⟩)
    · exact subset_mark_skipped sj g st hx
  calc left g (st.mark sj g)
      ≤ left g { st with skipped := insert n.nodeId st.skipped } :=
        Nat.add_le_add_left (card_filter_mono hmark) _
    _ < left g st := left_skip_lt (WorkflowGraph.nodeId_mem_ids hn) hnot

theorem left_le (g : WorkflowGraph) (st : LoopState) : left g st ≤ 2 * g.nodes.length := by
  have hids : g.ids.toFinset.card ≤ g.nodes.length := by
    have hle := List.toFinset_card_le g.ids
    rwa [WorkflowGraph.ids, List.length_map] at hle
  have hfin := Finset.card_filter_le g.ids.toFinset fun id => id ∉ st.finished
  have hskip := Finset.card_filter_le g.ids.toFinset fun id => id ∉ st.skipped
  unfold left
  omega

end LoopState

namespace Call

variable {sj : SerdeJson} {g : WorkflowGraph} {decision : NodeId → Option ApprovalStatus}

/-- A bound on the steps a call has left. A node in flight counts as disposed of already, unless
another node waits for its approval: then the call returns at the end of the gate. -/
def rank (g : WorkflowGraph) (c : Call) : ℕ :=
  match c.phase with
  | .top => roundBound g * c.st.left g + 1
  | .gate todo none toExecute =>
      roundBound g * (c.st.left g - (toExecute.length + todo.length)) + 4 * todo.length +
        2 * toExecute.length + 4
  | .gate todo (some _) _ => 2 * todo.length + 1
  | .request _ todo _ => 2 * todo.length + 2
  | .batch slots =>
      roundBound g * (c.st.left g - slots.length) + slots.countP (fun slot => slot.2.isNone) +
        slots.length + 3
  | .apply out => roundBound g * (c.st.left g - out.length) + out.length + 2
  | .stopped _ => 0

theorem rank_top_le (g : WorkflowGraph) (st : LoopState) :
    rank g ⟨st, .top⟩ ≤ callBound g :=
  Nat.add_le_add_right (Nat.mul_le_mul_left _ (st.left_le g)) 1

/-- No more nodes are in flight than can be finished. -/
theorem Sound.length_le {c : Call} (h : Sound sj g c) : c.phase.inFlight.length ≤ c.st.left g := by
  rw [← List.toFinset_card_of_nodup h.nodup]
  refine Nat.le_trans (Finset.card_le_card fun id hid => ?_) (Nat.le_add_right _ _)
  obtain ⟨hmem, hnot, -⟩ := h.ready id (List.mem_toFinset.mp hid)
  exact Finset.mem_filter.mpr
    ⟨List.mem_toFinset.mpr hmem, fun hfin => hnot (done_iff.mpr (.inl hfin))⟩

/-- A round that disposes of one of its `k + 1` nodes has no more rounds behind it. -/
theorem rounds_le {w left left' k : ℕ} (h : left' < left) :
    w * (left' - k) ≤ w * (left - (k + 1)) :=
  Nat.mul_le_mul_left w (by omega)

/-- Filling a slot leaves one empty slot less. -/
theorem countP_isNone_set {slots : List (WorkflowNode × Option StepResult)} {i : ℕ}
    {n : WorkflowNode} (h : slots[i]? = some (n, none)) (r : StepResult) :
    (slots.set i (n, some r)).countP (fun slot => slot.2.isNone) <
      slots.countP fun slot => slot.2.isNone := by
  obtain ⟨hi, hget⟩ := List.getElem?_eq_some_iff.mp h
  have hpos : 0 < slots.countP fun slot => slot.2.isNone :=
    List.countP_pos_iff.mpr ⟨slots[i], List.getElem_mem hi, by simp [hget]⟩
  rw [List.countP_set hi, hget]
  simp only [Option.isNone_none, Option.isNone_some, if_true, Bool.false_eq_true, if_false]
  omega

/-- **Every move lowers the rank.** -/
theorem rank_lt_of_moves (hnd : g.ids.Nodup) {c c' : Call} {a : Act} {eff : Effect}
    (hm : Moves sj g decision c a c' eff) (h : Sound sj g c) : rank g c' < rank g c := by
  have hafter := (sound_of_moves hnd hm h).length_le
  cases hm with
  | pauseTop | finish | stall | pauseBatch | await | applyErr => simp [rank]
  | skip st nowMs hrun hrem hprog =>
      have hlt := Nat.mul_lt_mul_of_pos_left (LoopState.left_mark_lt hprog)
        (show 0 < roundBound g by simp [roundBound])
      simp only [rank]
      omega
  | takeUp st nowMs hrun =>
      have hpos : 0 < (runnable sj g st).length := List.length_pos_iff.mpr hrun
      have hlen : (runnable sj g st).length ≤ g.nodes.length := List.length_filter_le _ _
      simp only [Phase.inFlight, List.nil_append, List.length_map] at hafter
      have hround : roundBound g * (st.left g - (runnable sj g st).length) + roundBound g ≤
          roundBound g * st.left g := by
        rw [← Nat.mul_succ]
        exact Nat.mul_le_mul_left _ (by omega)
      simp only [rank, List.length_nil, Nat.zero_add]
      unfold roundBound at hround ⊢
      omega
  | pass st nowMs n todo gatedPending toExecute hpass =>
      cases gatedPending with
      | none =>
          simp only [rank, List.length_append, List.length_cons, List.length_nil]
          rw [show toExecute.length + (0 + 1) + todo.length =
            toExecute.length + (todo.length + 1) by omega]
          omega
      | some id =>
          simp only [rank, List.length_cons]
          omega
  | reject st nowMs n todo gatedPending toExecute hgated hdec =>
      cases gatedPending with
      | none =>
          obtain ⟨hid, hnot, -⟩ := h.ready n.nodeId (List.mem_map_of_mem (by simp))
          have hlt := @LoopState.left_skip_lt g st _ hid fun hs => hnot (done_iff.mpr (.inr hs))
          have hround := rounds_le (w := roundBound g) (k := toExecute.length + todo.length) hlt
          simp only [rank, List.length_cons, ← Nat.add_assoc]
          omega
      | some id =>
          simp only [rank, List.length_cons]
          omega
  | wait st nowMs n todo gatedPending toExecute hgated hdec =>
      cases gatedPending <;> (simp only [rank, List.length_cons]; omega)
  | request st nowMs n todo toExecute =>
      simp only [rank]
      omega
  | launch st nowMs toExecute =>
      have hcount : (toExecute.map fun n => (n, (none : Option StepResult))).countP
          (fun slot => slot.2.isNone) ≤ toExecute.length := by
        rw [← List.length_map (f := fun n => (n, (none : Option StepResult)))]
        exact List.countP_le_length
      simp only [rank, List.length_map, List.length_nil, Nat.add_zero]
      omega
  | execute st i n out slots hslot =>
      have hcount := countP_isNone_set hslot out
      simp only [rank, List.length_set]
      omega
  | join st nowMs slots out hout =>
      have hlen : out.length = slots.length := by
        simpa using (collect_perm hout).2.length_eq
      simp only [rank, hlen]
      omega
  | applyOk st nowMs id output rest node hnode =>
      obtain ⟨hid, hnot, -⟩ := h.ready id List.mem_cons_self
      have hlt := @LoopState.left_finish_lt g st _ hid (fun hf => hnot (done_iff.mpr (.inl hf)))
        (applyOutputs st.vars node output)
      have hround := rounds_le (w := roundBound g) (k := rest.length) hlt
      simp only [rank, List.length_cons]
      omega
  | mark st nowMs =>
      have hle := Nat.mul_le_mul_left (roundBound g) (@LoopState.left_mark_le g st sj)
      simp only [rank, List.length_nil, Nat.sub_zero]
      omega

/-! ## No stall -/

/-- **The loop never runs dry.** In a well-formed graph, when nothing is runnable and nodes remain,
the marking makes progress: some node is ready, and only a false condition keeps it from being
runnable. -/
theorem no_stall (h : IsDag g) {st : LoopState} (hrun : runnable sj g st = [])
    (hrem : remaining g st ≠ []) : (markConditionSkips sj g st.skipped st.vars).2 = true := by
  obtain ⟨id, hid⟩ := List.exists_mem_of_ne_nil _ hrem
  obtain ⟨hmem, hnot⟩ := mem_remaining.mp hid
  obtain ⟨id', hready⟩ := exists_ready h hmem hnot
  obtain ⟨hmem', hnot', -⟩ := mem_readyNodes.mp hready
  obtain ⟨n, hn, rfl⟩ := WorkflowGraph.mem_ids.mp hmem'
  refine markConditionSkips_progressed.mpr
    ⟨n, hn, fun hs => hnot' (done_iff.mpr (.inr hs)), ?_⟩
  rw [Bool.eq_false_iff]
  intro hcond
  have hn' : n ∈ runnable sj g st := mem_runnable.mpr ⟨hn, hready, hcond⟩
  rw [hrun] at hn'
  cases hn'

/-- A call fails only by applying a failed result. -/
theorem failed_of_moves (hg : IsDag g) {c c' : Call} {a : Act} {eff : Effect}
    (hm : Moves sj g decision c a c' eff) {id : NodeId} {e : String}
    (h : c'.phase = .stopped (.failed id e)) :
    c'.st = c.st ∧ ∃ rest, c.phase = .apply ((id, .error e) :: rest) := by
  cases hm with
  | stall st nowMs id rest hrun hrem hprog =>
      rw [no_stall hg hrun (by simp [hrem])] at hprog
      cases hprog
  | applyErr st nowMs id e rest node hnode =>
      cases h
      exact ⟨rfl, rest, rfl⟩
  | _ => cases h

/-- When a call returns `Finished`, every node is done. -/
theorem done_of_moves {c c' : Call} {a : Act} {eff : Effect} (hm : Moves sj g decision c a c' eff)
    (h : c'.phase = .stopped .finished) :
    ∀ id ∈ g.ids, Done c'.st.finished c'.st.skipped id := by
  cases hm with
  | finish st nowMs hrun hrem =>
      intro id hid
      by_contra hnot
      have hmem : id ∈ remaining g st := by
        refine mem_remaining.mpr ⟨hid, fun hdone => hnot (done_iff.mpr ?_)⟩
        exact (done_iff.mp hdone).imp_right fun hs => subset_mark_skipped sj g st hs
      rw [hrem] at hmem
      cases hmem
  | _ => cases h

end Call

/-! ## Sessions -/

/-- The sets of the loop contain nodes of the graph only. -/
structure LoopState.Within (g : WorkflowGraph) (st : LoopState) : Prop where
  finished : ∀ id ∈ st.finished, id ∈ g.ids
  skipped : ∀ id ∈ st.skipped, id ∈ g.ids

theorem LoopState.Within.mark {g : WorkflowGraph} {st : LoopState} (h : st.Within g)
    (sj : SerdeJson) : (st.mark sj g).Within g := by
  refine ⟨h.finished, fun id hid => ?_⟩
  rcases mem_mark_skipped.mp hid with hid | ⟨n, hn, rfl, -⟩
  · exact h.skipped id hid
  · exact WorkflowGraph.nodeId_mem_ids hn

theorem Call.within_of_moves {sj : SerdeJson} {g : WorkflowGraph}
    {decision : NodeId → Option ApprovalStatus} {c c' : Call} {a : Act} {eff : Effect}
    (hm : Moves sj g decision c a c' eff) (hsound : c.Sound sj g) (h : c.st.Within g) :
    c'.st.Within g := by
  cases hm with
  | finish | skip | stall | mark => exact h.mark sj
  | reject st nowMs n todo gatedPending toExecute hgated hdec =>
      refine ⟨h.finished, fun id hid => ?_⟩
      rcases Finset.mem_insert.mp hid with rfl | hid
      · exact (hsound.ready _ (List.mem_map_of_mem (by simp))).1
      · exact h.skipped id hid
  | applyOk st nowMs id output rest node hnode =>
      refine ⟨fun x hx => ?_, h.skipped⟩
      rcases Finset.mem_insert.mp hx with rfl | hx
      · exact (hsound.ready _ List.mem_cons_self).1
      · exact h.finished x hx
  | _ => exact h

namespace Session

variable {sj : SerdeJson} {g : WorkflowGraph} {runId : String} {s s' : Session} {a : SessionAct}

/-- What holds in every session of one run that starts without a checkpoint of it. -/
structure Reached (sj : SerdeJson) (g : WorkflowGraph) (runId : String) (s : Session) : Prop where
  sound : s.Sound sj g runId
  inCall : ∀ args c, s.call = some (args, c) → c.st.Within g
  inStore : (s.stored sj g runId).Within g
  /-- A call that returned `Finished` left no node. -/
  complete : ∀ args c, s.call = some (args, c) → c.phase = .stopped .finished →
    ∀ id ∈ g.ids, Done c.st.finished c.st.skipped id

theorem reached_start {world : World} (h : RunStore.load sj world.runs runId = none) :
    Reached sj g runId ⟨world, none, []⟩ := by
  have hstored : (⟨world, none, []⟩ : Session).stored sj g runId = .init := by
    rw [stored, h, LoopState.resume]
  refine ⟨sound_of_no_call rfl, (by rintro _ _ ⟨⟩), ?_, by rintro _ _ ⟨⟩⟩
  rw [hstored]
  exact ⟨fun _ hid => absurd hid (Finset.notMem_empty _),
    fun _ hid => absurd hid (Finset.notMem_empty _)⟩

/-- **The step lemma.** -/
theorem reached_of_moves (hnd : g.ids.Nodup) (hserves : a.Serves g runId) (hm : Moves sj s a s')
    (h : Reached sj g runId s) : Reached sj g runId s' := by
  have hsound := sound_of_moves hnd hserves hm h.sound
  have hcall : ∀ args c, s'.call = some (args, c) → c.st.Within g ∧
      (c.phase = .stopped .finished → ∀ id ∈ g.ids, Done c.st.finished c.st.skipped id) := by
    cases hm with
    | start s args hret =>
        rintro args' c ⟨⟩
        obtain ⟨rfl, rfl⟩ := hserves
        exact ⟨h.inStore, by rintro ⟨⟩⟩
    | tick world log args c a c' eff hm =>
        rintro args' c'' ⟨⟩
        obtain ⟨rfl, -, hc⟩ := h.sound args c rfl
        exact ⟨Call.within_of_moves hm hc (h.inCall args c rfl), Call.done_of_moves hm⟩
    | crash => rintro _ _ ⟨⟩
    | op => exact fun args c hc => ⟨h.inCall args c hc, h.complete args c hc⟩
    | write => exact fun args c hc => ⟨h.inCall args c hc, h.complete args c hc⟩
  refine ⟨hsound, fun args c hc => (hcall args c hc).1, ?_, fun args c hc => (hcall args c hc).2⟩
  rcases stored_of_moves hserves hm hsound with hsame | ⟨args, c, hc, hstored⟩
  · rw [hsame]
    exact h.inStore
  · rw [hstored]
    exact ⟨(hcall args c hc).1.finished, (hcall args c hc).1.skipped⟩

/-- The rank of the call under way. -/
def rank (g : WorkflowGraph) (s : Session) : ℕ :=
  match s.call with
  | some (_, c) => c.rank g
  | none => 0

/-- The steps of the call lower its rank, and its environment does not change it. -/
theorem rank_of_moves (hnd : g.ids.Nodup) (hgoes : a.goesOn = true) (hm : Moves sj s a s')
    (h : Sound sj g runId s) : s'.rank g + (if a.isTick then 1 else 0) ≤ s.rank g := by
  cases hm with
  | start => cases hgoes
  | crash => cases hgoes
  | tick world log args c a c' eff hm =>
      obtain ⟨rfl, -, hc⟩ := h args c rfl
      exact Call.rank_lt_of_moves hnd hm hc
  | op => exact Nat.le_refl _
  | write => exact Nat.le_refl _

/-- What progress means in a session of one run. -/
structure Progress (sj : SerdeJson) (g : WorkflowGraph) (runId : String) (s : Session) : Prop where
  /-- A call that starts here makes a bounded number of steps, whatever happens between them. -/
  bounded : ∀ args s₁ acts t, args.graph = g → args.runId = runId →
    (session sj).step s (.start args) = some s₁ →
    (∀ a ∈ acts, a.Serves g runId ∧ a.goesOn = true) → (session sj).run s₁ acts = some t →
    acts.countP (·.isTick) ≤ callBound g
  /-- A call that has not returned can make a step, whatever the flag, the clock and the executor
  give. -/
  enabled : ∀ args c, s.call = some (args, c) → (∀ stop, c.phase ≠ .stopped stop) →
    (∀ cancelled nowMs, ((session sj).step s (.tick (.poll cancelled nowMs))).isSome) ∨
      (∀ nowMs, ((session sj).step s (.tick (.advance nowMs))).isSome) ∨
      ∃ i, ∀ out, ((session sj).step s (.tick (.execute i out))).isSome
  /-- A call that returns `Failed` does so by applying the failure that the executor returned; the
  top of the loop, where the stall is, does not fail. -/
  failed : ∀ a s' args c id e, (session sj).step s a = some s' → s'.call = some (args, c) →
    c.phase = .stopped (.failed id e) →
    s.call = some (args, c) ∨
      ∃ c₀ rest, s.call = some (args, c₀) ∧ c₀.st = c.st ∧
        c₀.phase = .apply ((id, .error e) :: rest)
  /-- When a call has returned `Finished`, its two sets make up the nodes of the graph. -/
  complete : ∀ args c, s.call = some (args, c) → c.phase = .stopped .finished →
    c.st.finished ∪ c.st.skipped = g.ids.toFinset
  /-- A node is executed when all its predecessors are finished or skipped. -/
  executed : ∀ a s' x, (session sj).step s a = some s' → s'.log = s.log ++ [x] →
    ∃ args c, s.call = some (args, c) ∧
      ∀ e ∈ g.edges, e.to = x.node.nodeId → e.from ∈ c.st.finished ∪ c.st.skipped

/-- A session of one run makes progress. -/
theorem Reached.progress (hg : IsDag g) (h : Reached sj g runId s) : Progress sj g runId s where
  bounded := by
    intro args s₁ acts t hgraph hrunId hstart hacts hrun
    have hmoves := moves_of_step hstart
    have hsound := sound_of_moves (a := .start args) hg.nodup ⟨hgraph, hrunId⟩ hmoves h.sound
    have hrank : s₁.rank g ≤ callBound g := by
      cases hmoves with
      | start => exact Call.rank_top_le g _
    have hcount := (session sj).count_le_of_bound (p := (·.isTick))
      (fun s a s' hI hG hstep => ⟨sound_of_moves hg.nodup hG.1 (moves_of_step hstep) hI,
        rank_of_moves hg.nodup hG.2 (moves_of_step hstep) hI⟩)
      hsound ((session sj).along_of_forall hacts) hrun
    omega
  enabled := by
    intro args c hcall hrun
    obtain ⟨rfl, -, hc⟩ := h.sound args c hcall
    have hstep : ∀ a, ((session sj).step s (.tick a)).isSome =
        (c.step sj args.graph (s.world.decision args) a).isSome := by
      intro a
      simp [session, step, hcall]
    simp only [hstep]
    exact Call.not_stuck (fun id hid => (hc.ready id hid).1) hrun
  failed := by
    intro a s' args c id e hstep hcall hphase
    cases moves_of_step hstep with
    | start => cases hcall; cases hphase
    | crash => cases hcall
    | op => exact .inl hcall
    | write => exact .inl hcall
    | tick world log args' c₀ a c' eff hm =>
        cases hcall
        obtain ⟨rfl, -, -⟩ := h.sound args c₀ rfl
        obtain ⟨hst, rest, hrest⟩ := Call.failed_of_moves hg hm hphase
        exact .inr ⟨c₀, rest, rfl, hst.symm, hrest⟩
  complete := by
    intro args c hcall hphase
    have hwithin := h.inCall args c hcall
    ext id
    rw [List.mem_toFinset]
    constructor
    · intro hid
      exact (Finset.mem_union.mp hid).elim (hwithin.finished id) (hwithin.skipped id)
    · exact h.complete args c hcall hphase id
  executed := by
    intro a s' x hstep hlog
    obtain ⟨args, st, slots, i, hcall, hslot, -⟩ :=
      batch_of_log_append (moves_of_step hstep) hlog
    obtain ⟨rfl, -, hc⟩ := h.sound args _ hcall
    refine ⟨args, _, hcall, fun e he hto => ?_⟩
    have hmem : x.node.nodeId ∈ (Phase.batch slots).inFlight :=
      List.mem_map_of_mem (List.mem_iff_getElem?.mpr ⟨i, hslot⟩)
    exact (hc.ready _ hmem).2.2 e (WorkflowGraph.mem_incoming.mpr ⟨he, hto⟩)

end Session

/-- **Progress and completeness.** Take a graph that passes the validator and any sequence of calls
for one run of it that starts without a checkpoint, with crashes, operations on the approval store,
any executor and any cancel flag in between. In every session reached, a call makes at most
`callBound g` steps and is never stuck before it returns; it fails only with a failure of the
executor, never at the stall; when it returns `Finished`, the finished and the skipped nodes are all
nodes; and every node it executes comes after nodes that are finished or skipped. -/
theorem run_graph_progress (sj : SerdeJson) (g : WorkflowGraph) (runId : String) (world : World)
    (acts : List SessionAct) (s : Session) (hvalid : validate g = .ok ())
    (hfresh : RunStore.load sj world.runs runId = none) (hacts : ∀ a ∈ acts, a.Serves g runId)
    (hrun : (session sj).run ⟨world, none, []⟩ acts = some s) : s.Progress sj g runId := by
  have hg := (validate_ok_iff_isDag g).mp hvalid
  refine Session.Reached.progress hg ?_
  exact (session sj).run_inv (G := fun _ a => a.Serves g runId)
    (fun s a s' h hserves hstep =>
      Session.reached_of_moves hg.nodup hserves (Session.moves_of_step hstep) h)
    (Session.reached_start hfresh) ((session sj).along_of_forall hacts) hrun

/-- The theorem at the end of a batch in which `b` fails. -/
theorem run_graph_progress_fork :
    ∃ s, (session .withoutFloats).run ⟨⟨.empty, .empty⟩, none, []⟩
        (forkActs (.error "exit status 1")) = some s ∧
      s.Progress .withoutFloats forkGraph "run" :=
  ⟨_, rfl, run_graph_progress .withoutFloats forkGraph "run" ⟨.empty, .empty⟩
    (forkActs (.error "exit status 1")) _ rfl rfl (by decide) rfl⟩

end AuraLauncher.Workflow
