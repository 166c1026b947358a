import AuraLauncher.Workflow.Scheduler.Session

/-!
# Skipped nodes

How a node comes to be skipped. The gate skips a node whose approval was rejected; the marking skips
every node whose condition is false, and does not look at whether the node has run or whether its
predecessors are done.

* `Refused` — at a moment of a session, the condition of a node is false or its approval was
  rejected.
* `Session.Skips` — the invariant: every skipped node with a condition was refused at some moment of
  the past.
* `skipped_was_refused` — the run-level law, for every run; and for the runs whose markings meet
  only nodes that wait for nothing and have not run, with the predecessors done at that moment and
  no node both finished and skipped.
* `skipped_otherwise` — a rejected node whose condition is true, and a node that is finished and
  skipped.
-/

namespace AuraLauncher.Workflow

open AuraLauncher.Lib

/-- The condition of the node is false, or its approval is rejected, in the call under way. -/
def Refused (sj : SerdeJson) (n : WorkflowNode) (t : Session) : Prop :=
  ∃ args c, t.call = some (args, c) ∧
    (conditionHolds sj n.condition c.st.vars = false ∨
      (n.approval = true ∧ t.world.decision args n.nodeId = some .rejected))

/-- The sources of all edges into the node are done in the call under way. -/
def SourcesDone (g : WorkflowGraph) (n : WorkflowNode) (t : Session) : Prop :=
  ∃ args c, t.call = some (args, c) ∧
    ∀ e ∈ g.edges, e.to = n.nodeId → Done c.st.finished c.st.skipped e.from

/-- Whether the loop marks skips here: when nothing is runnable, and after the last result of a
batch. -/
def Call.marks (sj : SerdeJson) (g : WorkflowGraph) (c : Call) : Bool :=
  match c.phase with
  | .top => (runnable sj g c.st).isEmpty
  | .apply [] => true
  | _ => false

namespace Session

variable {sj : SerdeJson} {g : WorkflowGraph} {runId : String} {s s' : Session} {a : SessionAct}

/-- The condition on a step: a marking skips only nodes that have not run and whose predecessors are
done. -/
def MarksReady (sj : SerdeJson) (s : Session) (_ : SessionAct) : Prop :=
  s.AtCall fun args c =>
    c.marks sj args.graph = true → ∀ n ∈ args.graph.nodes, n.nodeId ∉ c.st.skipped →
      conditionHolds sj n.condition c.st.vars = false →
      n.nodeId ∉ c.st.finished ∧
        ∀ e ∈ args.graph.edges, e.to = n.nodeId → Done c.st.finished c.st.skipped e.from

instance (sj : SerdeJson) (s : Session) (a : SessionAct) : Decidable (MarksReady sj s a) :=
  inferInstanceAs (Decidable (AtCall _ s))

/-- What a move does to the skipped nodes: a new one is rejected by the gate or marked. -/
theorem skipped_of_moves {decision : NodeId → Option ApprovalStatus} {c c' : Call} {a : Act}
    {eff : Effect} (hm : Call.Moves sj g decision c a c' eff) {id : NodeId}
    (hid : id ∈ c'.st.skipped) :
    id ∈ c.st.skipped ∨
      (∃ n todo gatedPending toExecute, c.phase = .gate (n :: todo) gatedPending toExecute ∧
        n.nodeId = id ∧ n.approval = true ∧ decision id = some .rejected) ∨
      (c.marks sj g = true ∧
        ∃ n ∈ g.nodes, n.nodeId = id ∧ conditionHolds sj n.condition c.st.vars = false) := by
  cases hm with
  | reject st nowMs n todo gatedPending toExecute hgated hdec =>
      rcases Finset.mem_insert.mp hid with rfl | hid
      · exact .inr (.inl ⟨n, todo, gatedPending, toExecute, rfl, rfl, hgated, hdec⟩)
      · exact .inl hid
  | finish st nowMs hrun hrem =>
      exact (mem_mark_skipped.mp hid).imp_right fun h => .inr ⟨by simp [Call.marks, hrun], h⟩
  | skip st nowMs hrun hrem hprog =>
      exact (mem_mark_skipped.mp hid).imp_right fun h => .inr ⟨by simp [Call.marks, hrun], h⟩
  | stall st nowMs id' rest hrun hrem hprog =>
      exact (mem_mark_skipped.mp hid).imp_right fun h => .inr ⟨by simp [Call.marks, hrun], h⟩
  | mark st nowMs =>
      exact (mem_mark_skipped.mp hid).imp_right fun h => .inr ⟨rfl, h⟩
  | _ => exact .inl hid

/-- What a move does to the finished nodes. -/
theorem finished_of_moves {decision : NodeId → Option ApprovalStatus} {c c' : Call} {a : Act}
    {eff : Effect} (hm : Call.Moves sj g decision c a c' eff) {id : NodeId}
    (hid : id ∈ c'.st.finished) :
    id ∈ c.st.finished ∨ (id ∈ c.phase.inFlight ∧ c'.st.skipped = c.st.skipped) := by
  cases hm with
  | applyOk st nowMs id' output rest node hnode =>
      rcases Finset.mem_insert.mp hid with rfl | hid
      · exact .inr ⟨List.mem_cons_self, rfl⟩
      · exact .inl hid
  | _ => exact .inl hid

/-- The skipped nodes of a state were refused at a moment with `M` among the `past`. -/
def Excused (sj : SerdeJson) (g : WorkflowGraph) (s₀ : Session) (M : WorkflowNode → Session → Prop)
    (past : List SessionAct) (st : LoopState) : Prop :=
  ∀ n ∈ g.nodes, n.nodeId ∈ st.skipped → ∃ t, (session sj).Visits s₀ past t ∧ M n t

theorem Excused.append {s₀ : Session} {M : WorkflowNode → Session → Prop}
    {past : List SessionAct} {st : LoopState} (h : Excused sj g s₀ M past st)
    (more : List SessionAct) : Excused sj g s₀ M (past ++ more) st := by
  intro n hn hskip
  obtain ⟨t, hvisits, ht⟩ := h n hn hskip
  exact ⟨t, hvisits.append more, ht⟩

/-- **The step lemma.** A node that a step of the call skips is refused at that moment, and if the
marking meets ready nodes only, its predecessors are done. -/
theorem refused_of_skip (hnd : g.ids.Nodup) {world : World} {args : CallArgs} {c c' : Call}
    (log : List Execution) {a : Act} {eff : Effect} (hgraph : args.graph = g)
    (hm : Call.Moves sj args.graph (world.decision args) c a c' eff) (hsound : c.Sound sj g)
    {n : WorkflowNode} (hn : n ∈ g.nodes) (hnew : n.nodeId ∈ c'.st.skipped)
    (hold : n.nodeId ∉ c.st.skipped) :
    Refused sj n ⟨world, some (args, c), log⟩ ∧
      (MarksReady sj ⟨world, some (args, c), log⟩ (.tick a) →
        SourcesDone g n ⟨world, some (args, c), log⟩) := by
  subst hgraph
  have hunique : ∀ m ∈ args.graph.nodes, m.nodeId = n.nodeId → m = n := fun m hm hid =>
    List.inj_on_of_nodup_map hnd hm hn hid
  rcases skipped_of_moves hm hnew with h | ⟨m, todo, gatedPending, toExecute, hphase, hid, hgated,
    hdec⟩ | ⟨hmark, m, hmem, hid, hcond⟩
  · exact absurd h hold
  · obtain ⟨st, phase⟩ := c
    obtain rfl : phase = _ := hphase
    obtain rfl := hunique m (hsound.holds m (by simp [Phase.taken])).1 hid
    refine ⟨⟨args, _, rfl, .inr ⟨hgated, hdec⟩⟩, fun _ => ⟨args, _, rfl, fun e he hto => ?_⟩⟩
    have hready := hsound.ready m.nodeId (List.mem_map_of_mem (by simp))
    exact hready.2.2 e (WorkflowGraph.mem_incoming.mpr ⟨he, hto⟩)
  · obtain rfl := hunique m hmem hid
    exact ⟨⟨args, c, rfl, .inl hcond⟩, fun hmarks =>
      ⟨args, c, rfl, (hmarks args c rfl hmark m hmem hold hcond).2⟩⟩

/-- The skipped nodes of the call under way and of the checkpoint were refused at moments
with `M`. -/
structure Skips (sj : SerdeJson) (g : WorkflowGraph) (runId : String) (s₀ : Session)
    (M : WorkflowNode → Session → Prop) (past : List SessionAct) (s : Session) : Prop where
  sound : s.Sound sj g runId
  inCall : ∀ args c, s.call = some (args, c) → Excused sj g s₀ M past c.st
  inStore : Excused sj g s₀ M past (s.stored sj g runId)

theorem skips_of_moves (hnd : g.ids.Nodup) {s₀ : Session} {M : WorkflowNode → Session → Prop}
    {past : List SessionAct} (hserves : a.Serves g runId) (hm : Moves sj s a s')
    (hM : ∀ n, Refused sj n s → (MarksReady sj s a → SourcesDone g n s) → M n s)
    (hreach : (session sj).run s₀ past = some s) (h : Skips sj g runId s₀ M past s) :
    Skips sj g runId s₀ M (past ++ [a]) s' := by
  have hsound := sound_of_moves hnd hserves hm h.sound
  have hcall : ∀ args c, s'.call = some (args, c) → Excused sj g s₀ M (past ++ [a]) c.st := by
    cases hm with
    | start s args hret =>
        rintro args' c ⟨⟩
        obtain ⟨rfl, rfl⟩ := hserves
        exact h.inStore.append _
    | tick world log args c a c' eff hm =>
        rintro args' c'' ⟨⟩ n hn hskip
        obtain ⟨hgraph, -, hc⟩ := h.sound args c rfl
        by_cases hold : n.nodeId ∈ c.st.skipped
        · obtain ⟨t, hvisits, ht⟩ := h.inCall args c rfl n hn hold
          exact ⟨t, hvisits.append _, ht⟩
        · obtain ⟨hrefused, hdone⟩ :=
            refused_of_skip hnd log hgraph hm hc hn hskip hold
          exact ⟨_, (Machine.Visits.of_run hreach).append _, hM n hrefused hdone⟩
    | crash => rintro _ _ ⟨⟩
    | op => exact fun args c hc => (h.inCall args c hc).append _
    | write => exact fun args c hc => (h.inCall args c hc).append _
  refine ⟨hsound, hcall, ?_⟩
  rcases stored_of_moves hserves hm hsound with hsame | ⟨args, c, hc, hstored⟩
  · rw [hsame]
    exact h.inStore.append _
  · rw [hstored]
    exact hcall args c hc

/-- No node is both finished and skipped, in the call under way and in the checkpoint. -/
structure Apart (sj : SerdeJson) (g : WorkflowGraph) (runId : String) (s : Session) : Prop where
  sound : s.Sound sj g runId
  inCall : ∀ args c, s.call = some (args, c) → Disjoint c.st.finished c.st.skipped
  inStore : Disjoint (s.stored sj g runId).finished (s.stored sj g runId).skipped

/-- A step of the call keeps the two sets apart, if the marking meets ready nodes only. -/
theorem disjoint_of_moves {world : World} {args : CallArgs} {c c' : Call} {log : List Execution}
    {a : Act} {eff : Effect} (hgraph : args.graph = g)
    (hm : Call.Moves sj args.graph (world.decision args) c a c' eff) (hsound : c.Sound sj g)
    (hmarks : MarksReady sj ⟨world, some (args, c), log⟩ (.tick a))
    (h : Disjoint c.st.finished c.st.skipped) : Disjoint c'.st.finished c'.st.skipped := by
  subst hgraph
  rw [Finset.disjoint_left] at h ⊢
  intro id hfin hskip
  rcases finished_of_moves hm hfin with hfin | ⟨hflight, hsame⟩
  · rcases skipped_of_moves hm hskip with hskip |
      ⟨m, todo, gatedPending, toExecute, hphase, rfl, -, -⟩ | ⟨hmark, m, hmem, rfl, hcond⟩
    · exact h hfin hskip
    · obtain ⟨st, phase⟩ := c
      obtain rfl : phase = _ := hphase
      have hready := hsound.ready m.nodeId (List.mem_map_of_mem (by simp))
      exact hready.2.1 (done_iff.mpr (.inl hfin))
    · exact (hmarks args c rfl hmark m hmem (h hfin) hcond).1 hfin
  · rw [hsame] at hskip
    exact (hsound.ready id hflight).2.1 (done_iff.mpr (.inr hskip))

theorem apart_of_moves (hnd : g.ids.Nodup) (hserves : a.Serves g runId) (hm : Moves sj s a s')
    (hmarks : MarksReady sj s a) (h : Apart sj g runId s) : Apart sj g runId s' := by
  have hsound := sound_of_moves hnd hserves hm h.sound
  have hcall : ∀ args c, s'.call = some (args, c) → Disjoint c.st.finished c.st.skipped := by
    cases hm with
    | start s args hret =>
        rintro args' c ⟨⟩
        obtain ⟨rfl, rfl⟩ := hserves
        exact h.inStore
    | tick world log args c a c' eff hm =>
        rintro args' c'' ⟨⟩
        obtain ⟨hgraph, -, hc⟩ := h.sound args c rfl
        exact disjoint_of_moves hgraph hm hc hmarks (h.inCall args c rfl)
    | crash => rintro _ _ ⟨⟩
    | op => exact h.inCall
    | write => exact h.inCall
  refine ⟨hsound, hcall, ?_⟩
  rcases stored_of_moves hserves hm hsound with hsame | ⟨args, c, hc, hstored⟩
  · rw [hsame]
    exact h.inStore
  · rw [hstored]
    exact hcall args c hc

end Session

/-- **Node-skip soundness.** Take a graph that passes the validator and any sequence of calls for
one run of it that starts without a checkpoint. In every state reached, a skipped node was refused
at some moment: its condition was false, or its approval was rejected. If moreover no marking meets
a false condition at a node that has run or has a predecessor that is not done, then no node is both
finished and skipped, and all predecessors of a skipped node were done at the moment it was
refused. -/
theorem skipped_was_refused (sj : SerdeJson) (g : WorkflowGraph) (runId : String) (world : World)
    (acts : List SessionAct) (s : Session) (hvalid : validate g = .ok ())
    (hfresh : RunStore.load sj world.runs runId = none) (hacts : ∀ a ∈ acts, a.Serves g runId)
    (hrun : (session sj).run ⟨world, none, []⟩ acts = some s) :
    (∀ args c, s.call = some (args, c) → ∀ n ∈ g.nodes, n.nodeId ∈ c.st.skipped →
      ∃ t, (session sj).Visits ⟨world, none, []⟩ acts t ∧ Refused sj n t) ∧
    ((session sj).Along (Session.MarksReady sj) ⟨world, none, []⟩ acts →
      ∀ args c, s.call = some (args, c) → Disjoint c.st.finished c.st.skipped ∧
        ∀ n ∈ g.nodes, n.nodeId ∈ c.st.skipped →
          ∃ t, (session sj).Visits ⟨world, none, []⟩ acts t ∧ SourcesDone g n t ∧
            Refused sj n t) := by
  have hnd := ((validate_ok_iff_isDag g).mp hvalid).nodup
  have hserves := (session sj).along_of_forall (s := ⟨world, none, []⟩) hacts
  have hstored : (⟨world, none, []⟩ : Session).stored sj g runId = .init := by
    rw [Session.stored, hfresh, LoopState.resume]
  have hstart : ∀ M, Session.Skips sj g runId ⟨world, none, []⟩ M [] ⟨world, none, []⟩ := by
    refine fun M => ⟨Session.sound_of_no_call rfl, (by rintro _ _ ⟨⟩), ?_⟩
    rw [hstored]
    exact fun n _ hskip => absurd hskip (Finset.notMem_empty _)
  constructor
  · have hskips := (session sj).run_inv_past
      (I := Session.Skips sj g runId ⟨world, none, []⟩ (Refused sj))
      (fun past s a s' _ hreach h hserves hstep => Session.skips_of_moves hnd hserves
        (Session.moves_of_step hstep) (fun n hrefused _ => hrefused) hreach h)
      (hstart _) hserves hrun
    exact fun args c hcall => hskips.inCall args c hcall
  · intro hmarks args c hcall
    have hskips := (session sj).run_inv_past
      (I := Session.Skips sj g runId ⟨world, none, []⟩ fun n t =>
        SourcesDone g n t ∧ Refused sj n t)
      (fun past s a s' _ hreach h hG hstep => Session.skips_of_moves hnd hG.2
        (Session.moves_of_step hstep) (fun n hrefused hdone => ⟨hdone hG.1, hrefused⟩) hreach h)
      (hstart _) (hmarks.and hserves) hrun
    have hapart : s.Apart sj g runId := by
      refine (session sj).run_inv
        (fun s a s' h hG hstep => Session.apart_of_moves hnd hG.2
          (Session.moves_of_step hstep) hG.1 h) ?_ (hmarks.and hserves) hrun
      refine ⟨Session.sound_of_no_call rfl, (by rintro _ _ ⟨⟩), ?_⟩
      rw [hstored]
      exact Finset.disjoint_empty_left _
    exact ⟨hapart.inCall args c hcall, hskips.inCall args c hcall⟩

/-- The condition of a node is false in the call under way. -/
def ConditionFalse (sj : SerdeJson) (n : WorkflowNode) (t : Session) : Prop :=
  ∃ args c, t.call = some (args, c) ∧ conditionHolds sj n.condition c.st.vars = false

/-- An entry `a` before `b`, which has a true condition and needs an approval, and `c`, whose
condition is false. -/
def reviewGraph : WorkflowGraph where
  id := "wf.review"
  version := 1
  name := "Review"
  entryNode := "a"
  nodes := [⟨"a", "cmd:a", [], none, false⟩, ⟨"b", "cmd:b", [], some ⟨"yes", .eq, "yes"⟩, true⟩,
    ⟨"c", "cmd:c", [], some ⟨"no", .eq, "yes"⟩, false⟩]
  edges := [⟨"a", "b", none⟩, ⟨"a", "c", none⟩]

/-- A call that executes `a` and waits for the approval of `b`, its rejection, and the call that
resumes. -/
def reviewActs : List SessionAct :=
  [.start ⟨reviewGraph, "run", true⟩, .tick (.poll false 0), .tick (.advance 0),
    .tick (.poll false 0), .tick (.execute 0 (.ok .null)), .tick (.advance 0), .tick (.advance 0),
    .tick (.advance 0), .tick (.poll false 0), .tick (.advance 0), .tick (.advance 0),
    .tick (.advance 0), .op (.decide "run:b" false 1), .start ⟨reviewGraph, "run", true⟩,
    .tick (.poll false 2), .tick (.advance 2)]

/-- An entry `a` that publishes `x` before `b`, which runs when `x = 1` and publishes `x` anew. -/
def republishGraph : WorkflowGraph where
  id := "wf.republish"
  version := 1
  name := "Republish"
  entryNode := "a"
  nodes := [⟨"a", "cmd:a", ["x"], none, false⟩, ⟨"b", "cmd:b", ["x"], some ⟨"$x", .eq, "1"⟩, false⟩]
  edges := [⟨"a", "b", none⟩]

/-- A call that executes `a` with output `1` and `b` with output `2`. -/
def republishActs : List SessionAct :=
  [.start ⟨republishGraph, "run", false⟩, .tick (.poll false 0), .tick (.advance 0),
    .tick (.poll false 0), .tick (.execute 0 (.ok (.string "1"))), .tick (.advance 0),
    .tick (.advance 0), .tick (.advance 0), .tick (.poll false 0), .tick (.advance 0),
    .tick (.poll false 0), .tick (.execute 0 (.ok (.string "2"))), .tick (.advance 0),
    .tick (.advance 0), .tick (.advance 0)]

/-- The theorem on a run that skips `b` by its rejection and `c` by its condition. -/
theorem skipped_was_refused_review :
    ∃ s args c, (session .withoutFloats).run ⟨⟨.empty, .empty⟩, none, []⟩ reviewActs = some s ∧
      s.call = some (args, c) ∧ c.st.skipped = {"b", "c"} ∧ Disjoint c.st.finished c.st.skipped ∧
      ∀ n ∈ reviewGraph.nodes, n.nodeId ∈ c.st.skipped →
        ∃ t, (session .withoutFloats).Visits ⟨⟨.empty, .empty⟩, none, []⟩ reviewActs t ∧
          SourcesDone reviewGraph n t ∧ Refused .withoutFloats n t :=
  ⟨_, _, _, rfl, rfl, by decide, (skipped_was_refused .withoutFloats reviewGraph "run"
    ⟨.empty, .empty⟩ reviewActs _ rfl rfl (by decide) rfl).2 (by decide) _ _ rfl⟩

/-- A node is skipped without a false condition, by the rejection of its approval; and a node that
has run is skipped when its condition turns false afterwards. -/
theorem skipped_otherwise :
    (¬ ∀ (g : WorkflowGraph) (runId : String) (world : World) (acts : List SessionAct)
      (s : Session),
      validate g = .ok () → RunStore.load .withoutFloats world.runs runId = none →
      (∀ a ∈ acts, a.Serves g runId) →
      (session .withoutFloats).run ⟨world, none, []⟩ acts = some s →
      ∀ args c, s.call = some (args, c) → ∀ n ∈ g.nodes, n.condition.isSome →
        n.nodeId ∈ c.st.skipped →
        ∃ t, (session .withoutFloats).Visits ⟨world, none, []⟩ acts t ∧ SourcesDone g n t ∧
          ConditionFalse .withoutFloats n t) ∧
    ¬ ∀ (g : WorkflowGraph) (runId : String) (world : World) (acts : List SessionAct) (s : Session),
      validate g = .ok () → RunStore.load .withoutFloats world.runs runId = none →
      (∀ a ∈ acts, a.Serves g runId) →
      (session .withoutFloats).run ⟨world, none, []⟩ acts = some s →
      ∀ args c, s.call = some (args, c) → Disjoint c.st.finished c.st.skipped := by
  constructor
  · intro h
    obtain ⟨t, -, -, args, c, -, hfalse⟩ := h reviewGraph "run" ⟨.empty, .empty⟩ reviewActs _
      rfl rfl (by decide) rfl _ _ rfl ⟨"b", "cmd:b", [], some ⟨"yes", .eq, "yes"⟩, true⟩
      (by decide) rfl (by decide)
    cases hfalse
  · intro h
    have hdisjoint := h republishGraph "run" ⟨.empty, .empty⟩ republishActs _ rfl rfl (by decide)
      rfl _ _ rfl
    revert hdisjoint
    decide

end AuraLauncher.Workflow
