import AuraLauncher.Workflow.Scheduler.Session

/-!
# Conditions of edges

An edge may carry a condition, and the graph model documents it as "branch taken only when true".
Neither readiness nor the loop reads it: a node is taken up as soon as its predecessors are done.

* `Barred` — no edge into the node is ever taken: each has a condition, and it is false from when
  the source of the edge is done.
* `Session.TakesUp` — the condition under which the loop follows the edges: every node it takes up
  is the entry or has an edge that is taken.
* `barred_not_executed` — in the runs that meet the condition, a barred node is never executed.
* `barred_executed` — a graph whose only edge into `b` has a false condition, and the execution of
  `b`.
-/

namespace AuraLauncher.Workflow

open AuraLauncher.Lib

/-- No edge into the node is taken during a run: every edge has a condition, and the condition is
false under the variables of every call from when the source of the edge is done. -/
def Barred (sj : SerdeJson) (g : WorkflowGraph) (s₀ : Session) (acts : List SessionAct)
    (id : NodeId) : Prop :=
  ∀ e ∈ g.edges, e.to = id → ∃ cond, e.condition = some cond ∧
    ∀ t, (session sj).Visits s₀ acts t → ∀ args c, t.call = some (args, c) →
      Done c.st.finished c.st.skipped e.from → evaluate sj cond c.st.vars = false

/-- The node is the entry, or some edge into it is taken: it has no condition, or a true one. -/
def Entered (sj : SerdeJson) (g : WorkflowGraph) (vars : VariableStore) (id : NodeId) : Prop :=
  id = g.entryNode ∨ ∃ e ∈ g.edges, e.to = id ∧ conditionHolds sj e.condition vars = true

instance (sj : SerdeJson) (g : WorkflowGraph) (vars : VariableStore) :
    DecidablePred (Entered sj g vars) :=
  fun id => inferInstanceAs (Decidable (id = g.entryNode ∨ _))

namespace Session

variable {sj : SerdeJson} {g : WorkflowGraph} {runId : String} {s s' : Session} {a : SessionAct}

/-- The condition on a step: at the top of the loop, every runnable node is entered. -/
def TakesUp (sj : SerdeJson) (s : Session) (_ : SessionAct) : Prop :=
  s.AtCall fun args c => c.phase.atTop = true →
    ∀ n ∈ runnable sj args.graph c.st, Entered sj args.graph c.st.vars n.nodeId

instance (sj : SerdeJson) (s : Session) (a : SessionAct) : Decidable (TakesUp sj s a) :=
  inferInstanceAs (Decidable (AtCall _ s))

/-- Every node that the call holds is entered. -/
def AllEntered (sj : SerdeJson) (g : WorkflowGraph) (s : Session) : Prop :=
  ∀ args c, s.call = some (args, c) → ∀ n ∈ c.phase.taken, Entered sj g c.st.vars n.nodeId

/-- While a call holds nodes, its variables stay as they are, and nodes only come from the top. -/
theorem taken_of_moves {decision : NodeId → Option ApprovalStatus} {c c' : Call} {a : Act}
    {eff : Effect} (hm : Call.Moves sj g decision c a c' eff) {n : WorkflowNode}
    (hn : n ∈ c'.phase.taken) :
    c'.st.vars = c.st.vars ∧
      (n ∈ c.phase.taken ∨ (c.phase = .top ∧ n ∈ runnable sj g c.st)) := by
  cases hm with
  | takeUp st nowMs hrun => exact ⟨rfl, .inr ⟨rfl, hn⟩⟩
  | pass st nowMs m todo gatedPending toExecute hpass =>
      refine ⟨rfl, .inl ?_⟩
      simpa [Phase.taken] using hn
  | reject st nowMs m todo gatedPending toExecute hgated hdec =>
      refine ⟨rfl, .inl ?_⟩
      simp only [Phase.taken, List.mem_append, List.mem_cons] at hn ⊢
      tauto
  | wait st nowMs m todo gatedPending toExecute hgated hdec =>
      refine ⟨rfl, .inl ?_⟩
      simp only [Phase.taken, List.mem_append, List.mem_cons] at hn ⊢
      tauto
  | request => exact ⟨rfl, .inl hn⟩
  | launch st nowMs toExecute =>
      refine ⟨rfl, .inl ?_⟩
      simpa [Phase.taken] using hn
  | execute st i m out slots hslot =>
      refine ⟨rfl, .inl ?_⟩
      simpa only [Phase.taken, map_fst_set hslot] using hn
  | _ => cases hn

theorem allEntered_of_moves (hserves : a.Serves g runId) (htakes : TakesUp sj s a)
    (hsound : Sound sj g runId s) (hm : Moves sj s a s') (h : AllEntered sj g s) :
    AllEntered sj g s' := by
  cases hm with
  | start s args hret =>
      rintro args' c ⟨⟩ n hn
      cases hn
  | tick world log args c a c' eff hm =>
      rintro args' c'' ⟨⟩ n hn
      obtain ⟨rfl, -, -⟩ := hsound args c rfl
      obtain ⟨hvars, hn | ⟨htop, hn⟩⟩ := taken_of_moves hm hn
      · rw [hvars]
        exact h args c rfl n hn
      · rw [hvars]
        exact htakes args c rfl (by rw [htop]; rfl) n hn
  | crash => rintro _ _ ⟨⟩
  | op => exact h
  | write => exact h

end Session

/-- **Edges that gate execution.** Take a graph that passes the validator and any sequence of calls
for one run of it. If every node that the loop takes up is the entry or has an incoming edge that is
unconditional or true under the variables of that moment, no barred node other than the entry is
executed. -/
theorem barred_not_executed (sj : SerdeJson) (g : WorkflowGraph) (runId : String) (world : World)
    (acts : List SessionAct) (s : Session) (id : NodeId) (hvalid : validate g = .ok ())
    (hacts : ∀ a ∈ acts, a.Serves g runId)
    (htakes : (session sj).Along (Session.TakesUp sj) ⟨world, none, []⟩ acts)
    (hrun : (session sj).run ⟨world, none, []⟩ acts = some s) (hentry : id ≠ g.entryNode)
    (hbarred : Barred sj g ⟨world, none, []⟩ acts id) : ∀ x ∈ s.log, x.node.nodeId ≠ id := by
  have hnd := ((validate_ok_iff_isDag g).mp hvalid).nodup
  let I : List SessionAct → Session → Prop := fun _ s =>
    s.Sound sj g runId ∧ s.AllEntered sj g ∧ ∀ x ∈ s.log, x.node.nodeId ≠ id
  have hinv : I acts s := by
    refine (session sj).run_inv_past (G := fun s a => Session.TakesUp sj s a ∧ a.Serves g runId)
      ?_ ?_ (htakes.and ((session sj).along_of_forall hacts)) hrun
    · rintro past s a s' hpast hreach ⟨hsound, hentered, hlog⟩ ⟨htakes, hserves⟩ hstep
      have hm := Session.moves_of_step hstep
      refine ⟨Session.sound_of_moves hnd hserves hm hsound,
        Session.allEntered_of_moves hserves htakes hsound hm hentered, ?_⟩
      rcases Session.log_of_moves hm with hsame |
        ⟨args, st, i, n, out, slots, hcall, hslot, -, hadd⟩
      · rwa [hsame]
      · rw [hadd]
        intro x hx
        rcases List.mem_append.mp hx with hx | hx
        · exact hlog x hx
        · obtain rfl := List.mem_singleton.mp hx
          rintro rfl
          have hmem : (n, none) ∈ slots := List.mem_iff_getElem?.mpr ⟨i, hslot⟩
          obtain hfirst | ⟨e, he, hto, hcond⟩ :=
            hentered args _ hcall n (List.mem_map_of_mem hmem)
          · exact hentry hfirst
          · obtain ⟨cond, hsome, hfalse⟩ := hbarred e he hto
            have hdone := ((hsound args _ hcall).2.2.ready n.nodeId
              (List.mem_map_of_mem hmem)).2.2 e (WorkflowGraph.mem_incoming.mpr ⟨he, hto⟩)
            have hnow := hfalse s ⟨past, (List.prefix_append _ _).trans hpast, hreach⟩ args _ hcall
              hdone
            rw [hsome, conditionHolds, hnow] at hcond
            cases hcond
    · exact ⟨Session.sound_of_no_call rfl, (by rintro _ _ ⟨⟩), by rintro _ ⟨⟩⟩
  exact hinv.2.2

/-- The condition `no = yes`, false under all variables. -/
def neverTrue : ConditionExpr := ⟨"no", .eq, "yes"⟩

/-- An entry `a` with an edge to `b` that is never taken, and one to `c`; `b` has the condition
`own`. -/
def branchGraph (own : Option ConditionExpr) : WorkflowGraph where
  id := "wf.branch"
  version := 1
  name := "Branch"
  entryNode := "a"
  nodes := [⟨"a", "cmd:a", [], none, false⟩, ⟨"b", "cmd:b", [], own, false⟩,
    ⟨"c", "cmd:c", [], none, false⟩]
  edges := [⟨"a", "b", some neverTrue⟩, ⟨"a", "c", none⟩]

theorem barred_branchGraph (sj : SerdeJson) (own : Option ConditionExpr) (s₀ : Session)
    (acts : List SessionAct) : Barred sj (branchGraph own) s₀ acts "b" := by
  intro e he hto
  simp only [branchGraph, List.mem_cons, List.not_mem_nil, or_false] at he
  rcases he with rfl | rfl
  · exact ⟨neverTrue, rfl, fun _ _ _ _ _ _ => rfl⟩
  · exact absurd hto (by decide)

/-- A call that executes `a` and then one batch. -/
def branchActs (own : Option ConditionExpr) : List SessionAct :=
  [.start ⟨branchGraph own, "run", false⟩, .tick (.poll false 0), .tick (.advance 0),
    .tick (.poll false 0), .tick (.execute 0 (.ok .null)), .tick (.advance 0), .tick (.advance 0),
    .tick (.advance 0), .tick (.poll false 0), .tick (.advance 0)]

/-- The theorem on a run in which `b` is skipped by its own condition. -/
theorem barred_not_executed_branch :
    ∃ s, (session .withoutFloats).run ⟨⟨.empty, .empty⟩, none, []⟩ (branchActs (some neverTrue) ++
        [.tick (.poll false 0), .tick (.execute 0 (.ok .null))]) = some s ∧
      s.log.length = 2 ∧ ∀ x ∈ s.log, x.node.nodeId ≠ "b" :=
  ⟨_, rfl, rfl, barred_not_executed .withoutFloats (branchGraph (some neverTrue)) "run"
    ⟨.empty, .empty⟩ (branchActs (some neverTrue) ++ [.tick (.poll false 0),
      .tick (.execute 0 (.ok .null))]) _ "b" rfl (by decide) (by decide) rfl (by decide)
    (barred_branchGraph _ _ _ _)⟩

/-- Without a condition of its own, `b` is executed along an edge whose condition is false. -/
theorem barred_executed :
    ¬ ∀ (g : WorkflowGraph) (runId : String) (world : World) (acts : List SessionAct) (s : Session)
      (id : NodeId), validate g = .ok () → (∀ a ∈ acts, a.Serves g runId) →
      (session .withoutFloats).run ⟨world, none, []⟩ acts = some s → id ≠ g.entryNode →
      Barred .withoutFloats g ⟨world, none, []⟩ acts id → ∀ x ∈ s.log, x.node.nodeId ≠ id := by
  intro h
  have hlog := h (branchGraph none) "run" ⟨.empty, .empty⟩ (branchActs none ++ [.tick (.advance 0),
    .tick (.poll false 0), .tick (.execute 0 (.ok .null))]) _ "b" rfl (by decide) rfl (by decide)
    (barred_branchGraph _ _ _ _)
  revert hlog
  decide

end AuraLauncher.Workflow
