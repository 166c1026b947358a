import AuraLauncher.Workflow.Scheduler.Session

/-!
# Executions that succeed

A node whose execution returned `Ok` should not be executed again. The results of a batch are
applied in id order and the loop returns at the first failure, so the successes behind a failure are
dropped: they never reach the finished set, and a resume executes their nodes once more.

* `Orderly` — no success stands behind a failure.
* `Session.Kept` — the invariant: every success is in the finished set of the call, or among the
  results it still holds; between calls it is in the checkpoint.
* `executed_ok_once` — in every sequence of calls whose batches are orderly, no node is executed
  after an execution of it succeeded.
* `executed_ok_twice` — a batch that is not orderly, and the second execution after it.
-/

namespace AuraLauncher.Workflow

open AuraLauncher.Lib

/-- No success stands behind a failure. -/
def Orderly (out : List (NodeId × StepResult)) : Prop :=
  out.Pairwise fun x y => x.2.isOk = false → y.2.isOk = false

instance (out : List (NodeId × StepResult)) : Decidable (Orderly out) :=
  inferInstanceAs (Decidable (List.Pairwise _ _))

/-- The call holds a success of the node that is not applied yet. -/
def Phase.HoldsOk (id : NodeId) : Phase → Prop
  | .batch slots => ∃ n v, (n, some (.ok v)) ∈ slots ∧ n.nodeId = id
  | .apply out => ∃ v, (id, .ok v) ∈ out
  | _ => False

namespace Call

variable {sj : SerdeJson} {g : WorkflowGraph} {decision : NodeId → Option ApprovalStatus}

/-- A success of the node is applied, or waits for it. -/
def Keeps (c : Call) (id : NodeId) : Prop := id ∈ c.st.finished ∨ c.phase.HoldsOk id

/-- A slot that is filled keeps the other slots. -/
theorem mem_set_of_mem {slots : List (WorkflowNode × Option StepResult)} {i : ℕ}
    {n : WorkflowNode} {slot : WorkflowNode × Option StepResult} (h : slots[i]? = some (n, none))
    (hmem : slot ∈ slots) (hne : slot.2 ≠ none) (r : StepResult) :
    slot ∈ slots.set i (n, some r) := by
  obtain ⟨j, hj⟩ := List.mem_iff_getElem?.mp hmem
  have hij : i ≠ j := by
    rintro rfl
    rw [h] at hj
    cases hj
    exact hne rfl
  exact List.mem_iff_getElem?.mpr ⟨j, by rw [List.getElem?_set_ne hij, hj]⟩

/-- Every move keeps a success, as long as the results being applied are orderly. -/
theorem keeps_of_moves {c c' : Call} {a : Act} {eff : Effect}
    (hm : Moves sj g decision c a c' eff) (horderly : ∀ out, c.phase = .apply out → Orderly out)
    {id : NodeId} (h : c.Keeps id) : c'.Keeps id := by
  cases hm with
  | execute st i n out slots hslot =>
      refine h.imp_right ?_
      rintro ⟨m, v, hmem, rfl⟩
      exact ⟨m, v, mem_set_of_mem hslot hmem (by simp) out, rfl⟩
  | join st nowMs slots out hout =>
      refine h.imp_right ?_
      rintro ⟨m, v, hmem, rfl⟩
      refine ⟨v, (collect_perm hout).1.mem_iff.mpr ?_⟩
      exact List.mem_filterMap.mpr ⟨_, hmem, rfl⟩
  | applyOk st nowMs id' output rest node hnode =>
      rcases h with h | ⟨v, hmem⟩
      · exact .inl (Finset.mem_insert_of_mem h)
      · rcases List.mem_cons.mp hmem with heq | hmem
        · cases heq
          exact .inl (Finset.mem_insert_self _ _)
        · exact .inr ⟨v, hmem⟩
  | applyErr st nowMs id' e rest node hnode =>
      rcases h with h | ⟨v, hmem⟩
      · exact .inl h
      · rcases List.mem_cons.mp hmem with heq | hmem
        · cases heq
        · have hnot := List.rel_of_pairwise_cons (horderly _ rfl) hmem rfl
          cases hnot
  | mark => exact .inl (h.resolve_right fun ⟨v, hmem⟩ => List.not_mem_nil hmem)
  | _ => exact .inl (h.resolve_right fun hnone => hnone)

/-- A node about to be executed has no success that the call keeps. -/
theorem Sound.not_keeps {st : LoopState} {slots : List (WorkflowNode × Option StepResult)} {i : ℕ}
    {n : WorkflowNode} (h : Sound sj g ⟨st, .batch slots⟩) (hslot : slots[i]? = some (n, none)) :
    ¬ Keeps ⟨st, .batch slots⟩ n.nodeId := by
  have hmem : (n, none) ∈ slots := List.mem_iff_getElem?.mpr ⟨i, hslot⟩
  rintro (hfin | ⟨m, v, hok, hid⟩)
  · exact (h.ready n.nodeId (List.mem_map_of_mem hmem)).2.1 (done_iff.mpr (.inl hfin))
  · have heq := List.inj_on_of_nodup_map h.nodup hok hmem hid
    cases heq

/-- The call that executed a node with success keeps it. -/
theorem keeps_execute {st : LoopState} {slots : List (WorkflowNode × Option StepResult)} {i : ℕ}
    {n : WorkflowNode} {out : StepResult} (hslot : slots[i]? = some (n, none))
    (hok : out.isOk = true) : Keeps ⟨st, .batch (slots.set i (n, some out))⟩ n.nodeId := by
  obtain ⟨hi, -⟩ := List.getElem?_eq_some_iff.mp hslot
  cases out with
  | error e => cases hok
  | ok v => exact .inr ⟨n, v, List.mem_set hi _, rfl⟩

/-- Orderly results stay orderly while they are applied. -/
theorem orderly_of_moves {c c' : Call} {a : Act} {eff : Effect}
    (hm : Moves sj g decision c a c' eff) (h : ∀ out, c.phase = .apply out → Orderly out)
    (hjoin : ∀ slots out, c.phase = .batch slots → collect slots = some out → Orderly out) :
    ∀ out, c'.phase = .apply out → Orderly out := by
  cases hm with
  | join st nowMs slots out hout =>
      rintro out' ⟨⟩
      exact hjoin slots out rfl hout
  | applyOk st nowMs id output rest node hnode =>
      rintro out' ⟨⟩
      exact (h _ rfl).of_cons
  | _ => rintro out' ⟨⟩

/-- A call returns right after a checkpoint of its state. -/
theorem checkpoint_of_stopped {c c' : Call} {a : Act} {eff : Effect}
    (hm : Moves sj g decision c a c' eff) {stop : SchedulerStop} (h : c'.phase = .stopped stop) :
    ∃ status nowMs, eff = .checkpoint status nowMs := by
  cases hm with
  | pauseTop | finish | stall | await | pauseBatch | applyErr => exact ⟨_, _, rfl⟩
  | _ => cases h

end Call

namespace Session

variable {sj : SerdeJson} {g : WorkflowGraph} {runId : String} {s s' : Session} {a : SessionAct}

/-- What the successes of a session rest on. -/
structure Kept (sj : SerdeJson) (g : WorkflowGraph) (runId : String) (s : Session) : Prop where
  sound : s.Sound sj g runId
  /-- The results being applied are orderly. -/
  orderly : ∀ args c, s.call = some (args, c) → ∀ out, c.phase = .apply out → Orderly out
  /-- The call under way keeps every success. -/
  inCall : ∀ x ∈ s.log, x.out.isOk = true → ∀ args c, s.call = some (args, c) →
    c.Keeps x.node.nodeId
  /-- When no call is under way, the checkpoint has every success. -/
  inStore : returned s.call = true → ∀ x ∈ s.log, x.out.isOk = true →
    x.node.nodeId ∈ (s.stored sj g runId).finished
  /-- No node is executed after a success. -/
  once : s.log.Pairwise fun x y => x.out.isOk = true → y.node.nodeId ≠ x.node.nodeId

/-- The condition on a step: a batch that ends is orderly. -/
def EndsOrderly (s : Session) (_ : SessionAct) : Prop :=
  s.AtCall fun _ c => ∀ out ∈ c.phase.ended, Orderly out

instance (s : Session) (a : SessionAct) : Decidable (EndsOrderly s a) :=
  inferInstanceAs (Decidable (AtCall _ s))

/-- No success of a node about to be executed is in the log. -/
theorem Kept.not_yet {world : World} {args : CallArgs} {st : LoopState}
    {slots : List (WorkflowNode × Option StepResult)} {log : List Execution} {i : ℕ}
    {n : WorkflowNode} (h : Kept sj g runId ⟨world, some (args, ⟨st, .batch slots⟩), log⟩)
    (hslot : slots[i]? = some (n, none)) :
    ∀ x ∈ log, x.out.isOk = true → n.nodeId ≠ x.node.nodeId := by
  intro x hx hok heq
  have hkeeps := h.inCall x hx hok args _ rfl
  rw [← heq] at hkeeps
  exact ((h.sound args _ rfl).2.2.not_keeps hslot) hkeeps

/-- A step of the call under way keeps the invariant. -/
theorem Kept.tick {world : World} {args : CallArgs} {c c' : Call} {log : List Execution} {a : Act}
    {eff : Effect} (hm : Call.Moves sj args.graph (world.decision args) c a c' eff)
    (horderly : EndsOrderly ⟨world, some (args, c), log⟩ (.tick a))
    (h : Kept sj g runId ⟨world, some (args, c), log⟩)
    (hsound : Session.Sound sj g runId ⟨world.perform args c'.st eff, some (args, c'),
      log ++ eff.executions args.runId c.st.vars⟩) :
    Kept sj g runId ⟨world.perform args c'.st eff, some (args, c'),
      log ++ eff.executions args.runId c.st.vars⟩ := by
  have hcall : ∀ x ∈ log ++ eff.executions args.runId c.st.vars, x.out.isOk = true →
      c'.Keeps x.node.nodeId := by
    intro x hx hok
    rcases List.mem_append.mp hx with hx | hx
    · exact Call.keeps_of_moves hm (h.orderly args c rfl) (h.inCall x hx hok args c rfl)
    · rcases executions_of_moves hm with hnone | ⟨st, i, n, out, slots, rfl, hslot, -, rfl, rfl⟩
      · rw [hnone] at hx
        cases hx
      · obtain rfl := List.mem_singleton.mp hx
        exact Call.keeps_execute hslot hok
  refine ⟨hsound, ?_, ?_, ?_, ?_⟩
  · rintro args' c'' ⟨⟩
    refine Call.orderly_of_moves hm (h.orderly args c rfl) fun slots out hphase hout => ?_
    exact horderly args c rfl out (by rw [hphase]; exact hout)
  · rintro x hx hok args' c'' ⟨⟩
    exact hcall x hx hok
  · intro hret x hx hok
    obtain ⟨rfl, rfl, -⟩ := hsound args c' rfl
    obtain ⟨st', phase'⟩ := c'
    cases phase' with
    | stopped stop =>
        obtain ⟨status, nowMs, rfl⟩ := Call.checkpoint_of_stopped hm rfl
        rw [stored_checkpoint]
        exact (hcall x hx hok).resolve_right fun hnone => hnone
    | _ => cases hret
  · rcases executions_of_moves hm with hnone | ⟨st, i, n, out, slots, rfl, hslot, -, rfl, rfl⟩
    · rw [hnone, List.append_nil]
      exact h.once
    · refine List.pairwise_append.mpr ⟨h.once, List.pairwise_singleton _ _, ?_⟩
      intro x hx y hy hok
      obtain rfl := List.mem_singleton.mp hy
      exact h.not_yet hslot x hx hok

/-- **The step lemma**: in a session of one run without a crash, a step that meets the condition
keeps the invariant. -/
theorem kept_of_moves (hnd : g.ids.Nodup) (hserves : a.Serves g runId) (hcrash : a.isCrash = false)
    (horderly : EndsOrderly s a) (hm : Moves sj s a s') (h : Kept sj g runId s) :
    Kept sj g runId s' := by
  have hsound := sound_of_moves hnd hserves hm h.sound
  cases hm with
  | start s args hret =>
      refine ⟨hsound, ?_, ?_, ?_, h.once⟩
      · rintro args' c ⟨⟩ _ heq
        cases heq
      · rintro x hx hok args' c ⟨⟩
        obtain ⟨rfl, rfl⟩ := hserves
        exact .inl (h.inStore hret x hx hok)
      · intro hret'
        cases hret'
  | tick world log args c a c' eff hm => exact h.tick hm horderly hsound
  | crash => cases hcrash
  | op s o => exact ⟨hsound, h.orderly, h.inCall, h.inStore, h.once⟩
  | write s cp =>
      refine ⟨hsound, h.orderly, h.inCall, fun hret x hx hok => ?_, h.once⟩
      rw [stored_write hserves]
      exact h.inStore hret x hx hok

end Session

/-- **Exactly-once success.** Take a graph that passes the validator and any sequence of calls for
one run of it, none of them cut short by a crash, with any stores at the start, any executor, any
cancel flag and any operations on the approval store in between. If every batch that ends is
orderly, no node is executed after an execution of it returned `Ok`. -/
theorem executed_ok_once (sj : SerdeJson) (g : WorkflowGraph) (runId : String) (world : World)
    (acts : List SessionAct) (s : Session) (hvalid : validate g = .ok ())
    (hacts : ∀ a ∈ acts, a.Serves g runId ∧ a.isCrash = false)
    (horderly : (session sj).Along Session.EndsOrderly ⟨world, none, []⟩ acts)
    (hrun : (session sj).run ⟨world, none, []⟩ acts = some s) :
    s.log.Pairwise fun x y => x.out.isOk = true → y.node.nodeId ≠ x.node.nodeId := by
  have hnd := ((validate_ok_iff_isDag g).mp hvalid).nodup
  have hstart : Session.Kept sj g runId ⟨world, none, []⟩ :=
    ⟨Session.sound_of_no_call rfl, (by rintro _ _ ⟨⟩), (by rintro _ ⟨⟩), (by rintro _ _ ⟨⟩), .nil⟩
  have hkept : Session.Kept sj g runId s := by
    refine (session sj).run_inv (G := fun s a => Session.EndsOrderly s a ∧ a.Serves g runId ∧
      a.isCrash = false) ?_ hstart ?_ hrun
    · rintro s a s' h ⟨hends, hserves, hcrash⟩ hstep
      exact Session.kept_of_moves hnd hserves hcrash hends (Session.moves_of_step hstep) h
    · exact horderly.and ((session sj).along_of_forall hacts)
  exact hkept.once

/-- The theorem at a run with three successes. -/
theorem executed_ok_once_fork :
    ∃ s, (session .withoutFloats).run ⟨⟨.empty, .empty⟩, none, []⟩ (forkActs (.ok .null)) = some s ∧
      s.log.length = 3 ∧
      s.log.Pairwise fun x y => x.out.isOk = true → y.node.nodeId ≠ x.node.nodeId :=
  ⟨_, rfl, rfl, executed_ok_once .withoutFloats forkGraph "run" ⟨.empty, .empty⟩
    (forkActs (.ok .null)) _ rfl (by decide) (by decide) rfl⟩

/-- `b` fails and `c` succeeds in one batch: the success is dropped, and the call that resumes
executes `c` again. -/
theorem executed_ok_twice :
    ¬ ∀ (g : WorkflowGraph) (runId : String) (world : World) (acts : List SessionAct) (s : Session),
      validate g = .ok () → (∀ a ∈ acts, a.Serves g runId ∧ a.isCrash = false) →
      (session .withoutFloats).run ⟨world, none, []⟩ acts = some s →
      s.log.Pairwise fun x y => x.out.isOk = true → y.node.nodeId ≠ x.node.nodeId := by
  intro h
  have hrun := h forkGraph "run" ⟨.empty, .empty⟩
    (forkActs (.error "exit status 1") ++ [.start ⟨forkGraph, "run", false⟩, .tick (.poll false 0),
      .tick (.advance 0), .tick (.advance 0), .tick (.poll false 0),
      .tick (.execute 1 (.ok .null))]) _ rfl (by decide) rfl
  revert hrun
  decide

end AuraLauncher.Workflow
