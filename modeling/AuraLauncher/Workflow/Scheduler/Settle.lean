import AuraLauncher.Lib.While
import AuraLauncher.Workflow.Scheduler.Progress

/-!
# What a call comes to

When the executor is a function of the node and the variables, the approval decisions are fixed and
nobody cancels, the steps of a call can only be interleaved in ways that do not matter. This file
says what such a call comes to, with one round of the loop as one function, and proves that the
steps come to it.

* `Host` — the executor as a function and the verdicts of the gate; `gateVerdict` is the branch the
  gate takes for a node.
* `gateAll`, `applyAll`, `round` — a round of the loop at once: the gate over all nodes, the results
  of a batch in order, and the whole round.
* `settle` — the loop: rounds until one returns. It is a `While` loop bounded by
  `LoopState.left`, so it is a total function.
* `promise` — what a call comes to from wherever it stands. `promise_of_moves`: no step changes it.
* `settle_mark`, `settle_of_regate` — when the loop started from a state in the middle of a round
  comes to the same as the rest of the round.
-/

namespace AuraLauncher.Workflow

open AuraLauncher.Lib

/-- What the gate does with a node. -/
inductive Verdict
  | pass
  | reject
  | wait
  deriving DecidableEq

/-- The branch the gate takes for a node. Source: `scheduler.rs`, `run_graph` (the gate). -/
def gateVerdict (decision : NodeId → Option ApprovalStatus) (n : WorkflowNode) : Verdict :=
  if n.approval then
    match decision n.nodeId with
    | some .approved => .pass
    | some .rejected => .reject
    | _ => .wait
  else .pass

theorem gateVerdict_of_pass {decision : NodeId → Option ApprovalStatus} {n : WorkflowNode}
    (h : n.approval = true → decision n.nodeId = some .approved) :
    gateVerdict decision n = .pass := by
  unfold gateVerdict
  split_ifs with hgated
  · rw [h hgated]
  · rfl

/-- An executor that is a function, and the fixed verdicts of the gate. -/
structure Host where
  execute : WorkflowNode → VariableStore → StepResult
  verdict : WorkflowNode → Verdict

/-- How a call ends. -/
abbrev Outcome := SchedulerStop × LoopState

/-- What the gate hands on: the state with the rejected nodes skipped, the last node that waits, and
the admitted nodes. -/
structure Admission where
  st : LoopState
  gatedPending : Option NodeId
  toExecute : List WorkflowNode

/-- The gate over a list of nodes. -/
def gateAll (H : Host) : Admission → List WorkflowNode → Admission
  | adm, [] => adm
  | adm, n :: todo =>
      match H.verdict n with
      | .pass => gateAll H { adm with toExecute := adm.toExecute ++ [n] } todo
      | .reject =>
          gateAll H { adm with st := { adm.st with skipped := insert n.nodeId adm.st.skipped } }
            todo
      | .wait => gateAll H { adm with gatedPending := some n.nodeId } todo

/-- The results of a batch in id order. -/
def Host.results (H : Host) (vars : VariableStore) (nodes : List WorkflowNode) :
    List (NodeId × StepResult) :=
  sortById (nodes.map fun n => (n.nodeId, H.execute n vars))

/-- The results of a batch applied in order: the state after all of them, or the return at the first
failure. -/
def applyAll (g : WorkflowGraph) : LoopState → List (NodeId × StepResult) → LoopState ⊕ Outcome
  | st, [] => .inl st
  | st, (id, .error e) :: _ => .inr (.failed id e, st)
  | st, (id, .ok output) :: rest =>
      match g.nodes.find? fun n => decide (n.nodeId = id) with
      | some node =>
          applyAll g ⟨insert id st.finished, st.skipped, applyOutputs st.vars node output⟩ rest
      | none => .inr (.failed id "batch node", st)

section

variable (sj : SerdeJson) (g : WorkflowGraph) (H : Host)

/-- The part of a round behind the batch. -/
def batchRound (st : LoopState) (out : List (NodeId × StepResult)) : LoopState ⊕ Outcome :=
  match applyAll g st out with
  | .inl st' => .inl (st'.mark sj g)
  | .inr outcome => .inr outcome

/-- The part of a round behind the gate. -/
def gateRound (adm : Admission) : LoopState ⊕ Outcome :=
  match adm.gatedPending with
  | some id => .inr (.awaitingApproval id, adm.st)
  | none => batchRound sj g adm.st (H.results adm.st.vars adm.toExecute)

/-- The gate over the runnable nodes. -/
def regate (st : LoopState) : Admission := gateAll H ⟨st, none, []⟩ (runnable sj g st)

/-- One round of the loop: go on from a new state, or return. -/
def round (st : LoopState) : LoopState ⊕ Outcome :=
  if (runnable sj g st).isEmpty then
    match remaining g st with
    | [] => .inr (.finished, st.mark sj g)
    | id :: _ =>
        if (markConditionSkips sj g st.skipped st.vars).2 then .inl (st.mark sj g)
        else .inr (.failed id stallError, st.mark sj g)
  else gateRound sj g H (regate sj g H st)

end

/-! ## Rounds end -/

/-- The gate only skips: the variables and the finished nodes stay, and nothing is left over. -/
theorem gateAll_frame (H : Host) (g : WorkflowGraph) (adm : Admission) (todo : List WorkflowNode) :
    (gateAll H adm todo).st.finished = adm.st.finished ∧
      (gateAll H adm todo).st.vars = adm.st.vars ∧
      (gateAll H adm todo).st.left g ≤ adm.st.left g := by
  induction todo generalizing adm with
  | nil => exact ⟨rfl, rfl, Nat.le_refl _⟩
  | cons n todo ih =>
      unfold gateAll
      cases H.verdict n with
      | pass => exact ih _
      | reject =>
          obtain ⟨hfin, hvars, hleft⟩ := ih
            { adm with st := { adm.st with skipped := insert n.nodeId adm.st.skipped } }
          refine ⟨hfin, hvars, Nat.le_trans hleft ?_⟩
          exact Nat.add_le_add_left (LoopState.card_filter_mono (Finset.subset_insert _ _)) _
      | wait => exact ih _

/-- Every admitted node comes from the list, and no admitted node is dropped. -/
theorem mem_gateAll_toExecute (H : Host) (adm : Admission) (todo : List WorkflowNode) :
    (∀ n ∈ (gateAll H adm todo).toExecute, n ∈ adm.toExecute ∨ n ∈ todo) ∧
      ∀ n ∈ adm.toExecute, n ∈ (gateAll H adm todo).toExecute := by
  induction todo generalizing adm with
  | nil => exact ⟨fun n hn => .inl hn, fun n hn => hn⟩
  | cons m todo ih =>
      unfold gateAll
      cases H.verdict m with
      | pass =>
          obtain ⟨hfrom, hkeep⟩ := ih { adm with toExecute := adm.toExecute ++ [m] }
          refine ⟨fun n hn => ?_, fun n hn => hkeep n (List.mem_append_left _ hn)⟩
          rcases hfrom n hn with hn | hn
          · rcases List.mem_append.mp hn with hn | hn
            · exact .inl hn
            · exact .inr (List.mem_singleton.mp hn ▸ List.mem_cons_self)
          · exact .inr (List.mem_cons_of_mem _ hn)
      | reject =>
          obtain ⟨hfrom, hkeep⟩ := ih
            { adm with st := { adm.st with skipped := insert m.nodeId adm.st.skipped } }
          exact ⟨fun n hn => (hfrom n hn).imp_right (List.mem_cons_of_mem _), hkeep⟩
      | wait =>
          obtain ⟨hfrom, hkeep⟩ := ih { adm with gatedPending := some m.nodeId }
          exact ⟨fun n hn => (hfrom n hn).imp_right (List.mem_cons_of_mem _), hkeep⟩

/-- Once a node waits, the gate ends with a node that waits. -/
theorem gateAll_gatedPending_ne_none (H : Host) (adm : Admission) (todo : List WorkflowNode)
    (h : adm.gatedPending ≠ none) : (gateAll H adm todo).gatedPending ≠ none := by
  induction todo generalizing adm with
  | nil => exact h
  | cons n todo ih =>
      unfold gateAll
      cases H.verdict n with
      | pass => exact ih _ h
      | reject => exact ih _ h
      | wait => exact ih _ (by simp)

/-- A gate that no node waits in admits a node or skips one. -/
theorem gateAll_progress (H : Host) {g : WorkflowGraph} {st : LoopState} {todo : List WorkflowNode}
    (htodo : todo ≠ []) (hmem : ∀ n ∈ todo, n.nodeId ∈ g.ids ∧ n.nodeId ∉ st.skipped)
    (hnone : (gateAll H ⟨st, none, []⟩ todo).gatedPending = none) :
    (gateAll H ⟨st, none, []⟩ todo).toExecute ≠ [] ∨
      (gateAll H ⟨st, none, []⟩ todo).st.left g < st.left g := by
  cases todo with
  | nil => exact absurd rfl htodo
  | cons n todo =>
      unfold gateAll at hnone ⊢
      cases hv : H.verdict n with
      | pass =>
          left
          exact List.ne_nil_of_mem ((mem_gateAll_toExecute H _ todo).2 n (by simp))
      | reject =>
          right
          refine Nat.lt_of_le_of_lt (gateAll_frame H g _ todo).2.2 ?_
          exact LoopState.left_skip_lt (hmem n List.mem_cons_self).1 (hmem n List.mem_cons_self).2
      | wait =>
          rw [hv] at hnone
          exact absurd hnone (gateAll_gatedPending_ne_none H _ todo (by simp))

/-- Applying results leaves no more, and less when a new node is among them. -/
theorem left_applyAll {g : WorkflowGraph} {st st' : LoopState} {out : List (NodeId × StepResult)}
    (h : applyAll g st out = .inl st') :
    st'.left g ≤ st.left g ∧ (out ≠ [] → (∀ x ∈ out, x.1 ∉ st.finished) →
      st'.left g < st.left g) := by
  induction out generalizing st with
  | nil =>
      cases h
      exact ⟨Nat.le_refl _, fun hne => absurd rfl hne⟩
  | cons head rest ih =>
      obtain ⟨id, result⟩ := head
      cases result with
      | error e => cases h
      | ok output =>
          unfold applyAll at h
          cases hnode : g.nodes.find? fun n => decide (n.nodeId = id) with
          | none =>
              rw [hnode] at h
              cases h
          | some node =>
              rw [hnode] at h
              have hrest := (ih h).1
              have hinsert : LoopState.left g
                  ⟨insert id st.finished, st.skipped, applyOutputs st.vars node output⟩ ≤
                    st.left g :=
                Nat.add_le_add_right
                  (LoopState.card_filter_mono (Finset.subset_insert _ _)) _
              refine ⟨Nat.le_trans hrest hinsert, fun _ hnew => Nat.lt_of_le_of_lt hrest ?_⟩
              have hid : node.nodeId = id := by simpa using List.find?_some hnode
              have hmem : id ∈ g.ids :=
                hid ▸ WorkflowGraph.nodeId_mem_ids (List.mem_of_find?_eq_some hnode)
              exact LoopState.left_finish_lt hmem (hnew (id, .ok output) List.mem_cons_self) _

/-- A node that the loop takes up is not done. -/
theorem not_done_of_runnable {sj : SerdeJson} {g : WorkflowGraph} {st : LoopState}
    {n : WorkflowNode} (h : n ∈ runnable sj g st) :
    n.nodeId ∈ g.ids ∧ n.nodeId ∉ st.finished ∧ n.nodeId ∉ st.skipped := by
  obtain ⟨hid, hnot, -⟩ := mem_readyNodes.mp (mem_runnable.mp h).2.1
  rw [done_iff, not_or] at hnot
  exact ⟨hid, hnot⟩

theorem Host.mem_results {H : Host} {vars : VariableStore} {nodes : List WorkflowNode}
    {x : NodeId × StepResult} :
    x ∈ H.results vars nodes ↔ ∃ n ∈ nodes, (n.nodeId, H.execute n vars) = x := by
  rw [Host.results, (sortById_perm _).mem_iff, List.mem_map]

/-- The round of runnable nodes leaves less when it goes on. -/
theorem left_lt_of_gateRound {sj : SerdeJson} {g : WorkflowGraph} {H : Host} {st st' : LoopState}
    (hrun : runnable sj g st ≠ []) (h : gateRound sj g H (regate sj g H st) = .inl st') :
    st'.left g < st.left g := by
  obtain ⟨hfin, -, hgate⟩ := gateAll_frame H g ⟨st, none, []⟩ (runnable sj g st)
  unfold gateRound at h
  cases hpend : (regate sj g H st).gatedPending with
  | some id =>
      rw [hpend] at h
      cases h
  | none =>
      simp only [hpend, batchRound] at h
      cases happ : applyAll g (regate sj g H st).st
          (H.results (regate sj g H st).st.vars (regate sj g H st).toExecute) with
      | inr outcome =>
          rw [happ] at h
          cases h
      | inl st₁ =>
          rw [happ] at h
          cases h
          refine Nat.lt_of_le_of_lt (@LoopState.left_mark_le g st₁ sj) ?_
          obtain ⟨hle, hlt⟩ := left_applyAll happ
          -- a round in which no node waits skips a node or executes one
          rcases gateAll_progress H (g := g) hrun (fun n hn => ⟨(not_done_of_runnable hn).1,
            (not_done_of_runnable hn).2.2⟩) hpend with hne | hless
          · refine Nat.lt_of_lt_of_le (hlt ?_ fun x hx => ?_) hgate
            · obtain ⟨n, rest, hcons⟩ := List.exists_cons_of_ne_nil hne
              exact List.ne_nil_of_mem (Host.mem_results.mpr ⟨n, hcons ▸ List.mem_cons_self, rfl⟩)
            · obtain ⟨n, hn, rfl⟩ := Host.mem_results.mp hx
              rw [regate, hfin]
              have hmem := (mem_gateAll_toExecute H _ _).1 n hn
              exact (not_done_of_runnable (hmem.resolve_left List.not_mem_nil)).2.1
          · exact Nat.lt_of_le_of_lt hle hless

/-- A round that goes on leaves less. -/
theorem left_lt_of_round {sj : SerdeJson} {g : WorkflowGraph} {H : Host} {st st' : LoopState}
    (h : round sj g H st = .inl st') : st'.left g < st.left g := by
  unfold round at h
  by_cases hrun : (runnable sj g st).isEmpty = true
  · rw [if_pos hrun] at h
    cases hrem : remaining g st with
    | nil =>
        rw [hrem] at h
        cases h
    | cons id rest =>
        simp only [hrem] at h
        split_ifs at h with hprog
        cases h
        exact LoopState.left_mark_lt hprog
  · rw [if_neg hrun] at h
    exact left_lt_of_gateRound (by simpa using hrun) h

/-! ## The loop -/

section

variable (sj : SerdeJson) (g : WorkflowGraph) (H : Host)

/-- The loop of rounds. -/
def settleLoop : While LoopState Outcome where
  body := round sj g H
  bound := LoopState.left g
  decreases := left_lt_of_round

/-- What a call comes to that starts at the top of the loop. -/
def settle (st : LoopState) : Outcome := (settleLoop sj g H).run st

/-- What a round comes to. -/
def finish : LoopState ⊕ Outcome → Outcome
  | .inl st => settle sj g H st
  | .inr outcome => outcome

/-- What a call comes to from where it stands. -/
def promise (c : Call) : Outcome :=
  match c.phase with
  | .top => settle sj g H c.st
  | .gate todo gatedPending toExecute =>
      finish sj g H (gateRound sj g H (gateAll H ⟨c.st, gatedPending, toExecute⟩ todo))
  | .request n todo toExecute =>
      finish sj g H (gateRound sj g H (gateAll H ⟨c.st, some n.nodeId, toExecute⟩ todo))
  | .batch slots =>
      finish sj g H (batchRound sj g c.st (sortById (slots.map fun slot =>
        (slot.1.nodeId, slot.2.getD (H.execute slot.1 c.st.vars)))))
  | .apply out => finish sj g H (batchRound sj g c.st out)
  | .stopped stop => (stop, c.st)

end

variable {sj : SerdeJson} {g : WorkflowGraph} {H : Host}

/-- The loop comes to what its first round comes to. -/
theorem settle_eq (st : LoopState) : settle sj g H st = finish sj g H (round sj g H st) := by
  cases hround : round sj g H st with
  | inl st' => exact (settleLoop sj g H).run_of_inl hround
  | inr outcome => exact (settleLoop sj g H).run_of_inr hround

/-- When nodes are runnable, the round is that of the gate over them. -/
theorem round_of_runnable {st : LoopState} (h : runnable sj g st ≠ []) :
    round sj g H st = gateRound sj g H (regate sj g H st) :=
  if_neg (by simpa using h)

/-- A call asks the environment for nothing but the executor's answers: it is not cancelled, and an
execution returns what the executor is. -/
def Call.Obliging (H : Host) (c : Call) : Act → Prop
  | .poll cancelled _ => cancelled = false
  | .advance _ => True
  | .execute i out =>
      ∀ slots n r, c.phase = .batch slots → slots[i]? = some (n, r) → out = H.execute n c.st.vars

/-- The results of a batch whose threads have all ended. -/
theorem sortById_slots {slots : List (WorkflowNode × Option StepResult)}
    {out : List (NodeId × StepResult)} (h : Call.collect slots = some out)
    (F : WorkflowNode → StepResult) :
    sortById (slots.map fun slot => (slot.1.nodeId, slot.2.getD (F slot.1))) = out := by
  unfold Call.collect at h
  split_ifs at h with hall
  cases h
  rw [filterMap_slots hall F]

/-- **No step changes what a call comes to**, as long as the environment is the host. -/
theorem promise_of_moves {decision : NodeId → Option ApprovalStatus} {c c' : Call} {a : Act}
    {eff : Effect} (hm : Call.Moves sj g decision c a c' eff)
    (hverdict : ∀ n, gateVerdict decision n = H.verdict n) (hobliging : c.Obliging H a) :
    promise sj g H c' = promise sj g H c := by
  cases hm with
  | pauseTop => cases hobliging
  | pauseBatch => cases hobliging
  | finish st nowMs hrun hrem =>
      simp [promise, settle_eq st, round, hrun, hrem, finish]
  | skip st nowMs hrun hrem hprog =>
      obtain ⟨id, rest, hrem⟩ := List.exists_cons_of_ne_nil hrem
      simp [promise, settle_eq st, round, hrun, hrem, hprog, finish]
  | stall st nowMs id rest hrun hrem hprog =>
      simp [promise, settle_eq st, round, hrun, hrem, hprog, finish]
  | takeUp st nowMs hrun =>
      show finish sj g H (gateRound sj g H (regate sj g H st)) = settle sj g H st
      rw [settle_eq st, round_of_runnable hrun]
  | pass st nowMs n todo gatedPending toExecute hpass =>
      have hv : H.verdict n = .pass := by
        rw [← hverdict, gateVerdict_of_pass hpass]
      simp only [promise, gateAll, hv]
  | reject st nowMs n todo gatedPending toExecute hgated hdec =>
      have hv : H.verdict n = .reject := by
        rw [← hverdict, gateVerdict, if_pos hgated, hdec]
      simp only [promise, gateAll, hv]
  | wait st nowMs n todo gatedPending toExecute hgated hdec =>
      have hv : H.verdict n = .wait := by
        rw [← hverdict, gateVerdict, if_pos hgated]
        rcases hdec with hdec | hdec <;> rw [hdec]
      simp only [promise, gateAll, hv]
  | request => rfl
  | await => rfl
  | launch st nowMs toExecute =>
      simp [promise, gateAll, gateRound, Host.results, Function.comp_def]
  | execute st i n out slots hslot =>
      have hout : out = H.execute n st.vars := hobliging slots n none rfl hslot
      simp only [promise, List.map_set, Option.getD_some, hout]
      congr 3
      exact set_of_getElem? (by simp [hslot])
  | join st nowMs slots out hout =>
      simp only [promise]
      rw [sortById_slots hout fun n => H.execute n st.vars]
  | applyOk st nowMs id output rest node hnode =>
      simp only [promise, batchRound, applyAll, hnode]
  | applyErr st nowMs id e rest node hnode => rfl
  | mark => rfl

/-! ## Starting over in the middle of a round -/

theorem mark_mark (sj : SerdeJson) (g : WorkflowGraph) (st : LoopState) :
    (st.mark sj g).mark sj g = st.mark sj g := by
  refine LoopState.ext rfl ?_ rfl
  ext id
  rw [mem_mark_skipped, mem_mark_skipped]
  exact or_iff_left_of_imp .inr

/-- When no node remains, nothing is runnable. -/
theorem runnable_of_remaining {st : LoopState} (h : remaining g st = []) :
    runnable sj g st = [] := by
  rw [List.eq_nil_iff_forall_not_mem]
  intro n hn
  obtain ⟨hid, hnot⟩ := not_done_of_runnable hn
  have hmem : n.nodeId ∈ remaining g st :=
    mem_remaining.mpr ⟨hid, fun hdone => (done_iff.mp hdone).elim hnot.1 hnot.2⟩
  rw [h] at hmem
  cases hmem

/-- When no node remains, none remains after the marking. -/
theorem remaining_mark {st : LoopState} (h : remaining g st = []) :
    remaining g (st.mark sj g) = [] := by
  rw [List.eq_nil_iff_forall_not_mem] at h ⊢
  intro id hid
  obtain ⟨hmem, hnot⟩ := mem_remaining.mp hid
  refine h id (mem_remaining.mpr ⟨hmem, fun hdone => hnot ?_⟩)
  rw [done_iff] at hdone ⊢
  exact hdone.imp_right fun hs => subset_mark_skipped sj g st hs

/-- When no node remains, the loop marks and finishes. -/
theorem settle_of_remaining {st : LoopState} (h : remaining g st = []) :
    settle sj g H st = (.finished, st.mark sj g) := by
  simp [settle_eq st, round, runnable_of_remaining h, h, finish]

/-- A state that the loop has finished in finishes again as it is. -/
theorem settle_finished {st : LoopState} (h : remaining g st = []) :
    settle sj g H (st.mark sj g) = (.finished, st.mark sj g) := by
  rw [settle_of_remaining (remaining_mark h), mark_mark]

/-- When nothing is runnable, marking first makes no difference. -/
theorem settle_mark {st : LoopState} (h : runnable sj g st = []) :
    settle sj g H (st.mark sj g) = settle sj g H st := by
  cases hrem : remaining g st with
  | nil => rw [settle_finished hrem, settle_of_remaining hrem]
  | cons id rest =>
      cases hprog : (markConditionSkips sj g st.skipped st.vars).2 with
      | true => simp [settle_eq st, round, h, hrem, hprog, finish]
      | false =>
          congr 1
          refine LoopState.ext rfl ?_ rfl
          ext x
          rw [mem_mark_skipped]
          refine or_iff_left_of_imp fun ⟨n, hn, hid, hcond⟩ => ?_
          by_contra hx
          have htrue : (markConditionSkips sj g st.skipped st.vars).2 = true :=
            markConditionSkips_progressed.mpr ⟨n, hn, hid ▸ hx, hcond⟩
          rw [hprog] at htrue
          cases htrue

/-- **Starting over before a batch.** When a fresh pass of the gate rejects no node and no node
waits, the loop comes to what the batch of the admitted nodes comes to. -/
theorem settle_of_regate {st : LoopState} {toExecute : List WorkflowNode}
    (h : regate sj g H st = ⟨st, none, toExecute⟩) :
    settle sj g H st = finish sj g H (batchRound sj g st (H.results st.vars toExecute)) := by
  by_cases hrun : runnable sj g st = []
  · have hnil : toExecute = [] := by
      rw [regate, hrun] at h
      exact (congrArg Admission.toExecute h).symm
    subst hnil
    exact (settle_mark hrun).symm
  · rw [settle_eq, round_of_runnable hrun, h]
    rfl

/-- **Starting over where a node waits.** -/
theorem settle_of_regate_waits {st : LoopState} {id : NodeId} {toExecute : List WorkflowNode}
    (h : regate sj g H st = ⟨st, some id, toExecute⟩) :
    settle sj g H st = (.awaitingApproval id, st) := by
  have hrun : runnable sj g st ≠ [] := by
    intro hnil
    rw [regate, hnil] at h
    cases congrArg Admission.gatedPending h
  rw [settle_eq, round_of_runnable hrun, h]
  rfl

/-- The gate over nodes that are all admitted. -/
theorem gateAll_of_pass {H : Host} {todo : List WorkflowNode}
    (h : ∀ n ∈ todo, H.verdict n = .pass) (st : LoopState) (toExecute : List WorkflowNode) :
    gateAll H ⟨st, none, toExecute⟩ todo = ⟨st, none, toExecute ++ todo⟩ := by
  induction todo generalizing toExecute with
  | nil => rw [gateAll, List.append_nil]
  | cons n todo ih =>
      simp only [gateAll, h n List.mem_cons_self]
      rw [ih (fun m hm => h m (List.mem_cons_of_mem _ hm)), List.append_assoc,
        List.singleton_append]

end AuraLauncher.Workflow
