import AuraLauncher.Workflow.Scheduler.Loop

/-!
# The moves of a call

`Call.Moves` is the step function read as a relation, one constructor for each way around the loop:
it says once what a step can do, with the guards of the source as premises, and every invariant of
the scheduler is a case analysis of it.

* `Call.moves_of_step` — every step is one of these moves.
* `Phase.inFlight`, `Phase.taken` — the nodes a call has taken up in the current round and not
  disposed of: their ids, and the nodes themselves as long as the call holds them.
* `Call.Sound`, `Call.sound_of_moves` — the invariant of the loop on a graph with unique ids: the
  nodes in flight are distinct, not done, and come after done nodes only.
* `Call.not_stuck` — every call that has not returned can make a step, whatever the environment
  supplies.
-/

namespace AuraLauncher.Workflow

open AuraLauncher.Lib

namespace Call

/-- One step of a call, by what it is for. -/
inductive Moves (sj : SerdeJson) (g : WorkflowGraph) (decision : NodeId → Option ApprovalStatus) :
    Call → Act → Call → Effect → Prop
  | pauseTop (st nowMs) :
      Moves sj g decision ⟨st, .top⟩ (.poll true nowMs) ⟨st, .stopped .paused⟩
        (.checkpoint .paused nowMs)
  | finish (st nowMs) (hrun : runnable sj g st = []) (hrem : remaining g st = []) :
      Moves sj g decision ⟨st, .top⟩ (.poll false nowMs) ⟨st.mark sj g, .stopped .finished⟩
        (.checkpoint .finished nowMs)
  | skip (st nowMs) (hrun : runnable sj g st = []) (hrem : remaining g st ≠ [])
      (hprog : (markConditionSkips sj g st.skipped st.vars).2 = true) :
      Moves sj g decision ⟨st, .top⟩ (.poll false nowMs) ⟨st.mark sj g, .top⟩ .silent
  | stall (st nowMs id rest) (hrun : runnable sj g st = []) (hrem : remaining g st = id :: rest)
      (hprog : (markConditionSkips sj g st.skipped st.vars).2 = false) :
      Moves sj g decision ⟨st, .top⟩ (.poll false nowMs)
        ⟨st.mark sj g, .stopped (.failed id stallError)⟩ (.checkpoint .failed nowMs)
  | takeUp (st nowMs) (hrun : runnable sj g st ≠ []) :
      Moves sj g decision ⟨st, .top⟩ (.poll false nowMs)
        ⟨st, .gate (runnable sj g st) none []⟩ .silent
  | pass (st nowMs n todo gatedPending toExecute)
      (hpass : n.approval = true → decision n.nodeId = some .approved) :
      Moves sj g decision ⟨st, .gate (n :: todo) gatedPending toExecute⟩ (.advance nowMs)
        ⟨st, .gate todo gatedPending (toExecute ++ [n])⟩ .silent
  | reject (st nowMs n todo gatedPending toExecute) (hgated : n.approval = true)
      (hdec : decision n.nodeId = some .rejected) :
      Moves sj g decision ⟨st, .gate (n :: todo) gatedPending toExecute⟩ (.advance nowMs)
        ⟨{ st with skipped := insert n.nodeId st.skipped }, .gate todo gatedPending toExecute⟩
        .silent
  | wait (st nowMs n todo gatedPending toExecute) (hgated : n.approval = true)
      (hdec : decision n.nodeId = none ∨ decision n.nodeId = some .pending) :
      Moves sj g decision ⟨st, .gate (n :: todo) gatedPending toExecute⟩ (.advance nowMs)
        ⟨st, .request n todo toExecute⟩ .silent
  | request (st nowMs n todo toExecute) :
      Moves sj g decision ⟨st, .request n todo toExecute⟩ (.advance nowMs)
        ⟨st, .gate todo (some n.nodeId) toExecute⟩ (.request n nowMs)
  | await (st nowMs id toExecute) :
      Moves sj g decision ⟨st, .gate [] (some id) toExecute⟩ (.advance nowMs)
        ⟨st, .stopped (.awaitingApproval id)⟩ (.checkpoint .awaitingApproval nowMs)
  | pauseBatch (st nowMs toExecute) :
      Moves sj g decision ⟨st, .gate [] none toExecute⟩ (.poll true nowMs) ⟨st, .stopped .paused⟩
        (.checkpoint .paused nowMs)
  | launch (st nowMs toExecute) :
      Moves sj g decision ⟨st, .gate [] none toExecute⟩ (.poll false nowMs)
        ⟨st, .batch (toExecute.map fun n => (n, none))⟩ .silent
  | execute (st i n out slots) (hslot : slots[i]? = some (n, none)) :
      Moves sj g decision ⟨st, .batch slots⟩ (.execute i out)
        ⟨st, .batch (slots.set i (n, some out))⟩ (.execute n out)
  | join (st nowMs slots out) (hout : collect slots = some out) :
      Moves sj g decision ⟨st, .batch slots⟩ (.advance nowMs) ⟨st, .apply out⟩ .silent
  | applyOk (st nowMs id output rest node)
      (hnode : (g.nodes.find? fun n => decide (n.nodeId = id)) = some node) :
      Moves sj g decision ⟨st, .apply ((id, .ok output) :: rest)⟩ (.advance nowMs)
        ⟨⟨insert id st.finished, st.skipped, applyOutputs st.vars node output⟩, .apply rest⟩
        (.checkpoint .running nowMs)
  | applyErr (st nowMs id e rest node)
      (hnode : (g.nodes.find? fun n => decide (n.nodeId = id)) = some node) :
      Moves sj g decision ⟨st, .apply ((id, .error e) :: rest)⟩ (.advance nowMs)
        ⟨st, .stopped (.failed id e)⟩ (.checkpoint .failed nowMs)
  | mark (st nowMs) :
      Moves sj g decision ⟨st, .apply []⟩ (.advance nowMs) ⟨st.mark sj g, .top⟩ .silent

variable {sj : SerdeJson} {g : WorkflowGraph} {decision : NodeId → Option ApprovalStatus}

/-- The top of the loop goes one of four ways. -/
theorem moves_loopTop (st : LoopState) (nowMs : ℤ) :
    Moves sj g decision ⟨st, .top⟩ (.poll false nowMs) (loopTop sj g st nowMs).1
      (loopTop sj g st nowMs).2 := by
  unfold loopTop
  by_cases hrun : runnable sj g st = []
  · rw [if_pos (by simp [hrun])]
    cases hrem : remaining g st with
    | nil => exact .finish st nowMs hrun hrem
    | cons id rest =>
        cases hprog : (markConditionSkips sj g st.skipped st.vars).2 with
        | true => exact .skip st nowMs hrun (by simp [hrem]) hprog
        | false => exact .stall st nowMs id rest hrun hrem hprog
  · rw [if_neg (by simpa using hrun)]
    exact .takeUp st nowMs hrun

/-- The gate passes a node, rejects it or makes it wait. -/
theorem moves_gateNode (st : LoopState) (nowMs : ℤ) (n : WorkflowNode) (todo : List WorkflowNode)
    (gatedPending : Option NodeId) (toExecute : List WorkflowNode) :
    Moves sj g decision ⟨st, .gate (n :: todo) gatedPending toExecute⟩ (.advance nowMs)
      (gateNode decision st n todo gatedPending toExecute) .silent := by
  unfold gateNode
  cases hgated : n.approval with
  | false => exact .pass st nowMs n todo gatedPending toExecute (by simp [hgated])
  | true =>
      rw [if_pos rfl]
      cases hdec : decision n.nodeId with
      | none => exact .wait st nowMs n todo gatedPending toExecute hgated (.inl hdec)
      | some status =>
          cases status with
          | pending => exact .wait st nowMs n todo gatedPending toExecute hgated (.inr hdec)
          | approved => exact .pass st nowMs n todo gatedPending toExecute fun _ => hdec
          | rejected => exact .reject st nowMs n todo gatedPending toExecute hgated hdec

/-- What a step of a call can do. -/
theorem moves_of_step {c c' : Call} {a : Act} {eff : Effect}
    (h : c.step sj g decision a = some (c', eff)) : Moves sj g decision c a c' eff := by
  obtain ⟨st, phase⟩ := c
  unfold step at h
  cases a with
  | poll cancelled nowMs =>
      cases phase with
      | top =>
          cases cancelled with
          | true =>
              cases h
              exact .pauseTop st nowMs
          | false =>
              have hmoves := @moves_loopTop sj g decision st nowMs
              rwa [show loopTop sj g st nowMs = (c', eff) from Option.some.inj h] at hmoves
      | gate todo gatedPending toExecute =>
          cases todo with
          | cons n todo => cases h
          | nil =>
              cases gatedPending with
              | some id => cases h
              | none =>
                  cases cancelled with
                  | true =>
                      cases h
                      exact .pauseBatch st nowMs toExecute
                  | false =>
                      cases h
                      exact .launch st nowMs toExecute
      | request => cases h
      | batch => cases h
      | apply => cases h
      | stopped => cases h
  | advance nowMs =>
      cases phase with
      | top => cases h
      | gate todo gatedPending toExecute =>
          cases todo with
          | cons n todo =>
              cases h
              exact moves_gateNode st nowMs n todo gatedPending toExecute
          | nil =>
              cases gatedPending with
              | none => cases h
              | some id =>
                  cases h
                  exact .await st nowMs id toExecute
      | request n todo toExecute =>
          cases h
          exact .request st nowMs n todo toExecute
      | batch slots =>
          obtain ⟨out, hout, heq⟩ := Option.map_eq_some_iff.mp h
          cases heq
          exact .join st nowMs slots out hout
      | apply out =>
          cases out with
          | nil =>
              cases h
              exact .mark st nowMs
          | cons head rest =>
              obtain ⟨id, out⟩ := head
              simp only [applyResult] at h
              cases hnode : g.nodes.find? fun n => decide (n.nodeId = id) with
              | none =>
                  rw [hnode] at h
                  cases h
              | some node =>
                  rw [hnode] at h
                  cases out with
                  | ok output =>
                      cases h
                      exact .applyOk st nowMs id output rest node hnode
                  | error e =>
                      cases h
                      exact .applyErr st nowMs id e rest node hnode
      | stopped => cases h
  | execute i out =>
      cases phase with
      | batch slots =>
          cases hslot : slots[i]? with
          | none =>
              simp only [hslot] at h
              cases h
          | some slot =>
              obtain ⟨n, result⟩ := slot
              simp only [hslot] at h
              cases result with
              | some out' => cases h
              | none =>
                  cases h
                  exact .execute st i n out slots hslot
      | top => cases h
      | gate => cases h
      | request => cases h
      | apply => cases h
      | stopped => cases h

end Call

/-! ## The nodes in flight -/

namespace Phase

/-- The ids of the nodes taken up in this round and not disposed of. -/
def inFlight : Phase → List NodeId
  | .top => []
  | .gate todo _ toExecute => (toExecute ++ todo).map (·.nodeId)
  | .request _ todo toExecute => (toExecute ++ todo).map (·.nodeId)
  | .batch slots => slots.map fun slot => slot.1.nodeId
  | .apply out => out.map (·.1)
  | .stopped _ => []

/-- The nodes a call still holds. -/
def taken : Phase → List WorkflowNode
  | .top => []
  | .gate todo _ toExecute => toExecute ++ todo
  | .request _ todo toExecute => toExecute ++ todo
  | .batch slots => slots.map (·.1)
  | .apply _ => []
  | .stopped _ => []

/-- Whether the call is at the top of the loop. -/
def atTop : Phase → Bool
  | .top => true
  | _ => false

/-- The results of a batch whose threads have all ended. -/
def ended : Phase → Option (List (NodeId × StepResult))
  | .batch slots => Call.collect slots
  | _ => none

end Phase

/-- Setting an entry to what it is. -/
theorem set_of_getElem? {α : Type} {l : List α} {i : ℕ} {x : α} (h : l[i]? = some x) :
    l.set i x = l := by
  obtain ⟨hi, rfl⟩ := List.getElem?_eq_some_iff.mp h
  exact List.set_getElem_self hi

/-- The node of a slot that is filled stays where it was. -/
theorem map_fst_set {slots : List (WorkflowNode × Option StepResult)} {i : ℕ} {n : WorkflowNode}
    (h : slots[i]? = some (n, none)) (out : Option StepResult) :
    (slots.set i (n, out)).map (·.1) = slots.map (·.1) := by
  rw [List.map_set]
  exact set_of_getElem? (by simp [h])

/-- When every thread has ended, the slots with a result are all slots; `F` stands for the results
that do not come. -/
theorem filterMap_slots {slots : List (WorkflowNode × Option StepResult)}
    (hall : (slots.all fun slot => slot.2.isSome) = true) (F : WorkflowNode → StepResult) :
    (slots.filterMap fun slot => slot.2.map fun r => (slot.1.nodeId, r)) =
      slots.map fun slot => (slot.1.nodeId, slot.2.getD (F slot.1)) := by
  induction slots with
  | nil => rfl
  | cons slot slots ih =>
      obtain ⟨n, result⟩ := slot
      rw [List.all_cons, Bool.and_eq_true] at hall
      obtain ⟨r, rfl⟩ := Option.isSome_iff_exists.mp hall.1
      simp [ih hall.2]

/-- The results of a finished batch are those of its slots, in id order. -/
theorem collect_perm {slots : List (WorkflowNode × Option StepResult)}
    {out : List (NodeId × StepResult)} (h : Call.collect slots = some out) :
    out.Perm (slots.filterMap fun slot => slot.2.map fun r => (slot.1.nodeId, r)) ∧
      (out.map (·.1)).Perm (slots.map fun slot => slot.1.nodeId) := by
  unfold Call.collect at h
  split_ifs at h with hall
  cases h
  have hperm := sortById_perm (slots.filterMap fun slot => slot.2.map fun r => (slot.1.nodeId, r))
  refine ⟨hperm, (hperm.map _).trans (List.Perm.of_eq ?_)⟩
  rw [filterMap_slots hall fun _ => .ok .null, List.map_map]
  rfl

namespace Call

variable {sj : SerdeJson} {g : WorkflowGraph} {decision : NodeId → Option ApprovalStatus}

/-- What holds of a call at every moment, on a graph with unique ids. -/
structure Sound (sj : SerdeJson) (g : WorkflowGraph) (c : Call) : Prop where
  /-- No node is in flight twice. -/
  nodup : c.phase.inFlight.Nodup
  /-- A node in flight is a node of the graph that is not done and comes after done nodes. -/
  ready : ∀ id ∈ c.phase.inFlight, id ∈ g.ids ∧ ¬ Done c.st.finished c.st.skipped id ∧
    ∀ e ∈ g.incoming id, Done c.st.finished c.st.skipped e.from
  /-- The condition of a node that the call holds is true. -/
  holds : ∀ n ∈ c.phase.taken, n ∈ g.nodes ∧ conditionHolds sj n.condition c.st.vars = true

/-- A call with nothing in flight is sound. -/
theorem sound_of_idle {c : Call} (hin : c.phase.inFlight = []) (htaken : c.phase.taken = []) :
    Sound sj g c where
  nodup := by simp [hin]
  ready := by simp [hin]
  holds := by simp [htaken]

/-- Nodes may leave the flight while the variables of the loop stay as they are. -/
theorem Sound.leave {c c' : Call} (h : Sound sj g c) (hst : c'.st = c.st)
    (hnodup : c'.phase.inFlight.Nodup) (hin : ∀ id ∈ c'.phase.inFlight, id ∈ c.phase.inFlight)
    (htaken : ∀ n ∈ c'.phase.taken, n ∈ c.phase.taken) : Sound sj g c' where
  nodup := hnodup
  ready := fun id hid => hst ▸ h.ready id (hin id hid)
  holds := fun n hn => hst ▸ h.holds n (htaken n hn)

/-- A node may leave the flight by becoming done. -/
theorem Sound.dispose {c c' : Call} (h : Sound sj g c) (id : NodeId)
    (hperm : c.phase.inFlight.Perm (id :: c'.phase.inFlight))
    (hdone : ∀ x, Done c'.st.finished c'.st.skipped x ↔
      x = id ∨ Done c.st.finished c.st.skipped x)
    (htaken : ∀ n ∈ c'.phase.taken, n ∈ c.phase.taken ∧ c'.st.vars = c.st.vars) :
    Sound sj g c' := by
  have hnodup : (id :: c'.phase.inFlight).Nodup := hperm.nodup_iff.mp h.nodup
  refine ⟨hnodup.of_cons, fun x hx => ?_, fun n hn => ?_⟩
  · obtain ⟨hmem, hnot, hsrc⟩ := h.ready x (hperm.mem_iff.mpr (List.mem_cons_of_mem _ hx))
    refine ⟨hmem, fun hd => ?_, fun e he => (hdone _).mpr (.inr (hsrc e he))⟩
    rcases (hdone x).mp hd with rfl | hd
    · exact (List.nodup_cons.mp hnodup).1 hx
    · exact hnot hd
  · obtain ⟨hmem, hvars⟩ := htaken n hn
    exact hvars ▸ h.holds n hmem

/-- **The invariant of the loop**: every move keeps it. -/
theorem sound_of_moves (hnd : g.ids.Nodup) {c c' : Call} {a : Act} {eff : Effect}
    (hm : Moves sj g decision c a c' eff) (h : Sound sj g c) : Sound sj g c' := by
  cases hm with
  | pauseTop => exact sound_of_idle rfl rfl
  | finish => exact sound_of_idle rfl rfl
  | skip => exact sound_of_idle rfl rfl
  | stall => exact sound_of_idle rfl rfl
  | takeUp st nowMs hrun =>
      refine ⟨?_, fun id hid => ?_, fun n hn => ?_⟩
      · exact hnd.sublist (List.filter_sublist.map _)
      · obtain ⟨n, hn, rfl⟩ := List.mem_map.mp hid
        obtain ⟨hid, hnot, -, hsrc⟩ := mem_readyNodes.mp (mem_runnable.mp hn).2.1
        exact ⟨hid, hnot, hsrc⟩
      · obtain ⟨hmem, -, hcond⟩ := mem_runnable.mp hn
        exact ⟨hmem, hcond⟩
  | pass st nowMs n todo gatedPending toExecute hpass =>
      have hlist : toExecute ++ [n] ++ todo = toExecute ++ n :: todo := by simp
      refine h.leave rfl ?_ ?_ ?_
      · simpa only [Phase.inFlight, hlist] using h.nodup
      · simp only [Phase.inFlight, hlist]
        exact fun _ => id
      · simp only [Phase.taken, hlist]
        exact fun _ => id
  | reject st nowMs n todo gatedPending toExecute hgated hdec =>
      refine h.dispose n.nodeId ?_ (fun x => ?_) fun m hm => ⟨?_, rfl⟩
      · simp only [Phase.inFlight, ← List.map_cons (f := fun m : WorkflowNode => m.nodeId)]
        exact List.Perm.map _ List.perm_middle
      · simp only [done_iff, Finset.mem_insert]
        tauto
      · simp only [Phase.taken, List.mem_append, List.mem_cons] at hm ⊢
        tauto
  | wait st nowMs n todo gatedPending toExecute hgated hdec =>
      have hsub : (toExecute ++ todo).Sublist (toExecute ++ n :: todo) :=
        (List.sublist_cons_self n todo).append_left toExecute
      exact h.leave rfl (h.nodup.sublist (hsub.map _)) (fun _ hid => (hsub.map _).subset hid)
        fun _ hn => hsub.subset hn
  | request => exact h.leave rfl h.nodup (fun _ => id) fun _ => id
  | await => exact sound_of_idle rfl rfl
  | pauseBatch => exact sound_of_idle rfl rfl
  | launch st nowMs toExecute =>
      refine h.leave rfl ?_ ?_ ?_
      · simpa [Phase.inFlight, Function.comp_def] using h.nodup
      · simp [Phase.inFlight]
      · simp [Phase.taken]
  | execute st i n out slots hslot =>
      have hfst := map_fst_set hslot (some out)
      have hids : (slots.set i (n, some out)).map (fun slot => slot.1.nodeId) =
          slots.map fun slot => slot.1.nodeId := by
        have hcomp := congrArg (List.map fun m : WorkflowNode => m.nodeId) hfst
        simpa only [List.map_map, Function.comp_def] using hcomp
      refine h.leave rfl ?_ ?_ ?_
      · simpa only [Phase.inFlight, hids] using h.nodup
      · simp only [Phase.inFlight, hids]
        exact fun _ => id
      · simp only [Phase.taken, hfst]
        exact fun _ => id
  | join st nowMs slots out hout =>
      have hperm := (collect_perm hout).2
      exact h.leave rfl (hperm.nodup_iff.mpr h.nodup) (fun _ hid => hperm.mem_iff.mp hid)
        fun _ hn => absurd hn List.not_mem_nil
  | applyOk st nowMs id output rest node hnode =>
      refine h.dispose id (.refl _) (fun x => ?_) fun _ hn => absurd hn List.not_mem_nil
      simp only [done_iff, Finset.mem_insert]
      tauto
  | applyErr => exact sound_of_idle rfl rfl
  | mark => exact sound_of_idle rfl rfl

/-- **A call is never stuck.** Until it returns, it polls its flag, goes on, or has a thread to run,
whatever the flag, the clock and the executor give. -/
theorem not_stuck {c : Call} (hmem : ∀ id ∈ c.phase.inFlight, id ∈ g.ids)
    (hrun : ∀ stop, c.phase ≠ .stopped stop) :
    (∀ cancelled nowMs, (c.step sj g decision (.poll cancelled nowMs)).isSome) ∨
      (∀ nowMs, (c.step sj g decision (.advance nowMs)).isSome) ∨
      ∃ i, ∀ out, (c.step sj g decision (.execute i out)).isSome := by
  obtain ⟨st, phase⟩ := c
  cases phase with
  | top => exact .inl fun cancelled nowMs => by cases cancelled <;> rfl
  | gate todo gatedPending toExecute =>
      cases todo with
      | cons n todo => exact .inr (.inl fun nowMs => rfl)
      | nil =>
          cases gatedPending with
          | none => exact .inl fun cancelled nowMs => by cases cancelled <;> rfl
          | some id => exact .inr (.inl fun nowMs => rfl)
  | request n todo toExecute => exact .inr (.inl fun nowMs => rfl)
  | batch slots =>
      by_cases hall : slots.all (fun slot => slot.2.isSome) = true
      · refine .inr (.inl fun nowMs => ?_)
        simp [step, collect, hall]
      · obtain ⟨slot, hslot, hempty⟩ : ∃ slot ∈ slots, slot.2.isSome = false := by
          simpa using hall
        obtain ⟨n, result⟩ := slot
        obtain rfl : result = none := by simpa using hempty
        obtain ⟨i, hi⟩ := List.mem_iff_getElem?.mp hslot
        exact .inr (.inr ⟨i, fun out => by simp [step, hi]⟩)
  | apply out =>
      cases out with
      | nil => exact .inr (.inl fun nowMs => rfl)
      | cons head rest =>
          obtain ⟨id, result⟩ := head
          obtain ⟨m, hm, rfl⟩ := WorkflowGraph.mem_ids.mp (hmem id List.mem_cons_self)
          cases hnode : g.nodes.find? fun n => decide (n.nodeId = m.nodeId) with
          | none =>
              have hnot := List.find?_eq_none.mp hnode m hm
              simp at hnot
          | some node =>
              refine .inr (.inl fun nowMs => ?_)
              cases result <;> simp [step, applyResult, hnode]
  | stopped stop => exact absurd rfl (hrun stop)

end Call

end AuraLauncher.Workflow
