import AuraLauncher.Workflow.Scheduler.Session

/-!
# Approvals in the scheduler

What the gate guarantees about the nodes that wait for a human.

* `Session.Gated` — the invariant of the gate: whatever gated node a call has admitted, the store
  holds its approval.
* `executed_only_approved` — a gated node is executed only with an approved record of exactly its
  run and node, over every interleaving of calls and operations and for every graph.
* `approvalKey_eq_iff` — when two pairs of a run and a node get the same approval id.
* `awaiting_has_pending_iff` — when a call that returns `AwaitingApproval` leaves a pending record
  of its run and node: unless the approval id is taken by a record of another pair.
* `awaiting_without_record` — a run `a` that waits for its node `b:c` forever, because run `a:b`
  asked for its node `c` before.
-/

namespace AuraLauncher.Workflow

open AuraLauncher.Lib

/-! ## Safety -/

/-- The nodes that have passed the gate. -/
def Phase.admitted : Phase → List WorkflowNode
  | .gate _ _ toExecute => toExecute
  | .request _ _ toExecute => toExecute
  | .batch slots => slots.map (·.1)
  | _ => []

/-- A node is admitted by passing the gate. -/
theorem Call.admitted_of_moves {sj : SerdeJson} {g : WorkflowGraph}
    {decision : NodeId → Option ApprovalStatus} {c c' : Call} {a : Act} {eff : Effect}
    (hm : Call.Moves sj g decision c a c' eff) {n : WorkflowNode} (hn : n ∈ c'.phase.admitted) :
    n ∈ c.phase.admitted ∨ (n.approval = true → decision n.nodeId = some .approved) := by
  cases hm with
  | pass st nowMs n' todo gatedPending toExecute hpass =>
      rcases List.mem_append.mp hn with hn | hn
      · exact .inl hn
      · obtain rfl := List.mem_singleton.mp hn
        exact .inr hpass
  | launch st nowMs toExecute =>
      left
      simpa [Phase.admitted] using hn
  | execute st i n' out slots hslot =>
      left
      simpa only [Phase.admitted, map_fst_set hslot] using hn
  | reject | wait | request => exact .inl hn
  | _ => cases hn

/-- What an effect does to the approvals: nothing, or a request of the call. -/
theorem World.approvals_perform (w : World) (args : CallArgs) (st : LoopState) (eff : Effect) :
    (w.perform args st eff).approvals = w.approvals ∨
      ∃ n nowMs, eff = .request n nowMs ∧ args.approvals = true ∧
        (w.perform args st eff).approvals = w.approvals.request (approvalKey args.runId n.nodeId)
          args.runId n.nodeId n.actionRef nowMs := by
  cases eff with
  | request n nowMs =>
      unfold World.perform
      cases happ : args.approvals with
      | true => exact .inr ⟨n, nowMs, rfl, rfl, rfl⟩
      | false => exact .inl rfl
  | _ => exact .inl rfl

/-- An approval is there after every effect. -/
theorem World.approved_perform {w : World} {runId : String} {id : NodeId}
    (h : w.approvals.Approved runId id) (args : CallArgs) (st : LoopState) (eff : Effect) :
    (w.perform args st eff).approvals.Approved runId id := by
  rcases w.approvals_perform args st eff with hsame | ⟨n, nowMs, -, -, hreq⟩
  · rwa [hsame]
  · rw [hreq]
    exact ApprovalStore.approved_perform h (.request _ _ _ _ nowMs)

namespace Session

variable {sj : SerdeJson} {s s' : Session} {a : SessionAct}

/-- The gated nodes that a call has admitted are approved. -/
def Gated (s : Session) : Prop :=
  ∀ args c, s.call = some (args, c) → ∀ n ∈ c.phase.admitted, n.approval = true →
    args.approvals = true ∧ s.world.approvals.Approved args.runId n.nodeId

/-- **The step lemma**: whatever happens keeps the admitted nodes approved. -/
theorem gated_of_moves (hm : Moves sj s a s') (h : Gated s) : Gated s' := by
  cases hm with
  | start s args hret =>
      rintro args' c ⟨⟩ n hn
      cases hn
  | tick world log args c a c' eff hm =>
      rintro args' c'' ⟨⟩ n hn hgated
      have hbefore : args.approvals = true ∧ world.approvals.Approved args.runId n.nodeId := by
        rcases Call.admitted_of_moves hm hn with hn | hpass
        · exact h args c rfl n hn hgated
        · have hdec := hpass hgated
          unfold World.decision at hdec
          split_ifs at hdec with happ
          exact ⟨happ, ApprovalStore.approved_of_decisionFor hdec⟩
      exact ⟨hbefore.1, World.approved_perform hbefore.2 args c'.st eff⟩
  | crash => rintro _ _ ⟨⟩
  | op s o =>
      intro args c hcall n hn hgated
      exact (h args c hcall n hn hgated).imp_right fun happ => ApprovalStore.approved_perform happ o
  | write => exact h

end Session

/-- **Approval safety.** Over every interleaving of calls, for any graphs and runs and with or
without an approval store, with operations on the store, checkpoints and crashes: a node with
`approval` is executed only by a call that has an approval store, at a moment when the store holds
an approved record of exactly the run and the node, so never once its only records are rejected. -/
theorem executed_only_approved (sj : SerdeJson) (world : World) (acts : List SessionAct)
    (s s' : Session) (a : SessionAct) (x : Execution)
    (hrun : (session sj).run ⟨world, none, []⟩ acts = some s)
    (hstep : (session sj).step s a = some s') (hlog : s'.log = s.log ++ [x])
    (hgated : x.node.approval = true) :
    (∃ args c, s.call = some (args, c) ∧ args.approvals = true ∧ args.runId = x.runId) ∧
      (∃ row ∈ s.world.approvals.rows, row.runId = x.runId ∧ row.nodeId = x.node.nodeId ∧
        row.status = .approved) ∧
      ¬ ∀ row ∈ s.world.approvals.rows, row.runId = x.runId → row.nodeId = x.node.nodeId →
        row.status = .rejected := by
  have hstart : Session.Gated ⟨world, none, []⟩ := by rintro _ _ ⟨⟩
  have hinv : s.Gated := (session sj).run_inv_of_step
    (fun s a s' h hstep => Session.gated_of_moves (Session.moves_of_step hstep) h) hstart hrun
  obtain ⟨args, st, slots, i, hcall, hslot, hrunId, -⟩ :=
    Session.batch_of_log_append (Session.moves_of_step hstep) hlog
  have hadm : x.node ∈ (Phase.batch slots).admitted :=
    List.mem_map_of_mem (List.mem_iff_getElem?.mpr ⟨i, hslot⟩)
  obtain ⟨happ, row, hrow, hr, hn, hstatus⟩ := hinv args _ hcall x.node hadm hgated
  refine ⟨⟨args, _, hcall, happ, hrunId.symm⟩, ⟨row, hrow, hr.trans hrunId.symm, hn, hstatus⟩, ?_⟩
  intro hall
  have hrej := hall row hrow (hr.trans hrunId.symm) hn
  rw [hstatus] at hrej
  cases hrej

/-! ## Approval ids -/

/-- Two ways to split a list at an occurrence of `c`: at the same one, or at one after the other. -/
theorem append_cons_eq_append_cons {α : Type} {c : α} {r n r' n' : List α} :
    r ++ c :: n = r' ++ c :: n' ↔
      (r = r' ∧ n = n') ∨ (∃ m, r' = r ++ c :: m ∧ n = m ++ c :: n') ∨
        ∃ m, r = r' ++ c :: m ∧ n' = m ++ c :: n := by
  rw [List.append_eq_append_iff]
  constructor
  · rintro (⟨_ | ⟨d, m⟩, rfl, hn⟩ | ⟨_ | ⟨d, m⟩, rfl, hn⟩)
    · exact .inl ⟨by simp, by simpa using hn⟩
    · obtain ⟨rfl, rfl⟩ := List.cons_eq_cons.mp hn
      exact .inr (.inl ⟨m, rfl, rfl⟩)
    · exact .inl ⟨by simp, by simpa using hn.symm⟩
    · obtain ⟨rfl, rfl⟩ := List.cons_eq_cons.mp hn
      exact .inr (.inr ⟨m, rfl, rfl⟩)
  · rintro (⟨rfl, rfl⟩ | ⟨m, rfl, rfl⟩ | ⟨m, rfl, rfl⟩)
    · exact .inl ⟨[], by simp, by simp⟩
    · exact .inl ⟨c :: m, rfl, by simp⟩
    · exact .inr ⟨c :: m, rfl, by simp⟩

/-- **When two pairs get the same approval id**: one run id continues the other after a colon, and
the node ids make up for it. -/
theorem approvalKey_eq_iff {r n r' n' : String} :
    approvalKey r n = approvalKey r' n' ↔
      (r = r' ∧ n = n') ∨ (∃ m, r' = r ++ ":" ++ m ∧ n = m ++ ":" ++ n') ∨
        ∃ m, r = r' ++ ":" ++ m ∧ n' = m ++ ":" ++ n := by
  have hcolon : ∀ s t u : String, u = s ++ ":" ++ t ↔ u.toList = s.toList ++ ':' :: t.toList := by
    intro s t u
    rw [← String.toList_inj]
    simp
  have hcontinue : ∀ r n r' n' : String,
      (∃ m, r'.toList = r.toList ++ ':' :: m ∧ n.toList = m ++ ':' :: n'.toList) ↔
        ∃ m, r' = r ++ ":" ++ m ∧ n = m ++ ":" ++ n' := by
    intro r n r' n'
    constructor
    · rintro ⟨m, hr, hn⟩
      rw [← String.toList_ofList (l := m)] at hr hn
      exact ⟨String.ofList m, (hcolon _ _ _).mpr hr, (hcolon _ _ _).mpr hn⟩
    · rintro ⟨m, hr, hn⟩
      exact ⟨m.toList, (hcolon _ _ _).mp hr, (hcolon _ _ _).mp hn⟩
  calc approvalKey r n = approvalKey r' n'
      ↔ r.toList ++ ':' :: n.toList = r'.toList ++ ':' :: n'.toList := by
        rw [← String.toList_inj]
        simp [approvalKey]
    _ ↔ _ := append_cons_eq_append_cons
    _ ↔ _ := or_congr (and_congr String.toList_inj String.toList_inj)
        (or_congr (hcontinue r n r' n') (hcontinue r' n' r n))

/-- The approval ids of one run differ. -/
theorem approvalKey_inj {r n n' : String} : approvalKey r n = approvalKey r n' ↔ n = n' := by
  unfold approvalKey
  exact String.append_right_inj _

/-! ## Liveness -/

namespace ApprovalStore

/-- The store holds a record of a run and a node. -/
def HasRecord (s : ApprovalStore) (runId : String) (id : NodeId) : Prop :=
  ∃ row ∈ s.rows, row.runId = runId ∧ row.nodeId = id

/-- The store holds a pending record of a run and a node. -/
def HasPending (s : ApprovalStore) (runId : String) (id : NodeId) : Prop :=
  ∃ row ∈ s.rows, row.runId = runId ∧ row.nodeId = id ∧ row.status = .pending

/-- No record has the approval id. -/
def Free (s : ApprovalStore) (approvalId : String) : Prop :=
  ∀ row ∈ s.rows, row.approvalId ≠ approvalId

theorem hasPending_of_decisionFor {s : ApprovalStore} {runId : String} {id : NodeId}
    (h : s.decisionFor runId id = some .pending) : s.HasPending runId id :=
  exists_of_decisionFor h

theorem not_hasRecord_of_decisionFor {s : ApprovalStore} {runId : String} {id : NodeId}
    (h : s.decisionFor runId id = none) : ¬ s.HasRecord runId id := by
  rintro ⟨row, hmem, hr, hn⟩
  have hnone := List.find?_eq_none.mp (Option.map_eq_none_iff.mp h) row hmem
  exact hnone (decide_eq_true ⟨hr, hn⟩)

/-- `s` has the records of `s₀`, and pending ones of the run under approval ids that `s₀` left
free. -/
structure Grown (runId : String) (s₀ s : ApprovalStore) : Prop where
  kept : ∀ row ∈ s₀.rows, row ∈ s.rows
  added : ∀ row ∈ s.rows, row ∈ s₀.rows ∨ (row.runId = runId ∧
    row.approvalId = approvalKey runId row.nodeId ∧ s₀.Free row.approvalId)

/-- A request of the run grows the store. -/
theorem Grown.request {runId : String} {s₀ s : ApprovalStore} (h : Grown runId s₀ s)
    (id actionRef : String) (nowMs : ℤ) :
    Grown runId s₀ (s.request (approvalKey runId id) runId id actionRef nowMs) := by
  refine ⟨fun row hrow => Table.mem_insertOrIgnore_of_mem (h.kept row hrow), fun row hrow => ?_⟩
  by_cases htaken : ∃ row' ∈ s.rows, row'.approvalId = approvalKey runId id
  · unfold ApprovalStore.request at hrow
    rw [Table.insertOrIgnore_of_taken htaken] at hrow
    exact h.added row hrow
  · rcases Table.mem_of_mem_insertOrIgnore hrow with hrow | rfl
    · exact h.added row hrow
    · exact .inr ⟨rfl, rfl, fun row' hrow' heq => htaken ⟨row', h.kept row' hrow', heq⟩⟩

/-- What a request of the run for an undecided node leaves behind: a pending record, unless another
record has the approval id since before the call. -/
def Asked (runId : String) (s₀ s : ApprovalStore) (id : NodeId) : Prop :=
  s.HasPending runId id ∨ (¬ s₀.HasRecord runId id ∧ ¬ s₀.Free (approvalKey runId id))

/-- No decision on the node is read. -/
def Undecided (runId : String) (s : ApprovalStore) (id : NodeId) : Prop :=
  s.decisionFor runId id = none ∨ s.decisionFor runId id = some .pending

theorem Grown.asked {runId : String} {s₀ s : ApprovalStore} (h : Grown runId s₀ s) {id : NodeId}
    (hund : s.Undecided runId id) (actionRef : String) (nowMs : ℤ) :
    Asked runId s₀ (s.request (approvalKey runId id) runId id actionRef nowMs) id := by
  rcases hund with hnone | hpend
  · have hnot := not_hasRecord_of_decisionFor hnone
    by_cases htaken : ∃ row ∈ s.rows, row.approvalId = approvalKey runId id
    · refine .inr ⟨fun ⟨row, hrow, hpair⟩ => hnot ⟨row, h.kept row hrow, hpair⟩, fun hfree => ?_⟩
      obtain ⟨row, hrow, hid⟩ := htaken
      rcases h.added row hrow with hold | ⟨hr, hkey, -⟩
      · exact hfree row hold hid
      · rw [hid, approvalKey_inj] at hkey
        exact hnot ⟨row, hrow, hr, hkey.symm⟩
    · refine .inl ⟨⟨approvalKey runId id, runId, id, actionRef, .pending, nowMs, none⟩, ?_, rfl,
        rfl, rfl⟩
      unfold ApprovalStore.request
      rw [Table.rows_insertOrIgnore_of_free fun row hrow hid => htaken ⟨row, hrow, hid⟩]
      exact List.mem_append_right _ (List.mem_singleton_self _)
  · obtain ⟨row, hrow, hpair⟩ := hasPending_of_decisionFor hpend
    exact .inl ⟨row, Table.mem_insertOrIgnore_of_mem hrow, hpair⟩

/-- After a request of the run, a pending record is there exactly when the pair had a record before
the call or its approval id was free. -/
theorem Grown.hasPending_iff {runId : String} {s₀ s : ApprovalStore} (h : Grown runId s₀ s)
    {id : NodeId} (hasked : Asked runId s₀ s id) :
    s.HasPending runId id ↔ s₀.HasRecord runId id ∨ s₀.Free (approvalKey runId id) := by
  constructor
  · rintro ⟨row, hrow, hr, hn, -⟩
    rcases h.added row hrow with hold | ⟨-, hkey, hfree⟩
    · exact .inl ⟨row, hold, hr, hn⟩
    · exact .inr (hn ▸ hkey ▸ hfree)
  · intro hcond
    rcases hasked with hpend | ⟨hnot, htaken⟩
    · exact hpend
    · exact (hcond.elim hnot htaken).elim

end ApprovalStore

/-- What is known about the node that a call waits for. -/
def Phase.Waits (undecided asked : NodeId → Prop) : Phase → Prop
  | .gate _ (some id) _ => asked id
  | .request n _ _ => undecided n.nodeId
  | .stopped (.awaitingApproval id) => asked id
  | _ => True

namespace Session

variable {sj : SerdeJson} {s s' : Session} {a : SessionAct}

/-- What holds during a call that started with the approvals `s₀`. -/
structure Waits (args : CallArgs) (s₀ : ApprovalStore) (s : Session) : Prop where
  call : ∃ c, s.call = some (args, c)
  grown : s₀.Grown args.runId s.world.approvals
  waits : ∀ c, s.call = some (args, c) →
    c.phase.Waits (s.world.approvals.Undecided args.runId)
      (s₀.Asked args.runId s.world.approvals)

/-- **The step lemma** of a call with an approval store. -/
theorem waits_of_moves {args : CallArgs} {s₀ : ApprovalStore} (happ : args.approvals = true)
    (htick : a.isTick = true) (hm : Moves sj s a s') (h : Waits args s₀ s) : Waits args s₀ s' := by
  cases hm with
  | tick world log args' c a c' eff hm =>
      obtain ⟨c₀, hcall⟩ := h.call
      cases hcall
      have hwaits := h.waits c rfl
      have hgrown := h.grown
      have hdec : world.decision args = world.approvals.decisionFor args.runId := by
        funext id
        exact if_pos happ
      have hsame : (world.perform args c'.st eff).approvals = world.approvals →
          c'.phase.Waits (world.approvals.Undecided args.runId)
            (s₀.Asked args.runId world.approvals) →
          Waits args s₀ ⟨world.perform args c'.st eff, some (args, c'),
            log ++ eff.executions args.runId c.st.vars⟩ := by
        intro hworld hphase
        refine ⟨⟨c', rfl⟩, by rw [hworld]; exact hgrown, ?_⟩
        rintro c'' ⟨⟩
        rw [hworld]
        exact hphase
      cases hm with
      | pass st nowMs n todo gatedPending toExecute hpass =>
          refine hsame rfl ?_
          cases gatedPending with
          | none => trivial
          | some id => exact hwaits
      | reject st nowMs n todo gatedPending toExecute hgated hrej =>
          refine hsame rfl ?_
          cases gatedPending with
          | none => trivial
          | some id => exact hwaits
      | wait st nowMs n todo gatedPending toExecute hgated hund =>
          rw [hdec] at hund
          exact hsame rfl hund
      | request st nowMs n todo toExecute =>
          have hworld : (world.perform args st (.request n nowMs)).approvals =
              world.approvals.request (approvalKey args.runId n.nodeId) args.runId n.nodeId
                n.actionRef nowMs := by
            simp [World.perform, happ]
          refine ⟨⟨_, rfl⟩, by rw [hworld]; exact hgrown.request _ _ _, ?_⟩
          rintro c'' ⟨⟩
          rw [hworld]
          exact hgrown.asked hwaits _ _
      | await st nowMs id toExecute => exact hsame rfl hwaits
      | _ => exact hsame rfl trivial
  | start => cases htick
  | crash => cases htick
  | op => cases htick
  | write => cases htick

end Session

/-- **When a waiting call leaves a pending record.** Take any approval store, whatever history it
comes from, and a call with it that returns `AwaitingApproval` for `n`. The store then holds a
pending record of exactly the run and `n`, which `decide` can settle, if and only if before the call
it held a record of the pair or no record had the approval id of the pair. And another pair has the
same approval id exactly when the run ids continue one another after a colon and the node ids make
up for it. -/
theorem awaiting_has_pending_iff (sj : SerdeJson) (world : World) (args : CallArgs)
    (acts : List SessionAct) (s : Session) (st : LoopState) (n : NodeId)
    (happ : args.approvals = true) (hacts : ∀ a ∈ acts, a.isTick = true)
    (hrun : (session sj).run ⟨world, none, []⟩ (.start args :: acts) = some s)
    (hstop : s.call = some (args, ⟨st, .stopped (.awaitingApproval n)⟩)) :
    ((∃ row ∈ s.world.approvals.rows, row.runId = args.runId ∧ row.nodeId = n ∧
        row.status = .pending ∧
        ∀ approved nowMs, (s.world.approvals.decide row.approvalId approved nowMs).2 = true) ↔
      (∃ row ∈ world.approvals.rows, row.runId = args.runId ∧ row.nodeId = n) ∨
        ∀ row ∈ world.approvals.rows, row.approvalId ≠ approvalKey args.runId n) ∧
    ∀ r' n', (r', n') ≠ (args.runId, n) →
      (approvalKey args.runId n = approvalKey r' n' ↔
        (∃ m, r' = args.runId ++ ":" ++ m ∧ n = m ++ ":" ++ n') ∨
          ∃ m, args.runId = r' ++ ":" ++ m ∧ n' = m ++ ":" ++ n) := by
  obtain ⟨s₁, hstart, hrest⟩ := (session sj).run_cons_eq_some.mp hrun
  have hfirst : s₁.Waits args world.approvals := by
    cases Session.moves_of_step hstart with
    | start =>
        refine ⟨⟨_, rfl⟩, ⟨fun _ hrow => hrow, fun _ hrow => .inl hrow⟩, ?_⟩
        rintro c ⟨⟩
        trivial
  have hwaits : s.Waits args world.approvals := (session sj).run_inv
    (fun s a s' h htick hstep => Session.waits_of_moves happ htick (Session.moves_of_step hstep) h)
    hfirst ((session sj).along_of_forall hacts) hrest
  have hiff := hwaits.grown.hasPending_iff (hwaits.waits _ hstop)
  constructor
  · refine Iff.trans ⟨?_, ?_⟩ hiff
    · rintro ⟨row, hrow, hr, hn, hstatus, -⟩
      exact ⟨row, hrow, hr, hn, hstatus⟩
    · rintro ⟨row, hrow, hr, hn, hstatus⟩
      exact ⟨row, hrow, hr, hn, hstatus, ApprovalStore.decide_of_pending hrow hstatus⟩
  · intro r' n' hne
    rw [approvalKey_eq_iff]
    constructor
    · rintro (⟨rfl, rfl⟩ | h)
      · exact absurd rfl hne
      · exact h
    · exact .inr

/-- One node that waits for an approval. -/
def gatedGraph (id : NodeId) : WorkflowGraph where
  id := "wf.gated"
  version := 1
  name := "Gated"
  entryNode := id
  nodes := [⟨id, "cmd:deploy", [], none, true⟩]
  edges := []

/-- The steps of a call on `gatedGraph` that asks for the approval and returns. -/
def gatedActs : List SessionAct :=
  [.tick (.poll false 0), .tick (.advance 0), .tick (.advance 0), .tick (.advance 0)]

/-- A gated node is executed after its approval. -/
theorem executed_only_approved_gated :
    ∃ s s' x, (session .withoutFloats).run ⟨⟨.empty, .empty⟩, none, []⟩
        (.start ⟨gatedGraph "c", "a", true⟩ :: gatedActs ++ [.op (.decide "a:c" true 1),
          .start ⟨gatedGraph "c", "a", true⟩, .tick (.poll false 2), .tick (.advance 2),
          .tick (.poll false 2)]) = some s ∧
      (session .withoutFloats).step s (.tick (.execute 0 (.ok .null))) = some s' ∧
      s'.log = s.log ++ [x] ∧ ∃ row ∈ s.world.approvals.rows, row.runId = x.runId ∧
        row.nodeId = x.node.nodeId ∧ row.status = .approved :=
  ⟨_, _, ⟨"a", ⟨"c", "cmd:deploy", [], none, true⟩, .empty, .ok .null⟩, rfl, rfl, rfl,
    (executed_only_approved .withoutFloats ⟨.empty, .empty⟩ (.start ⟨gatedGraph "c", "a", true⟩ ::
      gatedActs ++ [.op (.decide "a:c" true 1), .start ⟨gatedGraph "c", "a", true⟩,
        .tick (.poll false 2), .tick (.advance 2), .tick (.poll false 2)]) _ _
      (.tick (.execute 0 (.ok .null))) _ rfl rfl rfl rfl).2.1⟩

/-- A call of run `a` that waits for `b:c` leaves a pending record in an empty store. -/
theorem awaiting_has_pending_gated :
    ∃ s, (session .withoutFloats).run ⟨⟨.empty, .empty⟩, none, []⟩
        (.start ⟨gatedGraph "b:c", "a", true⟩ :: gatedActs) = some s ∧
      ∃ row ∈ s.world.approvals.rows, row.runId = "a" ∧ row.nodeId = "b:c" ∧
        row.status = .pending ∧
        ∀ approved nowMs, (s.world.approvals.decide row.approvalId approved nowMs).2 = true :=
  ⟨_, rfl, (awaiting_has_pending_iff .withoutFloats ⟨.empty, .empty⟩
    ⟨gatedGraph "b:c", "a", true⟩ gatedActs _ _ "b:c" rfl (by decide) rfl rfl).1.mpr
      (.inr (by decide))⟩

/-- After run `a:b` has asked for its node `c`, run `a` returns `AwaitingApproval` for `b:c` and the
store has no record of it: both approval ids are `a:b:c`. -/
theorem awaiting_without_record :
    ¬ ∀ (ops : List ApprovalOp) (args : CallArgs) (acts : List SessionAct) (s : Session)
      (st : LoopState) (n : NodeId), args.approvals = true → (∀ a ∈ acts, a.isTick = true) →
      (session .withoutFloats).run ⟨⟨.empty, ApprovalStore.after .empty ops⟩, none, []⟩
        (.start args :: acts) = some s →
      s.call = some (args, ⟨st, .stopped (.awaitingApproval n)⟩) →
      ∃ row ∈ s.world.approvals.rows, row.runId = args.runId ∧ row.nodeId = n ∧
        row.status = .pending := by
  intro h
  have hrow := h [.request (approvalKey "a:b" "c") "a:b" "c" "cmd:deploy" 0]
    ⟨gatedGraph "b:c", "a", true⟩ gatedActs _ _ "b:c" rfl (by decide) rfl rfl
  revert hrow
  decide

end AuraLauncher.Workflow
