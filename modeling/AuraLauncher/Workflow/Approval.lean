import AuraLauncher.Lib.Table
import AuraLauncher.Workflow.Graph
import Mathlib.Data.List.Sort

/-!
# The approval store

`approval.rs`: durable approval requests. A row is keyed by its approval id and leaves the pending
status once.

* `ApprovalStore.request`, `requestWithExpiry`, `decide`, `cancel`, `expireBefore` — the five
  statements that write; `decisionFor` and `pending` — the two that read. The three updates are
  instances of `settleWhere`, which touches pending rows only.
* `ApprovalOp`, `ApprovalStore.perform`, `ApprovalStore.after` — the operations as data, and the
  store after a sequence of them.
* `statusOf_perform` — what one operation can do to the status of a row: nothing, create it as
  pending, or settle it while it is pending.
* `approvals_are_one_shot` — the run-level law: a settled status stays, and `decide` answers `true`
  at most once for each id, exactly when it moves the row from pending to what was asked.
* `approved_perform`, `decisionFor_request` — what the scheduler's results rest on: an approval is
  never withdrawn, and a request never changes a decision.
-/

namespace AuraLauncher.Workflow

open AuraLauncher.Lib

/-- Source: `approval.rs`, `ApprovalStatus`. -/
inductive ApprovalStatus
  | pending
  | approved
  | rejected
  deriving DecidableEq, Repr

/-- What the store shows of a row. Source: `approval.rs`, `ApprovalRecord`. -/
structure ApprovalRecord where
  approvalId : String
  runId : String
  nodeId : NodeId
  actionRef : String
  status : ApprovalStatus
  deriving DecidableEq, Repr

/-- A row of `approvals`. Source: `approval.rs`, `ApprovalStore::open` (the schema). -/
structure ApprovalRow where
  approvalId : String
  runId : String
  nodeId : NodeId
  actionRef : String
  status : ApprovalStatus
  updatedMs : ℤ
  expiresMs : Option ℤ
  deriving DecidableEq, Repr

/-- The table of approvals, keyed by approval id. Source: `approval.rs`, `ApprovalStore`. -/
abbrev ApprovalStore := Table ApprovalRow.approvalId

namespace ApprovalStore

/-! ## The statements -/

/-- Source: `approval.rs`, `ApprovalStore::request`. -/
def request (s : ApprovalStore) (approvalId runId nodeId actionRef : String) (nowMs : ℤ) :
    ApprovalStore :=
  s.insertOrIgnore ⟨approvalId, runId, nodeId, actionRef, .pending, nowMs, none⟩

/-- Source: `approval.rs`, `ApprovalStore::request_with_expiry`. -/
def requestWithExpiry (s : ApprovalStore) (approvalId runId nodeId actionRef : String)
    (expiresMs nowMs : ℤ) : ApprovalStore :=
  s.insertOrIgnore ⟨approvalId, runId, nodeId, actionRef, .pending, nowMs, some expiresMs⟩

/-- `UPDATE approvals SET status = …, updated_ms = … WHERE p AND status = 'pending'`, with the
number of rows updated. -/
def settleWhere (s : ApprovalStore) (p : ApprovalRow → Bool) (status : ApprovalStatus) (nowMs : ℤ) :
    ApprovalStore × ℕ :=
  let due := fun row : ApprovalRow => p row && decide (row.status = .pending)
  (s.updateWhere due (fun row => { row with status, updatedMs := nowMs }) fun _ => rfl, s.count due)

/-- Source: `approval.rs`, `ApprovalStore::expire_before`. -/
def expireBefore (s : ApprovalStore) (nowMs : ℤ) : ApprovalStore × ℕ :=
  s.settleWhere (fun row => row.expiresMs.any fun expires => decide (expires < nowMs)) .rejected
    nowMs

/-- Source: `approval.rs`, `ApprovalStore::cancel`. -/
def cancel (s : ApprovalStore) (approvalId : String) (nowMs : ℤ) : ApprovalStore × Bool :=
  let (s', n) := s.settleWhere (fun row => decide (row.approvalId = approvalId)) .rejected nowMs
  (s', decide (0 < n))

/-- Source: `approval.rs`, `ApprovalStore::decide`. -/
def decide (s : ApprovalStore) (approvalId : String) (approved : Bool) (nowMs : ℤ) :
    ApprovalStore × Bool :=
  let (s', n) := s.settleWhere (fun row => Decidable.decide (row.approvalId = approvalId))
    (if approved then .approved else .rejected) nowMs
  (s', Decidable.decide (0 < n))

/-- The status of the first row for a run and a node; the table has no index on them, so SQLite
scans it in insertion order. Source: `approval.rs`, `ApprovalStore::decision_for`. -/
def decisionFor (s : ApprovalStore) (runId nodeId : String) : Option ApprovalStatus :=
  (s.first? fun row => Decidable.decide (row.runId = runId ∧ row.nodeId = nodeId)).map (·.status)

/-- The pending approvals, oldest update first. Source: `approval.rs`, `ApprovalStore::pending`. -/
def pending (s : ApprovalStore) : List ApprovalRecord :=
  ((s.rows.filter fun row => Decidable.decide (row.status = .pending)).insertionSort
    fun a b => a.updatedMs ≤ b.updatedMs).map
      fun row => ⟨row.approvalId, row.runId, row.nodeId, row.actionRef, .pending⟩

theorem mem_pending {s : ApprovalStore} {record : ApprovalRecord} :
    record ∈ s.pending ↔ ∃ row ∈ s.rows, row.status = .pending ∧
      record = ⟨row.approvalId, row.runId, row.nodeId, row.actionRef, .pending⟩ := by
  unfold pending
  rw [List.mem_map]
  constructor
  · rintro ⟨row, hrow, rfl⟩
    rw [List.mem_insertionSort, List.mem_filter] at hrow
    exact ⟨row, hrow.1, by simpa using hrow.2, rfl⟩
  · rintro ⟨row, hrow, hstatus, rfl⟩
    refine ⟨row, ?_, rfl⟩
    rw [List.mem_insertionSort, List.mem_filter]
    exact ⟨hrow, by simpa using hstatus⟩

/-- The status of the row with an approval id. -/
def statusOf (s : ApprovalStore) (approvalId : String) : Option ApprovalStatus :=
  (s.find? approvalId).map (·.status)

end ApprovalStore

/-! ## Operations as data -/

/-- One call of an operation that writes, with the clock reading it used. -/
inductive ApprovalOp
  | request (approvalId runId nodeId actionRef : String) (nowMs : ℤ)
  | requestWithExpiry (approvalId runId nodeId actionRef : String) (expiresMs nowMs : ℤ)
  | decide (approvalId : String) (approved : Bool) (nowMs : ℤ)
  | cancel (approvalId : String) (nowMs : ℤ)
  | expireBefore (nowMs : ℤ)

/-- What an operation answers. -/
inductive ApprovalReply
  | unit
  | moved (b : Bool)
  | count (n : ℕ)
  deriving DecidableEq

namespace ApprovalStore

/-- One operation with its answer. -/
def perform (s : ApprovalStore) : ApprovalOp → ApprovalStore × ApprovalReply
  | .request id runId nodeId actionRef nowMs => (s.request id runId nodeId actionRef nowMs, .unit)
  | .requestWithExpiry id runId nodeId actionRef expiresMs nowMs =>
      (s.requestWithExpiry id runId nodeId actionRef expiresMs nowMs, .unit)
  | .decide id approved nowMs => ((s.decide id approved nowMs).1,
      .moved (s.decide id approved nowMs).2)
  | .cancel id nowMs => ((s.cancel id nowMs).1, .moved (s.cancel id nowMs).2)
  | .expireBefore nowMs => ((s.expireBefore nowMs).1, .count (s.expireBefore nowMs).2)

/-- The store after a sequence of operations. -/
def after (s : ApprovalStore) (ops : List ApprovalOp) : ApprovalStore :=
  ops.foldl (fun s op => (s.perform op).1) s

/-- The operations of a sequence with their answers. -/
def history (s : ApprovalStore) : List ApprovalOp → List (ApprovalOp × ApprovalReply)
  | [] => []
  | op :: ops => (op, (s.perform op).2) :: history (s.perform op).1 ops

theorem after_append (s : ApprovalStore) (ops ops' : List ApprovalOp) :
    s.after (ops ++ ops') = (s.after ops).after ops' :=
  List.foldl_append

/-! ## What one operation does -/

theorem statusOf_eq_some_iff {s : ApprovalStore} {id : String} {status : ApprovalStatus} :
    s.statusOf id = some status ↔ ∃ row ∈ s.rows, row.approvalId = id ∧ row.status = status := by
  unfold statusOf
  rw [Option.map_eq_some_iff]
  simp only [Table.find?_eq_some_iff, and_assoc]

theorem statusOf_eq_none_iff {s : ApprovalStore} {id : String} :
    s.statusOf id = none ↔ ∀ row ∈ s.rows, row.approvalId ≠ id := by
  unfold statusOf
  rw [Option.map_eq_none_iff, Table.find?_eq_none_iff]

/-- Inserting a pending row leaves the status of every id, or gives a new id the pending status. -/
theorem statusOf_insertOrIgnore (s : ApprovalStore) (row : ApprovalRow)
    (hrow : row.status = .pending) (id : String) :
    statusOf (s.insertOrIgnore row) id = s.statusOf id ∨
      (s.statusOf id = none ∧ statusOf (s.insertOrIgnore row) id = some .pending) := by
  cases hold : s.statusOf id with
  | some status =>
      obtain ⟨row', hmem, hid, hstatus⟩ := statusOf_eq_some_iff.mp hold
      exact .inl (statusOf_eq_some_iff.mpr
        ⟨row', Table.mem_insertOrIgnore_of_mem hmem, hid, hstatus⟩)
  | none =>
      cases hnew : statusOf (s.insertOrIgnore row) id with
      | none => exact .inl rfl
      | some status =>
          obtain ⟨row', hmem, hid, hstatus⟩ := statusOf_eq_some_iff.mp hnew
          rcases Table.mem_of_mem_insertOrIgnore hmem with hmem | rfl
          · exact absurd hid (statusOf_eq_none_iff.mp hold row' hmem)
          · exact .inr ⟨rfl, by rw [← hstatus, hrow]⟩

/-- A settling update changes the status of the pending rows it selects and of no other row. -/
theorem statusOf_settleWhere (s : ApprovalStore) (p : ApprovalRow → Bool)
    (status : ApprovalStatus) (nowMs : ℤ) (id : String) :
    (s.settleWhere p status nowMs).1.statusOf id =
      (s.find? id).map fun row => if p row ∧ row.status = .pending then status else row.status := by
  have hfind : (s.settleWhere p status nowMs).1.find? id = (s.find? id).map fun row =>
      if p row && Decidable.decide (row.status = .pending)
      then { row with status, updatedMs := nowMs } else row :=
    Table.first?_updateWhere (f := fun row : ApprovalRow => { row with status, updatedMs := nowMs })
      (fun _ => rfl) fun _ => rfl
  unfold statusOf
  rw [hfind, Option.map_map]
  congr 1
  funext row
  by_cases hp : p row <;> by_cases hpend : row.status = .pending <;> simp [hp, hpend]

/-- A settling update leaves the status of an id, or settles it while it is pending. -/
theorem statusOf_settleWhere_cases (s : ApprovalStore) (p : ApprovalRow → Bool)
    (status : ApprovalStatus) (nowMs : ℤ) (id : String) :
    (s.settleWhere p status nowMs).1.statusOf id = s.statusOf id ∨
      (s.statusOf id = some .pending ∧
        (s.settleWhere p status nowMs).1.statusOf id = some status) := by
  rw [statusOf_settleWhere]
  unfold statusOf
  cases s.find? id with
  | none => exact .inl rfl
  | some row =>
      by_cases hrow : p row ∧ row.status = .pending
      · exact .inr ⟨by simp [hrow.2], by simp [hrow]⟩
      · exact .inl (by simp [hrow])

/-- **What an operation can do to the status of an id**: leave it, create it as pending, or settle
it while it is pending. -/
theorem statusOf_perform (s : ApprovalStore) (op : ApprovalOp) (id : String) :
    (s.perform op).1.statusOf id = s.statusOf id ∨
      (s.statusOf id = none ∧ (s.perform op).1.statusOf id = some .pending) ∨
      (s.statusOf id = some .pending ∧
        ∃ status, status ≠ .pending ∧ (s.perform op).1.statusOf id = some status) := by
  have hsettle : ∀ p status nowMs, status ≠ ApprovalStatus.pending →
      (s.settleWhere p status nowMs).1.statusOf id = s.statusOf id ∨
      (s.statusOf id = none ∧ (s.settleWhere p status nowMs).1.statusOf id = some .pending) ∨
      (s.statusOf id = some .pending ∧
        ∃ status', status' ≠ .pending ∧
          (s.settleWhere p status nowMs).1.statusOf id = some status') := by
    intro p status nowMs hstatus
    rcases statusOf_settleWhere_cases s p status nowMs id with h | ⟨hpend, h⟩
    · exact .inl h
    · exact .inr (.inr ⟨hpend, status, hstatus, h⟩)
  cases op with
  | request => exact (statusOf_insertOrIgnore s _ rfl id).imp_right .inl
  | requestWithExpiry => exact (statusOf_insertOrIgnore s _ rfl id).imp_right .inl
  | decide id' approved nowMs => exact hsettle _ _ nowMs (by cases approved <;> simp)
  | cancel id' nowMs => exact hsettle _ _ nowMs (by simp)
  | expireBefore nowMs => exact hsettle _ _ nowMs (by simp)

/-- An operation keeps a settled status. -/
theorem statusOf_perform_of_settled {s : ApprovalStore} {id : String} {status : ApprovalStatus}
    (h : s.statusOf id = some status) (hstatus : status ≠ .pending) (op : ApprovalOp) :
    (s.perform op).1.statusOf id = some status := by
  rcases statusOf_perform s op id with heq | ⟨hnone, -⟩ | ⟨hpend, -⟩
  · rw [heq, h]
  · rw [h] at hnone
    cases hnone
  · rw [h] at hpend
    exact absurd (Option.some.inj hpend) hstatus

/-- A sequence of operations keeps a settled status. -/
theorem statusOf_after_of_settled {s : ApprovalStore} {id : String} {status : ApprovalStatus}
    (h : s.statusOf id = some status) (hstatus : status ≠ .pending) (ops : List ApprovalOp) :
    (s.after ops).statusOf id = some status := by
  induction ops generalizing s with
  | nil => exact h
  | cons op ops ih => exact ih (statusOf_perform_of_settled h hstatus op)

/-- **When `decide` answers `true`**: the row was pending, and now has the status asked for. -/
theorem decide_accepted {s : ApprovalStore} {id : String} {approved : Bool} {nowMs : ℤ}
    (h : (s.decide id approved nowMs).2 = true) :
    s.statusOf id = some .pending ∧
      (s.decide id approved nowMs).1.statusOf id =
        some (if approved then .approved else .rejected) := by
  have hcount : 0 < s.count fun row =>
      Decidable.decide (row.approvalId = id) && Decidable.decide (row.status = .pending) :=
    of_decide_eq_true h
  obtain ⟨row, hmem, hrow⟩ := Table.count_pos_iff.mp hcount
  simp only [Bool.and_eq_true, decide_eq_true_eq] at hrow
  refine ⟨statusOf_eq_some_iff.mpr ⟨row, hmem, hrow⟩, ?_⟩
  have hfind : s.find? id = some row := Table.find?_eq_some_iff.mpr ⟨hmem, hrow.1⟩
  show (s.settleWhere _ _ nowMs).1.statusOf id = _
  rw [statusOf_settleWhere, hfind]
  simp [hrow]

/-- A pending row can be decided. -/
theorem decide_of_pending {s : ApprovalStore} {row : ApprovalRow} (hmem : row ∈ s.rows)
    (hrow : row.status = .pending) (approved : Bool) (nowMs : ℤ) :
    (s.decide row.approvalId approved nowMs).2 = true := by
  have hcount : 0 < s.count fun row' => Decidable.decide (row'.approvalId = row.approvalId) &&
      Decidable.decide (row'.status = .pending) :=
    Table.count_pos_iff.mpr ⟨row, hmem, by simp [hrow]⟩
  exact decide_eq_true hcount

/-! ## Sequences of operations -/

/-- Whether an operation of a history is a decision about `id` that was answered `true`. -/
def accepted (id : String) : ApprovalOp × ApprovalReply → Bool
  | (.decide id' _ _, .moved true) => Decidable.decide (id' = id)
  | _ => false

theorem accepted_perform {s : ApprovalStore} {id : String} {op : ApprovalOp}
    (h : accepted id (op, (s.perform op).2) = true) :
    s.statusOf id = some .pending ∧
      ∃ status, status ≠ .pending ∧ (s.perform op).1.statusOf id = some status := by
  cases op with
  | decide id' approved nowMs =>
      cases hreply : (s.decide id' approved nowMs).2 with
      | false => simp [perform, hreply, accepted] at h
      | true =>
          obtain rfl : id' = id := by simpa [perform, hreply, accepted] using h
          obtain ⟨hbefore, hafter⟩ := decide_accepted hreply
          exact ⟨hbefore, _, by cases approved <;> simp, hafter⟩
  | request => cases h
  | requestWithExpiry => cases h
  | cancel id' nowMs => cases h
  | expireBefore nowMs => cases h

/-- Once an id is settled, no decision about it is answered `true`. -/
theorem accepted_count_of_settled {s : ApprovalStore} {id : String} {status : ApprovalStatus}
    (h : s.statusOf id = some status) (hstatus : status ≠ .pending) (ops : List ApprovalOp) :
    (s.history ops).countP (accepted id) = 0 := by
  induction ops generalizing s with
  | nil => rfl
  | cons op ops ih =>
      have hnot : accepted id (op, (s.perform op).2) = false := by
        rw [Bool.eq_false_iff]
        intro hacc
        have hpend := (accepted_perform hacc).1
        rw [h] at hpend
        exact hstatus (Option.some.inj hpend)
      rw [history, List.countP_cons_of_neg (by simp [hnot])]
      exact ih (statusOf_perform_of_settled h hstatus op)

theorem accepted_count_le_one (s : ApprovalStore) (id : String) (ops : List ApprovalOp) :
    (s.history ops).countP (accepted id) ≤ 1 := by
  induction ops generalizing s with
  | nil => simp [history]
  | cons op ops ih =>
      rw [history]
      by_cases hacc : accepted id (op, (s.perform op).2) = true
      · obtain ⟨-, status, hstatus, hafter⟩ := accepted_perform hacc
        rw [List.countP_cons_of_pos hacc, accepted_count_of_settled hafter hstatus]
      · rw [List.countP_cons_of_neg hacc]
        exact ih (s.perform op).1

/-- **The approval store is a one-shot state machine.** Over every sequence of operations on every
store: a status other than pending stays; `decide` is answered `true` at most once for each approval
id; and when it is, the row was pending right before and has the requested status right after. -/
theorem approvals_are_one_shot (s : ApprovalStore) (ops : List ApprovalOp) :
    (∀ pre post id status, ops = pre ++ post → (s.after pre).statusOf id = some status →
      status ≠ .pending → (s.after ops).statusOf id = some status) ∧
    (∀ id, (s.history ops).countP (accepted id) ≤ 1) ∧
    (∀ pre post id approved nowMs, ops = pre ++ .decide id approved nowMs :: post →
      ((s.after pre).decide id approved nowMs).2 = true →
        (s.after pre).statusOf id = some .pending ∧
        (s.after (pre ++ [.decide id approved nowMs])).statusOf id =
          some (if approved then .approved else .rejected)) := by
  refine ⟨?_, fun id => accepted_count_le_one s id ops, ?_⟩
  · rintro pre post id status rfl hpre hstatus
    rw [after_append]
    exact statusOf_after_of_settled hpre hstatus post
  · intro pre post id approved nowMs _ hreply
    rw [after_append]
    exact decide_accepted hreply

/-! ## What the scheduler rests on -/

/-- The store holds an approved row for a run and a node. -/
def Approved (s : ApprovalStore) (runId : String) (nodeId : NodeId) : Prop :=
  ∃ row ∈ s.rows, row.runId = runId ∧ row.nodeId = nodeId ∧ row.status = .approved

/-- A decision is the status of a row. -/
theorem exists_of_decisionFor {s : ApprovalStore} {runId : String} {nodeId : NodeId}
    {status : ApprovalStatus} (h : s.decisionFor runId nodeId = some status) :
    ∃ row ∈ s.rows, row.runId = runId ∧ row.nodeId = nodeId ∧ row.status = status := by
  obtain ⟨row, hfirst, hstatus⟩ := Option.map_eq_some_iff.mp h
  have hrow := List.find?_some hfirst
  simp only [decide_eq_true_eq] at hrow
  exact ⟨row, List.mem_of_find?_eq_some hfirst, hrow.1, hrow.2, hstatus⟩

theorem approved_of_decisionFor {s : ApprovalStore} {runId : String} {nodeId : NodeId}
    (h : s.decisionFor runId nodeId = some .approved) : s.Approved runId nodeId :=
  exists_of_decisionFor h

theorem approved_settleWhere {s : ApprovalStore} {runId : String} {nodeId : NodeId}
    (h : s.Approved runId nodeId) (p : ApprovalRow → Bool) (status : ApprovalStatus) (nowMs : ℤ) :
    (s.settleWhere p status nowMs).1.Approved runId nodeId := by
  obtain ⟨row, hmem, hrun, hnode, hstatus⟩ := h
  refine ⟨row, ?_, hrun, hnode, hstatus⟩
  exact Table.mem_updateWhere_of_not (f := fun row : ApprovalRow =>
    { row with status, updatedMs := nowMs }) (fun _ => rfl) hmem (by simp [hstatus])

/-- An approval, once given, is there after every operation. -/
theorem approved_perform {s : ApprovalStore} {runId : String} {nodeId : NodeId}
    (h : s.Approved runId nodeId) (op : ApprovalOp) : (s.perform op).1.Approved runId nodeId := by
  have hinsert : ∀ row, Approved (s.insertOrIgnore row) runId nodeId := by
    obtain ⟨row, hmem, hrow⟩ := h
    exact fun row' => ⟨row, Table.mem_insertOrIgnore_of_mem hmem, hrow⟩
  cases op with
  | request => exact hinsert _
  | requestWithExpiry => exact hinsert _
  | decide => exact approved_settleWhere h _ _ _
  | cancel => exact approved_settleWhere h _ _ _
  | expireBefore => exact approved_settleWhere h _ _ _

/-- A request changes no decision that is not pending: a scan that found a row finds it again, and a
scan that found nothing can only find the new pending row. -/
theorem decisionFor_request (s : ApprovalStore) (id runId nodeId actionRef : String) (nowMs : ℤ)
    (runId' nodeId' : String) :
    (s.request id runId nodeId actionRef nowMs).decisionFor runId' nodeId' =
        s.decisionFor runId' nodeId' ∨
      (s.decisionFor runId' nodeId' = none ∧
        (s.request id runId nodeId actionRef nowMs).decisionFor runId' nodeId' =
          some .pending) := by
  unfold decisionFor request
  cases hold : s.first? fun row =>
      Decidable.decide (row.runId = runId' ∧ row.nodeId = nodeId') with
  | some row =>
      rw [Table.first?_insertOrIgnore_of_some hold]
      exact .inl rfl
  | none =>
      cases hnew : (s.insertOrIgnore ⟨id, runId, nodeId, actionRef, .pending, nowMs, none⟩).first?
          fun row => Decidable.decide (row.runId = runId' ∧ row.nodeId = nodeId') with
      | none => exact .inl rfl
      | some row =>
          rw [Table.eq_of_first?_insertOrIgnore hold hnew]
          exact .inr ⟨rfl, rfl⟩

end ApprovalStore

end AuraLauncher.Workflow
