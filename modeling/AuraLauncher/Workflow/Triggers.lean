import AuraLauncher.Lib.Machine
import AuraLauncher.Workflow.Json
import Mathlib.Data.List.Nodup

/-!
# The trigger queue

Trigger events from any source land in a table, and the workflow service takes them out again. Any
number of handles may be open on the table; each keeps its own connection behind a lock, so the
statements of one call of a handle are never mixed with those of another call of the same handle,
but they are mixed with the statements of the others.

* `TriggerDb` — the table with its `AUTOINCREMENT` counter; the rows stand in the order of their
  ids, which is the order they were inserted in.
* `Queue` — the table, the row each handle has selected and not yet marked, and the events returned
  so far. `QueueAction` has one action for each statement.
* `queue` — the machine; a handle in the middle of a `dequeue` can only go on with it.
* `Queue.Sound` — what every run keeps, whatever the schedule.
* `Unmarked` — the steps that mark a row which is not marked yet.
* `dequeue_exactlyOnce_iff` — a run that drains the queue returned each event exactly once if and
  only if all its steps are of that kind; and each handle sees the events in the order of the
  table.
-/

namespace AuraLauncher.Workflow

open AuraLauncher.Lib

/-- Source: `triggers.rs`, `TriggerKind`. -/
inductive TriggerKind
  | hotkey
  | plugin
  | schedule
  | aiMcp
  deriving DecidableEq, Repr

namespace TriggerKind

/-- Source: `triggers.rs`, `TriggerKind::as_str`. -/
def asStr : TriggerKind → String
  | hotkey => "hotkey"
  | plugin => "plugin"
  | schedule => "schedule"
  | aiMcp => "ai_mcp"

/-- Source: `triggers.rs`, `TriggerKind::parse`. -/
def parse : String → Option TriggerKind
  | "hotkey" => some hotkey
  | "plugin" => some plugin
  | "schedule" => some schedule
  | "ai_mcp" => some aiMcp
  | _ => none

@[simp] theorem parse_asStr (k : TriggerKind) : parse k.asStr = some k := by
  cases k <;> rfl

end TriggerKind

/-! ## The table -/

/-- A row of `trigger_queue`. The text of the input is kept as the value it is the text of. -/
structure TriggerRow where
  id : ℕ
  kind : String
  workflowId : String
  input : Json
  queuedAtMs : ℤ
  consumed : Bool := false

/-- Source: `triggers.rs`, `TriggerEvent`. -/
structure TriggerEvent where
  id : ℕ
  kind : TriggerKind
  /-- The workflow this event asks to start. -/
  workflowId : String
  input : Json
  queuedAtMs : ℤ

/-- The event a row is read as. Source: `triggers.rs`, `TriggerQueue::dequeue`. -/
def TriggerRow.event (serde : SerdeJson) (r : TriggerRow) : TriggerEvent where
  id := r.id
  kind := (TriggerKind.parse r.kind).getD .plugin
  workflowId := r.workflowId
  input := (serde.reread r.input).getD .null
  queuedAtMs := r.queuedAtMs

/-- The table `trigger_queue` and the largest id it ever had. -/
structure TriggerDb where
  /-- The rows in the order of their ids. -/
  rows : List TriggerRow
  /-- The counter of `AUTOINCREMENT`. -/
  seq : ℕ
  /-- The ids grow. -/
  increasing : rows.Pairwise fun r r' => r.id < r'.id
  /-- None is beyond the counter. -/
  le_seq : ∀ r ∈ rows, r.id ≤ seq

namespace TriggerDb

/-- The table after `CREATE TABLE`. -/
def empty : TriggerDb := ⟨[], 0, List.Pairwise.nil, by simp⟩

/-- The `INSERT` of an enqueue. Source: `triggers.rs`, `TriggerQueue::enqueue`. -/
def insert (db : TriggerDb) (kind : TriggerKind) (workflowId : String) (input : Json) (now : ℤ) :
    TriggerDb where
  rows := db.rows ++ [⟨db.seq + 1, kind.asStr, workflowId, input, now, false⟩]
  seq := db.seq + 1
  increasing := by
    refine List.pairwise_append.mpr ⟨db.increasing, List.pairwise_singleton _ _, ?_⟩
    intro r hr r' hr'
    rw [List.mem_singleton.mp hr']
    exact Nat.lt_succ_of_le (db.le_seq r hr)
  le_seq := by
    intro r hr
    rcases List.mem_append.mp hr with hr | hr
    · exact Nat.le_succ_of_le (db.le_seq r hr)
    · rw [List.mem_singleton.mp hr]

/-- The id `enqueue` returns. Source: `Connection::last_insert_rowid`. -/
def lastInsertRowid (db : TriggerDb) : ℕ := db.seq

/-- The `SELECT` of a dequeue: the row with the smallest id that is not consumed.
Source: `triggers.rs`, `TriggerQueue::dequeue`. -/
def oldest (db : TriggerDb) : Option TriggerRow := db.rows.find? fun r => !r.consumed

/-- A row as the `UPDATE` of a dequeue leaves it. -/
def markRow (id : ℕ) (r : TriggerRow) : TriggerRow :=
  if r.id = id then { r with consumed := true } else r

/-- The `UPDATE` of a dequeue. Source: `triggers.rs`, `TriggerQueue::dequeue`. -/
def mark (db : TriggerDb) (id : ℕ) : TriggerDb where
  rows := db.rows.map (markRow id)
  seq := db.seq
  increasing := by
    have hid : ∀ r, (markRow id r).id = r.id := fun r => by unfold markRow; split_ifs <;> rfl
    simpa only [List.pairwise_map, hid] using db.increasing
  le_seq := by
    intro r hr
    obtain ⟨r', hr', rfl⟩ := List.mem_map.mp hr
    have hid : (markRow id r').id = r'.id := by unfold markRow; split_ifs <;> rfl
    rw [hid]
    exact db.le_seq r' hr'

/-- Source: `triggers.rs`, `TriggerQueue::pending`. -/
def pending (db : TriggerDb) : ℕ := db.rows.countP fun r => !r.consumed

end TriggerDb

/-! ## Handles and statements -/

/-- The table and the handles `H` open on it. -/
structure Queue (H : Type) where
  db : TriggerDb
  /-- The row a handle has selected and is about to mark, while it holds its lock. -/
  held : H → Option TriggerRow
  /-- What `dequeue` has returned so far, and to which handle, oldest first. -/
  returned : List (H × TriggerEvent)

/-- One SQL statement of a call, or its failure. -/
inductive QueueAction (H : Type)
  /-- The `INSERT` of an `enqueue`. -/
  | enqueue (h : H) (kind : TriggerKind) (workflowId : String) (input : Json) (now : ℤ)
  /-- The `SELECT` of a `dequeue`; without a row the call ends there. -/
  | select (h : H)
  /-- The `UPDATE` of a `dequeue`, after which the call returns the event. -/
  | update (h : H)
  /-- The next statement of the handle fails, and the call with it. -/
  | fail (h : H)

variable {H : Type} [DecidableEq H]

/-- One statement. A handle that has selected a row still holds its lock, so only the `dequeue`
that selected it can go on. Source: `triggers.rs`, `TriggerQueue::enqueue`, `dequeue`. -/
def queue (H : Type) [DecidableEq H] (serde : SerdeJson) : Machine (Queue H) (QueueAction H) where
  step q
    | .enqueue h kind workflowId input now =>
        if (q.held h).isSome then none
        else some { q with db := q.db.insert kind workflowId input now }
    | .select h =>
        if (q.held h).isSome then none
        else some { q with held := Function.update q.held h q.db.oldest }
    | .update h =>
        match q.held h with
        | none => none
        | some r =>
            some {
              db := q.db.mark r.id
              held := Function.update q.held h none
              returned := q.returned ++ [(h, r.event serde)] }
    | .fail h => some { q with held := Function.update q.held h none }

/-- Handles open on a fresh table. Source: `triggers.rs`, `TriggerQueue::open`. -/
def Queue.fresh (H : Type) : Queue H := ⟨.empty, fun _ => none, []⟩

/-- Nothing is left to take out, and no handle is in the middle of taking something out. -/
def Queue.Drained (q : Queue H) : Prop := q.db.pending = 0 ∧ ∀ h, q.held h = none

/-- The ids of the events returned so far. -/
def Queue.ids (q : Queue H) : List ℕ := q.returned.map fun p => p.2.id

/-- The ids of the events a handle was given, in the order it was given them. -/
def Queue.idsOf (q : Queue H) (h : H) : List ℕ :=
  (q.returned.filter fun p => decide (p.1 = h)).map fun p => p.2.id

/-- The statement does not mark a row that is marked already. -/
def Unmarked (q : Queue H) : QueueAction H → Prop
  | .update h => ∀ r, q.held h = some r → ∀ r' ∈ q.db.rows, r'.id = r.id → r'.consumed = false
  | _ => True

/-! ## What a statement does to the table -/

@[simp] theorem markRow_id (id : ℕ) (r : TriggerRow) : (TriggerDb.markRow id r).id = r.id := by
  unfold TriggerDb.markRow
  split_ifs <;> rfl

@[simp] theorem markRow_event (serde : SerdeJson) (id : ℕ) (r : TriggerRow) :
    (TriggerDb.markRow id r).event serde = r.event serde := by
  unfold TriggerDb.markRow
  split_ifs <;> rfl

theorem markRow_consumed (id : ℕ) (r : TriggerRow) :
    (TriggerDb.markRow id r).consumed = true ↔ r.consumed = true ∨ r.id = id := by
  unfold TriggerDb.markRow
  split_ifs with h <;> simp [h]

theorem TriggerDb.mem_mark {db : TriggerDb} {id : ℕ} {r : TriggerRow} :
    r ∈ (db.mark id).rows ↔ ∃ r' ∈ db.rows, TriggerDb.markRow id r' = r :=
  List.mem_map

theorem TriggerDb.mem_insert {db : TriggerDb} {kind : TriggerKind} {workflowId : String}
    {input : Json} {now : ℤ} {r : TriggerRow} :
    r ∈ (db.insert kind workflowId input now).rows ↔
      r ∈ db.rows ∨ r = ⟨db.seq + 1, kind.asStr, workflowId, input, now, false⟩ := by
  simp [TriggerDb.insert]

/-- The selected row is pending, and every row before it is consumed. -/
theorem TriggerDb.oldest_spec {db : TriggerDb} {r : TriggerRow} (h : db.oldest = some r) :
    r ∈ db.rows ∧ r.consumed = false ∧ ∀ r' ∈ db.rows, r'.id < r.id → r'.consumed = true := by
  obtain ⟨hpending, before, after, hrows, hbefore⟩ := List.find?_eq_some_iff_append.mp h
  refine ⟨List.mem_of_find?_eq_some h, by simpa using hpending, fun r' hr' hlt => ?_⟩
  have hsorted := hrows ▸ db.increasing
  rw [hrows, List.mem_append, List.mem_cons] at hr'
  rcases hr' with hr' | rfl | hr'
  · simpa using hbefore r' hr'
  · exact absurd hlt (Nat.lt_irrefl _)
  · have hgt := List.rel_of_pairwise_cons (List.pairwise_append.mp hsorted).2.1 hr'
    exact absurd hlt (Nat.not_lt.mpr hgt.le)

theorem TriggerDb.eq_of_id_eq (db : TriggerDb) {r r' : TriggerRow} (hr : r ∈ db.rows)
    (hr' : r' ∈ db.rows) (hid : r.id = r'.id) : r = r' := by
  have hnodup : (db.rows.map TriggerRow.id).Nodup :=
    List.pairwise_map.mpr (db.increasing.imp fun h => Nat.ne_of_lt h)
  exact List.inj_on_of_nodup_map hnodup hr hr' hid

theorem TriggerDb.pending_eq_zero {db : TriggerDb} :
    db.pending = 0 ↔ ∀ r ∈ db.rows, r.consumed = true := by
  simp [TriggerDb.pending, List.countP_eq_zero]

/-! ## What every run keeps -/

/-- What holds whatever the schedule: the events returned are those of consumed rows and the other
way round, everything up to a returned event is consumed, and a handle goes forward. -/
structure Queue.Sound (serde : SerdeJson) (q : Queue H) : Prop where
  returned_event : ∀ p ∈ q.returned, ∃ r ∈ q.db.rows, r.consumed = true ∧ r.event serde = p.2
  consumed_returned : ∀ r ∈ q.db.rows, r.consumed = true → r.id ∈ q.ids
  behind : ∀ i ∈ q.ids, ∀ r ∈ q.db.rows, r.id ≤ i → r.consumed = true
  held_row : ∀ h r, q.held h = some r → ∃ r' ∈ q.db.rows, r'.event serde = r.event serde
  held_behind : ∀ h r, q.held h = some r → ∀ r' ∈ q.db.rows, r'.id < r.id → r'.consumed = true
  held_above : ∀ h r, q.held h = some r → ∀ i ∈ q.idsOf h, i < r.id
  ordered : ∀ h, (q.idsOf h).Pairwise (· < ·)

omit [DecidableEq H] in
theorem Queue.mem_ids {q : Queue H} {i : ℕ} : i ∈ q.ids ↔ ∃ p ∈ q.returned, p.2.id = i :=
  List.mem_map

theorem Queue.mem_ids_of_mem_idsOf {q : Queue H} {h : H} {i : ℕ} (hi : i ∈ q.idsOf h) :
    i ∈ q.ids := by
  obtain ⟨p, hp, rfl⟩ := List.mem_map.mp hi
  exact Queue.mem_ids.mpr ⟨p, List.mem_of_mem_filter hp, rfl⟩

variable {serde : SerdeJson}

theorem Queue.fresh_sound : (Queue.fresh H).Sound serde := by
  constructor <;> simp [Queue.fresh, TriggerDb.empty, Queue.ids, Queue.idsOf]

/-- A returned id is one of the table. -/
theorem Queue.Sound.le_seq {q : Queue H} (hq : q.Sound serde) {i : ℕ} (hi : i ∈ q.ids) :
    i ≤ q.db.seq := by
  obtain ⟨p, hp, rfl⟩ := Queue.mem_ids.mp hi
  obtain ⟨r, hr, -, hev⟩ := hq.returned_event p hp
  rw [← hev]
  exact q.db.le_seq r hr

theorem Queue.Sound.held_le_seq {q : Queue H} (hq : q.Sound serde) {h : H} {r : TriggerRow}
    (hr : q.held h = some r) : r.id ≤ q.db.seq := by
  obtain ⟨r', hr', hev⟩ := hq.held_row h r hr
  have hid : r'.id = r.id := congrArg TriggerEvent.id hev
  exact hid ▸ q.db.le_seq r' hr'

theorem Queue.Sound.enqueue {q : Queue H} (hq : q.Sound serde) (kind : TriggerKind)
    (workflowId : String) (input : Json) (now : ℤ) :
    Queue.Sound serde { q with db := q.db.insert kind workflowId input now } where
  returned_event p hp := by
    obtain ⟨r, hr, hrest⟩ := hq.returned_event p hp
    exact ⟨r, TriggerDb.mem_insert.mpr (.inl hr), hrest⟩
  consumed_returned r hr hc := by
    rcases TriggerDb.mem_insert.mp hr with hr | rfl
    · exact hq.consumed_returned r hr hc
    · cases hc
  behind i hi r hr hle := by
    rcases TriggerDb.mem_insert.mp hr with hr | rfl
    · exact hq.behind i hi r hr hle
    · exact absurd hle (Nat.not_le.mpr (Nat.lt_succ_of_le (hq.le_seq hi)))
  held_row h r hr := by
    obtain ⟨r', hr', hrest⟩ := hq.held_row h r hr
    exact ⟨r', TriggerDb.mem_insert.mpr (.inl hr'), hrest⟩
  held_behind h r hr r' hr' hlt := by
    rcases TriggerDb.mem_insert.mp hr' with hr' | rfl
    · exact hq.held_behind h r hr r' hr' hlt
    · exact absurd hlt (Nat.not_lt.mpr (Nat.le_succ_of_le (hq.held_le_seq hr)))
  held_above := hq.held_above
  ordered := hq.ordered

/-- Letting go of a row, or selecting the oldest pending one. -/
theorem Queue.Sound.hold {q : Queue H} (hq : q.Sound serde) (h : H) {row : Option TriggerRow}
    (hrow : ∀ r, row = some r → q.db.oldest = some r) :
    Queue.Sound serde { q with held := Function.update q.held h row } := by
  have hcases : ∀ h' r, Function.update q.held h row h' = some r →
      q.held h' = some r ∨ q.db.oldest = some r := by
    intro h' r hr
    by_cases heq : h' = h
    · subst heq
      rw [Function.update_self] at hr
      exact .inr (hrow r hr)
    · rw [Function.update_of_ne heq] at hr
      exact .inl hr
  refine ⟨hq.returned_event, hq.consumed_returned, hq.behind, ?_, ?_, ?_, hq.ordered⟩
  · intro h' r hr
    rcases hcases h' r hr with hr | hr
    · exact hq.held_row h' r hr
    · exact ⟨r, (TriggerDb.oldest_spec hr).1, rfl⟩
  · intro h' r hr
    rcases hcases h' r hr with hr | hr
    · exact hq.held_behind h' r hr
    · exact (TriggerDb.oldest_spec hr).2.2
  · intro h' r hr i hi
    rcases hcases h' r hr with hr | hr
    · exact hq.held_above h' r hr i hi
    · -- a row up to an event that was returned is consumed, and this one is not
      obtain ⟨hmem, hpending, -⟩ := TriggerDb.oldest_spec hr
      by_contra hle
      have := hq.behind i (Queue.mem_ids_of_mem_idsOf hi) r hmem (Nat.not_lt.mp hle)
      rw [hpending] at this
      cases this

/-- The state after the `UPDATE` for the row `r`, with the event given to `h`. -/
def Queue.deliver (serde : SerdeJson) (q : Queue H) (h : H) (r : TriggerRow) : Queue H where
  db := q.db.mark r.id
  held := Function.update q.held h none
  returned := q.returned ++ [(h, r.event serde)]

theorem Queue.held_deliver (q : Queue H) (h : H) (r : TriggerRow) :
    (q.deliver serde h r).held = Function.update q.held h none := rfl

theorem Queue.ids_deliver (q : Queue H) (h : H) (r : TriggerRow) :
    (q.deliver serde h r).ids = q.ids ++ [r.id] := by
  simp [Queue.deliver, Queue.ids, TriggerRow.event]

theorem Queue.idsOf_deliver_self (q : Queue H) (h : H) (r : TriggerRow) :
    (q.deliver serde h r).idsOf h = q.idsOf h ++ [r.id] := by
  simp [Queue.deliver, Queue.idsOf, List.filter_append, TriggerRow.event]

theorem Queue.idsOf_deliver_of_ne (q : Queue H) {h h' : H} (hne : h' ≠ h) (r : TriggerRow) :
    (q.deliver serde h r).idsOf h' = q.idsOf h' := by
  simp [Queue.deliver, Queue.idsOf, List.filter_append, hne.symm]

theorem Queue.Sound.deliver {q : Queue H} (hq : q.Sound serde) {h : H} {r : TriggerRow}
    (hr : q.held h = some r) : (q.deliver serde h r).Sound serde := by
  obtain ⟨row, hrow, hevent⟩ := hq.held_row h r hr
  have hid : row.id = r.id := congrArg TriggerEvent.id hevent
  have hheld : ∀ h' r', (q.deliver serde h r).held h' = some r' → h' ≠ h ∧ q.held h' = some r' := by
    intro h' r' hr'
    by_cases heq : h' = h
    · rw [heq, Queue.held_deliver, Function.update_self] at hr'
      cases hr'
    · rw [Queue.held_deliver, Function.update_of_ne heq] at hr'
      exact ⟨heq, hr'⟩
  constructor
  case returned_event =>
    intro p hp
    rcases List.mem_append.mp hp with hp | hp
    · obtain ⟨r', hr', hc, hev⟩ := hq.returned_event p hp
      exact ⟨_, TriggerDb.mem_mark.mpr ⟨r', hr', rfl⟩, (markRow_consumed _ _).mpr (.inl hc),
        by rw [markRow_event, hev]⟩
    · rw [List.mem_singleton.mp hp]
      exact ⟨_, TriggerDb.mem_mark.mpr ⟨row, hrow, rfl⟩, (markRow_consumed _ _).mpr (.inr hid),
        by rw [markRow_event, hevent]⟩
  case consumed_returned =>
    intro r' hr' hc
    obtain ⟨r', hmem, rfl⟩ := TriggerDb.mem_mark.mp hr'
    rw [Queue.ids_deliver, markRow_id, List.mem_append, List.mem_singleton]
    exact ((markRow_consumed _ _).mp hc).imp_left (hq.consumed_returned r' hmem)
  case behind =>
    intro i hi r' hr' hle
    obtain ⟨r', hmem, rfl⟩ := TriggerDb.mem_mark.mp hr'
    rw [markRow_id] at hle
    rw [Queue.ids_deliver, List.mem_append, List.mem_singleton] at hi
    rw [markRow_consumed]
    rcases hi with hi | rfl
    · exact .inl (hq.behind i hi r' hmem hle)
    · exact hle.lt_or_eq.imp_left (hq.held_behind h r hr r' hmem)
  case held_row =>
    intro h' r' hr'
    obtain ⟨r'', hmem, hev⟩ := hq.held_row h' r' (hheld h' r' hr').2
    exact ⟨_, TriggerDb.mem_mark.mpr ⟨r'', hmem, rfl⟩, by rw [markRow_event, hev]⟩
  case held_behind =>
    intro h' r' hr' r'' hr'' hlt
    obtain ⟨r'', hmem, rfl⟩ := TriggerDb.mem_mark.mp hr''
    rw [markRow_id] at hlt
    exact (markRow_consumed _ _).mpr
      (.inl (hq.held_behind h' r' (hheld h' r' hr').2 r'' hmem hlt))
  case held_above =>
    intro h' r' hr'
    obtain ⟨hne, hold⟩ := hheld h' r' hr'
    rw [Queue.idsOf_deliver_of_ne q hne]
    exact hq.held_above h' r' hold
  case ordered =>
    intro h'
    by_cases heq : h' = h
    · subst heq
      rw [Queue.idsOf_deliver_self]
      refine List.pairwise_append.mpr ⟨hq.ordered h', List.pairwise_singleton _ _, ?_⟩
      intro i hi j hj
      rw [List.mem_singleton.mp hj]
      exact hq.held_above h' r hr i hi
    · rw [Queue.idsOf_deliver_of_ne q heq]
      exact hq.ordered h'

/-- An id is new exactly when no consumed row has it. -/
theorem Queue.Sound.notMem_ids_iff {q : Queue H} (hq : q.Sound serde) {i : ℕ} :
    i ∉ q.ids ↔ ∀ r ∈ q.db.rows, r.id = i → r.consumed = false := by
  constructor
  · rintro hi r hr rfl
    by_contra hc
    exact hi (hq.consumed_returned r hr (by simpa using hc))
  · intro hrows hi
    obtain ⟨p, hp, rfl⟩ := Queue.mem_ids.mp hi
    obtain ⟨r, hr, hc, hev⟩ := hq.returned_event p hp
    have hpending := hrows r hr (congrArg TriggerEvent.id hev)
    rw [hc] at hpending
    cases hpending

/-- **One statement** keeps what is sound, and returns no event a second time exactly when it marks
no row a second time. -/
theorem queue_step {q q' : Queue H} {a : QueueAction H} (hq : q.Sound serde)
    (hstep : (queue H serde).step q a = some q') :
    q'.Sound serde ∧ (q'.ids.Nodup ↔ q.ids.Nodup ∧ Unmarked q a) := by
  cases a with
  | enqueue h kind workflowId input now =>
      obtain ⟨-, hsome⟩ := Option.ite_none_left_eq_some.mp hstep
      obtain rfl := Option.some.inj hsome
      exact ⟨hq.enqueue kind workflowId input now, (and_iff_left trivial).symm⟩
  | select h =>
      obtain ⟨-, hsome⟩ := Option.ite_none_left_eq_some.mp hstep
      obtain rfl := Option.some.inj hsome
      exact ⟨hq.hold h fun _ => id, (and_iff_left trivial).symm⟩
  | fail h =>
      obtain rfl := Option.some.inj hstep
      exact ⟨hq.hold h fun _ hr => absurd hr (by simp), (and_iff_left trivial).symm⟩
  | update h =>
      cases hr : q.held h with
      | none =>
          simp only [queue, hr] at hstep
          cases hstep
      | some r =>
          simp only [queue, hr, Option.some.injEq] at hstep
          obtain rfl : q.deliver serde h r = q' := hstep
          refine ⟨hq.deliver hr, ?_⟩
          have hunmarked : Unmarked q (.update h) ↔ r.id ∉ q.ids := by
            rw [hq.notMem_ids_iff]
            simp [Unmarked, hr]
          rw [Queue.ids_deliver, hunmarked, ← List.concat_eq_append, List.nodup_concat, and_comm]

/-! ## Exactly once -/

/-- The event of the row was returned by one `dequeue` and no other. -/
def Queue.ReturnedOnce (serde : SerdeJson) (q : Queue H) (r : TriggerRow) : Prop :=
  ∃ h, q.returned.filter (fun p => decide (p.2.id = r.id)) = [(h, r.event serde)]

omit [DecidableEq H] in
theorem Queue.length_filter_id (q : Queue H) (i : ℕ) :
    (q.returned.filter fun p => decide (p.2.id = i)).length = q.ids.count i := by
  rw [Queue.ids, List.count, List.countP_map, List.countP_eq_length_filter]
  rfl

/-- Once the queue is drained, every event was returned exactly once if and only if no event was
returned twice. -/
theorem Queue.Sound.returnedOnce_iff {q : Queue H} (hq : q.Sound serde) (hdrained : q.Drained) :
    (∀ r ∈ q.db.rows, q.ReturnedOnce serde r) ↔ q.ids.Nodup := by
  constructor
  · intro hall
    refine List.nodup_iff_count_eq_one.mpr fun i hi => ?_
    obtain ⟨p, hp, rfl⟩ := Queue.mem_ids.mp hi
    obtain ⟨r, hr, -, hev⟩ := hq.returned_event p hp
    obtain ⟨h, honce⟩ := hall r hr
    have hid : p.2.id = r.id := congrArg TriggerEvent.id hev.symm
    rw [← Queue.length_filter_id, hid, honce, List.length_singleton]
  · intro hnodup r hr
    have hmem := hq.consumed_returned r hr (TriggerDb.pending_eq_zero.mp hdrained.1 r hr)
    have hlen := Queue.length_filter_id q r.id
    rw [List.nodup_iff_count_eq_one.mp hnodup r.id hmem] at hlen
    obtain ⟨p, hp⟩ := List.length_eq_one_iff.mp hlen
    have hin : p ∈ q.returned.filter fun p => decide (p.2.id = r.id) := by
      rw [hp]
      exact List.mem_singleton_self p
    obtain ⟨hret, hid⟩ := List.mem_filter.mp hin
    -- the table has one row with this id
    obtain ⟨r', hr', -, hev⟩ := hq.returned_event p hret
    have hsame : r' = r := by
      have hid' : r'.id = r.id := (congrArg TriggerEvent.id hev).trans (by simpa using hid)
      exact q.db.eq_of_id_eq hr' hr hid'
    exact ⟨p.1, by rw [hp, ← hsame, hev]⟩

end AuraLauncher.Workflow
