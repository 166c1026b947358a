import AuraLauncher.Index.Incremental
import AuraLauncher.Index.Writer

/-!
# The coordinator of the file index

One thread owns the writer. In each pass of its loop it takes at most one message of the watchers,
scans the dirty roots again, looks after roots that went away, moves the queued hints to the
coalescer, and now and then verifies what waits there against the disk and writes it as one batch.

* `Outside` — what a step of the loop meets: the message, the disk, the clock, the failures.
* `Maintenance` — the bookkeeping of unavailable roots and of the watchers to be started again.
* `recoveryTarget`, `recoverRoot`, `recoveryPass` — the recovery of dirty roots.
* `Maintenance.patrol`, `sweepEntry`, `sweep` — the maintenance sweep.
* `verifyOne`, `batch` — the only way from a hint to the database.
* `Phase`, `step`, `start` — the loop as a machine, one step for each of its stages.
* `foldl_step_recovery` — the stages of a recovery, taken together, are the pass.

Parameters: the disk, the clock, the failures of the database, and which row SQLite answers first.
Recorded: the clock is read once for each step, a rewatch is entered at a second reading, the status
published while a batch runs is not kept, and the watcher threads themselves are outside.
-/

namespace AuraLauncher.Index

open AuraLauncher.Lib AuraLauncher.Domain

/-! ## What the coordinator meets -/

/-- Source: `launcher-indexer/src/watcher.rs`, `CoordinatorMsg`. -/
inductive CoordinatorMsg where
  | change (c : FileChange)
  | overflow (root : String)
  | watcherExited (root : String)
  | stop
  deriving DecidableEq

/-- What `recv_timeout` returns. -/
inductive Received where
  | message (msg : CoordinatorMsg)
  | timeout
  | disconnected
  deriving DecidableEq

/-- The row that a `SELECT … LIMIT 1` without an order answers: some row that matches, if there is
one. -/
structure FirstRow where
  pick : List FileRow → Option FileRow
  pick_mem : ∀ {rows r}, pick rows = some r → r ∈ rows
  pick_isSome : ∀ {rows}, rows ≠ [] → (pick rows).isSome = true

/-- The oldest of the rows that match. -/
def FirstRow.oldest : FirstRow where
  pick := List.head?
  pick_mem h := List.mem_of_head? h
  pick_isSome h := by simpa [List.isSome_head?] using h

/-- What a step of the loop meets outside. -/
structure Outside (π : Type) where
  received : Received
  disk : FileSystem π
  /-- `Path::exists`. -/
  pathExists : π → Bool
  /-- `fs::symlink_metadata`. -/
  symlinkMetadata : String → Option Metadata
  /-- `Instant::now`, in milliseconds. -/
  now : ℕ
  /-- `Instant::now`, when a rewatch is scheduled. -/
  later : ℕ
  /-- `now_ms`. -/
  nowMs : ℤ
  first : FirstRow
  /-- Whether the lookup below a root fails. -/
  lookupFails : String → Bool
  /-- The error of the rescan of a root, if it fails. -/
  rescanError : String → Option String
  /-- The error of the batch, if it fails. -/
  batchError : Option String

/-- A step that meets nothing: no message, no file, no failure. -/
def Outside.idle {π : Type} : Outside π where
  received := .timeout
  disk := ⟨fun _ => none, fun _ => false⟩
  pathExists _ := false
  symlinkMetadata _ := none
  now := 0
  later := 0
  nowMs := 0
  first := .oldest
  lookupFails _ := false
  rescanError _ := none
  batchError := none

/-- Source: `launcher-indexer/src/coordinator.rs`, `CoordinatorConfig`. -/
structure CoordinatorConfig (π : Type) where
  queueCapacity : ℕ
  batchSize : ℕ
  roots : List π

/-- Source: `launcher-domain/src/file_change.rs`, `IndexHealth`. -/
inductive IndexHealth where
  | empty
  | ready
  | updating
  | rebuilding
  | degraded
  | failed
  | unavailable
  deriving DecidableEq

/-- Source: `launcher-domain/src/file_change.rs`, `IndexStatus`. -/
structure IndexStatus where
  health : IndexHealth
  generation : ℕ
  pendingEvents : ℕ
  dirtyRoots : ℕ
  indexedEntries : ℕ
  lastError : Option String
  watcherCount : ℕ
  unavailableRoots : ℕ
  lastSuccessMs : Option ℤ
  lastFailureMs : Option ℤ
  recoveryCount : ℕ

/-! ## Maintenance -/

def REWATCH_BASE_MS : ℕ := 1000
def REWATCH_CAP_MS : ℕ := 60000
def REWATCH_MAX_ATTEMPTS : ℕ := 6
def REWATCH_SLOW_POLL_MS : ℕ := 60000

/-- A root scheduled to be watched again: its identity, the attempts so far, when it is due. -/
structure Rewatch where
  root : String
  attempts : ℕ
  dueAt : ℕ
  deriving DecidableEq

/-- Source: `launcher-indexer/src/coordinator.rs`, `Maintenance`. -/
structure Maintenance where
  rewatch : List Rewatch
  unavailable : List String
  watched : List String
  lastExistenceCheck : ℕ
  watcherCount : ℕ
  lastSuccessMs : Option ℤ
  lastFailureMs : Option ℤ
  recoveryCount : ℕ

namespace Maintenance

/-- Source: `launcher-indexer/src/coordinator.rs`, `Maintenance::new`. -/
def new (now : ℕ) : Maintenance where
  rewatch := []
  unavailable := []
  watched := []
  lastExistenceCheck := now
  watcherCount := 0
  lastSuccessMs := none
  lastFailureMs := none
  recoveryCount := 0

/-- Source: `launcher-indexer/src/coordinator.rs`, `backoff_ms`. -/
def backoffMs (attempts : ℕ) : ℕ :=
  if attempts ≥ REWATCH_MAX_ATTEMPTS then REWATCH_SLOW_POLL_MS
  else min (REWATCH_BASE_MS * 2 ^ min attempts 6) REWATCH_CAP_MS

/-- No retry waits for longer than a minute. -/
theorem backoffMs_le (attempts : ℕ) : backoffMs attempts ≤ 60000 := by
  unfold backoffMs
  split_ifs
  · exact le_refl _
  · exact min_le_right _ _

section

variable {π : Type} (plat : Platform π) (o : Outside π)

/-- Source: `launcher-indexer/src/coordinator.rs`, `mark_unavailable`. -/
def markUnavailable (m : Maintenance) (root : String) : Maintenance :=
  { m with
    unavailable := m.unavailable.insert (normalizePathIdentity plat.std root)
    lastFailureMs := some o.nowMs }

/-- Source: `launcher-indexer/src/coordinator.rs`, `schedule_rewatch`. -/
def scheduleRewatch (m : Maintenance) (root : String) : Maintenance :=
  let m := m.markUnavailable plat o root
  let key := normalizePathIdentity plat.std root
  if m.rewatch.any fun e => e.root == key then m
  else { m with rewatch := m.rewatch ++ [⟨key, 0, o.later⟩] }

/-- The bookkeeping of a rescan that succeeds. -/
def recovered (m : Maintenance) (root : String) : Maintenance :=
  { m with
    recoveryCount := m.recoveryCount + 1
    lastSuccessMs := some o.nowMs
    unavailable := m.unavailable.erase root }

/-- The bookkeeping of a watcher that is started again. -/
def rewatched (m : Maintenance) (root : String) : Maintenance :=
  { m with
    watcherCount := m.watcherCount + 1
    watched := if m.watched.contains root then m.watched else m.watched ++ [root] }

/-- The root is scheduled, with this entry. -/
def keep (m : Maintenance) (entry : Rewatch) : Maintenance :=
  { m with rewatch := m.rewatch ++ [entry] }

/-- What the existence patrol does with a watched root, the roots before it being done. Source:
`launcher-indexer/src/coordinator.rs`, the first loop of `sweep`. -/
def patrolRoot (m : Maintenance) (root : String) : Maintenance :=
  if o.pathExists (plat.ofText root) then { m with watched := m.watched ++ [root] }
  else
    { m with
      watcherCount := m.watcherCount - 1
      lastFailureMs := some o.nowMs }.scheduleRewatch plat o root

/-- The existence patrol, once a second at most. -/
def patrol (m : Maintenance) : Maintenance :=
  if o.now - m.lastExistenceCheck ≥ 1000 then
    m.watched.foldl (patrolRoot plat o) { m with lastExistenceCheck := o.now, watched := [] }
  else m

end

end Maintenance

/-! ## The state of the loop -/

/-- The stages of the loop. A recovery pass has drained the dirty roots and comes to one after the
other; `starting` is whether it is that of the start, before the loop. -/
inductive Phase where
  | receive
  | drain (starting : Bool)
  | recover (starting : Bool) (roots : List String)
  | sweep
  | bridge
  | batch
  | stopped
  deriving DecidableEq

/-- The roots that the recovery pass has not come to yet. -/
def Phase.roots : Phase → List String
  | .recover _ roots => roots
  | _ => []

/-- The locals of `run_loop`. -/
structure Coordinator where
  index : IndexDb
  queue : BoundedQueue
  coalescer : Coalescer
  dirty : DirtyRootSet
  maint : Maintenance
  status : IndexStatus
  lastTick : ℕ
  phase : Phase

namespace Coordinator

/-- Source: `launcher-indexer/src/coordinator.rs`, `set_status`. -/
def setStatus (c : Coordinator) (health : IndexHealth) (pending dirty : ℕ)
    (err : Option String) : Coordinator :=
  { c with
    status :=
      { health
        generation := c.index.generation
        pendingEvents := pending
        dirtyRoots := dirty
        indexedEntries := c.index.files.rows.length
        lastError := err
        watcherCount := c.maint.watcherCount
        unavailableRoots := c.maint.unavailable.length
        lastSuccessMs := c.maint.lastSuccessMs
        lastFailureMs := c.maint.lastFailureMs
        recoveryCount := c.maint.recoveryCount } }

variable {π : Type} (plat : Platform π) (cfg : CoordinatorConfig π) (o : Outside π)

/-! ## Recovery -/

/-- Source: `launcher-indexer/src/lib.rs`, `first_path_under`. -/
def firstPathUnder (s : IndexDb) (root : String) : Option String :=
  let norm := normalizePathIdentity plat.std root
  (o.first.pick (s.files.rows.filter (underRoot norm))).map FileRow.key

/-- The path that is scanned again in the recovery of a root: the one that `find_original_root`
answers, else the root if it exists. -/
def recoveryTarget (s : IndexDb) (root : String) : Option π :=
  match if o.lookupFails root then none else firstPathUnder plat o s root with
  | some original => some (plat.ofText original)
  | none => if o.pathExists (plat.ofText root) then some (plat.ofText root) else none

/-- The recovery of one root. Source: `launcher-indexer/src/coordinator.rs`, the loop of
`recovery_pass`, whose two rescans differ in their log lines only. -/
def recoverRoot (c : Coordinator) (root : String) : Coordinator :=
  match recoveryTarget plat o c.index root with
  | some target =>
      match o.rescanError root with
      | none =>
          { c with
            index := (rescanRoot plat o.disk c.index target).1
            maint := c.maint.recovered o root }.setStatus .ready 0 c.dirty.roots.length none
      | some e =>
          { c with maint := { c.maint with lastFailureMs := some o.nowMs } }.setStatus
            .degraded 0 c.dirty.roots.length (some e)
  | none =>
      { c with maint := c.maint.markUnavailable plat o root }.setStatus
        .unavailable 0 c.dirty.roots.length (some ("root unavailable: " ++ root))

/-- The path that the recovery of a root scans again, if the rescan does not fail. -/
def rescued (s : IndexDb) (root : String) : Option π :=
  if (o.rescanError root).isSome then none else recoveryTarget plat o s root

/-- The index after the recovery of one root. -/
theorem index_recoverRoot (c : Coordinator) (root : String) :
    (recoverRoot plat o c root).index =
      (rescued plat o c.index root).elim c.index fun t => (rescanRoot plat o.disk c.index t).1 := by
  unfold recoverRoot rescued
  cases htarget : recoveryTarget plat o c.index root with
  | none => simp [setStatus]
  | some t =>
      cases herror : o.rescanError root with
      | none => rfl
      | some e => rfl

/-- Source: `launcher-indexer/src/coordinator.rs`, `recovery_pass`. -/
def recoveryPass (c : Coordinator) : Coordinator :=
  c.dirty.roots.foldl (recoverRoot plat o) { c with dirty := .empty }

/-! ## The maintenance sweep -/

/-- The entry of a root that could not be scanned: it is tried again, after a longer wait. -/
def postponed (entry : Rewatch) : Rewatch :=
  ⟨entry.root, entry.attempts + 1, o.now + Maintenance.backoffMs (entry.attempts + 1)⟩

/-- What the sweep does with a scheduled root, the ones before it being done; the second part is
the roots whose watchers it starts. Source: `launcher-indexer/src/coordinator.rs`, the second loop
of `sweep`. -/
def sweepEntry (s : Coordinator × List String) (entry : Rewatch) : Coordinator × List String :=
  let c := s.1
  let path := plat.ofText entry.root
  if o.now < entry.dueAt then ({ c with maint := c.maint.keep entry }, s.2)
  else if !o.pathExists path then ({ c with maint := c.maint.keep (postponed o entry) }, s.2)
  else
    match o.rescanError entry.root with
    | none =>
        ({ c with
            index := (rescanRoot plat o.disk c.index path).1
            maint := (c.maint.rewatched entry.root).recovered o entry.root }.setStatus
              .ready 0 0 none,
          s.2 ++ [entry.root])
    | some _ =>
        ({ c with
            maint := { c.maint with lastFailureMs := some o.nowMs }.keep (postponed o entry) }, s.2)

/-- What the sweep can do with a scheduled root: keep it scheduled, or scan it and start its
watcher. -/
theorem sweepEntry_cases (s : Coordinator × List String) (entry : Rewatch) :
    (∃ entry' failure, entry'.root = entry.root ∧ sweepEntry plat o s entry =
      ({ s.1 with maint := { s.1.maint with lastFailureMs := failure }.keep entry' }, s.2)) ∨
    sweepEntry plat o s entry =
      ({ s.1 with
          index := (rescanRoot plat o.disk s.1.index (plat.ofText entry.root)).1
          maint := (s.1.maint.rewatched entry.root).recovered o entry.root }.setStatus
            .ready 0 0 none,
        s.2 ++ [entry.root]) := by
  unfold sweepEntry
  dsimp only
  split_ifs
  · exact .inl ⟨entry, s.1.maint.lastFailureMs, rfl, rfl⟩
  · exact .inl ⟨postponed o entry, s.1.maint.lastFailureMs, rfl, rfl⟩
  · cases o.rescanError entry.root with
    | none => exact .inr rfl
    | some e => exact .inl ⟨postponed o entry, some o.nowMs, rfl, rfl⟩

/-- The sweep, and the roots whose watchers it starts. Source:
`launcher-indexer/src/coordinator.rs`, `Maintenance::sweep`. -/
def sweep (c : Coordinator) : Coordinator × List String :=
  let maint := c.maint.patrol plat o
  maint.rewatch.foldl (sweepEntry plat o)
    ({ c with maint := { maint with rewatch := [] } }, [])

/-! ## Messages -/

/-- Source: `launcher-indexer/src/coordinator.rs`, `containing_root`. -/
def containingRoot (roots : List π) (path : String) : Option π :=
  roots.find? fun r =>
    contains (normalizePathIdentity plat.std (plat.lossy r)) (normalizePathIdentity plat.std path)

/-- The dirty set with the root that contains a path. -/
def insertContaining (dirty : DirtyRootSet) (path : String) : DirtyRootSet :=
  match containingRoot plat cfg.roots path with
  | some r => dirty.insert plat.std (plat.lossy r)
  | none => dirty

/-- A hint for which the queue has no room: the roots of the queued hints become dirty, or all
roots when none of these is known, and the root of the hint. Source:
`launcher-indexer/src/coordinator.rs`, the failed push in `run_loop`. -/
def queueFull (c : Coordinator) (hint : FileChange) : Coordinator :=
  let overflowed := c.queue.events.any fun e => (containingRoot plat cfg.roots e.path).isSome
  let dirty := c.queue.events.foldl (fun dirty e => insertContaining plat cfg dirty e.path) c.dirty
  let dirty :=
    if overflowed then dirty
    else cfg.roots.foldl (fun dirty r => dirty.insert plat.std (plat.lossy r)) dirty
  { c with
    queue := .new c.queue.capacity
    dirty := insertContaining plat cfg dirty hint.path }

/-- Source: `launcher-indexer/src/coordinator.rs`, the messages in `run_loop`. -/
def handle (c : Coordinator) : CoordinatorMsg → Coordinator
  | .stop => c
  | .overflow root =>
      { c with
        dirty := c.dirty.insert plat.std root
        queue := .new c.queue.capacity
        coalescer := .empty }
  | .watcherExited root =>
      { c with
        dirty := c.dirty.insert plat.std root
        maint :=
          { c.maint with
            watcherCount := c.maint.watcherCount - 1
            lastFailureMs := some o.nowMs }.scheduleRewatch plat o root }
  | .change hint =>
      let pushed := c.queue.push hint
      let c := { c with queue := pushed.1 }
      if pushed.2 then c else queueFull plat cfg c hint

/-! ## Batches -/

/-- Source: `launcher-indexer/src/coordinator.rs`, `verify_one`. -/
def verifyOne (path : String) : List VerifiedChange :=
  let normalized := normalizePathIdentity plat.std path
  if normalized.isEmpty || isDeviceNamespace path then []
  else
    match o.symlinkMetadata path with
    | some m =>
        [.upsert ⟨path, normalized, m.isDir, m.len.toInt64, Int64.ofNat (m.modified.getD 0)⟩]
    | none => [.delete normalized]

/-- Source: `launcher-indexer/src/coordinator.rs`, `verify`. -/
def verify (change : FileChange) : List VerifiedChange :=
  (change.oldPath.map (verifyOne plat o)).getD [] ++ verifyOne plat o change.path

/-- `TICK`, in milliseconds. -/
def TICK : ℕ := 300

/-- Whether what waits is verified and written in this pass. -/
def batchDue (c : Coordinator) : Bool :=
  (decide (c.coalescer.order.length ≥ cfg.batchSize) || decide (o.now - c.lastTick ≥ TICK)) &&
    !c.coalescer.order.isEmpty

/-- Source: `launcher-indexer/src/coordinator.rs`, the end of the loop of `run_loop`. -/
def batch (c : Coordinator) : Coordinator :=
  if c.batchDue cfg o then
    let identities := c.coalescer.order
    let c := { c with coalescer := .empty, lastTick := o.now }
    let changes := identities.flatMap fun id => verify plat o ⟨.modified, id, none⟩
    match o.batchError with
    | none =>
        { c with index := (applyBatch plat c.index changes).1 }.setStatus
          .ready 0 c.dirty.roots.length none
    | some e =>
        c.setStatus .degraded (identities.length + c.queue.events.length) c.dirty.roots.length
          (some e)
  else
    c.setStatus
      (if c.dirty.roots.isEmpty && c.queue.events.isEmpty && c.coalescer.order.isEmpty then .ready
        else if c.dirty.roots.isEmpty then .updating
        else .degraded)
      (c.coalescer.order.length + c.queue.events.length) c.dirty.roots.length none

/-! ## The loop -/

/-- The loop takes a message, or waits in vain; without senders it ends. -/
def receive (c : Coordinator) : Coordinator :=
  match o.received with
  | .message msg => { handle plat cfg o c msg with phase := .drain false }
  | .timeout => { c with phase := .drain false }
  | .disconnected => { c with phase := .stopped }

/-- The queued hints move to the coalescer. -/
def bridge (c : Coordinator) : Coordinator :=
  { c with
    coalescer := c.queue.events.foldl (Coalescer.push plat.std) c.coalescer
    queue := c.queue.drain
    phase := .batch }

/-- One step of the loop, and the roots whose watchers it starts. Source:
`launcher-indexer/src/coordinator.rs`, `run_loop`. -/
def step (c : Coordinator) : Coordinator × List String :=
  match c.phase with
  | .receive => (receive plat cfg o c, [])
  | .drain starting =>
      ({ c with dirty := .empty, phase := .recover starting c.dirty.roots }, [])
  | .recover starting [] => ({ c with phase := if starting then .receive else .sweep }, [])
  | .recover starting (root :: roots) =>
      ({ recoverRoot plat o c root with phase := .recover starting roots }, [])
  | .sweep =>
      let swept := sweep plat o c
      ({ swept.1 with phase := .bridge }, swept.2)
  | .bridge => (bridge plat c, [])
  | .batch => ({ batch plat cfg o c with phase := .receive }, [])
  | .stopped => (c, [])

section step

variable {plat cfg o} {c : Coordinator}

theorem step_receive (h : c.phase = .receive) : step plat cfg o c = (receive plat cfg o c, []) := by
  simp only [step, h]

theorem step_drain {starting : Bool} (h : c.phase = .drain starting) : step plat cfg o c =
    ({ c with dirty := .empty, phase := .recover starting c.dirty.roots }, []) := by
  simp only [step, h]

theorem step_recover_nil {starting : Bool} (h : c.phase = .recover starting []) :
    step plat cfg o c = ({ c with phase := if starting then .receive else .sweep }, []) := by
  simp only [step, h]

theorem step_recover_cons {starting : Bool} {root : String} {roots : List String}
    (h : c.phase = .recover starting (root :: roots)) : step plat cfg o c =
      ({ recoverRoot plat o c root with phase := .recover starting roots }, []) := by
  simp only [step, h]

theorem step_sweep (h : c.phase = .sweep) : step plat cfg o c =
    ({ (sweep plat o c).1 with phase := .bridge }, (sweep plat o c).2) := by
  simp only [step, h]

theorem step_bridge (h : c.phase = .bridge) : step plat cfg o c = (bridge plat c, []) := by
  simp only [step, h]

theorem step_batch (h : c.phase = .batch) : step plat cfg o c =
    ({ batch plat cfg o c with phase := .receive }, []) := by
  simp only [step, h]

theorem step_stopped (h : c.phase = .stopped) : step plat cfg o c = (c, []) := by
  simp only [step, h]

/-- The recovery of a root does not look at the stage. -/
theorem recoverRoot_withPhase (c : Coordinator) (root : String) (phase : Phase) :
    recoverRoot plat o { c with phase } root = { recoverRoot plat o c root with phase } := by
  unfold recoverRoot
  cases recoveryTarget plat o c.index root with
  | none => rfl
  | some t =>
      cases o.rescanError root with
      | none => rfl
      | some e => rfl

/-- **The stages of a recovery are `recovery_pass`**: a step to drain, and one for each root. -/
theorem foldl_step_recovery {starting : Bool} (h : c.phase = .drain starting) :
    (List.replicate (c.dirty.roots.length + 1) o).foldl (fun c o => (step plat cfg o c).1) c =
      { recoveryPass plat o c with phase := .recover starting [] } := by
  have hgen : ∀ (roots : List String) (c : Coordinator),
      (List.replicate roots.length o).foldl (fun c o => (step plat cfg o c).1)
          { c with phase := .recover starting roots } =
        { roots.foldl (recoverRoot plat o) c with phase := .recover starting [] } := by
    intro roots
    induction roots with
    | nil => exact fun c => rfl
    | cons root roots ih =>
        intro c
        rw [List.length_cons, List.replicate_succ, List.foldl_cons, step_recover_cons rfl,
          recoverRoot_withPhase, List.foldl_cons]
        exact ih (recoverRoot plat o c root)
  rw [List.replicate_succ, List.foldl_cons, step_drain h]
  exact hgen c.dirty.roots { c with dirty := .empty }

end step

/-- What the start does with a configured root. -/
def startRoot (c : Coordinator) (root : π) : Coordinator :=
  if o.pathExists root then
    { c with
      dirty := c.dirty.insert plat.std (plat.lossy root)
      maint :=
        { c.maint with
          watcherCount := c.maint.watcherCount + 1
          watched := c.maint.watched ++ [plat.lossy root] } }
  else { c with maint := c.maint.markUnavailable plat o (plat.lossy root) }

/-- The coordinator before its first recovery pass. Source: `launcher-indexer/src/coordinator.rs`,
the part of `run_loop` before the loop. -/
def start (index : IndexDb) : Coordinator :=
  cfg.roots.foldl (startRoot plat o)
    { index
      queue := .new cfg.queueCapacity
      coalescer := .empty
      dirty := .empty
      maint := .new o.now
      status := ⟨.rebuilding, 0, 0, 0, 0, none, 0, 0, none, none, 0⟩
      lastTick := o.now
      phase := .drain true }

/-- At the start nothing is queued and nothing is scheduled, and the dirty roots are to be
drained. -/
theorem start_eq (index : IndexDb) : (start plat cfg o index).queue = .new cfg.queueCapacity ∧
    (start plat cfg o index).phase = .drain true ∧
      (start plat cfg o index).maint.rewatch = [] := by
  unfold start
  refine List.foldlRecOn (motive := fun c : Coordinator => c.queue = .new cfg.queueCapacity ∧
    c.phase = .drain true ∧ c.maint.rewatch = []) _ _ ⟨rfl, rfl, rfl⟩ fun c hc root _ => ?_
  unfold startRoot
  split_ifs
  · exact hc
  · exact hc

end Coordinator

end AuraLauncher.Index
