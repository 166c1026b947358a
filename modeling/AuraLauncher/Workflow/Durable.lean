import AuraLauncher.Lib.Table
import AuraLauncher.Workflow.Engine

/-!
# The durable run store

`durable.rs`: one row for each run, written as a whole by every checkpoint and read back by a
resume.

* `RunCheckpoint` — the state a run resumes from; `RunRow` — the columns it is kept in.
* `RunStore.checkpoint`, `RunStore.load` — the upsert of a row and its reading.
* `load_checkpoint_self` — what a load gives back after a checkpoint: the checkpoint itself, up to
  the variables, which pass through their JSON text (`SerdeJson.reread`).
* `load_checkpoint_of_ne` — a checkpoint leaves the other runs alone.

The node sets are kept as sets. The source stores them as JSON arrays in hash order, and every
reader turns them back into sets.
-/

namespace AuraLauncher.Workflow

open AuraLauncher.Lib

/-- The life cycle of a run. Source: `durable.rs`, `RunStatus`. -/
inductive RunStatus
  | running
  | paused
  | awaitingApproval
  | finished
  | failed
  deriving DecidableEq, Repr

namespace RunStatus

/-- Source: `durable.rs`, `RunStatus::as_str`. -/
def asStr : RunStatus → String
  | running => "running"
  | paused => "paused"
  | awaitingApproval => "awaiting_approval"
  | finished => "finished"
  | failed => "failed"

/-- Source: `durable.rs`, `RunStatus::parse`. -/
def parse : String → Option RunStatus
  | "running" => some running
  | "paused" => some paused
  | "awaiting_approval" => some awaitingApproval
  | "finished" => some finished
  | "failed" => some failed
  | _ => none

@[simp] theorem parse_asStr (s : RunStatus) : parse s.asStr = some s := by
  cases s <;> rfl

end RunStatus

/-- Everything a run resumes from. Source: `durable.rs`, `RunCheckpoint`. -/
structure RunCheckpoint where
  runId : String
  graphId : String
  graphVersion : UInt64
  status : RunStatus
  finished : Finset NodeId
  skipped : Finset NodeId
  «variables» : Json
  updatedAtMs : ℤ

/-- A row of `workflow_runs`. The version is a signed column and the status a text column; the
`variables` column holds the text of the value it is given here as.
Source: `durable.rs`, `RunStore::open` (the schema). -/
structure RunRow where
  runId : String
  graphId : String
  graphVersion : Int64
  status : String
  finished : Finset NodeId
  skipped : Finset NodeId
  «variables» : Json
  updatedAtMs : ℤ

/-- The table of runs, keyed by run id. Source: `durable.rs`, `RunStore`. -/
abbrev RunStore := Table RunRow.runId

namespace RunStore

/-- The row of a checkpoint. Source: `durable.rs`, `RunStore::checkpoint` (the parameters). -/
def rowOf (cp : RunCheckpoint) : RunRow where
  runId := cp.runId
  graphId := cp.graphId
  graphVersion := cp.graphVersion.toInt64
  status := cp.status.asStr
  finished := cp.finished
  skipped := cp.skipped
  «variables» := cp.«variables»
  updatedAtMs := cp.updatedAtMs

/-- The upsert of a checkpoint. Source: `durable.rs`, `RunStore::checkpoint`. -/
def checkpoint (s : RunStore) (cp : RunCheckpoint) : RunStore := s.upsert (rowOf cp)

/-- The checkpoint a row is read as. Source: `durable.rs`, `RunStore::load` (the row closure). -/
def ofRow (sj : SerdeJson) (row : RunRow) : RunCheckpoint where
  runId := row.runId
  graphId := row.graphId
  graphVersion := row.graphVersion.toUInt64
  status := (RunStatus.parse row.status).getD .failed
  finished := row.finished
  skipped := row.skipped
  «variables» := (sj.reread row.«variables»).getD .null
  updatedAtMs := row.updatedAtMs

/-- The latest checkpoint of a run. Source: `durable.rs`, `RunStore::load`. -/
def load (sj : SerdeJson) (s : RunStore) (runId : String) : Option RunCheckpoint :=
  (s.find? runId).map (ofRow sj)

/-- A row reads back as its checkpoint, up to the JSON text of the variables. -/
theorem ofRow_rowOf (sj : SerdeJson) (cp : RunCheckpoint) :
    ofRow sj (rowOf cp) = { cp with «variables» := (sj.reread cp.«variables»).getD .null } := by
  simp [ofRow, rowOf]

/-- A checkpoint reads back, up to the JSON text of its variables. -/
theorem load_checkpoint_self (sj : SerdeJson) (s : RunStore) (cp : RunCheckpoint) :
    load sj (s.checkpoint cp) cp.runId =
      some { cp with «variables» := (sj.reread cp.«variables»).getD .null } := by
  have hfind : (s.checkpoint cp).find? cp.runId = some (rowOf cp) :=
    Table.find?_upsert_self (r := rowOf cp)
  rw [load, hfind, Option.map_some, ofRow_rowOf]

/-- A checkpoint of one run leaves the other runs as they are. -/
theorem load_checkpoint_of_ne (sj : SerdeJson) (s : RunStore) (cp : RunCheckpoint) {runId : String}
    (h : runId ≠ cp.runId) : load sj (s.checkpoint cp) runId = load sj s runId := by
  have hfind : (s.checkpoint cp).find? runId = s.find? runId :=
    Table.find?_upsert_of_ne (r := rowOf cp) h
  rw [load, load, hfind]

end RunStore

end AuraLauncher.Workflow
