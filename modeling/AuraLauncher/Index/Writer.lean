import AuraLauncher.Index.Scan
import AuraLauncher.Lib.Machine

/-!
# The writer of the file index

Each operation of the writer is one committed transaction. A batch of verified changes maintains
both tables row by row; a rescan deletes the rows of a subtree and scans it again; a rebuild
deletes all rows and scans every root; `rebuild_fts` fills `files_fts` from `files`.

* `applyBatch`, `rescanRoot`, `rebuild`, `rebuildFts` — the operations.
* `underRoot` — the predicate by which a rescan deletes.
* `Commit`, `writer` — the operations as the actions of a machine.
* `find?_insertAll` — the row of a path after the rows of a scan were inserted.
-/

namespace AuraLauncher.Index

open AuraLauncher.Lib AuraLauncher.Domain

/-- What the disk says of one path. Source: `launcher-domain/src/file_change.rs`,
`FileObservation`. -/
structure FileObservation where
  /-- The path as the disk spells it. -/
  path : String
  /-- Its identity. -/
  normalizedPath : String
  isDir : Bool
  size : Int64
  modifiedMs : Int64
  deriving DecidableEq

/-- The changes that the writer accepts. Source: `launcher-domain/src/file_change.rs`,
`VerifiedChange`. -/
inductive VerifiedChange where
  | upsert (o : FileObservation)
  | delete (normalizedPath : String)
  deriving DecidableEq

/-- Source: `launcher-indexer/src/lib.rs`, `BatchStats`. -/
structure BatchStats where
  generation : ℕ
  upserted : ℕ
  deleted : ℕ
  deriving DecidableEq

variable {π : Type} (plat : Platform π)

/-- Source: `launcher-indexer/src/lib.rs`, `file_name_of`. -/
def fileNameOf (p : String) : String := ((plat.fileName (plat.ofText p)).map plat.lossy).getD p

/-- Source: `launcher-indexer/src/lib.rs`, `parent_of`. -/
def parentOf (p : String) : String := ((plat.parent (plat.ofText p)).map plat.lossy).getD ""

/-! ## Batches -/

/-- The row that an upsert writes. -/
def observedColumns (o : FileObservation) : FileColumns where
  path := o.path
  name := fileNameOf plat o.path
  parent := parentOf plat o.path
  isDir := o.isDir
  size := o.size
  modifiedMs := o.modifiedMs

/-- Whether a row is stored under another spelling of the path that is upserted. -/
def otherSpelling (o : FileObservation) (r : FileRow) : Bool :=
  sqlLowerPath r.path == o.normalizedPath && r.path != o.path

/-- The effect of one change on `files`. -/
def changeFiles (files : Files) : VerifiedChange → Files
  | .upsert o => upsert (files.deleteWhere (otherSpelling o)) (observedColumns plat o)
  | .delete normalizedPath => files.deleteWhere fun r => sqlLowerPath r.path == normalizedPath

/-- The paths that a delete removes, as `SELECT` returns them before the deletion. -/
def deletedPaths (files : Files) (normalizedPath : String) : List String :=
  (files.rows.filter fun r => sqlLowerPath r.path == normalizedPath).map FileRow.key

/-- The effect of one change on `files_fts`, `files` being the table before the change. -/
def changeFts (files : Files) (fts : List FtsRow) : VerifiedChange → List FtsRow
  | .upsert o => ftsUpsert plat fts o.path (fileNameOf plat o.path)
  | .delete normalizedPath => (deletedPaths files normalizedPath).foldl ftsDelete fts

/-- One change of a batch. Source: `launcher-indexer/src/lib.rs`, the loop of `apply_batch`. -/
def applyChange (s : IndexDb) (c : VerifiedChange) : IndexDb :=
  { s with
    files := changeFiles plat s.files c
    fts := s.fts.map fun fts => changeFts plat s.files fts c }

/-- Whether a change is an upsert. -/
def VerifiedChange.isUpsert : VerifiedChange → Bool
  | .upsert _ => true
  | .delete _ => false

/-- A batch in one transaction; an empty one does nothing. Source:
`launcher-indexer/src/lib.rs`, `apply_batch`. -/
def applyBatch (s : IndexDb) (changes : List VerifiedChange) : IndexDb × BatchStats :=
  if changes.isEmpty then (s, ⟨s.generation, 0, 0⟩)
  else
    let t := changes.foldl (applyChange plat) s
    ({ t with generation := t.generation + 1 },
      ⟨t.generation + 1, changes.countP (·.isUpsert), changes.countP fun c => !c.isUpsert⟩)

/-! ## Scans -/

/-- The rows of a scan inserted in their order; a row whose path is taken is ignored. -/
def insertAll (files : Files) (scanned : List FileColumns) : Files :=
  scanned.foldl insertOrIgnore files

/-- The rows that a rescan deletes: the root's identity as the whole path, or as a `LIKE` pattern
before `\%`. Source: `launcher-indexer/src/lib.rs`, the `DELETE` of `rescan_root`. -/
def underRoot (norm : String) (r : FileRow) : Bool :=
  let lower := sqlLower r.path.toList
  lower == norm.toList || like (norm.toList ++ ['\\', '%']) lower

/-- The index after the rows with `p` were replaced by those of a scan. -/
def replaceScanned (s : IndexDb) (p : FileRow → Bool) (scanned : List FileColumns) : IndexDb :=
  { s with
    files := insertAll (s.files.deleteWhere p) scanned
    generation := s.generation + 1 }

/-- The subtree of a root scanned again; the result is the number of rows scanned. Source:
`launcher-indexer/src/lib.rs`, `rescan_root`. -/
def rescanRoot (fs : FileSystem π) (s : IndexDb) (root : π) : IndexDb × ℕ :=
  let norm := normalizePathIdentity plat.std (plat.lossy root)
  let scanned := scanInto plat fs SCAN_LEVELS root MAX_INDEX_ENTRIES
  (replaceScanned s (underRoot norm) scanned.1, MAX_INDEX_ENTRIES - scanned.2)

/-- All rows replaced by a scan of the roots. Source: `launcher-indexer/src/lib.rs`, `rebuild`. -/
def rebuild (fs : FileSystem π) (s : IndexDb) (roots : List π) : IndexDb × ℕ :=
  let scanned := scanRoots plat fs roots MAX_INDEX_ENTRIES
  (replaceScanned s (fun _ => true) scanned.1, MAX_INDEX_ENTRIES - scanned.2)

/-- `files_fts` filled again from `files`. Source: `launcher-indexer/src/lib.rs`,
`rebuild_fts`. -/
def rebuildFts (s : IndexDb) : IndexDb :=
  if s.ftsAvailable then
    { s with fts := some (s.files.rows.map fun r => ftsRow plat r.path r.name) }
  else s

/-- A rescan counts the rows it scanned. -/
theorem rescanRoot_count (fs : FileSystem π) (s : IndexDb) (root : π) :
    (rescanRoot plat fs s root).2 =
      (scanInto plat fs SCAN_LEVELS root MAX_INDEX_ENTRIES).1.length := by
  have hbudget := scanInto_budget plat fs SCAN_LEVELS root MAX_INDEX_ENTRIES
  exact Nat.sub_eq_of_eq_add hbudget.symm

/-- A rebuild scans no more rows than the budget, however many roots there are. -/
theorem rebuild_count_le (fs : FileSystem π) (s : IndexDb) (roots : List π) :
    (rebuild plat fs s roots).2 =
        (scanRoots plat fs roots MAX_INDEX_ENTRIES).1.length ∧
      (scanRoots plat fs roots MAX_INDEX_ENTRIES).1.length ≤ MAX_INDEX_ENTRIES := by
  have hbudget := scanRoots_budget plat fs roots MAX_INDEX_ENTRIES
  exact ⟨Nat.sub_eq_of_eq_add hbudget.symm, by omega⟩

/-! ## The writer as a machine -/

/-- What the writer can commit; a scan comes with the disk it finds. -/
inductive Commit (π : Type) where
  | batch (changes : List VerifiedChange)
  | rescan (fs : FileSystem π) (root : π)
  | rebuild (fs : FileSystem π) (roots : List π)
  | rebuildFts

/-- The index after a commit. -/
def commit (s : IndexDb) : Commit π → IndexDb
  | .batch changes => (applyBatch plat s changes).1
  | .rescan fs root => (rescanRoot plat fs s root).1
  | .rebuild fs roots => (rebuild plat fs s roots).1
  | .rebuildFts => rebuildFts plat s

/-- The writer: every commit is possible in every state. -/
def writer : Machine IndexDb (Commit π) where
  step s a := some (commit plat s a)

/-! ## Rows after a scan -/

/-- The row of a path after an insertion of many rows: the stored one, else the first of the
rows with that path. -/
theorem find?_insertAll (files : Files) (scanned : List FileColumns) (q : String) :
    ((insertAll files scanned).find? q).map FileRow.toFileColumns =
      ((files.find? q).map FileRow.toFileColumns).or (scanned.find? fun c => c.path == q) := by
  unfold insertAll
  induction scanned generalizing files with
  | nil => simp
  | cons c scanned ih =>
      rw [List.foldl_cons, ih, find?_insertOrIgnore, Option.or_assoc, List.find?_cons]
      by_cases hq : c.path = q
      · simp [hq]
      · simp [hq, beq_eq_false_iff_ne.mpr hq]

/-- Stored rows stay, with their ids. -/
theorem mem_insertAll_of_mem {files : Files} {r : FileRow} (h : r ∈ files.rows)
    (scanned : List FileColumns) : r ∈ (insertAll files scanned).rows := by
  unfold insertAll
  induction scanned generalizing files with
  | nil => exact h
  | cons c scanned ih => exact ih (Table.mem_insertOrIgnore_of_mem h)

/-- A row after the insertion was stored before or has the path of a scanned row. -/
theorem mem_of_mem_insertAll {files : Files} {scanned : List FileColumns} {r : FileRow}
    (h : r ∈ (insertAll files scanned).rows) : r ∈ files.rows ∨ ∃ c ∈ scanned, c.path = r.path := by
  unfold insertAll at h
  induction scanned generalizing files with
  | nil => exact .inl h
  | cons c scanned ih =>
      rcases ih h with hr | ⟨d, hd, hpath⟩
      · rcases Table.mem_of_mem_insertOrIgnore hr with hr | rfl
        · exact .inl hr
        · exact .inr ⟨c, List.mem_cons_self, rfl⟩
      · exact .inr ⟨d, List.mem_cons_of_mem c hd, hpath⟩

end AuraLauncher.Index
