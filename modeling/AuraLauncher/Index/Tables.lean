import AuraLauncher.Domain.Names
import AuraLauncher.Lib.Table
import AuraLauncher.Lib.Like

/-!
# The tables of the file index

The index keeps the metadata of the files in `files` and, when SQLite has FTS5, the searchable
texts of the same files in `files_fts`. The statements that the writer uses are defined here, one
definition for each statement of the source.

* `Platform` — what the index uses of Rust's standard library and of the syllable table.
* `FileRow`, `FtsRow`, `Index` — a row of each table, and the state of the database.
* `Files.upsert`, `Files.insertOrIgnore` — the two insertions into `files`.
* `ftsRow`, `ftsUpsert`, `ftsDelete` — the search row of a file and the statements on `files_fts`.
* `sqlLowerPath` — `lower(path)`.

Parameters: the operations of `std::path` and the table of pinyin syllables. Paths of the file
system are values of a type `π` with a (lossy) text for each.
-/

namespace AuraLauncher.Index

open AuraLauncher.Lib AuraLauncher.Domain

/-- What the index uses of `std::path`, of Unicode and of the syllable table. -/
structure Platform (π : Type) where
  /-- Unicode tables. -/
  std : RustStd
  /-- `pinyin_table::lookup_syllable`. -/
  lookupSyllable : Char → Option String
  /-- `Path::new`. -/
  ofText : String → π
  /-- `to_string_lossy`. -/
  lossy : π → String
  /-- `Path::join` with a file name. -/
  join : π → π → π
  /-- `Path::parent`. -/
  parent : π → Option π
  /-- `Path::file_name`. -/
  fileName : π → Option π

/-- The columns of `files` that a writer sets. -/
structure FileColumns where
  path : String
  name : String
  parent : String
  isDir : Bool
  size : Int64
  modifiedMs : Int64
  deriving DecidableEq, Repr

/-- A row of `files`. -/
structure FileRow extends FileColumns where
  /-- `INTEGER PRIMARY KEY`. -/
  id : ℕ
  deriving DecidableEq, Repr

/-- A row of `files_fts`. -/
structure FtsRow where
  name : String
  pinyinInit : String
  pinyinFull : String
  path : String
  deriving DecidableEq, Repr

/-- The unique column of `files`. -/
abbrev FileRow.key (r : FileRow) : String := r.path

/-- The table `files`: `path` is unique. -/
abbrev Files := Table FileRow.key

/-- The database of the index. -/
structure IndexDb where
  files : Files
  /-- The rows of `files_fts`; `none` where SQLite lacks FTS5 (`fts_available` is false). -/
  fts : Option (List FtsRow)
  /-- The value of `generation` in `index_meta`, 0 before it is there. -/
  generation : ℕ

/-- `fts_available`. -/
def IndexDb.ftsAvailable (s : IndexDb) : Bool := s.fts.isSome

/-- The index without rows, FTS5 at hand. -/
def IndexDb.empty : IndexDb := ⟨Table.empty, some [], 0⟩

/-- `lower(path)`. -/
def sqlLowerPath (path : String) : String := String.ofList (sqlLower path.toList)

/-! ## Statements on `files` -/

/-- The row id that SQLite gives to a new row: one more than the largest. -/
def nextId (files : Files) : ℕ := (files.rows.map FileRow.id).foldr max 0 + 1

/-- `INSERT OR IGNORE INTO files`. -/
def insertOrIgnore (files : Files) (c : FileColumns) : Files :=
  files.insertOrIgnore ⟨c, nextId files⟩

/-- `INSERT INTO files … ON CONFLICT(path) DO UPDATE`: a stored row keeps its id. -/
def upsert (files : Files) (c : FileColumns) : Files :=
  files.upsert ⟨c, ((files.find? c.path).map FileRow.id).getD (nextId files)⟩

/-- The row of a path after an insertion: the stored one, else the new one. -/
theorem find?_insertOrIgnore (files : Files) (c : FileColumns) (q : String) :
    ((insertOrIgnore files c).find? q).map FileRow.toFileColumns =
      ((files.find? q).map FileRow.toFileColumns).or (if c.path = q then some c else none) := by
  unfold insertOrIgnore
  rw [Table.find?_insertOrIgnore]
  cases files.find? q with
  | some r => rfl
  | none => by_cases hq : c.path = q <;> simp [FileRow.key, hq]

/-- The row of a path after an upsert: the new one under its path. -/
theorem find?_upsert (files : Files) (c : FileColumns) (q : String) :
    ((upsert files c).find? q).map FileRow.toFileColumns =
      if c.path = q then some c else (files.find? q).map FileRow.toFileColumns := by
  unfold upsert
  split_ifs with hq
  · subst hq
    exact congrArg _ (Table.find?_upsert_self)
  · have hne : q ≠ FileRow.key ⟨c, ((files.find? c.path).map FileRow.id).getD (nextId files)⟩ :=
      Ne.symm hq
    rw [Table.find?_upsert_of_ne hne]

/-! ## Statements on `files_fts` -/

section fts

variable {π : Type} (plat : Platform π)

/-- The search row of a file. Source: `launcher-indexer/src/lib.rs`, the insertion in
`fts_upsert` and `rebuild_fts`. -/
def ftsRow (path name : String) : FtsRow where
  name := name
  pinyinInit := pinyinInitials plat.lookupSyllable name
  pinyinFull := pinyinFull plat.lookupSyllable name
  path := path

/-- Source: `launcher-indexer/src/lib.rs`, `fts_delete`. -/
def ftsDelete (fts : List FtsRow) (path : String) : List FtsRow :=
  fts.filter fun r => r.path != path

/-- Source: `launcher-indexer/src/lib.rs`, `fts_upsert`. -/
def ftsUpsert (fts : List FtsRow) (path name : String) : List FtsRow :=
  ftsDelete fts path ++ [ftsRow plat path name]

/-- The search rows stored under a path. -/
def ftsAt (fts : List FtsRow) (q : String) : List FtsRow := fts.filter fun r => r.path == q

theorem ftsAt_ftsDelete (fts : List FtsRow) (path q : String) :
    ftsAt (ftsDelete fts path) q = if q = path then [] else ftsAt fts q := by
  unfold ftsAt ftsDelete
  rw [List.filter_filter]
  split_ifs with hq
  · subst hq
    exact List.filter_eq_nil_iff.mpr fun r _ => by simp
  · refine List.filter_congr fun r _ => ?_
    by_cases hr : r.path = q
    · simp [hr, hq]
    · simp [hr]

theorem ftsAt_ftsUpsert (fts : List FtsRow) (path name q : String) :
    ftsAt (ftsUpsert plat fts path name) q =
      if q = path then [ftsRow plat path name] else ftsAt fts q := by
  have happ : ftsAt (ftsUpsert plat fts path name) q =
      ftsAt (ftsDelete fts path) q ++ ftsAt [ftsRow plat path name] q := List.filter_append _ _
  rw [happ, ftsAt_ftsDelete]
  by_cases hq : q = path
  · simp [hq, ftsAt, ftsRow]
  · simp [hq, ftsAt, ftsRow, Ne.symm hq]

end fts

end AuraLauncher.Index
