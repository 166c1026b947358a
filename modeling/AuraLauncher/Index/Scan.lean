import AuraLauncher.Index.Tables

/-!
# The scan of a directory tree

A scan walks a directory depth first, at most nine levels deep, and writes one row for each entry
it meets before it goes below that entry. All levels and all roots draw on one budget of rows.
Names that begin with a dot are skipped with all below them, and a junction gets its row but is
not followed.

* `FileSystem`, `DirEntry` — what the scan reads of the disk.
* `scanInto`, `scanRoots` — the rows that a scan writes, in their order, and the budget it leaves.
* `Below`, `below_of_mem_scanInto` — every row a scan writes is below the directory it started in.
* `scanInto_budget`, `scanRoots_budget` — every row is paid for once.

Recorded: an entry whose name or metadata cannot be read is passed over, and a directory that
cannot be read counts as empty.
-/

namespace AuraLauncher.Index

open AuraLauncher.Lib AuraLauncher.Domain

/-- The most rows that one scan writes. -/
def MAX_INDEX_ENTRIES : ℕ := 500000

/-- The levels of directories that a scan enters: the depths 0 to 8. -/
def SCAN_LEVELS : ℕ := 9

/-- What `fs::Metadata` says of an entry. -/
structure Metadata where
  isDir : Bool
  len : UInt64
  /-- Milliseconds since the epoch, where the time is known and not before it. -/
  modified : Option ℕ
  deriving DecidableEq

/-- An entry of a directory. -/
structure DirEntry (π : Type) where
  fileName : π
  /-- `none` when the metadata cannot be read. -/
  metadata : Option Metadata

/-- The disk as a scan finds it. -/
structure FileSystem (π : Type) where
  /-- `read_dir`: `none` when the directory cannot be read, and a `none` in the list for an entry
  that cannot. -/
  readDir : π → Option (List (Option (DirEntry π)))
  /-- Source: `launcher-indexer/src/lib.rs`, `is_junction_like`. -/
  isJunctionLike : π → Bool

variable {π : Type} (plat : Platform π) (fs : FileSystem π)

/-- The row of an entry of `dir`. -/
def scannedColumns (dir : π) (e : DirEntry π) (m : Metadata) : FileColumns where
  path := plat.lossy (plat.join dir e.fileName)
  name := plat.lossy e.fileName
  parent := ((plat.parent (plat.join dir e.fileName)).map plat.lossy).getD ""
  isDir := m.isDir
  size := if m.isDir then 0 else m.len.toInt64
  modifiedMs := Int64.ofNat (m.modified.getD 0)

/-- The loop over the entries of `dir`; `descend` scans a directory below. Source:
`launcher-indexer/src/lib.rs`, the loop of `scan_into`. -/
def scanEntries (descend : π → ℕ → List FileColumns × ℕ) (dir : π) :
    List (Option (DirEntry π)) → ℕ → List FileColumns × ℕ
  | [], remaining => ([], remaining)
  | none :: entries, remaining => scanEntries descend dir entries remaining
  | some e :: entries, remaining =>
      if (plat.lossy e.fileName).toList.head? = some '.' then
        scanEntries descend dir entries remaining
      else
        match e.metadata with
        | none => scanEntries descend dir entries remaining
        | some m =>
            if remaining = 0 then ([], 0)
            else
              let path := plat.join dir e.fileName
              let below :=
                if m.isDir && !fs.isJunctionLike path then descend path (remaining - 1)
                else ([], remaining - 1)
              let rest := scanEntries descend dir entries below.2
              (scannedColumns plat dir e m :: below.1 ++ rest.1, rest.2)

/-- The rows that a scan of a directory writes and the budget it leaves. Source:
`launcher-indexer/src/lib.rs`, `scan_into`. -/
def scanInto : ℕ → π → ℕ → List FileColumns × ℕ
  | 0, _, remaining => ([], remaining)
  | levels + 1, root, remaining =>
      if remaining = 0 then ([], 0)
      else
        match fs.readDir root with
        | none => ([], remaining)
        | some entries =>
            scanEntries plat fs (fun p r => scanInto levels p r) root entries remaining

/-- The scan of several roots on one budget. Source: `launcher-indexer/src/lib.rs`, the loop of
`rebuild`. -/
def scanRoots : List π → ℕ → List FileColumns × ℕ
  | [], remaining => ([], remaining)
  | root :: roots, remaining =>
      if remaining = 0 then ([], 0)
      else
        let first := scanInto plat fs SCAN_LEVELS root remaining
        let rest := scanRoots roots first.2
        (first.1 ++ rest.1, rest.2)

/-! ## What a scan writes -/

/-- A path reached from a directory by joining names to it. -/
def Below (dir : π) (path : String) : Prop :=
  ∃ names : List π, path = plat.lossy (names.foldl plat.join dir)

theorem Below.of_join {dir name : π} {path : String} (h : Below plat (plat.join dir name) path) :
    Below plat dir path := by
  obtain ⟨names, hpath⟩ := h
  exact ⟨name :: names, hpath⟩

/-- What the loop does with an entry: nothing, stop for lack of budget, or write its row, descend
or not, and go on with the budget left. -/
theorem scanEntries_cons_cases (descend : π → ℕ → List FileColumns × ℕ) (dir : π)
    (entry : Option (DirEntry π)) (entries : List (Option (DirEntry π))) (remaining : ℕ) :
    scanEntries plat fs descend dir (entry :: entries) remaining =
        scanEntries plat fs descend dir entries remaining ∨
      (remaining = 0 ∧ scanEntries plat fs descend dir (entry :: entries) remaining = ([], 0)) ∨
      ∃ e m below, entry = some e ∧ 0 < remaining ∧
        (below = descend (plat.join dir e.fileName) (remaining - 1) ∨
          below = ([], remaining - 1)) ∧
        scanEntries plat fs descend dir (entry :: entries) remaining =
          (scannedColumns plat dir e m :: below.1 ++
              (scanEntries plat fs descend dir entries below.2).1,
            (scanEntries plat fs descend dir entries below.2).2) := by
  cases entry with
  | none => exact .inl rfl
  | some e =>
      by_cases hhidden : (plat.lossy e.fileName).toList.head? = some '.'
      · exact .inl (by rw [scanEntries, if_pos hhidden])
      · cases hmeta : e.metadata with
        | none => exact .inl (by rw [scanEntries, if_neg hhidden, hmeta])
        | some m =>
            by_cases hzero : remaining = 0
            · exact .inr (.inl ⟨hzero, by rw [scanEntries, if_neg hhidden, hmeta]; simp [hzero]⟩)
            · refine .inr (.inr ⟨e, m, _, rfl, Nat.pos_of_ne_zero hzero, ?_, by
                rw [scanEntries, if_neg hhidden, hmeta]; simp only [hzero, if_false]; rfl⟩)
              split_ifs
              · exact .inl rfl
              · exact .inr rfl

theorem below_of_mem_scanEntries {descend : π → ℕ → List FileColumns × ℕ} {dir : π}
    (hdescend : ∀ name r, ∀ c ∈ (descend (plat.join dir name) r).1,
      Below plat (plat.join dir name) c.path)
    (entries : List (Option (DirEntry π))) (remaining : ℕ) :
    ∀ c ∈ (scanEntries plat fs descend dir entries remaining).1, Below plat dir c.path := by
  induction entries generalizing remaining with
  | nil => simp [scanEntries]
  | cons entry entries ih =>
      obtain h | ⟨-, h⟩ | ⟨e, m, below, -, -, hbelow, h⟩ :=
        scanEntries_cons_cases plat fs descend dir entry entries remaining
      · rw [h]
        exact ih remaining
      · simp [h]
      · rw [h]
        simp only [List.cons_append, List.mem_cons, List.mem_append]
        rintro c (rfl | hc | hc)
        · exact ⟨[e.fileName], rfl⟩
        · rcases hbelow with rfl | rfl
          · exact (hdescend _ _ c hc).of_join
          · simp at hc
        · exact ih _ c hc

/-- **A scan stays below its root**: every row it writes is reached by joining names to the
root. -/
theorem below_of_mem_scanInto (levels : ℕ) (root : π) (remaining : ℕ) :
    ∀ c ∈ (scanInto plat fs levels root remaining).1, Below plat root c.path := by
  induction levels generalizing root remaining with
  | zero => simp [scanInto]
  | succ levels ih =>
      unfold scanInto
      split_ifs with hzero
      · simp
      · cases fs.readDir root with
        | none => simp
        | some entries =>
            exact below_of_mem_scanEntries plat fs (fun name r => ih (plat.join root name) r)
              entries remaining

theorem scanEntries_budget {descend : π → ℕ → List FileColumns × ℕ} {dir : π}
    (hdescend : ∀ p r, (descend p r).1.length + (descend p r).2 = r)
    (entries : List (Option (DirEntry π))) (remaining : ℕ) :
    (scanEntries plat fs descend dir entries remaining).1.length +
      (scanEntries plat fs descend dir entries remaining).2 = remaining := by
  induction entries generalizing remaining with
  | nil => simp [scanEntries]
  | cons entry entries ih =>
      obtain h | ⟨hzero, h⟩ | ⟨e, m, below, -, hpos, hbelow, h⟩ :=
        scanEntries_cons_cases plat fs descend dir entry entries remaining
      · rw [h]
        exact ih remaining
      · rw [h]
        exact hzero.symm
      · have hleft : below.1.length + below.2 = remaining - 1 := by
          rcases hbelow with rfl | rfl
          · exact hdescend _ _
          · exact Nat.zero_add _
        have hrest := ih below.2
        rw [h]
        simp only [List.cons_append, List.length_cons, List.length_append]
        omega

/-- **Every row is paid for**: the rows of a scan and the budget it leaves make up the budget it
had. -/
theorem scanInto_budget (levels : ℕ) (root : π) (remaining : ℕ) :
    (scanInto plat fs levels root remaining).1.length +
      (scanInto plat fs levels root remaining).2 = remaining := by
  induction levels generalizing root remaining with
  | zero => simp [scanInto]
  | succ levels ih =>
      unfold scanInto
      split_ifs with hzero
      · simp [hzero]
      · cases fs.readDir root with
        | none => simp
        | some entries => exact scanEntries_budget plat fs ih entries remaining

/-- The budget is shared by all roots of a rebuild. -/
theorem scanRoots_budget (roots : List π) (remaining : ℕ) :
    (scanRoots plat fs roots remaining).1.length + (scanRoots plat fs roots remaining).2 =
      remaining := by
  induction roots generalizing remaining with
  | nil => simp [scanRoots]
  | cons root roots ih =>
      unfold scanRoots
      split_ifs with hzero
      · simp [hzero]
      · have hfirst := scanInto_budget plat fs SCAN_LEVELS root remaining
        have hrest := ih (scanInto plat fs SCAN_LEVELS root remaining).2
        simp only [List.length_append]
        omega

end AuraLauncher.Index
