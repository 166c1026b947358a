import AuraLauncher.Index.Agreement
import AuraLauncher.Index.Incremental

/-!
# Deleting a directory from the index

`launcher-indexer/src/lib.rs`, `apply_batch`: a delete of a path is to remove the rows of its whole
subtree, since a directory that is moved away is one event. What it removes are the rows whose path,
lowered by SQLite, is the identity of the deleted path; rows below it stay.

* `InSubtree` — a path is the deleted one or lies below it, up to the identity.
* `VerifiedChange.Touches` — a change is about the row of a path.
* `mem_foldl_changeFiles_iff` — a row that changes do not touch; `written_or_mem` — where a row
  comes from.
* `DeletesSubtree`, `deletesSubtree_iff` — what a delete within a batch should do, and exactly when
  it does.
* `not_deletesSubtree_directory` — the file in a deleted directory stays.
-/

namespace AuraLauncher.Index

open AuraLauncher.Lib AuraLauncher.Domain

variable {π : Type} (plat : Platform π)

/-- A path is `p` or lies below it. -/
def InSubtree (p q : String) : Prop :=
  Contains (normalizePathIdentity plat.std p) (normalizePathIdentity plat.std q)

/-- A change writes or removes the row of a path. -/
def VerifiedChange.Touches (q : String) : VerifiedChange → Prop
  | .upsert o => q = o.path ∨ sqlLowerPath q = o.normalizedPath
  | .delete normalizedPath => sqlLowerPath q = normalizedPath

/-- One of the changes writes the row of a path. -/
def WrittenBy (changes : List VerifiedChange) (q : String) : Prop :=
  ∃ o, VerifiedChange.upsert o ∈ changes ∧ o.path = q

/-- None of the changes is about the row of a path. -/
def Untouched (changes : List VerifiedChange) (q : String) : Prop :=
  ∀ c ∈ changes, ¬ c.Touches q

/-! ## The rows after changes -/

variable {plat}

/-- A row of a path other than the one that is upserted is not changed by the upsert. -/
theorem mem_upsert_of_ne {files : Files} {c : FileColumns} {r : FileRow} (h : r.path ≠ c.path) :
    r ∈ (upsert files c).rows ↔ r ∈ files.rows := by
  have hself : ∀ t : Files, r ∈ t.rows ↔ t.find? (FileRow.key r) = some r := by
    intro t
    rw [Table.find?_eq_some_iff]
    exact (and_iff_left rfl).symm
  have hsame : (upsert files c).find? (FileRow.key r) = files.find? (FileRow.key r) :=
    Table.find?_upsert_of_ne h
  rw [hself, hself, hsame]

/-- A row that a change does not touch is there afterwards when it was there before. -/
theorem mem_changeFiles_iff {files : Files} {c : VerifiedChange} {r : FileRow}
    (h : ¬ c.Touches r.path) : r ∈ (changeFiles plat files c).rows ↔ r ∈ files.rows := by
  cases c with
  | upsert o =>
      obtain ⟨hpath, hlower⟩ := not_or.mp h
      have hother : otherSpelling o r = false := by
        unfold otherSpelling
        rw [beq_eq_false_iff_ne.mpr hlower, Bool.false_and]
      calc r ∈ (changeFiles plat files (.upsert o)).rows
          ↔ r ∈ (files.deleteWhere (otherSpelling o)).rows := mem_upsert_of_ne hpath
        _ ↔ r ∈ files.rows := Table.mem_deleteWhere.trans (and_iff_left hother)
  | delete norm =>
      exact Table.mem_deleteWhere.trans (and_iff_left (beq_eq_false_iff_ne.mpr h))

/-- A row after a change is written by it, or was there before and is not touched. -/
theorem written_or_mem_changeFiles {files : Files} {c : VerifiedChange} {r : FileRow}
    (h : r ∈ (changeFiles plat files c).rows) :
    WrittenBy [c] r.path ∨ r ∈ files.rows ∧ ¬ c.Touches r.path := by
  cases c with
  | upsert o =>
      by_cases hpath : o.path = r.path
      · exact .inl ⟨o, List.mem_cons_self, hpath⟩
      · have hne : r.path ≠ o.path := fun heq => hpath heq.symm
        obtain ⟨hr, hother⟩ := Table.mem_deleteWhere.mp ((mem_upsert_of_ne hne).mp h)
        refine .inr ⟨hr, ?_⟩
        rintro (heq | hlower)
        · exact hne heq
        · have htrue : otherSpelling o r = true := by
            unfold otherSpelling
            rw [beq_iff_eq.mpr hlower, bne_iff_ne.mpr hne, Bool.and_self]
          exact Bool.noConfusion (htrue.symm.trans hother)
  | delete norm =>
      obtain ⟨hr, hne⟩ := Table.mem_deleteWhere.mp h
      exact .inr ⟨hr, beq_eq_false_iff_ne.mp hne⟩

/-- A path that is written is touched. -/
theorem WrittenBy.not_untouched {changes : List VerifiedChange} {q : String}
    (h : WrittenBy changes q) : ¬ Untouched changes q := by
  obtain ⟨o, ho, hpath⟩ := h
  intro huntouched
  exact huntouched _ ho (.inl hpath.symm)

/-- A row that none of the changes touches is there afterwards when it was there before. -/
theorem mem_foldl_changeFiles_iff {changes : List VerifiedChange} {files : Files} {r : FileRow}
    (h : Untouched changes r.path) :
    r ∈ (changes.foldl (changeFiles plat) files).rows ↔ r ∈ files.rows := by
  induction changes generalizing files with
  | nil => exact Iff.rfl
  | cons c changes ih =>
      obtain ⟨hc, hchanges⟩ := List.forall_mem_cons.mp h
      rw [List.foldl_cons, ih hchanges, mem_changeFiles_iff hc]

/-- A row after changes is written by one of them, or was there before and is not touched. -/
theorem written_or_mem {changes : List VerifiedChange} {files : Files} {r : FileRow}
    (h : r ∈ (changes.foldl (changeFiles plat) files).rows) :
    WrittenBy changes r.path ∨ r ∈ files.rows ∧ Untouched changes r.path := by
  induction changes generalizing files with
  | nil => exact .inr ⟨h, List.forall_mem_nil _⟩
  | cons c changes ih =>
      rcases ih h with ⟨o, ho, hpath⟩ | ⟨hr, hrest⟩
      · exact .inl ⟨o, List.mem_cons_of_mem _ ho, hpath⟩
      · rcases written_or_mem_changeFiles hr with ⟨o, ho, hpath⟩ | ⟨hfiles, hc⟩
        · exact .inl ⟨o, List.mem_cons.mpr (.inl (List.mem_singleton.mp ho)), hpath⟩
        · exact .inr ⟨hfiles, List.forall_mem_cons.mpr ⟨hc, hrest⟩⟩

/-! ## A delete within a batch -/

variable (plat)

/-- The rows after a batch. -/
def rowsAfter (s : IndexDb) (changes : List VerifiedChange) : List FileRow :=
  (applyBatch plat s changes).1.files.rows

theorem rowsAfter_eq (s : IndexDb) (changes : List VerifiedChange) :
    rowsAfter plat s changes = (changes.foldl (changeFiles plat) s.files).rows := by
  unfold rowsAfter applyBatch
  cases changes with
  | nil => rfl
  | cons c changes => exact congrArg Table.rows (foldl_applyChange_files plat (c :: changes) s)

/-- What a delete of `p` should do between the other changes of a batch: of the rows of its subtree
those remain that are written after it, and the rows outside that are not touched after it are as
they were. -/
def DeletesSubtree (s : IndexDb) (before : List VerifiedChange) (p : String)
    (after : List VerifiedChange) : Prop :=
  (∀ r ∈ rowsAfter plat s (before ++ .delete (normalizePathIdentity plat.std p) :: after),
      InSubtree plat p r.path → WrittenBy after r.path) ∧
  ∀ r : FileRow, ¬ InSubtree plat p r.path → Untouched after r.path →
    (r ∈ rowsAfter plat s (before ++ .delete (normalizePathIdentity plat.std p) :: after) ↔
      r ∈ rowsAfter plat s before)

/-- The rows that a delete leaves. -/
theorem mem_rowsAfter_delete (s : IndexDb) (before : List VerifiedChange) (norm : String)
    (r : FileRow) :
    r ∈ (changeFiles plat (before.foldl (changeFiles plat) s.files) (.delete norm)).rows ↔
      r ∈ rowsAfter plat s before ∧ sqlLowerPath r.path ≠ norm := by
  rw [rowsAfter_eq]
  exact Table.mem_deleteWhere.trans (and_congr_right fun _ => beq_eq_false_iff_ne)

/-- **A delete removes its subtree exactly when** the rows before it that nothing after it touches
are stored under the identity of its path, lowered by SQLite, if and only if they lie in the
subtree. -/
theorem deletesSubtree_iff (s : IndexDb) (before : List VerifiedChange) (p : String)
    (after : List VerifiedChange) :
    DeletesSubtree plat s before p after ↔
      ∀ r ∈ rowsAfter plat s before, Untouched after r.path →
        (sqlLowerPath r.path = normalizePathIdentity plat.std p ↔ InSubtree plat p r.path) := by
  have hfinal : rowsAfter plat s (before ++ .delete (normalizePathIdentity plat.std p) :: after) =
      (after.foldl (changeFiles plat) (changeFiles plat (before.foldl (changeFiles plat) s.files)
        (.delete (normalizePathIdentity plat.std p)))).rows := by
    rw [rowsAfter_eq, List.foldl_append, List.foldl_cons]
  unfold DeletesSubtree
  rw [hfinal]
  constructor
  · rintro ⟨hinside, houtside⟩ r hr huntouched
    constructor
    · intro hlower
      by_contra hout
      have hleft := (houtside r hout huntouched).mpr hr
      rw [mem_foldl_changeFiles_iff huntouched, mem_rowsAfter_delete] at hleft
      exact hleft.2 hlower
    · intro hin
      by_contra hlower
      -- the row survives the delete and nothing writes it again
      have hleft := (mem_rowsAfter_delete plat s before _ r).mpr ⟨hr, hlower⟩
      have hwritten := hinside r ((mem_foldl_changeFiles_iff huntouched).mpr hleft) hin
      exact hwritten.not_untouched huntouched
  · intro hrows
    constructor
    · intro r hr hin
      rcases written_or_mem hr with hwritten | ⟨hleft, huntouched⟩
      · exact hwritten
      · obtain ⟨hbefore, hlower⟩ := (mem_rowsAfter_delete plat s before _ r).mp hleft
        exact absurd ((hrows r hbefore huntouched).mpr hin) hlower
    · intro r hout huntouched
      rw [mem_foldl_changeFiles_iff huntouched, mem_rowsAfter_delete]
      constructor
      · intro hleft
        exact hleft.1
      · intro hbefore
        exact ⟨hbefore, fun hlower => hout ((hrows r hbefore huntouched).mp hlower)⟩

/-! ## A directory that is deleted -/

/-- An index of one file in a directory, `C:\d\f`. -/
def oneFileDb : IndexDb :=
  ⟨⟨[⟨⟨"C:\\d\\f", "f", "C:\\d", false, 1, 0⟩, 1⟩], List.nodup_singleton _⟩, some [], 1⟩

/-- **A delete of the directory `C:\d` leaves the row of `C:\d\f`.** -/
theorem not_deletesSubtree_directory :
    ¬ ∀ (s : IndexDb) (before : List VerifiedChange) (p : String) (after : List VerifiedChange),
      DeletesSubtree textPlatform s before p after := by
  intro h
  have hinside := (h oneFileDb [] "C:\\d" []).1
    ⟨⟨"C:\\d\\f", "f", "C:\\d", false, 1, 0⟩, 1⟩ (by decide +kernel)
    (show Contains _ _ by decide +kernel)
  obtain ⟨_, hmem, _⟩ := hinside
  exact List.not_mem_nil hmem

end AuraLauncher.Index
