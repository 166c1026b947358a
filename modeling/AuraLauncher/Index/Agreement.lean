import AuraLauncher.Index.Frame

/-!
# The search rows and the files

`files_fts` is meant to have one row for each row of `files`, with its name and the pinyin of its
name. A batch maintains it change by change, `rebuild_fts` makes it anew; a rescan and a rebuild
change `files` alone.

* `Agree` — the rows of `files_fts` are those of `files`, up to order.
* `AgreesAt`, `perm_iff_agreesAt` — the same for the rows of one path.
* `Orphaned`, `applyBatch_at` — the paths whose search row a batch leaves behind: an upsert drops
  the row of another spelling from `files`, and no later upsert of the batch writes that spelling.
* `Refound` — what a scan must find for the tables to agree after it.
* `commit_agree_iff` — the exact condition for one commit.
* `agree_visits_iff` — the exact condition for a run: the tables agree after each commit when, and
  only when, each commit meets it.
* `rebuild_leaves_fts_empty` — a rebuild of an empty index over one file leaves that file without
  a search row.
-/

namespace AuraLauncher.Index

open AuraLauncher.Lib AuraLauncher.Domain

variable {π : Type} (plat : Platform π)

/-- Where there is a table `files_fts`, its rows are one for each row of `files`, with the name,
the pinyin and the path of that row. -/
def Agree (s : IndexDb) : Prop :=
  ∀ fts, s.fts = some fts → fts.Perm (s.files.rows.map fun r => ftsRow plat r.path r.name)

/-! ## One path at a time -/

/-- The search row that a path should have. -/
def expectedRow (files : Files) (q : String) : Option FtsRow :=
  ((files.find? q).map FileRow.toFileColumns).map fun c => ftsRow plat c.path c.name

/-- The search rows of a path are the one it should have. -/
def AgreesAt (files : Files) (fts : List FtsRow) (q : String) : Prop :=
  ftsAt fts q = (expectedRow plat files q).toList

theorem expectedRow_isSome {files : Files} {q : String} :
    (expectedRow plat files q).isSome = (files.find? q).isSome := by
  simp [expectedRow]

theorem ftsAt_expected (files : Files) (q : String) :
    ftsAt (files.rows.map fun r => ftsRow plat r.path r.name) q =
      (expectedRow plat files q).toList := by
  have hrows := congrArg (List.map fun r : FileRow => ftsRow plat r.path r.name)
    (files.filter_key_eq q)
  unfold ftsAt expectedRow
  rw [List.filter_map]
  refine Eq.trans ?_ (hrows.trans ?_)
  · refine congrArg _ (List.filter_congr fun r _ => ?_)
    exact beq_eq_decide r.path q
  · cases files.find? q <;> rfl

/-- Two tables agree when they agree at every path. -/
theorem perm_iff_agreesAt (files : Files) (fts : List FtsRow) :
    fts.Perm (files.rows.map fun r => ftsRow plat r.path r.name) ↔
      ∀ q, AgreesAt plat files fts q := by
  constructor
  · intro hperm q
    have hat : (ftsAt fts q).Perm (expectedRow plat files q).toList := by
      rw [← ftsAt_expected]
      exact hperm.filter _
    unfold AgreesAt
    cases hrow : expectedRow plat files q with
    | none => rwa [hrow, Option.toList_none, List.perm_nil] at hat
    | some row => rwa [hrow, Option.toList_some, List.perm_singleton] at hat
  · intro hat
    refine List.perm_iff_count.mpr fun row => ?_
    -- a row is counted among the rows of its own path
    have hcount : ∀ rows : List FtsRow, (ftsAt rows row.path).count row = rows.count row :=
      fun rows => List.count_filter (by simp)
    rw [← hcount fts, ← hcount (files.rows.map _), hat row.path, ftsAt_expected]

theorem Agree.agreesAt {s : IndexDb} (hs : Agree plat s) {fts : List FtsRow}
    (hfts : s.fts = some fts) (q : String) : AgreesAt plat s.files fts q :=
  (perm_iff_agreesAt plat s.files fts).mp (hs fts hfts) q

theorem agree_iff_agreesAt {s : IndexDb} {fts : List FtsRow} (hfts : s.fts = some fts) :
    Agree plat s ↔ ∀ q, AgreesAt plat s.files fts q := by
  rw [← perm_iff_agreesAt]
  constructor
  · intro hs
    exact hs fts hfts
  · intro hperm fts' hfts'
    obtain rfl : fts = fts' := Option.some.inj (hfts.symm.trans hfts')
    exact hperm

/-- Without `files_fts` there is nothing to agree. -/
theorem agree_of_not_available {s : IndexDb} (h : s.ftsAvailable = false) : Agree plat s := by
  intro fts hfts
  simp [IndexDb.ftsAvailable, hfts] at h

/-! ## Batches -/

/-- An upsert drops the row stored under `q`, another spelling of its path. -/
def DropsSpelling (files : Files) (o : FileObservation) (q : String) : Prop :=
  sqlLowerPath q = o.normalizedPath ∧ q ≠ o.path ∧ (files.find? q).isSome = true

/-- A batch leaves the search row of `q` behind: one of its upserts drops the row of `q` from
`files`, and none after it writes `q` again. -/
def Orphaned (files : Files) (changes : List VerifiedChange) (q : String) : Prop :=
  ∃ before o after, changes = before ++ .upsert o :: after ∧
    DropsSpelling (before.foldl (changeFiles plat) files) o q ∧
    ∀ o', VerifiedChange.upsert o' ∈ after → o'.path ≠ q

theorem not_orphaned_nil (files : Files) (q : String) : ¬ Orphaned plat files [] q := by
  rintro ⟨before, o, after, hsplit, -⟩
  simp at hsplit

/-- A further change leaves a row behind if it drops the row itself, or if it does not write the
path of a row left behind before. -/
theorem orphaned_snoc {files : Files} {changes : List VerifiedChange} {c : VerifiedChange}
    {q : String} :
    Orphaned plat files (changes ++ [c]) q ↔
      (∃ o, c = .upsert o ∧ DropsSpelling (changes.foldl (changeFiles plat) files) o q) ∨
      (Orphaned plat files changes q ∧ ∀ o, c = .upsert o → o.path ≠ q) := by
  constructor
  · rintro ⟨before, o, after, hsplit, hdrops, hafter⟩
    rcases List.eq_nil_or_concat' after with rfl | ⟨after, d, rfl⟩
    · obtain ⟨rfl, hc⟩ := List.append_inj' hsplit rfl
      exact .inl ⟨o, List.singleton_inj.mp hc, hdrops⟩
    · rw [← List.cons_append, ← List.append_assoc] at hsplit
      obtain ⟨rfl, hc⟩ := List.append_inj' hsplit rfl
      obtain rfl := List.singleton_inj.mp hc
      refine .inr ⟨⟨before, o, after, rfl, hdrops, fun o' ho' => ?_⟩, ?_⟩
      · exact hafter o' (List.mem_append_left _ ho')
      · rintro o' rfl
        exact hafter o' (List.mem_append_right _ List.mem_cons_self)
  · rintro (⟨o, rfl, hdrops⟩ | ⟨⟨before, o, after, rfl, hdrops, hafter⟩, hc⟩)
    · exact ⟨changes, o, [], rfl, hdrops, by simp⟩
    · refine ⟨before, o, after ++ [c], by simp, hdrops, fun o' ho' => ?_⟩
      rcases List.mem_append.mp ho' with ho' | ho'
      · exact hafter o' ho'
      · exact hc o' (List.mem_singleton.mp ho').symm

/-- The row that a path should have after an upsert. -/
theorem expectedRow_upsert (files : Files) (o : FileObservation) (q : String) :
    (q = o.path ∧ expectedRow plat (changeFiles plat files (.upsert o)) q =
        some (ftsRow plat o.path (fileNameOf plat o.path))) ∨
      (q ≠ o.path ∧ DropsSpelling files o q ∧
        expectedRow plat (changeFiles plat files (.upsert o)) q = none) ∨
      (q ≠ o.path ∧ ¬ DropsSpelling files o q ∧
        expectedRow plat (changeFiles plat files (.upsert o)) q = expectedRow plat files q) := by
  unfold expectedRow changeFiles
  simp only [find?_upsert]
  by_cases hq : q = o.path
  · subst hq
    exact .inl ⟨rfl, by simp [observedColumns]⟩
  · have hne : (observedColumns plat o).path ≠ q := Ne.symm hq
    simp only [hne, if_false, Table.find?_deleteWhere]
    refine .inr ?_
    cases hfind : files.find? q with
    | none => exact .inr ⟨hq, by simp [DropsSpelling, hfind], rfl⟩
    | some r =>
        have hpath : r.path = q := (Table.find?_eq_some_iff.mp hfind).2
        by_cases hlower : sqlLowerPath q = o.normalizedPath
        · exact .inl ⟨hq, ⟨hlower, hq, by simp [hfind]⟩, by
            simp [Option.filter, otherSpelling, hpath, hlower, hq]⟩
        · exact .inr ⟨hq, fun hdrops => hlower hdrops.1, by
            simp [Option.filter, otherSpelling, hpath, hlower]⟩

/-- The row that a path should have after a delete. -/
theorem expectedRow_delete (files : Files) (norm q : String) :
    expectedRow plat (changeFiles plat files (.delete norm)) q =
      if sqlLowerPath q = norm then none else expectedRow plat files q := by
  unfold expectedRow changeFiles
  simp only [Table.find?_deleteWhere]
  cases hfind : files.find? q with
  | none => simp
  | some r =>
      have hpath : r.path = q := (Table.find?_eq_some_iff.mp hfind).2
      by_cases hlower : sqlLowerPath q = norm <;> simp [Option.filter, hpath, hlower]

theorem mem_deletedPaths {files : Files} {norm q : String} :
    q ∈ deletedPaths files norm ↔ sqlLowerPath q = norm ∧ (files.find? q).isSome = true := by
  unfold deletedPaths
  rw [List.mem_map, Option.isSome_iff_exists]
  constructor
  · rintro ⟨r, hr, rfl⟩
    obtain ⟨hr, hlower⟩ := List.mem_filter.mp hr
    exact ⟨by simpa using hlower, r, Table.find?_eq_some_iff.mpr ⟨hr, rfl⟩⟩
  · rintro ⟨hlower, r, hfind⟩
    obtain ⟨hr, hkey⟩ := Table.find?_eq_some_iff.mp hfind
    have hpath : r.path = q := hkey
    exact ⟨r, List.mem_filter.mpr ⟨hr, by simp [hpath, hlower]⟩, hkey⟩

theorem ftsAt_foldl_ftsDelete (fts : List FtsRow) (paths : List String) (q : String) :
    ftsAt (paths.foldl ftsDelete fts) q = if q ∈ paths then [] else ftsAt fts q := by
  induction paths generalizing fts with
  | nil => simp
  | cons path paths ih =>
      rw [List.foldl_cons, ih, ftsAt_ftsDelete]
      by_cases hq : q = path
      · simp [hq]
      · simp [hq]

/-- The search rows of a path after an upsert. -/
theorem ftsAt_upsert (files : Files) (fts : List FtsRow) (o : FileObservation) (q : String) :
    ftsAt (changeFts plat files fts (.upsert o)) q =
      if q = o.path then [ftsRow plat o.path (fileNameOf plat o.path)] else ftsAt fts q :=
  ftsAt_ftsUpsert plat fts o.path (fileNameOf plat o.path) q

theorem foldl_applyChange_files (changes : List VerifiedChange) (s : IndexDb) :
    (changes.foldl (applyChange plat) s).files = changes.foldl (changeFiles plat) s.files := by
  induction changes generalizing s with
  | nil => rfl
  | cons c changes ih => exact ih (applyChange plat s c)

/-- One upsert at one path; `orphaned` says whether the search row of the path was left behind
before. -/
theorem upsert_at (files : Files) (fts : List FtsRow) (o : FileObservation) (q : String)
    {orphaned : Prop}
    (h : (orphaned ∧ expectedRow plat files q = none ∧ ftsAt fts q ≠ []) ∨
      (¬ orphaned ∧ AgreesAt plat files fts q)) :
    (((∃ o', VerifiedChange.upsert o = .upsert o' ∧ DropsSpelling files o' q) ∨
        (orphaned ∧ ∀ o', VerifiedChange.upsert o = .upsert o' → o'.path ≠ q)) ∧
      expectedRow plat (changeFiles plat files (.upsert o)) q = none ∧
      ftsAt (changeFts plat files fts (.upsert o)) q ≠ []) ∨
    (¬ ((∃ o', VerifiedChange.upsert o = .upsert o' ∧ DropsSpelling files o' q) ∨
        (orphaned ∧ ∀ o', VerifiedChange.upsert o = .upsert o' → o'.path ≠ q)) ∧
      AgreesAt plat (changeFiles plat files (.upsert o)) (changeFts plat files fts (.upsert o))
        q) := by
  simp only [VerifiedChange.upsert.injEq, exists_eq_left', forall_eq', AgreesAt, ftsAt_upsert]
  obtain ⟨hq, hrow⟩ | ⟨hq, hdrops, hrow⟩ | ⟨hq, hkeeps, hrow⟩ := expectedRow_upsert plat files o q
  · refine .inr ⟨?_, by rw [if_pos hq, hrow, Option.toList_some]⟩
    rintro (hdrops | ⟨-, hne⟩)
    · exact hdrops.2.1 hq
    · exact hne hq.symm
  · refine .inl ⟨.inl hdrops, hrow, ?_⟩
    rw [if_neg hq]
    rcases h with ⟨-, -, hleft⟩ | ⟨-, hat⟩
    · exact hleft
    · obtain ⟨row, hstored⟩ := Option.isSome_iff_exists.mp
        ((expectedRow_isSome plat).trans hdrops.2.2)
      rw [hat, hstored]
      simp
  · rw [if_neg hq, hrow]
    simpa [hkeeps, Ne.symm hq, AgreesAt] using h

/-- One delete at one path. -/
theorem delete_at (files : Files) (fts : List FtsRow) (norm q : String) {orphaned : Prop}
    (h : (orphaned ∧ expectedRow plat files q = none ∧ ftsAt fts q ≠ []) ∨
      (¬ orphaned ∧ AgreesAt plat files fts q)) :
    (orphaned ∧ expectedRow plat (changeFiles plat files (.delete norm)) q = none ∧
      ftsAt (changeFts plat files fts (.delete norm)) q ≠ []) ∨
    (¬ orphaned ∧
      AgreesAt plat (changeFiles plat files (.delete norm))
        (changeFts plat files fts (.delete norm)) q) := by
  have hfts : ftsAt (changeFts plat files fts (.delete norm)) q =
      if sqlLowerPath q = norm ∧ (files.find? q).isSome = true then [] else ftsAt fts q := by
    simp only [changeFts, ftsAt_foldl_ftsDelete, mem_deletedPaths]
  unfold AgreesAt
  rw [expectedRow_delete, hfts]
  by_cases hlower : sqlLowerPath q = norm
  · rw [← expectedRow_isSome plat]
    rcases h with ⟨horph, hrow, hleft⟩ | ⟨horph, hat⟩
    · exact .inl ⟨horph, by simp [hlower], by simpa [hrow] using hleft⟩
    · refine .inr ⟨horph, ?_⟩
      rw [hat]
      cases expectedRow plat files q <;> simp [hlower]
  · simpa [hlower, AgreesAt] using h

/-- **What a batch leaves at each path.** The changes of a batch are applied one after another; at
any point, a path agrees unless its search row was left behind, and then it has no row in
`files`. -/
theorem applyBatch_at {s : IndexDb} {fts : List FtsRow} (hfts : s.fts = some fts)
    (hs : ∀ q, AgreesAt plat s.files fts q) (changes : List VerifiedChange) :
    ∃ fts', (changes.foldl (applyChange plat) s).fts = some fts' ∧ ∀ q,
      (Orphaned plat s.files changes q ∧
        expectedRow plat (changes.foldl (changeFiles plat) s.files) q = none ∧
        ftsAt fts' q ≠ []) ∨
      (¬ Orphaned plat s.files changes q ∧
        AgreesAt plat (changes.foldl (changeFiles plat) s.files) fts' q) := by
  induction changes using List.reverseRecOn with
  | nil => exact ⟨fts, hfts, fun q => .inr ⟨not_orphaned_nil plat s.files q, hs q⟩⟩
  | append_singleton changes c ih =>
      obtain ⟨fts', hfts', hat⟩ := ih
      rw [List.foldl_append, List.foldl_append, List.foldl_cons, List.foldl_cons, List.foldl_nil,
        List.foldl_nil]
      refine ⟨changeFts plat (changes.foldl (changeFiles plat) s.files) fts' c, ?_, fun q => ?_⟩
      · simp [applyChange, hfts', foldl_applyChange_files]
      · rw [orphaned_snoc]
        cases c with
        | upsert o => exact upsert_at plat _ fts' o q (hat q)
        | delete norm =>
            have horph : ((∃ o, VerifiedChange.delete norm = .upsert o ∧
                DropsSpelling (changes.foldl (changeFiles plat) s.files) o q) ∨
              (Orphaned plat s.files changes q ∧
                ∀ o, VerifiedChange.delete norm = .upsert o → o.path ≠ q)) ↔
                Orphaned plat s.files changes q := by simp
            rw [horph]
            exact delete_at plat _ fts' norm q (hat q)

/-- **Batches, exactly**: the tables agree after a batch when it leaves no search row behind. -/
theorem agree_applyBatch_iff {s : IndexDb} {fts : List FtsRow} (hfts : s.fts = some fts)
    (hs : Agree plat s) (changes : List VerifiedChange) :
    Agree plat (applyBatch plat s changes).1 ↔ ∀ q, ¬ Orphaned plat s.files changes q := by
  unfold applyBatch
  split_ifs with hempty
  · obtain rfl : changes = [] := by simpa using hempty
    exact ⟨fun _ => not_orphaned_nil plat s.files, fun _ => hs⟩
  · obtain ⟨fts', hfts', hat⟩ := applyBatch_at plat hfts (hs.agreesAt plat hfts) changes
    have hiff : ∀ t : IndexDb, t.fts = some fts' →
        t.files = (changes.foldl (applyChange plat) s).files →
        (Agree plat t ↔ ∀ q, ¬ Orphaned plat s.files changes q) := by
      intro t ht hfiles
      rw [agree_iff_agreesAt plat ht, hfiles, foldl_applyChange_files]
      refine forall_congr' fun q => ?_
      rcases hat q with ⟨horph, hrow, hleft⟩ | ⟨horph, hagree⟩
      · refine iff_of_false (fun hagree => hleft ?_) (not_not_intro horph)
        rw [hagree, hrow, Option.toList_none]
      · exact iff_of_true hagree horph
    exact hiff _ hfts' rfl

/-! ## Scans -/

/-- A scan finds again what is replaced by it: each deleted row under its path and with its name,
and no path that was not stored before. -/
def Refound (files : Files) (p : FileRow → Bool) (scanned : List FileColumns) : Prop :=
  (∀ r ∈ files.rows, p r = true →
    ∃ c, (scanned.find? fun c => c.path == r.path) = some c ∧ c.name = r.name) ∧
  ∀ c ∈ scanned, ∃ r ∈ files.rows, r.path = c.path

/-- The row that a path should have after a scan. -/
theorem expectedRow_replaceScanned (s : IndexDb) (p : FileRow → Bool) (scanned : List FileColumns)
    (q : String) :
    expectedRow plat (replaceScanned s p scanned).files q =
      ((((s.files.find? q).filter fun r => !p r).map FileRow.toFileColumns).or
        (scanned.find? fun c => c.path == q)).map fun c => ftsRow plat c.path c.name := by
  unfold expectedRow replaceScanned
  rw [find?_insertAll, Table.find?_deleteWhere]

/-- A scan keeps the row that each path should have when it finds again what it replaces. -/
theorem forall_expectedRow_replaceScanned_iff (s : IndexDb) (p : FileRow → Bool)
    (scanned : List FileColumns) :
    (∀ q, expectedRow plat (replaceScanned s p scanned).files q = expectedRow plat s.files q) ↔
      Refound s.files p scanned := by
  simp only [expectedRow_replaceScanned]
  unfold expectedRow
  constructor
  · intro hsame
    constructor
    · intro r hr hp
      have hfind : s.files.find? r.path = some r := Table.find?_eq_some_iff.mpr ⟨hr, rfl⟩
      have hrow := hsame r.path
      simp only [hfind, Option.filter, hp, Bool.not_true, Option.map_none, Option.none_or,
        Option.map_some, Bool.false_eq_true, if_false] at hrow
      obtain ⟨c, hc, hrow⟩ := Option.map_eq_some_iff.mp hrow
      exact ⟨c, hc, congrArg FtsRow.name hrow⟩
    · intro c hc
      cases hfind : s.files.find? c.path with
      | some r =>
          obtain ⟨hr, hkey⟩ := Table.find?_eq_some_iff.mp hfind
          exact ⟨r, hr, hkey⟩
      | none =>
          have hrow := hsame c.path
          rw [hfind] at hrow
          have hnone : (scanned.find? fun d => d.path == c.path) = none := by simpa using hrow
          have hnot := List.find?_eq_none.mp hnone c hc
          simp at hnot
  · rintro ⟨hfound, hstored⟩ q
    cases hfind : s.files.find? q with
    | none =>
        have hnone : (scanned.find? fun c => c.path == q) = none := by
          refine List.find?_eq_none.mpr fun c hc hpath => ?_
          obtain ⟨r, hr, hkey⟩ := hstored c hc
          refine Table.find?_eq_none_iff.mp hfind r hr ?_
          exact hkey.trans (by simpa using hpath)
        simp [hnone]
    | some r =>
        obtain ⟨hr, hkey⟩ := Table.find?_eq_some_iff.mp hfind
        have hpath : r.path = q := hkey
        cases hp : p r with
        | false => simp [Option.filter, hp]
        | true =>
            obtain ⟨c, hc, hname⟩ := hfound r hr hp
            have hcpath : c.path = r.path := by simpa using List.find?_some hc
            rw [hpath] at hc
            simp [Option.filter, hp, hc, hname, hcpath]

/-- **Scans, exactly**: a scan leaves `files_fts` alone, so the tables agree after it when it finds
again what it replaces. -/
theorem agree_replaceScanned_iff {s : IndexDb} {fts : List FtsRow} (hfts : s.fts = some fts)
    (hs : Agree plat s) (p : FileRow → Bool) (scanned : List FileColumns) :
    Agree plat (replaceScanned s p scanned) ↔ Refound s.files p scanned := by
  have hfts' : (replaceScanned s p scanned).fts = some fts := hfts
  rw [agree_iff_agreesAt plat hfts', ← forall_expectedRow_replaceScanned_iff plat]
  refine forall_congr' fun q => ?_
  unfold AgreesAt
  rw [hs.agreesAt plat hfts q]
  constructor
  · intro htoList
    cases hold : expectedRow plat s.files q <;>
      cases hnew : expectedRow plat (replaceScanned s p scanned).files q <;>
      simp_all
  · intro hrow
    rw [hrow]

/-- `rebuild_fts` makes the tables agree, whatever they held before. -/
theorem agree_rebuildFts (s : IndexDb) : Agree plat (rebuildFts plat s) := by
  unfold rebuildFts
  split_ifs with h
  · intro fts hfts
    rw [← Option.some.inj hfts]
  · exact agree_of_not_available plat (Bool.eq_false_of_not_eq_true h)

/-! ## Commits and runs -/

/-- What a commit must meet for the tables to agree after it. -/
def Keeps (s : IndexDb) : Commit π → Prop
  | .batch changes => ∀ q, ¬ Orphaned plat s.files changes q
  | .rescan fs root =>
      Refound s.files (underRoot (rootIdentity plat root))
        (scanInto plat fs SCAN_LEVELS root MAX_INDEX_ENTRIES).1
  | .rebuild fs roots =>
      Refound s.files (fun _ => true) (scanRoots plat fs roots MAX_INDEX_ENTRIES).1
  | .rebuildFts => True

theorem foldl_applyChange_ftsAvailable (changes : List VerifiedChange) (s : IndexDb) :
    (changes.foldl (applyChange plat) s).ftsAvailable = s.ftsAvailable := by
  induction changes generalizing s with
  | nil => rfl
  | cons c changes ih => exact (ih (applyChange plat s c)).trans Option.isSome_map

/-- No commit makes or drops `files_fts`. -/
theorem commit_ftsAvailable (s : IndexDb) (a : Commit π) :
    (commit plat s a).ftsAvailable = s.ftsAvailable := by
  cases a with
  | batch changes =>
      simp only [commit, applyBatch]
      split_ifs
      · rfl
      · exact foldl_applyChange_ftsAvailable plat changes s
  | rescan fs root => rfl
  | rebuild fs roots => rfl
  | rebuildFts =>
      simp only [commit, rebuildFts]
      split_ifs with h
      · exact h.symm
      · rfl

/-- **The exact condition for one commit**, from a state in which the tables agree. -/
theorem commit_agree_iff {s : IndexDb} (hs : Agree plat s) (a : Commit π) :
    Agree plat (commit plat s a) ↔ (s.ftsAvailable = true → Keeps plat s a) := by
  cases hfts : s.fts with
  | none =>
      have hnot : s.ftsAvailable = false := by simp [IndexDb.ftsAvailable, hfts]
      refine iff_of_true (agree_of_not_available plat ?_) (by simp [hnot])
      rw [commit_ftsAvailable, hnot]
  | some fts =>
      have havail : s.ftsAvailable = true := by simp [IndexDb.ftsAvailable, hfts]
      simp only [havail, forall_const]
      cases a with
      | batch changes => exact agree_applyBatch_iff plat hfts hs changes
      | rescan fs root => exact agree_replaceScanned_iff plat hfts hs _ _
      | rebuild fs roots => exact agree_replaceScanned_iff plat hfts hs _ _
      | rebuildFts => exact iff_of_true (agree_rebuildFts plat s) trivial

/-- **The exact condition for a run.** From a state in which the tables agree, they agree in every
state of a run of commits when, and only when, each commit of the run meets its condition in the
state it starts from. -/
theorem agree_visits_iff (s : IndexDb) (hs : Agree plat s) (commits : List (Commit π)) :
    (∀ t, (writer plat).Visits s commits t → Agree plat t) ↔
      (writer plat).Along (fun t a => t.ftsAvailable = true → Keeps plat t a) s commits := by
  refine (writer plat).forall_visits_iff_along (fun t a _ => ⟨_, rfl⟩)
    (fun t a t' ht hstep => ?_) hs
  obtain rfl : commit plat t a = t' := Option.some.inj hstep
  exact commit_agree_iff plat ht a

theorem agree_empty : Agree plat IndexDb.empty := by
  intro fts hfts
  rw [← Option.some.inj hfts]
  exact List.Perm.nil

/-! ## A rebuild over one file -/

/-- A disk with the file `f` in `C:\d`. -/
def oneFileDisk : FileSystem String where
  readDir dir := if dir = "C:\\d" then some [some ⟨"f", some ⟨false, 1, some 0⟩⟩] else none
  isJunctionLike _ := false

/-- `rebuild_fts` and a batch of one delete on an empty index: both meet the condition. -/
theorem agree_visits_iff_delete :
    Agree textPlatform IndexDb.empty ∧
      ∀ t, (writer textPlatform).Visits IndexDb.empty [.rebuildFts, .batch [.delete "c:\\d"]] t →
        Agree textPlatform t := by
  refine ⟨agree_empty textPlatform, ?_⟩
  refine (agree_visits_iff textPlatform IndexDb.empty (agree_empty textPlatform) _).mpr
    ⟨fun _ => trivial, fun t _ => ⟨fun _ q => ?_, fun _ _ => trivial⟩⟩
  rintro ⟨before, o, after, hsplit, -⟩
  cases before <;> simp at hsplit

/-- **A rebuild of an empty index over one file leaves that file without a search row.** -/
theorem rebuild_leaves_fts_empty :
    ¬ ∀ (s : IndexDb) (commits : List (Commit String)), Agree textPlatform s →
      ∀ t, (writer textPlatform).Visits s commits t → Agree textPlatform t := by
  intro h
  have hvisit : (writer textPlatform).Visits IndexDb.empty [.rebuild oneFileDisk ["C:\\d"]]
      (rebuild textPlatform oneFileDisk IndexDb.empty ["C:\\d"]).1 := .of_run rfl
  have hperm := h _ _ (agree_empty textPlatform) _ hvisit [] rfl
  have hlength : ((rebuild textPlatform oneFileDisk IndexDb.empty ["C:\\d"]).1.files.rows).length =
      1 := by
    decide +kernel
  rw [← List.length_map, ← hperm.length_eq] at hlength
  exact absurd hlength (by decide)

end AuraLauncher.Index
