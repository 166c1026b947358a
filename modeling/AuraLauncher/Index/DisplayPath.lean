import AuraLauncher.Index.Recovery
import AuraLauncher.Index.Rewatch
import AuraLauncher.Index.Subtree

/-!
# The paths that the index shows

A row of the index is to show the path of its file as the file system reports it, with its case. A
batch knows no more of a file than the identity that waits in the coalescer, and writes that; a scan
joins the names it is given to the directory it was started in, which is an indexed path or, again,
an identity.

* `Reporting` — what a step meets outside, with the paths as the file system reports them.
* `spelled_of_scanned` — a scan spells paths as its directory is spelled.
* `Writes`, `mem_rows_step` — the rows that a step writes; every other row was there before.
* `Displays`, `SpelledInputs` — what a step should write, and what it needs for that.
* `displays_along` — the runs in which every path is shown as it is reported.
* `not_displays_hint` — a file whose name is in capitals.
-/

namespace AuraLauncher.Index

open AuraLauncher.Lib AuraLauncher.Domain Coordinator

variable {π : Type}

/-- What a step meets outside, and the paths of the files as the file system reports them. -/
structure Reporting (plat : Platform π) extends Outside π where
  /-- The reported path of the file with an identity. -/
  reported : String → String
  /-- In a directory whose path is the reported one, the names that are listed make reported
  paths. -/
  listed : ∀ {dir entries e}, disk.readDir dir = some entries → some e ∈ entries →
    reported (normalizePathIdentity plat.std (plat.lossy dir)) = plat.lossy dir →
    reported (normalizePathIdentity plat.std (plat.lossy (plat.join dir e.fileName))) =
      plat.lossy (plat.join dir e.fileName)

variable {plat : Platform π} (cfg : CoordinatorConfig π)

/-- The path is the one that the file system reports. -/
def Reporting.Spelled (o : Reporting plat) (q : String) : Prop :=
  o.reported (normalizePathIdentity plat.std q) = q

instance (o : Reporting plat) (q : String) : Decidable (o.Spelled q) :=
  inferInstanceAs (Decidable (_ = _))

/-! ## Scans -/

section scans

variable (o : Reporting plat)

theorem spelled_of_mem_scanEntries {descend : π → ℕ → List FileColumns × ℕ} {dir : π}
    (hdescend : ∀ path r, o.Spelled (plat.lossy path) →
      ∀ c ∈ (descend path r).1, o.Spelled c.path)
    {entries : List (Option (DirEntry π))}
    (hentries : ∀ e, some e ∈ entries → o.Spelled (plat.lossy (plat.join dir e.fileName)))
    (remaining : ℕ) :
    ∀ c ∈ (scanEntries plat o.disk descend dir entries remaining).1, o.Spelled c.path := by
  induction entries generalizing remaining with
  | nil => exact fun c hc => absurd hc List.not_mem_nil
  | cons entry entries ih =>
      have hrest := ih fun e he => hentries e (List.mem_cons_of_mem _ he)
      obtain h | ⟨-, h⟩ | ⟨e, m, below, rfl, -, hbelow, h⟩ :=
        scanEntries_cons_cases plat o.disk descend dir entry entries remaining
      · rw [h]
        exact hrest remaining
      · rw [h]
        exact fun c hc => absurd hc List.not_mem_nil
      · have hname := hentries e List.mem_cons_self
        rw [h]
        intro c hc
        rcases List.mem_cons.mp hc with rfl | hc
        · exact hname
        · rcases List.mem_append.mp hc with hc | hc
          · rcases hbelow with rfl | rfl
            · exact hdescend _ _ hname c hc
            · exact absurd hc List.not_mem_nil
          · exact hrest _ c hc

theorem spelled_of_mem_scanInto {dir : π} (hdir : o.Spelled (plat.lossy dir)) (levels : ℕ)
    (remaining : ℕ) :
    ∀ c ∈ (scanInto plat o.disk levels dir remaining).1, o.Spelled c.path := by
  induction levels generalizing dir remaining with
  | zero => exact fun c hc => absurd hc List.not_mem_nil
  | succ levels ih =>
      unfold scanInto
      split_ifs with hzero
      · exact fun c hc => absurd hc List.not_mem_nil
      · cases hread : o.disk.readDir dir with
        | none => exact fun c hc => absurd hc List.not_mem_nil
        | some entries =>
            exact spelled_of_mem_scanEntries o (fun path r hpath => ih hpath r)
              (fun e he => o.listed hread he hdir) remaining

/-- **A scan spells paths as its directory is spelled.** -/
theorem spelled_of_scanned {t : π} (ht : o.Spelled (plat.lossy t)) {q : String}
    (h : Scanned plat o.disk t q) : o.Spelled q := by
  obtain ⟨c, hc, rfl⟩ := h
  exact spelled_of_mem_scanInto o ht SCAN_LEVELS MAX_INDEX_ENTRIES c hc

end scans

/-! ## The rows that a step writes -/

section writes

variable (plat) (o : Outside π) (c : Coordinator)

/-- The changes that a batch writes. -/
def verified : List VerifiedChange :=
  c.coalescer.order.flatMap fun id => verify plat o ⟨.modified, id, none⟩

/-- The step writes the row of a path. -/
def Writes (q : String) : Prop :=
  match c.phase with
  | .recover _ (root :: _) => ∃ t, rescued plat o c.index root = some t ∧ Scanned plat o.disk t q
  | .sweep => ∃ key ∈ (sweep plat o c).2, Scanned plat o.disk (plat.ofText key) q
  | .batch => c.batchDue cfg o = true ∧ o.batchError = none ∧ WrittenBy (verified plat o c) q
  | _ => False

variable {c}

/-- A rescan leaves the rows it writes and rows that were there. -/
theorem scanned_or_mem_rescanRoot {s : IndexDb} {t : π} {r : FileRow}
    (h : r ∈ (rescanRoot plat o.disk s t).1.files.rows) :
    Scanned plat o.disk t r.path ∨ r ∈ s.files.rows := by
  rcases mem_rescanRoot plat o.disk s t h with ⟨hr, -⟩ | hscanned
  · exact .inr hr
  · exact .inl hscanned

/-- A message writes nothing. -/
theorem index_receive : (receive plat cfg o c).index = c.index := by
  unfold receive
  cases o.received with
  | timeout => rfl
  | disconnected => rfl
  | message msg =>
      cases msg with
      | stop => rfl
      | overflow root => rfl
      | watcherExited root => rfl
      | change hint =>
          show (handle plat cfg o c (.change hint)).index = c.index
          unfold handle
          dsimp only
          split_ifs <;> rfl

theorem mem_rows_recoverRoot {root : String} {r : FileRow}
    (h : r ∈ (recoverRoot plat o c root).index.files.rows) :
    (∃ t, rescued plat o c.index root = some t ∧ Scanned plat o.disk t r.path) ∨
      r ∈ c.index.files.rows := by
  rw [index_recoverRoot] at h
  cases htarget : rescued plat o c.index root with
  | none =>
      rw [htarget] at h
      exact .inr h
  | some t =>
      rw [htarget] at h
      exact (scanned_or_mem_rescanRoot plat o h).imp_left fun hscanned => ⟨t, rfl, hscanned⟩

theorem mem_rows_sweep {r : FileRow} (h : r ∈ (sweep plat o c).1.index.files.rows) :
    (∃ key ∈ (sweep plat o c).2, Scanned plat o.disk (plat.ofText key) r.path) ∨
      r ∈ c.index.files.rows := by
  unfold sweep at h ⊢
  refine List.foldlRecOn (motive := fun s : Coordinator × List String =>
    r ∈ s.1.index.files.rows →
      (∃ key ∈ s.2, Scanned plat o.disk (plat.ofText key) r.path) ∨ r ∈ c.index.files.rows)
    _ _ .inr (fun s hs entry _ hr => ?_) h
  obtain ⟨entry', failure, -, heq⟩ | heq := sweepEntry_cases plat o s entry
  · rw [heq] at hr ⊢
    exact hs hr
  · rw [heq] at hr ⊢
    rcases scanned_or_mem_rescanRoot plat o hr with hscanned | hr
    · exact .inl ⟨entry.root, List.mem_append_right _ List.mem_cons_self, hscanned⟩
    · rcases hs hr with ⟨key, hkey, hscanned⟩ | hr
      · exact .inl ⟨key, List.mem_append_left _ hkey, hscanned⟩
      · exact .inr hr

theorem mem_rows_batch {r : FileRow} (h : r ∈ (batch plat cfg o c).index.files.rows) :
    (c.batchDue cfg o = true ∧ o.batchError = none ∧ WrittenBy (verified plat o c) r.path) ∨
      r ∈ c.index.files.rows := by
  unfold batch at h
  split_ifs at h with hdue
  · cases herror : o.batchError with
    | some e =>
        rw [herror] at h
        exact .inr h
    | none =>
        rw [herror] at h
        have hrows : r ∈ rowsAfter plat c.index (verified plat o c) := h
        rw [rowsAfter_eq] at hrows
        rcases written_or_mem hrows with hwritten | ⟨hr, -⟩
        · exact .inl ⟨hdue, rfl, hwritten⟩
        · exact .inr hr
  all_goals exact .inr h

/-- **Every row after a step** is one that it writes, or was there before. -/
theorem mem_rows_step {r : FileRow} (h : r ∈ (step plat cfg o c).1.index.files.rows) :
    Writes plat cfg o c r.path ∨ r ∈ c.index.files.rows := by
  unfold Writes
  cases hphase : c.phase with
  | receive =>
      rw [step_receive hphase, index_receive] at h
      exact .inr h
  | drain starting =>
      rw [step_drain hphase] at h
      exact .inr h
  | recover starting roots =>
      cases roots with
      | nil =>
          rw [step_recover_nil hphase] at h
          exact .inr h
      | cons root roots =>
          rw [step_recover_cons hphase] at h
          exact mem_rows_recoverRoot plat o h
  | sweep =>
      rw [step_sweep hphase] at h
      exact mem_rows_sweep plat o h
  | bridge =>
      rw [step_bridge hphase] at h
      exact .inr h
  | batch =>
      rw [step_batch hphase] at h
      exact mem_rows_batch plat cfg o h
  | stopped =>
      rw [step_stopped hphase] at h
      exact .inr h

end writes

/-! ## What a step should write -/

/-- After a step a row shows the reported path of its file, unless it was there before and the step
does not write it. -/
def Displays (c : Coordinator) (o : Reporting plat) : Prop :=
  ∀ r ∈ (step plat cfg o.toOutside c).1.index.files.rows,
    o.Spelled r.path ∨ r ∈ c.index.files.rows ∧ ¬ Writes plat cfg o.toOutside c r.path

/-- A scan of the directory finds something. -/
def Finds (o : Outside π) (plat : Platform π) (t : π) : Prop :=
  (scanInto plat o.disk SCAN_LEVELS t MAX_INDEX_ENTRIES).1 ≠ []

instance (o : Outside π) (t : π) : Decidable (Finds o plat t) := inferInstanceAs (Decidable (_ ≠ _))

/-- The file of an identity is found when the identity is verified. -/
def Found (o : Outside π) (plat : Platform π) (id : String) : Prop :=
  (normalizePathIdentity plat.std id).isEmpty = false ∧ isDeviceNamespace id = false ∧
    (o.symlinkMetadata id).isSome = true

instance (o : Outside π) (id : String) : Decidable (Found o plat id) :=
  inferInstanceAs (Decidable (_ ∧ _ ∧ _))

/-- What a step needs to show reported paths: an identity whose file is found is the reported path
of the file, and so is the path that a recovery or the sweep scans and finds something in. -/
def SpelledInputs (c : Coordinator) (o : Reporting plat) : Prop :=
  (∀ root ∈ c.phase.roots.head?, ∀ t ∈ rescued plat o.toOutside c.index root,
    Finds o.toOutside plat t → o.Spelled (plat.lossy t)) ∧
  (c.phase = .sweep → ∀ entry ∈ (c.maint.patrol plat o.toOutside).rewatch,
    Due plat o.toOutside entry → Finds o.toOutside plat (plat.ofText entry.root) →
      o.Spelled (plat.lossy (plat.ofText entry.root))) ∧
  (c.phase = .batch → c.batchDue cfg o.toOutside = true → o.batchError = none →
    ∀ id ∈ c.coalescer.order, Found o.toOutside plat id → o.Spelled id)

instance (c : Coordinator) (o : Reporting plat) : Decidable (SpelledInputs cfg c o) :=
  inferInstanceAs (Decidable (_ ∧ (_ → _) ∧ (_ → _)))

section displays

variable {cfg} {o : Reporting plat} {c : Coordinator}

theorem Finds.of_scanned {t : π} {q : String} (h : Scanned plat o.disk t q) :
    Finds o.toOutside plat t := by
  obtain ⟨c, hc, -⟩ := h
  exact List.ne_nil_of_mem hc

/-- What the verification of an identity writes: the identity, if its file is found. -/
theorem writtenBy_verify {id q : String}
    (h : WrittenBy (verify plat o.toOutside ⟨.modified, id, none⟩) q) :
    id = q ∧ Found o.toOutside plat id := by
  obtain ⟨obs, hobs, hpath⟩ := h
  have hverified : VerifiedChange.upsert obs ∈ verifyOne plat o.toOutside id := hobs
  unfold verifyOne at hverified
  dsimp only at hverified
  split_ifs at hverified with hrefused
  · exact absurd hverified List.not_mem_nil
  · cases hmeta : o.symlinkMetadata id with
    | none =>
        rw [hmeta] at hverified
        cases List.mem_singleton.mp hverified
    | some m =>
        rw [hmeta] at hverified
        obtain rfl := VerifiedChange.upsert.inj (List.mem_singleton.mp hverified)
        rw [Bool.not_eq_true, Bool.or_eq_false_iff] at hrefused
        exact ⟨hpath, hrefused.1, hrefused.2, by rw [hmeta]; rfl⟩

/-- **What a step writes** is spelled as reported, if what it is given is. -/
theorem spelled_of_writes (h : SpelledInputs cfg c o) {q : String}
    (hq : Writes plat cfg o.toOutside c q) : o.Spelled q := by
  obtain ⟨hrecover, hsweep, hbatch⟩ := h
  unfold Writes at hq
  cases hphase : c.phase with
  | receive | drain | bridge | stopped =>
      rw [hphase] at hq
      exact hq.elim
  | recover starting roots =>
      rw [hphase] at hq hrecover
      cases roots with
      | nil => exact hq.elim
      | cons root roots =>
          obtain ⟨t, htarget, hscanned⟩ := hq
          exact spelled_of_scanned o (hrecover root rfl t htarget (.of_scanned hscanned)) hscanned
  | sweep =>
      rw [hphase] at hq
      obtain ⟨key, hkey, hscanned⟩ := hq
      rw [sweep_started] at hkey
      obtain ⟨entry, hentry, rfl⟩ := List.mem_map.mp hkey
      obtain ⟨hentry, hdue⟩ := List.mem_filter.mp hentry
      exact spelled_of_scanned o (hsweep hphase entry hentry (of_decide_eq_true hdue)
        (.of_scanned hscanned)) hscanned
  | batch =>
      rw [hphase] at hq
      obtain ⟨hdue, herror, obs, hobs, hpath⟩ := hq
      obtain ⟨id, hid, hobs⟩ := List.mem_flatMap.mp hobs
      obtain ⟨rfl, hfound⟩ := writtenBy_verify ⟨obs, hobs, hpath⟩
      exact hbatch hphase hdue herror id hid hfound

/-- A step shows reported paths, if what it is given is spelled so. -/
theorem SpelledInputs.displays (h : SpelledInputs cfg c o) : Displays cfg c o := by
  intro r hr
  by_cases hwrites : Writes plat cfg o.toOutside c r.path
  · exact .inl (spelled_of_writes h hwrites)
  · exact .inr ⟨(mem_rows_step plat cfg o.toOutside hr).resolve_left hwrites, hwrites⟩

end displays

/-! ## Runs -/

variable (plat)

/-- The loop, where the file system reports the paths of its files: every step is possible in every
state. -/
def reportingMachine : Machine Coordinator (Reporting plat) where
  step c o := some (step plat cfg o.toOutside c).1

/-- **The runs that show reported paths**: those whose steps are given paths that are spelled so. -/
theorem displays_along (c : Coordinator) (os : List (Reporting plat))
    (h : (reportingMachine plat cfg).Along (SpelledInputs cfg) c os) :
    (reportingMachine plat cfg).Along (Displays cfg) c os :=
  h.mono fun _ _ hinputs => hinputs.displays

/-- The root exists at the start. -/
def rootExists : Outside String :=
  { (Outside.idle : Outside String) with pathExists := fun _ => true }

/-- What the loop meets beside a file system in which all names are in lower case but that of one
file. -/
def oneFileReport (path : String) (received : Received) : Reporting textPlatform where
  toOutside :=
    { (Outside.idle : Outside String) with
      received
      pathExists := fun _ => true
      symlinkMetadata := fun _ => some ⟨false, 1, none⟩
      now := 1000 }
  reported id := if id = normalizePathIdentity .ascii path then path else id
  listed hread := by cases hread

/-- The root is scanned at the start; then a file changes, and is verified. -/
def oneFileRun (path : String) : List (Reporting textPlatform) :=
  List.replicate 3 (oneFileReport path .timeout) ++
    oneFileReport path (.message (.change ⟨.modified, path, none⟩)) ::
      List.replicate 5 (oneFileReport path .timeout)

/-- A file in lower case is shown as it is reported. -/
theorem displays_along_lowercase :
    (reportingMachine textPlatform oneRoot).Along (Displays oneRoot)
      (start textPlatform oneRoot rootExists .empty) (oneFileRun "c:\\data\\f") :=
  displays_along textPlatform oneRoot _ _ (by decide +kernel)

/-- **A file that is reported as `C:\Data\F`** is shown as `c:\data\f`. -/
theorem not_displays_hint :
    ¬ ∀ (cfg : CoordinatorConfig String) (o₀ : Outside String) (index : IndexDb)
        (os : List (Reporting textPlatform)),
      (reportingMachine textPlatform cfg).Along (Displays cfg)
        (start textPlatform cfg o₀ index) os := by
  intro h
  obtain ⟨report, hreport⟩ : ∃ r, r = oneFileReport "C:\\Data\\F" .timeout := ⟨_, rfl⟩
  have hsplit : oneFileRun "C:\\Data\\F" = (oneFileRun "C:\\Data\\F").take 8 ++ [report] := by
    rw [hreport]
    rfl
  have halong := h oneRoot rootExists .empty (oneFileRun "C:\\Data\\F")
  rw [hsplit, Machine.along_append _ (Machine.run_eq_foldl _ (fun _ _ => rfl) _ _)] at halong
  -- the last step writes the batch
  have hrow := halong.2.1 ⟨⟨"c:\\data\\f", "f", "c:\\data", false, 1, 0⟩, 1⟩
  rw [hreport] at hrow
  rcases hrow (by decide +kernel) with hspelled | ⟨hbefore, -⟩
  · exact absurd hspelled (by decide +kernel)
  · exact absurd hbefore (by decide +kernel)

end AuraLauncher.Index
