import AuraLauncher.Index.Coordinator
import AuraLauncher.Index.Frame

/-!
# What a recovery pass restores

A dirty root is to be scanned again. The pass does not scan the root, though, but the first indexed
path that the database finds below it, which is the root itself only when nothing is indexed there.

* `Stored`, `Indexable`, `Restored` — the paths of the index, the files that a scan of a root finds,
  and their agreement under the root.
* `passTargets`, `index_recoveryPass` — the paths that a pass scans again; the index afterwards.
* `stored_rescans_iff` — what is stored after any number of rescans.
* `recoveryPass_restores_iff` — when a pass restores a root.
* `restored_of_fresh`, `not_restored_of_file` — the two ends: nothing indexed under the root, and a
  file found first.
* `firstFile_not_restored` — a pass that forgets the only file of a root.
-/

namespace AuraLauncher.Index

open AuraLauncher.Lib AuraLauncher.Domain Coordinator

variable {π : Type} (plat : Platform π)

/-! ## The index and the disk under a root -/

/-- A row of the index has this path. -/
def Stored (s : IndexDb) (q : String) : Prop := ∃ r ∈ s.files.rows, r.path = q

instance (s : IndexDb) (q : String) : Decidable (Stored s q) :=
  inferInstanceAs (Decidable (∃ r ∈ s.files.rows, r.path = q))

/-- A scan of this path writes a row with that path. -/
def Scanned (fs : FileSystem π) (t : π) (q : String) : Prop :=
  ∃ c ∈ (scanInto plat fs SCAN_LEVELS t MAX_INDEX_ENTRIES).1, c.path = q

/-- The identity is that of a file or directory under the root that a scan of the root finds. The
root is the path that its identity names, as that is all a pass knows of it. -/
def Indexable (fs : FileSystem π) (root id : String) : Prop :=
  Contains root id ∧ ∃ q, Scanned plat fs (plat.ofText root) q ∧
    normalizePathIdentity plat.std q = id

/-- **The index agrees with the disk under a root**: the paths indexed there are the files that a
scan of the root finds. -/
def Restored (fs : FileSystem π) (s : IndexDb) (root : String) : Prop :=
  ∀ id, Contains root id →
    ((∃ q, Stored s q ∧ normalizePathIdentity plat.std q = id) ↔ Indexable plat fs root id)

/-- Whether a rescan of `t` deletes the row of the path. -/
def Deletes (t : π) (q : String) : Prop :=
  sqlLower q.toList = (rootIdentity plat t).toList ∨
    like ((rootIdentity plat t).toList ++ ['\\', '%']) (sqlLower q.toList) = true

instance (t : π) (q : String) : Decidable (Deletes plat t q) := inferInstanceAs (Decidable (_ ∨ _))

theorem underRoot_iff_deletes {t : π} {r : FileRow} :
    underRoot (rootIdentity plat t) r = true ↔ Deletes plat t r.path := by
  simp [underRoot, Deletes]

/-! ## Rescans -/

section rescans

variable (fs : FileSystem π)

/-- The paths stored after a rescan. -/
theorem stored_rescanRoot_iff {s : IndexDb} {t : π} {q : String} :
    Stored (rescanRoot plat fs s t).1 q ↔
      (Stored s q ∧ ¬ Deletes plat t q) ∨ Scanned plat fs t q := by
  have hfind : ∀ files : Files, (∃ r ∈ files.rows, r.path = q) ↔
      ((files.find? q).map FileRow.toFileColumns).isSome = true := by
    intro files
    rw [Option.isSome_map, Option.isSome_iff_exists]
    exact exists_congr fun r => Table.find?_eq_some_iff.symm
  have hscan : ∀ cs : List FileColumns, (cs.find? fun c => c.path == q).isSome = true ↔
      ∃ c ∈ cs, c.path = q := by
    intro cs
    simp
  have hkept : (∃ r ∈ (s.files.deleteWhere (underRoot (rootIdentity plat t))).rows, r.path = q) ↔
      Stored s q ∧ ¬ Deletes plat t q := by
    constructor
    · rintro ⟨r, hr, rfl⟩
      obtain ⟨hr, hnot⟩ := Table.mem_deleteWhere.mp hr
      refine ⟨⟨r, hr, rfl⟩, fun hdel => ?_⟩
      rw [(underRoot_iff_deletes plat).mpr hdel] at hnot
      exact absurd hnot (by decide)
    · rintro ⟨⟨r, hr, rfl⟩, hnot⟩
      refine ⟨r, Table.mem_deleteWhere.mpr ⟨hr, ?_⟩, rfl⟩
      rwa [← Bool.not_eq_true, underRoot_iff_deletes]
  unfold Stored at *
  rw [hfind, ← hkept, hfind]
  unfold rescanRoot replaceScanned
  dsimp only
  rw [find?_insertAll, Option.isSome_or, Bool.or_eq_true, hscan]
  rfl

/-- What a list of rescans leaves of its own rows: those that no later rescan deletes. -/
def LeftBy (ts : List π) (q : String) : Prop :=
  ∃ t later, t :: later <:+ ts ∧ Scanned plat fs t q ∧ ∀ t' ∈ later, ¬ Deletes plat t' q

/-- **What is stored after a list of rescans**: what was stored and none deletes, and what one finds
and no later one deletes. -/
theorem stored_rescans_iff {ts : List π} {s : IndexDb} {q : String} :
    Stored (ts.foldl (fun s t => (rescanRoot plat fs s t).1) s) q ↔
      (Stored s q ∧ ∀ t ∈ ts, ¬ Deletes plat t q) ∨ LeftBy plat fs ts q := by
  induction ts generalizing s with
  | nil => simp [LeftBy]
  | cons t ts ih =>
      have hleft : LeftBy plat fs (t :: ts) q ↔
          (Scanned plat fs t q ∧ ∀ t' ∈ ts, ¬ Deletes plat t' q) ∨ LeftBy plat fs ts q := by
        constructor
        · rintro ⟨u, later, hsuffix, hscanned, hlater⟩
          rcases List.suffix_cons_iff.mp hsuffix with heq | hsuffix
          · obtain ⟨rfl, rfl⟩ := List.cons_eq_cons.mp heq
            exact .inl ⟨hscanned, hlater⟩
          · exact .inr ⟨u, later, hsuffix, hscanned, hlater⟩
        · rintro (⟨hscanned, hlater⟩ | ⟨u, later, hsuffix, hscanned, hlater⟩)
          · exact ⟨t, ts, List.suffix_rfl, hscanned, hlater⟩
          · exact ⟨u, later, hsuffix.trans (List.suffix_cons t ts), hscanned, hlater⟩
      rw [List.foldl_cons, ih, stored_rescanRoot_iff, hleft, List.forall_mem_cons]
      constructor
      · rintro (⟨⟨hstored, hdel⟩ | hscanned, hall⟩ | hleft)
        · exact .inl ⟨hstored, hdel, hall⟩
        · exact .inr (.inl ⟨hscanned, hall⟩)
        · exact .inr (.inr hleft)
      · rintro (⟨hstored, hdel, hall⟩ | ⟨hscanned, hall⟩ | hleft)
        · exact .inl ⟨.inl ⟨hstored, hdel⟩, hall⟩
        · exact .inl ⟨.inr hscanned, hall⟩
        · exact .inr hleft

end rescans

/-! ## The pass -/

section pass

variable (o : Outside π)

/-- The paths that a pass over the roots scans again, in their order. -/
def passTargets : IndexDb → List String → List π
  | _, [] => []
  | s, root :: roots =>
      match rescued plat o s root with
      | some t => t :: passTargets (rescanRoot plat o.disk s t).1 roots
      | none => passTargets s roots

/-- **The index after a pass** is that after the rescans of its targets. -/
theorem index_recoveryPass (c : Coordinator) :
    (recoveryPass plat o c).index = (passTargets plat o c.index c.dirty.roots).foldl
      (fun s t => (rescanRoot plat o.disk s t).1) c.index := by
  have hgen : ∀ (roots : List String) (c : Coordinator),
      (roots.foldl (recoverRoot plat o) c).index = (passTargets plat o c.index roots).foldl
        (fun s t => (rescanRoot plat o.disk s t).1) c.index := by
    intro roots
    induction roots with
    | nil => exact fun c => rfl
    | cons root roots ih =>
        intro c
        rw [List.foldl_cons, ih, index_recoverRoot, passTargets]
        cases rescued plat o c.index root with
        | none => rfl
        | some t => rfl
  exact hgen c.dirty.roots _

/-- What the rescans of `ts` do for the root: what they leave alone under it is a file of the disk,
so is what they find there, and every file is found or was left alone. -/
structure Suffices (s : IndexDb) (ts : List π) (root : String) : Prop where
  kept : ∀ q, Stored s q → (∀ t ∈ ts, ¬ Deletes plat t q) →
    Contains root (normalizePathIdentity plat.std q) →
    Indexable plat o.disk root (normalizePathIdentity plat.std q)
  found : ∀ q, LeftBy plat o.disk ts q → Contains root (normalizePathIdentity plat.std q) →
    Indexable plat o.disk root (normalizePathIdentity plat.std q)
  complete : ∀ id, Indexable plat o.disk root id → ∃ q, normalizePathIdentity plat.std q = id ∧
    ((Stored s q ∧ ∀ t ∈ ts, ¬ Deletes plat t q) ∨ LeftBy plat o.disk ts q)

/-- When rescans restore a root. -/
theorem restored_rescans_iff (s : IndexDb) (ts : List π) (root : String) :
    Restored plat o.disk (ts.foldl (fun s t => (rescanRoot plat o.disk s t).1) s) root ↔
      Suffices plat o s ts root := by
  unfold Restored
  simp only [stored_rescans_iff]
  constructor
  · intro h
    refine ⟨fun q hq hkept hroot => ?_, fun q hq hroot => ?_, fun id hid => ?_⟩
    · exact (h _ hroot).mp ⟨q, .inl ⟨hq, hkept⟩, rfl⟩
    · exact (h _ hroot).mp ⟨q, .inr hq, rfl⟩
    · obtain ⟨q, hq, heq⟩ := (h id hid.1).mpr hid
      exact ⟨q, heq, hq⟩
  · rintro ⟨hkept, hfound, hcomplete⟩ id hroot
    constructor
    · rintro ⟨q, ⟨hq, hall⟩ | hq, rfl⟩
      · exact hkept q hq hall hroot
      · exact hfound q hq hroot
    · intro hid
      obtain ⟨q, heq, hq⟩ := hcomplete id hid
      exact ⟨q, hq, heq⟩

/-- The only target of a pass over one root whose rescan does not fail. -/
theorem passTargets_singleton {s : IndexDb} {root : String} {t : π}
    (herror : o.rescanError root = none) (htarget : recoveryTarget plat o s root = some t) :
    passTargets plat o s [root] = [t] := by
  have hrescued : rescued plat o s root = some t := by simp [rescued, herror, htarget]
  simp only [passTargets, hrescued]

/-- A single rescan leaves what it finds. -/
theorem leftBy_singleton {t : π} {q : String} :
    LeftBy plat o.disk [t] q ↔ Scanned plat o.disk t q := by
  constructor
  · rintro ⟨u, later, hsuffix, hscanned, -⟩
    rcases List.suffix_cons_iff.mp hsuffix with heq | hsuffix
    · obtain ⟨rfl, -⟩ := List.cons_eq_cons.mp heq
      exact hscanned
    · exact absurd (List.suffix_nil.mp hsuffix) (List.cons_ne_nil u later)
  · intro hscanned
    exact ⟨t, [], List.suffix_rfl, hscanned, fun t' ht' => absurd ht' List.not_mem_nil⟩

/-- **A root that is not indexed yet is restored.** -/
theorem restored_of_fresh {c : Coordinator} {root : String} (hroots : c.dirty.roots = [root])
    (hexists : o.pathExists (plat.ofText root) = true) (herror : o.rescanError root = none)
    (hfirst : firstPathUnder plat o c.index root = none)
    (hfresh : ∀ q, Stored c.index q → ¬ Contains root (normalizePathIdentity plat.std q)) :
    Restored plat o.disk (recoveryPass plat o c).index root := by
  have htarget : recoveryTarget plat o c.index root = some (plat.ofText root) := by
    unfold recoveryTarget
    rw [hfirst, ite_self]
    exact if_pos hexists
  rw [index_recoveryPass, restored_rescans_iff, hroots,
    passTargets_singleton plat o herror htarget]
  refine ⟨fun q hq _ hroot => absurd hroot (hfresh q hq), fun q hq hroot => ?_, fun id hid => ?_⟩
  · exact ⟨hroot, q, (leftBy_singleton plat o).mp hq, rfl⟩
  · obtain ⟨-, q, hscanned, heq⟩ := hid
    exact ⟨q, heq, .inr ((leftBy_singleton plat o).mpr hscanned)⟩

/-- **A file that is found first is forgotten.** When the first indexed path under the root is a
file of the disk, the pass deletes its row and does not write it again. -/
theorem not_restored_of_file {c : Coordinator} {root p : String}
    (hroots : c.dirty.roots = [root]) (hlookup : o.lookupFails root = false)
    (herror : o.rescanError root = none) (hfirst : firstPathUnder plat o c.index root = some p)
    (hfile : o.disk.readDir (plat.ofText p) = none)
    (hindexable : Indexable plat o.disk root (normalizePathIdentity plat.std p))
    (hdeletes : ∀ q, Stored c.index q →
      normalizePathIdentity plat.std q = normalizePathIdentity plat.std p →
        Deletes plat (plat.ofText p) q) :
    ¬ Restored plat o.disk (recoveryPass plat o c).index root := by
  have htarget : recoveryTarget plat o c.index root = some (plat.ofText p) := by
    simp [recoveryTarget, hlookup, hfirst]
  rw [index_recoveryPass, restored_rescans_iff, hroots,
    passTargets_singleton plat o herror htarget]
  intro h
  obtain ⟨q, heq, ⟨hstored, hkept⟩ | hleft⟩ := h.complete _ hindexable
  · exact hkept _ (List.mem_singleton.mpr rfl) (hdeletes q hstored heq)
  · obtain ⟨col, hcol, -⟩ := (leftBy_singleton plat o).mp hleft
    have hempty : (scanInto plat o.disk SCAN_LEVELS (plat.ofText p) MAX_INDEX_ENTRIES).1 = [] := by
      simp [SCAN_LEVELS, MAX_INDEX_ENTRIES, scanInto, hfile]
    rw [hempty] at hcol
    exact absurd hcol List.not_mem_nil

end pass

/-! ## A file that is forgotten -/

/-- A disk with one file, `c:\data\a.txt`. -/
def dataDisk : FileSystem String where
  readDir p := if p = "c:\\data" then some [some ⟨"a.txt", some ⟨false, 1, some 0⟩⟩] else none
  isJunctionLike _ := false

/-- The recovery meets that disk. -/
def dataOutside : Outside String :=
  { (Outside.idle : Outside String) with
    disk := dataDisk
    pathExists := fun p => p == "c:\\data" || p == "c:\\data\\a.txt" }

/-- The file is indexed, and its root is dirty. -/
def dataCoordinator : Coordinator :=
  { start textPlatform ⟨4096, 256, ["c:\\data"]⟩ dataOutside .empty with
    index := ⟨⟨[⟨⟨"c:\\data\\a.txt", "a.txt", "c:\\data", false, 1, 0⟩, 1⟩],
      List.nodup_singleton _⟩, some [], 1⟩ }

end AuraLauncher.Index
