import AuraLauncher.Index.Incremental
import AuraLauncher.Lib.Machine
import AuraLauncher.Lib.MinimalCover
import Mathlib.Data.List.TakeWhile
import Mathlib.Data.Set.Lattice

/-!
# The dirty roots as a minimal cover

`launcher-indexer/src/incremental.rs`, `DirtyRootSet`: a root in another one is dropped, so that the
roots that are kept are few and stand for all that was inserted. Whether a path is in a root is read
off the texts, as equality or a beginning with the root and a separator; of the root `/`, whose
identity is a separator already, this is wrong.

* `Encloses` — which identities are those of paths in a root.
* `Subtree`, `DirtyRootSet.covered` — the paths in a root, and those in the roots of the set.
* `IsCover` — no root in another one, and together the paths of all roots that were inserted.
* `Agrees`, `forall_isCover_iff` — what an insertion needs, the runs that keep the cover, and that
  the order of their insertions does not matter.
* `IsPlainRoot`, `along_agrees_of_plain` — the roots for which the texts are right.
* `not_isCover_slash` — the root `/`.
-/

namespace AuraLauncher.Index

open AuraLauncher.Lib AuraLauncher.Domain

/-! ## What a root encloses -/

/-- The separators at the front of an identity. -/
def frontSeparators (id : String) : ℕ := (id.toList.takeWhile (· = '\\')).length

/-- The identity is made of separators only. -/
def IsSeparators (id : String) : Prop := ∀ c ∈ id.toList, c = '\\'

instance (id : String) : Decidable (IsSeparators id) :=
  List.decidableBAll (p := (· = '\\')) id.toList

/-- The identity is that of a path in the root. In a root of separators only are the paths that
begin with as many separators as it has, no more and no less. -/
def Encloses (root path : String) : Prop :=
  if IsSeparators root then frontSeparators path = root.length else Contains root path

instance (root path : String) : Decidable (Encloses root path) :=
  inferInstanceAs (Decidable
    (if IsSeparators root then frontSeparators path = root.length else Contains root path))

theorem IsSeparators.frontSeparators_eq {id : String} (h : IsSeparators id) :
    frontSeparators id = id.length := by
  unfold frontSeparators
  rw [List.takeWhile_eq_self_iff.mpr fun c hc => decide_eq_true (h c hc), String.length_toList]

theorem frontSeparators_le (id : String) : frontSeparators id ≤ id.length := by
  unfold frontSeparators
  rw [← String.length_toList]
  exact (List.takeWhile_prefix _).length_le

/-- A text with as many separators at its front as it has characters is made of them. -/
theorem isSeparators_of_frontSeparators {id : String} (h : frontSeparators id = id.length) :
    IsSeparators id := by
  unfold frontSeparators at h
  rw [← String.length_toList] at h
  have hall := (List.takeWhile_prefix (· = '\\')).eq_of_length h
  intro c hc
  rw [← hall] at hc
  have hsep := List.mem_takeWhile_imp hc
  simpa using hsep

theorem IsSeparators.eq_of_length {id id' : String} (h : IsSeparators id) (h' : IsSeparators id')
    (hlength : id.length = id'.length) : id = id' := by
  rw [← String.toList_inj, List.eq_replicate_of_mem h, List.eq_replicate_of_mem h',
    String.length_toList, String.length_toList, hlength]

/-- What follows an identity that is not of separators only leaves its separators. -/
theorem frontSeparators_of_contains {root path : String} (hroot : ¬ IsSeparators root)
    (h : Contains root path) : frontSeparators path = frontSeparators root := by
  rcases h with rfl | ⟨rest, hrest⟩
  · rfl
  · have hshort : ¬ (root.toList.takeWhile (· = '\\')).length = root.toList.length := fun hall =>
      hroot (isSeparators_of_frontSeparators (hall.trans String.length_toList))
    unfold frontSeparators
    rw [← hrest, List.append_assoc, List.takeWhile_append, if_neg hshort]

/-- An identity below one that is not of separators only is not of separators only. -/
theorem not_isSeparators_of_contains {root path : String} (hroot : ¬ IsSeparators root)
    (h : Contains root path) : ¬ IsSeparators path := by
  intro hpath
  refine hroot fun c hc => hpath c ?_
  rcases h with rfl | ⟨rest, hrest⟩
  · exact hc
  · rw [← hrest]
    exact List.mem_append_left _ (List.mem_append_left _ hc)

theorem encloses_of_isSeparators {root path : String} (h : IsSeparators root) :
    Encloses root path ↔ frontSeparators path = root.length := by
  unfold Encloses
  rw [if_pos h]

theorem encloses_of_not_isSeparators {root path : String} (h : ¬ IsSeparators root) :
    Encloses root path ↔ Contains root path := by
  unfold Encloses
  rw [if_neg h]

theorem Encloses.refl (root : String) : Encloses root root := by
  by_cases hroot : IsSeparators root
  · exact (encloses_of_isSeparators hroot).mpr hroot.frontSeparators_eq
  · exact (encloses_of_not_isSeparators hroot).mpr (Contains.refl root)

theorem Encloses.trans {root mid path : String} (hmid : Encloses root mid)
    (hpath : Encloses mid path) : Encloses root path := by
  by_cases hroot : IsSeparators root
  · rw [encloses_of_isSeparators hroot] at hmid ⊢
    by_cases hsep : IsSeparators mid
    · rw [encloses_of_isSeparators hsep] at hpath
      rw [hpath, ← hmid, hsep.frontSeparators_eq]
    · rw [encloses_of_not_isSeparators hsep] at hpath
      rw [frontSeparators_of_contains hsep hpath, hmid]
  · rw [encloses_of_not_isSeparators hroot] at hmid ⊢
    have hsep := not_isSeparators_of_contains hroot hmid
    exact hmid.trans ((encloses_of_not_isSeparators hsep).mp hpath)

/-- What a root encloses is not shorter, and the root itself if it is not longer. -/
theorem Encloses.length_le {root path : String} (h : Encloses root path) :
    root.length ≤ path.length ∧ (root.length = path.length → root = path) := by
  by_cases hroot : IsSeparators root
  · rw [encloses_of_isSeparators hroot] at h
    refine ⟨h ▸ frontSeparators_le path, fun hlength => ?_⟩
    exact hroot.eq_of_length (isSeparators_of_frontSeparators (h.trans hlength)) hlength
  · rcases (encloses_of_not_isSeparators hroot).mp h with rfl | hprefix
    · exact ⟨le_rfl, fun _ => rfl⟩
    · have hlt := hprefix.length_le
      rw [List.length_append, String.length_toList, String.length_toList,
        List.length_singleton] at hlt
      exact ⟨by omega, fun _ => by omega⟩

/-- To be enclosed is an order of the identities. -/
instance : IsPartialOrder String Encloses where
  refl := Encloses.refl
  trans _ _ _ := Encloses.trans
  antisymm _ _ h h' := h.length_le.2 (Nat.le_antisymm h.length_le.1 h'.length_le.1)

/-! ## The paths that are covered -/

variable (std : RustStd)

/-- The paths in a root; a root without an identity stands for none. -/
def Subtree (root : String) : Set String :=
  {path | normalizePathIdentity std root ≠ "" ∧
    Encloses (normalizePathIdentity std root) (normalizePathIdentity std path)}

/-- The paths in the roots of the set. -/
def DirtyRootSet.covered (d : DirtyRootSet) : Set String :=
  {path | ∃ r ∈ d.roots, Encloses r (normalizePathIdentity std path)}

/-- No root of the set is in another one, and in them are the paths in the roots that were
inserted. -/
structure IsCover (d : DirtyRootSet) (inserted : List String) : Prop where
  separate : d.roots.Pairwise fun r r' => ¬ Encloses r r' ∧ ¬ Encloses r' r
  covered_eq : d.covered std = ⋃ root ∈ inserted, Subtree std root

/-- The set after insertions. -/
def insertRoots (roots : List String) : DirtyRootSet :=
  roots.foldl (DirtyRootSet.insert std) .empty

/-- The set under insertions. -/
def insertions : Machine DirtyRootSet String where
  step d root := some (d.insert std root)

/-- What an insertion needs: that the set is found to contain the identity of the root when it does,
and, if it does not, that the text of the identity and a separator is at the front of the roots that
it encloses. -/
def Agrees (d : DirtyRootSet) (root : String) : Prop :=
  let id := normalizePathIdentity std root
  id ≠ "" →
    (d.containsOrParent std id = true ↔ ∃ r ∈ d.roots, Encloses r id) ∧
      (d.containsOrParent std id = false →
        ∀ r ∈ d.roots, id.toList ++ ['\\'] <+: r.toList ↔ Encloses id r)

instance (d : DirtyRootSet) (root : String) : Decidable (Agrees std d root) :=
  inferInstanceAs (Decidable (normalizePathIdentity std root ≠ "" →
    (d.containsOrParent std (normalizePathIdentity std root) = true ↔
      ∃ r ∈ d.roots, Encloses r (normalizePathIdentity std root)) ∧
    (d.containsOrParent std (normalizePathIdentity std root) = false → ∀ r ∈ d.roots,
      (normalizePathIdentity std root).toList ++ ['\\'] <+: r.toList ↔
        Encloses (normalizePathIdentity std root) r)))

/-! ## Insertions -/

section insertions

variable {std} {d : DirtyRootSet} {root : String} {seen : List String}

/-- The identities of the roots that were inserted. -/
def rootIdentities (std : RustStd) (seen : List String) : Set String :=
  {id | id ≠ "" ∧ ∃ root ∈ seen, normalizePathIdentity std root = id}

theorem roots_insert : (d.insert std root).roots =
    if normalizePathIdentity std root = "" then d.roots
    else coverInsert (d.containsOrParent std (normalizePathIdentity std root))
      (fun r => ((normalizePathIdentity std root).toList ++ ['\\']).isPrefixOf r.toList) d.roots
      (normalizePathIdentity std root) := by
  unfold DirtyRootSet.insert coverInsert
  by_cases hid : normalizePathIdentity std root = ""
  · simp [hid]
  · have hnonempty : (normalizePathIdentity std root).isEmpty = false := by
      rw [← Bool.not_eq_true, String.isEmpty_iff]
      exact hid
    rw [if_neg hid]
    dsimp only
    rw [hnonempty, if_neg Bool.false_ne_true]
    cases d.containsOrParent std (normalizePathIdentity std root) <;> rfl

theorem mem_range_of_mem_insert (h : ∀ r ∈ d.roots, r ∈ Set.range (normalizePathIdentity std)) :
    ∀ r ∈ (d.insert std root).roots, r ∈ Set.range (normalizePathIdentity std) := by
  intro r hr
  rw [roots_insert, coverInsert] at hr
  split_ifs at hr
  · exact h r hr
  · exact h r hr
  · rcases List.mem_append.mp hr with hr | hr
    · exact h r (List.mem_of_mem_filter hr)
    · exact ⟨root, (List.mem_singleton.mp hr).symm⟩

theorem agrees_iff : Agrees std d root ↔ (normalizePathIdentity std root ≠ "" →
    DecidesCover Encloses d.roots (normalizePathIdentity std root)
      (d.containsOrParent std (normalizePathIdentity std root))
      (fun r => ((normalizePathIdentity std root).toList ++ ['\\']).isPrefixOf r.toList)) := by
  unfold Agrees
  dsimp only
  refine imp_congr Iff.rfl ⟨fun h => ⟨h.1, fun hno r hr => ?_⟩, fun h => ⟨h.1, fun hno r hr => ?_⟩⟩
  · rw [List.isPrefixOf_iff_prefix]
    exact h.2 hno r hr
  · rw [← List.isPrefixOf_iff_prefix]
    exact h.2 hno r hr

/-- The cover of the paths is a minimal cover of the identities. -/
theorem isCover_iff (h : ∀ r ∈ d.roots, r ∈ Set.range (normalizePathIdentity std)) :
    IsCover std d seen ↔ MinimalCover Encloses (Set.range (normalizePathIdentity std)) d.roots
      (rootIdentities std seen) := by
  have hunion : d.covered std = ⋃ root ∈ seen, Subtree std root ↔
      ∀ x ∈ Set.range (normalizePathIdentity std),
        (∃ r ∈ d.roots, Encloses r x) ↔ ∃ id ∈ rootIdentities std seen, Encloses id x := by
    rw [Set.ext_iff, Set.forall_mem_range]
    refine forall_congr' fun path => iff_congr Iff.rfl ?_
    simp only [Set.mem_iUnion, Subtree, Set.mem_ofPred_eq, rootIdentities, exists_prop]
    constructor
    · rintro ⟨root, hroot, hne, henc⟩
      exact ⟨_, ⟨hne, root, hroot, rfl⟩, henc⟩
    · rintro ⟨_, ⟨hne, root, hroot, rfl⟩, henc⟩
      exact ⟨root, hroot, hne, henc⟩
  exact ⟨fun hc => ⟨h, hc.separate, hunion.mp hc.covered_eq⟩,
    fun hm => ⟨hm.separate, hunion.mpr hm.covers⟩⟩

theorem rootIdentities_concat (std : RustStd) (seen : List String) (root : String) :
    rootIdentities std (seen ++ [root]) =
      if normalizePathIdentity std root = "" then rootIdentities std seen
      else insert (normalizePathIdentity std root) (rootIdentities std seen) := by
  ext id
  split_ifs with hid
  · simp only [rootIdentities, Set.mem_ofPred_eq, List.mem_append, List.mem_singleton, or_and_right,
      exists_or, exists_eq_left, hid]
    refine and_congr_right fun hne => or_iff_left ?_
    exact fun heq => hne heq.symm
  · simp only [rootIdentities, Set.mem_ofPred_eq, List.mem_append, List.mem_singleton, or_and_right,
      exists_or, exists_eq_left, Set.mem_insert_iff]
    constructor
    · rintro ⟨hne, hseen | rfl⟩
      · exact .inr ⟨hne, hseen⟩
      · exact .inl rfl
    · rintro (rfl | ⟨hne, hseen⟩)
      · exact ⟨hid, .inr rfl⟩
      · exact ⟨hne, .inl hseen⟩

/-- **What an insertion needs** to keep the cover. -/
theorem isCover_insert_iff (hrange : ∀ r ∈ d.roots, r ∈ Set.range (normalizePathIdentity std))
    (h : IsCover std d seen) :
    IsCover std (d.insert std root) (seen ++ [root]) ↔ Agrees std d root := by
  have hmin := (isCover_iff hrange).mp h
  rw [isCover_iff (mem_range_of_mem_insert hrange), roots_insert, rootIdentities_concat,
    agrees_iff]
  by_cases hid : normalizePathIdentity std root = ""
  · rw [if_pos hid, if_pos hid]
    exact iff_of_true hmin fun hne => absurd hid hne
  · have hself : ((normalizePathIdentity std root).toList ++ ['\\']).isPrefixOf
        (normalizePathIdentity std root).toList = false := by
      rw [← Bool.not_eq_true, List.isPrefixOf_iff_prefix]
      intro hprefix
      have hle := hprefix.length_le
      rw [List.length_append, List.length_singleton] at hle
      omega
    rw [if_neg hid, if_neg hid, hmin.coverInsert_iff ⟨root, rfl⟩ hself]
    exact ⟨fun htests _ => htests, fun htests => htests hid⟩

end insertions

/-! ## All insertions -/

theorem insertRoots_concat (seen : List String) (root : String) :
    insertRoots std (seen ++ [root]) = (insertRoots std seen).insert std root := by
  unfold insertRoots
  rw [List.foldl_append]
  rfl

theorem mem_range_of_mem_insertRoots (roots : List String) :
    ∀ r ∈ (insertRoots std roots).roots, r ∈ Set.range (normalizePathIdentity std) := by
  induction roots using List.reverseRecOn with
  | nil => exact fun r hr => absurd hr List.not_mem_nil
  | append_singleton roots root ih =>
      rw [insertRoots_concat]
      exact mem_range_of_mem_insert ih

theorem isCover_empty : IsCover std .empty [] where
  separate := .nil
  covered_eq := by simp [DirtyRootSet.covered, DirtyRootSet.empty]

/-- The runs that keep the cover, from some insertions on. -/
theorem forall_isCover_iff_along {past : List String}
    (h : IsCover std (insertRoots std past) past) (roots : List String) :
    (∀ seen, seen <+: roots → IsCover std (insertRoots std (past ++ seen)) (past ++ seen)) ↔
      (insertions std).Along (Agrees std) (insertRoots std past) roots := by
  induction roots generalizing past with
  | nil =>
      refine iff_of_true (fun seen hseen => ?_) trivial
      rw [List.prefix_nil.mp hseen, List.append_nil]
      exact h
  | cons root roots ih =>
      have hstep : IsCover std ((insertRoots std past).insert std root) (past ++ [root]) ↔
          Agrees std (insertRoots std past) root :=
        isCover_insert_iff (mem_range_of_mem_insertRoots std past) h
      rw [← insertRoots_concat] at hstep
      have hnext : (∀ d', (insertions std).step (insertRoots std past) root = some d' →
          (insertions std).Along (Agrees std) d' roots) ↔
            (insertions std).Along (Agrees std) (insertRoots std (past ++ [root])) roots := by
        rw [insertRoots_concat]
        simp [insertions]
      rw [Machine.Along, hnext]
      constructor
      · intro hall
        have hfirst := hall [root] (List.prefix_append [root] roots)
        refine ⟨hstep.mp hfirst, (ih hfirst).mp fun seen hseen => ?_⟩
        have hlonger := hall (root :: seen) (List.cons_prefix_cons.mpr ⟨rfl, hseen⟩)
        rwa [List.append_assoc]
      · rintro ⟨hagrees, halong⟩ seen hseen
        have hfirst := hstep.mpr hagrees
        cases seen with
        | nil =>
            rw [List.append_nil]
            exact h
        | cons other seen =>
            obtain ⟨rfl, hshort⟩ := List.cons_prefix_cons.mp hseen
            have hrest := (ih hfirst).mpr halong seen hshort
            rwa [List.append_assoc] at hrest

/-- **The dirty roots are a minimal cover** after every insertion of a sequence exactly when every
insertion finds what it needs, and of two orders of the same insertions in which it does the sets
are the same. -/
theorem forall_isCover_iff (roots : List String) :
    ((∀ seen, seen <+: roots → IsCover std (insertRoots std seen) seen) ↔
        (insertions std).Along (Agrees std) .empty roots) ∧
      ∀ roots', roots.Perm roots' → (insertions std).Along (Agrees std) .empty roots →
        (insertions std).Along (Agrees std) .empty roots' →
        (insertRoots std roots).roots.Perm (insertRoots std roots').roots := by
  have hempty : IsCover std (insertRoots std []) [] := isCover_empty std
  have hrule : ∀ rs : List String,
      (∀ seen, seen <+: rs → IsCover std (insertRoots std seen) seen) ↔
        (insertions std).Along (Agrees std) .empty rs :=
    forall_isCover_iff_along std hempty
  refine ⟨hrule roots, fun roots' hperm halong halong' => ?_⟩
  have hcover : ∀ rs : List String, (insertions std).Along (Agrees std) .empty rs →
      MinimalCover Encloses (Set.range (normalizePathIdentity std)) (insertRoots std rs).roots
        (rootIdentities std rs) := fun rs hrs =>
    (isCover_iff (mem_range_of_mem_insertRoots std rs)).mp ((hrule rs).mpr hrs rs List.prefix_rfl)
  have hsame : rootIdentities std roots' = rootIdentities std roots := by
    unfold rootIdentities
    simp only [hperm.mem_iff]
  exact (hcover roots halong).perm (hsame ▸ hcover roots' halong')

/-- A directory and one in it, in the two orders. -/
theorem isCover_data :
    IsCover RustStd.ascii (insertRoots RustStd.ascii ["/data/a", "/data"]) ["/data/a", "/data"] ∧
      (insertRoots RustStd.ascii ["/data/a", "/data"]).roots.Perm
        (insertRoots RustStd.ascii ["/data", "/data/a"]).roots := by
  have halong : (insertions RustStd.ascii).Along (Agrees RustStd.ascii) .empty
      ["/data/a", "/data"] := by decide +kernel
  obtain ⟨hcover, hperm⟩ := forall_isCover_iff RustStd.ascii ["/data/a", "/data"]
  exact ⟨hcover.mpr halong _ List.prefix_rfl,
    hperm _ (List.Perm.swap _ _ _) halong (by decide +kernel)⟩

/-- The set holds the root `/` and a directory in it: the identity of `/` and one more separator are
not at the front of the directory's. -/
theorem not_isCover_slash : ¬ IsCover RustStd.ascii (insertRoots RustStd.ascii ["/", "/foo"])
    ["/", "/foo"] := by
  intro h
  have hroots : (insertRoots RustStd.ascii ["/", "/foo"]).roots = ["\\", "\\foo"] := by
    decide +kernel
  have hseparate := h.separate
  rw [hroots] at hseparate
  have henclosed : Encloses "\\" "\\foo" := by decide
  exact (List.rel_of_pairwise_cons hseparate (List.mem_singleton_self _)).1 henclosed

/-! ## Roots for which the texts are right -/

/-- The identity of the root is its own identity, and not of separators only. -/
def IsPlainRoot (root : String) : Prop :=
  let id := normalizePathIdentity std root
  id ≠ "" → normalizePathIdentity std id = id ∧ ¬ IsSeparators id

variable {std}

theorem agrees_of_plain {d : DirtyRootSet} {root : String}
    (hroots : ∀ r ∈ d.roots, ¬ IsSeparators r) (h : IsPlainRoot std root) : Agrees std d root := by
  intro hne
  obtain ⟨hself, hsep⟩ := h hne
  have hcovered : d.containsOrParent std (normalizePathIdentity std root) = true ↔
      ∃ r ∈ d.roots, Encloses r (normalizePathIdentity std root) := by
    rw [DirtyRootSet.containsOrParent_iff, hself]
    exact exists_congr fun r => and_congr_right fun hr =>
      (encloses_of_not_isSeparators (hroots r hr)).symm
  refine ⟨hcovered, fun hno r hr => ?_⟩
  rw [encloses_of_not_isSeparators hsep]
  refine ⟨.inr, fun hcontains => hcontains.resolve_left ?_⟩
  -- the root itself is not in the set, as the set does not contain it
  rintro rfl
  rw [hcovered.mpr ⟨_, hr, Encloses.refl _⟩] at hno
  cases hno

theorem not_isSeparators_of_mem_insert {d : DirtyRootSet} {root : String}
    (hroots : ∀ r ∈ d.roots, ¬ IsSeparators r) (h : IsPlainRoot std root) :
    ∀ r ∈ (d.insert std root).roots, ¬ IsSeparators r := by
  intro r hr
  rw [roots_insert, coverInsert] at hr
  split_ifs at hr with hne
  · exact hroots r hr
  · exact hroots r hr
  · rcases List.mem_append.mp hr with hr | hr
    · exact hroots r (List.mem_of_mem_filter hr)
    · exact List.mem_singleton.mp hr ▸ (h hne).2

/-- Insertions of such roots find what they need. -/
theorem along_agrees_of_plain {roots : List String} (h : ∀ root ∈ roots, IsPlainRoot std root) :
    (insertions std).Along (Agrees std) .empty roots := by
  refine ((insertions std).along_of_forall (p := IsPlainRoot std) h).imp_inv
    (I := fun d : DirtyRootSet => ∀ r ∈ d.roots, ¬ IsSeparators r) ?_ ?_ ?_
  · intro d root d' hroots hplain hstep
    obtain rfl := Option.some.inj hstep
    exact not_isSeparators_of_mem_insert hroots hplain
  · exact fun r hr => absurd hr List.not_mem_nil
  · exact fun d root => agrees_of_plain

end AuraLauncher.Index
