import AuraLauncher.Domain.PathSegments

/-!
# Paths that climb above their root

In the identity of a path the root is no more than the first segments: one for a drive, two for a
share. A `..` that finds no other segment takes one of them away.

* `PathRoot`, `PathRoot.Spells` — the roots, and how they are written.
* `identity_of_root` — the identity of an absolute path, from the segments of its root and the moves
  of the rest.
* `surplus_at_root_iff` — when `..` directly after the root leave the identity as it is.
-/

namespace AuraLauncher.Domain

open AuraLauncher.Lib

variable {std : RustStd}

/-- The root of an absolute path. -/
inductive PathRoot
  | drive (letter : Char)
  | unc (server share : List Char)

namespace PathRoot

/-- The segments a root is. -/
def segments : PathRoot → List (List Char)
  | drive letter => [[letter, ':']]
  | unc server share => [server, share]

/-- The separators the identity has before them. -/
def separators : PathRoot → ℕ
  | drive _ => 0
  | unc _ _ => 2

/-- `root.Spells text`: the text is the root, with either separator and with the prefix of a path
that is taken as it stands or without it. No share is on a server `?`, which is that prefix. -/
inductive Spells : PathRoot → List Char → Prop
  | drive {letter : Char} (h : letter.isAlpha = true) : Spells (.drive letter) [letter, ':']
  | verbatimDrive {letter : Char} (h : letter.isAlpha = true) :
      Spells (.drive letter) (verbatimPrefix ++ [letter, ':'])
  | unc {a b c : Char} {server share : List Char} (ha : isSeparator a = true)
      (hb : isSeparator b = true) (hc : isSeparator c = true) (hserver : IsSegment server)
      (hne : server ≠ ['?']) (hshare : IsSegment share) :
      Spells (.unc server share) (a :: b :: (server ++ c :: share))
  | verbatimUnc {c : Char} {server share : List Char} (hc : isSeparator c = true)
      (hserver : IsSegment server) (hshare : IsSegment share) :
      Spells (.unc server share) (verbatimPrefix ++ (uncPrefix ++ (server ++ c :: share)))

end PathRoot

theorem isSegment_drive {letter : Char} (h : letter.isAlpha = true) :
    IsSegment [letter, ':'] where
  ne_nil := List.cons_ne_nil _ _
  no_separator c hc := by
    rcases List.mem_cons.mp hc with rfl | hc
    · by_contra hsep
      rcases isSeparator_iff.mp (Bool.eq_true_of_not_eq_false hsep) with rfl | rfl
      · exact absurd h (by decide)
      · exact absurd h (by decide)
    · obtain rfl := List.mem_singleton.mp hc
      rfl
  ne_dot := by simp
  ne_dots := by simp

/-- The identity of a path from the segments its moves start on. -/
theorem plainIdentity_of_pathMoves {p : List Char} {k : ℕ} {segs : List (List Char)}
    {moves : List (StackMove (List Char))} (hk : min 2 (leading p) = k)
    (hmoves : pathMoves p = moves) (hrun : StackMove.run [] moves = segs) :
    plainIdentity std p = render k (segs.map (lowered std)) := by
  rw [plainIdentity, hk, resolved, hmoves, hrun]

theorem plainIdentity_drive {letter sep : Char} (h : letter.isAlpha = true)
    (hsep : isSeparator sep = true) (p : List Char) :
    plainIdentity std ([letter, ':'] ++ sep :: p) =
      render 0 ((StackMove.run [[letter, ':']] (pathMoves p)).map (lowered std)) := by
  have hdrive := isSegment_drive h
  have hletter := hdrive.no_separator letter List.mem_cons_self
  refine plainIdentity_of_pathMoves ?_ (pathMoves_append_cons [letter, ':'] p hsep) ?_
  · rw [leading, List.cons_append, List.takeWhile_cons_of_neg (by simp [hletter])]
    rfl
  · rw [hdrive.pathMoves_eq]
    rfl

theorem plainIdentity_unc {a b c sep : Char} {server share : List Char}
    (ha : isSeparator a = true) (hb : isSeparator b = true) (hc : isSeparator c = true)
    (hserver : IsSegment server) (hshare : IsSegment share) (hsep : isSeparator sep = true)
    (p : List Char) :
    plainIdentity std (a :: b :: (server ++ c :: share) ++ sep :: p) =
      render 2 ((StackMove.run [server, share] (pathMoves p)).map (lowered std)) := by
  have hmoves : pathMoves (a :: b :: (server ++ c :: share) ++ sep :: p) =
      [.stay, .stay, .push server, .push share] ++ pathMoves p := by
    have hfirst : pathMoves (a :: b :: (server ++ c :: share)) =
        pathMoves [] ++ (pathMoves [] ++ pathMoves (server ++ c :: share)) := by
      rw [← pathMoves_append_cons [] _ hb, List.nil_append, ← pathMoves_append_cons [] _ ha,
        List.nil_append]
    rw [pathMoves_append_cons _ p hsep, hfirst, pathMoves_append_cons server share hc,
      hserver.pathMoves_eq, hshare.pathMoves_eq]
    rfl
  refine plainIdentity_of_pathMoves ?_ hmoves rfl
  rw [leading, List.cons_append, List.cons_append, List.takeWhile_cons_of_pos ha,
    List.takeWhile_cons_of_pos hb, List.length_cons, List.length_cons]
  omega

/-- **The identity of an absolute path**: the root is the stack that the moves of the rest start
on. -/
theorem identity_of_root (h : LowercaseLaws std) {root : PathRoot} {text : List Char}
    (hroot : root.Spells text) {sep : Char} (hsep : isSeparator sep = true) (p : List Char) :
    identity std (text ++ sep :: p) =
      render root.separators ((StackMove.run root.segments (pathMoves p)).map (lowered std)) := by
  cases hroot with
  | @drive letter hletter =>
      have hne : letter ≠ '\\' := by
        rintro rfl
        exact absurd hletter (by decide)
      rw [identity_of_plain h, plainIdentity_drive hletter hsep]
      · rfl
      · rintro ⟨t, ht⟩
        exact hne (List.cons.inj ht).1.symm
      · rintro ⟨t, ht⟩
        exact hne (List.cons.inj ht).1.symm
  | @verbatimDrive letter hletter =>
      rw [List.append_assoc, identity_of_verbatim h, plainIdentity_drive hletter hsep]
      · rfl
      · rintro ⟨t, ht⟩
        cases (List.cons.inj (List.cons.inj ht).2).1
  | @unc a b c server share ha hb hc hserver hne hshare =>
      -- the server is not what stands between the separators of a prefix
      have hmark : ∀ x : Char, server ≠ [x] →
          ¬ ['\\', '\\', x, '\\'] <+: a :: b :: (server ++ c :: share) ++ sep :: p := by
        rintro x hx ⟨t, ht⟩
        obtain ⟨d, server', rfl⟩ := List.exists_cons_of_ne_nil hserver.ne_nil
        have htail := (List.cons.inj (List.cons.inj ht).2).2
        obtain ⟨rfl, hafter⟩ := List.cons.inj htail
        cases server' with
        | nil => exact hx rfl
        | cons e server' =>
            obtain ⟨rfl, -⟩ := List.cons.inj hafter
            have hno := hserver.no_separator '\\' (List.mem_cons_of_mem _ List.mem_cons_self)
            cases hno
      rw [identity_of_plain h (hmark '.' hserver.ne_dot) (hmark '?' hne),
        plainIdentity_unc ha hb hc hserver hshare hsep]
      rfl
  | @verbatimUnc c server share hc hserver hshare =>
      rw [List.append_assoc, List.append_assoc, identity_of_verbatim_unc h]
      exact plainIdentity_unc rfl rfl hc hserver hshare hsep p

/-- A text of `..`, each with its separator. -/
def climb (seps : List Char) : List Char := seps.flatMap fun s => ['.', '.', s]

theorem pathMoves_climb_append {seps : List Char} (h : ∀ s ∈ seps, isSeparator s = true)
    (rest : List Char) :
    pathMoves (climb seps ++ rest) = List.replicate seps.length .pop ++ pathMoves rest := by
  induction seps with
  | nil => rfl
  | cons s seps ih =>
      have hcons : climb (s :: seps) ++ rest = ['.', '.'] ++ s :: (climb seps ++ rest) := rfl
      rw [hcons, pathMoves_append_cons ['.', '.'] _ (h s List.mem_cons_self),
        ih fun t ht => h t (List.mem_cons_of_mem s ht)]
      rfl

theorem PathRoot.Spells.isSegment {root : PathRoot} {text : List Char} (h : root.Spells text) :
    ∀ s ∈ root.segments, IsSegment s := by
  cases h with
  | drive hletter | verbatimDrive hletter =>
      intro s hs
      obtain rfl := List.mem_singleton.mp hs
      exact isSegment_drive hletter
  | unc ha hb hc hserver hne hshare =>
      intro s hs
      rcases List.mem_cons.mp hs with rfl | hs
      · exact hserver
      · obtain rfl := List.mem_singleton.mp hs
        exact hshare
  | verbatimUnc hc hserver hshare =>
      intro s hs
      rcases List.mem_cons.mp hs with rfl | hs
      · exact hserver
      · obtain rfl := List.mem_singleton.mp hs
        exact hshare

/-- **When `..` at the root are dropped.** Any number of `..` directly after the root of a path, in
any spelling, leave its identity as it is exactly when there are none, or when the `..` of the rest
alone take away all segments of the root. -/
theorem surplus_at_root_iff (std : RustStd) (h : LowercaseLaws std) (root : PathRoot)
    (text : List Char) (hroot : root.Spells text) (sep : Char) (hsep : isSeparator sep = true)
    (seps : List Char) (hseps : ∀ s ∈ seps, isSeparator s = true) (rest : List Char) :
    normalizePathIdentity std (String.ofList (text ++ sep :: (climb seps ++ rest))) =
        normalizePathIdentity std (String.ofList (text ++ sep :: rest)) ↔
      seps = [] ∨ root.segments.length ≤ surplus rest := by
  have hwith : StackMove.run root.segments (pathMoves (climb seps ++ rest)) =
      root.segments.take (root.segments.length - (seps.length + surplus rest)) ++
        resolved rest := by
    rw [pathMoves_climb_append hseps]
    exact StackMove.run_replicate_pop_append _ _ _
  have hwithout : StackMove.run root.segments (pathMoves rest) =
      root.segments.take (root.segments.length - surplus rest) ++ resolved rest :=
    StackMove.run_eq_take_append _ _
  have hsegs : ∀ n, ∀ s ∈ (root.segments.take n ++ resolved rest).map (lowered std),
      IsSegment s := by
    intro n s hs
    obtain ⟨t, ht, rfl⟩ := List.mem_map.mp hs
    rcases List.mem_append.mp ht with ht | ht
    · exact (hroot.isSegment t (List.mem_of_mem_take ht)).lowered h
    · exact (isSegment_of_mem_resolved ht).lowered h
  rw [normalizePathIdentity_eq, normalizePathIdentity_eq, String.toList_ofList,
    String.toList_ofList, String.ofList_inj, identity_of_root h hroot hsep,
    identity_of_root h hroot hsep, hwith, hwithout]
  constructor
  · intro heq
    have hlen := congrArg List.length (render_injective _ (hsegs _) (hsegs _) heq)
    simp only [List.length_map, List.length_append, List.length_take] at hlen
    rw [← List.length_eq_zero_iff]
    omega
  · rintro (rfl | hle)
    · rw [List.length_nil, Nat.zero_add]
    · rw [Nat.sub_eq_zero_of_le hle, Nat.sub_eq_zero_of_le (hle.trans (Nat.le_add_left _ _))]

/-- The rest of a path with a drive climbs above the drive by itself. -/
theorem surplus_at_root_drive :
    normalizePathIdentity RustStd.ascii
        (String.ofList (['C', ':'] ++ '\\' :: (climb ['\\'] ++ "..\\x".toList))) =
      normalizePathIdentity RustStd.ascii (String.ofList (['C', ':'] ++ '\\' :: "..\\x".toList)) :=
  (surplus_at_root_iff RustStd.ascii lowercaseLaws_ascii (.drive 'C') ['C', ':'] (.drive rfl) '\\'
    rfl ['\\'] (by simp [isSeparator]) "..\\x".toList).mpr (.inr (by decide))

/-- `C:\..\x` has the identity `x`, and `C:\x` the identity `c:\x`. -/
theorem not_surplus_at_root :
    ¬ ∀ (root : PathRoot) (text : List Char), root.Spells text → ∀ sep, isSeparator sep = true →
      ∀ seps : List Char, (∀ s ∈ seps, isSeparator s = true) → ∀ rest : List Char,
      normalizePathIdentity RustStd.ascii (String.ofList (text ++ sep :: (climb seps ++ rest))) =
        normalizePathIdentity RustStd.ascii (String.ofList (text ++ sep :: rest)) := by
  intro h
  have hdrive := h (.drive 'C') ['C', ':'] (.drive rfl) '\\' rfl ['\\'] (by simp [isSeparator])
    ['x']
  exact absurd hdrive (by decide +kernel)

end AuraLauncher.Domain
