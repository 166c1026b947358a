import AuraLauncher.Domain.PathSegments

/-!
# When the identity of a path is a normal form

The identity of a path is meant to be the same for all spellings of its separators, and to be its
own identity. `normalize_path_identity` looks for its prefixes before it folds the separators, in
the one spelling with `\`, and what it writes may begin with such a prefix again.

* `foldSeparator` — two paths differ only in their separators when their folded texts are equal.
* `HasNormalForm` — what a path must have for its identity to be a normal form.
* `identity_eq_plainIdentity` — then no prefix makes a difference.
* `identity_render_iff` — the written paths that are their own identity.
* `normalForm_iff` — the condition is exact.
-/

namespace AuraLauncher.Domain

open AuraLauncher.Lib

variable {std : RustStd}

/-! ## Folded separators -/

/-- `/` read as `\`. -/
def foldSeparator (c : Char) : Char := if isSeparator c then '\\' else c

/-- A path with all separators the same. -/
abbrev folded (p : List Char) : List Char := p.map foldSeparator

theorem isSeparator_foldSeparator (c : Char) :
    isSeparator (foldSeparator c) = isSeparator c := by
  unfold foldSeparator
  split_ifs with hc
  · rw [hc]
    rfl
  · rfl

theorem folded_folded (p : List Char) : folded (folded p) = folded p := by
  rw [folded, List.map_map]
  refine List.map_congr_left fun c _ => ?_
  rw [Function.comp_apply, foldSeparator, isSeparator_foldSeparator]
  split_ifs with hc
  · rw [foldSeparator, if_pos hc]
  · rfl

theorem splitOn_folded (p : List Char) :
    splitOn isSeparator (folded p) = splitOn isSeparator p := by
  induction p with
  | nil => rfl
  | cons c p ih =>
      rw [folded, List.map_cons, splitOn, isSeparator_foldSeparator, ih, splitOn]
      by_cases hc : isSeparator c = true
      · simp only [hc, if_true]
      · simp only [foldSeparator, hc, Bool.false_eq_true, if_false]

theorem pathMoves_folded (p : List Char) : pathMoves (folded p) = pathMoves p := by
  rw [pathMoves, splitOn_folded, pathMoves]

theorem leading_folded (p : List Char) : leading (folded p) = leading p := by
  rw [leading, leading, folded, List.takeWhile_map, List.length_map]
  congr 2
  funext c
  exact isSeparator_foldSeparator c

/-- The plain identity does not depend on the spelling of the separators. -/
theorem plainIdentity_of_folded_eq {p q : List Char} (h : folded q = folded p) :
    plainIdentity std q = plainIdentity std p := by
  rw [plainIdentity, plainIdentity, ← leading_folded q, h, leading_folded, resolved,
    ← pathMoves_folded q, h, pathMoves_folded]
  rfl

/-! ## The condition -/

theorem leading_verbatim (rest : List Char) : leading (verbatimPrefix ++ rest) = 2 := rfl

theorem resolved_verbatim (rest : List Char) :
    resolved (verbatimPrefix ++ rest) = [['?']].take (1 - surplus rest) ++ resolved rest := by
  have hmoves : pathMoves (verbatimPrefix ++ rest) =
      [.stay, .stay, .push ['?']] ++ pathMoves rest :=
    pathMoves_append_cons ['\\', '\\', '?'] rest rfl
  rw [resolved, hmoves, StackMove.run_append]
  exact StackMove.run_eq_take_append [['?']] (pathMoves rest)

/-- The path is not spelled like a device; if it is spelled like a path to be taken as it stands,
that prefix makes no difference, because what follows begins with two separators and its `..` reach
back to the `?`; and what is left of it is not the text of such a path. -/
structure HasNormalForm (p : List Char) : Prop where
  not_device : ¬ devicePrefix <+: folded p
  verbatim : ∀ rest, folded p = verbatimPrefix ++ rest → 2 ≤ leading rest ∧ 0 < surplus rest
  not_question : 2 ≤ leading p → ∀ seg segs, resolved p ≠ ['?'] :: seg :: segs

/-- The part of the condition that is about all spellings. -/
theorem HasNormalForm.of_folded_eq {p q : List Char} (h : HasNormalForm p)
    (hq : folded q = folded p) : HasNormalForm q where
  not_device := hq ▸ h.not_device
  verbatim := hq ▸ h.verbatim
  not_question := by
    have hresolved : resolved q = resolved p := by
      rw [resolved, ← pathMoves_folded q, hq, pathMoves_folded]
      rfl
    rw [← leading_folded q, hq, leading_folded, hresolved]
    exact h.not_question

/-- Under the condition on the spelling no prefix makes a difference. -/
theorem identity_eq_plainIdentity (h : LowercaseLaws std) {p : List Char}
    (hdev : ¬ devicePrefix <+: folded p)
    (hspell : ∀ rest, folded p = verbatimPrefix ++ rest → 2 ≤ leading rest ∧ 0 < surplus rest) :
    identity std p = plainIdentity std p := by
  by_cases hver : verbatimPrefix <+: p
  · obtain ⟨rest, rfl⟩ := hver
    obtain ⟨hlead, hsurplus⟩ := hspell (folded rest) List.map_append
    rw [leading_folded] at hlead
    rw [surplus, pathMoves_folded, ← surplus] at hsurplus
    have hunc : ¬ uncPrefix <+: rest := by
      rintro ⟨t, rfl⟩
      exact absurd hlead (by simp [leading, uncPrefix, isSeparator])
    have htake : [['?']].take (1 - surplus rest) = [] := by
      rw [Nat.sub_eq_zero_of_le hsurplus]
      rfl
    rw [identity_of_verbatim h hunc, plainIdentity, plainIdentity, leading_verbatim,
      resolved_verbatim, htake, Nat.min_eq_left hlead]
    rfl
  · refine identity_of_plain h ?_ hver
    rintro ⟨rest, rfl⟩
    have hfold : folded (devicePrefix ++ rest) = devicePrefix ++ folded rest := List.map_append
    exact hdev (hfold ▸ List.prefix_append devicePrefix (folded rest))

theorem isSegment_of_mem_plain (h : LowercaseLaws std) (p : List Char) :
    ∀ s ∈ (resolved p).map (lowered std), IsSegment s := by
  intro s hs
  obtain ⟨seg, hseg, rfl⟩ := List.mem_map.mp hs
  exact (isSegment_of_mem_resolved hseg).lowered h

/-- No written path is that of a device. -/
theorem not_devicePrefix_render {k : ℕ} {segs : List (List Char)}
    (hsegs : ∀ s ∈ segs, IsSegment s) : ¬ devicePrefix <+: render k segs := by
  intro hdev
  obtain ⟨-, t, ts, rfl⟩ := (prefix_render_iff (x := '.') rfl hsegs).mp hdev
  exact (hsegs _ List.mem_cons_self).ne_dot rfl

/-- **A written path is its own identity** unless it begins with `\\?\`, which would be taken off
it. -/
theorem identity_render_iff (h : LowercaseLaws std) {k : ℕ} (hk : k ≤ 2)
    {segs : List (List Char)} (hsegs : ∀ s ∈ segs, IsSegment s)
    (hlow : segs.map (lowered std) = segs) :
    identity std (render k segs) = render k segs ↔
      ¬ (k = 2 ∧ ∃ t ts, segs = ['?'] :: t :: ts) := by
  rw [← prefix_render_iff (x := '?') rfl hsegs]
  by_cases hver : verbatimPrefix <+: render k segs
  · refine iff_of_false ?_ (not_not.mpr hver)
    obtain ⟨rfl, t, ts, rfl⟩ := (prefix_render_iff (x := '?') rfl hsegs).mp hver
    have htext : render 2 (['?'] :: t :: ts) =
        verbatimPrefix ++ List.intercalate ['\\'] (t :: ts) := by
      rw [render, List.intercalate_cons_cons]
      rfl
    have htail : (t :: ts).map (lowered std) = t :: ts := (List.cons.inj hlow).2
    have hunc : ¬ uncPrefix <+: List.intercalate ['\\'] (t :: ts) := by
      rintro ⟨rest, hrest⟩
      have hU : 'U' ∈ lowered std (List.intercalate ['\\'] (t :: ts)) := by
        rw [lowered_intercalate h, htail, ← hrest]
        exact List.mem_cons_self
      exact h.not_mem_lowered _ hU
    have hlead := leading_intercalate fun s hs => hsegs s (List.mem_cons_of_mem _ hs)
    intro heq
    -- without its prefix the path has no separators at the front
    rw [htext, identity_of_verbatim h hunc, ← htext, plainIdentity, hlead] at heq
    exact render_ne_of_ne (by decide) (isSegment_of_mem_plain h _) hsegs heq
  · refine iff_of_true ?_ hver
    rw [identity_of_plain h (not_devicePrefix_render hsegs) hver, plainIdentity,
      leading_render k hsegs, resolved_render k hsegs, hlow, Nat.min_eq_right hk]

/-! ## What other paths lead to -/

/-- All spellings of a path have one identity. -/
def OneIdentity (std : RustStd) (p : List Char) : Prop :=
  ∀ q, folded q = folded p → identity std q = identity std p

/-- A path spelled with `/` at its front has none of the prefixes. -/
theorem identity_of_slash (h : LowercaseLaws std) (p : List Char) :
    identity std ('/' :: p) = plainIdentity std ('/' :: p) := by
  apply identity_of_plain h
  · rintro ⟨t, ht⟩
    cases (List.cons.inj ht).1
  · rintro ⟨t, ht⟩
    cases (List.cons.inj ht).1

/-- A path spelled like a device is one in the spelling with `\` only. -/
theorem OneIdentity.not_device (h : LowercaseLaws std) {p : List Char}
    (hp : OneIdentity std p) : ¬ devicePrefix <+: folded p := by
  rintro ⟨rest, hrest⟩
  have hslash : folded (['/', '/', '.', '/'] ++ rest) = folded p := by
    rw [← folded_folded p, ← hrest, folded, folded, List.map_append, List.map_append]
    rfl
  have hsame : identity std (['/', '/', '.', '/'] ++ rest) = identity std (folded p) := by
    rw [hp _ hslash, hp _ (folded_folded p)]
  have hplain : identity std (['/', '/', '.', '/'] ++ rest) =
      plainIdentity std (['/', '/', '.', '/'] ++ rest) := identity_of_slash h _
  rw [hplain, identity_of_device ⟨rest, hrest⟩, ← hrest] at hsame
  apply not_devicePrefix_render (isSegment_of_mem_plain h (['/', '/', '.', '/'] ++ rest))
  rw [plainIdentity] at hsame
  rw [hsame]
  refine ⟨lowered std rest, ?_⟩
  simp only [devicePrefix, List.cons_append, List.nil_append]
  repeat rw [h.lowered_of_ascii (by decide) (by decide)]

/-- What follows the prefix of a path in the spelling with `\` only is in that spelling. -/
theorem folded_of_verbatim {p rest : List Char} (hrest : folded p = verbatimPrefix ++ rest) :
    folded rest = rest := by
  have hboth := folded_folded p
  rw [hrest, folded, List.map_append] at hboth
  exact List.append_cancel_left hboth

/-- The prefix of a share is looked for in the spelling with `\` too, so that a share has two
identities. -/
theorem OneIdentity.not_unc (h : LowercaseLaws std) {p rest : List Char}
    (hp : OneIdentity std p) (hrest : folded p = verbatimPrefix ++ rest) :
    ¬ uncPrefix <+: rest := by
  have hself : identity std (verbatimPrefix ++ rest) = identity std p :=
    hrest ▸ hp _ (folded_folded p)
  have hfold := folded_of_verbatim hrest
  rintro ⟨share, rfl⟩
  have hother : folded (verbatimPrefix ++ (['U', 'N', 'C', '/'] ++ share)) = folded p := by
    rw [hrest, folded, List.map_append, List.map_append]
    exact congrArg (verbatimPrefix ++ ·) hfold
  have hnot : ¬ uncPrefix <+: ['U', 'N', 'C', '/'] ++ share := by
    rintro ⟨t, ht⟩
    simp [uncPrefix] at ht
  have hsame := hself.trans (hp _ hother).symm
  rw [identity_of_verbatim_unc h, identity_of_verbatim h hnot, plainIdentity,
    plainIdentity] at hsame
  refine render_ne_of_ne ?_ (isSegment_of_mem_plain h _) (isSegment_of_mem_plain h _) hsame
  have htwo : leading ('\\' :: '\\' :: share) = leading share + 2 := by
    simp [leading, isSeparator]
  have hnone : leading (['U', 'N', 'C', '/'] ++ share) = 0 := rfl
  rw [htwo, hnone]
  omega

/-- A path spelled with the prefix of a path to be taken as it stands has the prefix taken off in
the spelling with `\` only. -/
theorem OneIdentity.verbatim (h : LowercaseLaws std) {p rest : List Char}
    (hp : OneIdentity std p) (hrest : folded p = verbatimPrefix ++ rest) :
    2 ≤ leading rest ∧ 0 < surplus rest := by
  have hself : identity std (verbatimPrefix ++ rest) = identity std p :=
    hrest ▸ hp _ (folded_folded p)
  have hslash : folded (['/', '/', '?', '/'] ++ rest) = folded p := by
    have happ : folded (['/', '/', '?', '/'] ++ rest) = verbatimPrefix ++ folded rest :=
      List.map_append
    rw [happ, folded_of_verbatim hrest, hrest]
  have hplain : identity std (['/', '/', '?', '/'] ++ rest) =
      plainIdentity std (['/', '/', '?', '/'] ++ rest) := identity_of_slash h _
  have hfront : plainIdentity std (['/', '/', '?', '/'] ++ rest) =
      plainIdentity std (verbatimPrefix ++ rest) := by
    rw [plainIdentity_of_folded_eq hslash, ← hrest,
      plainIdentity_of_folded_eq (folded_folded p)]
  have hsame := hself.trans (hp _ hslash).symm
  rw [identity_of_verbatim h (hp.not_unc h hrest), hplain, hfront] at hsame
  have hlead : 2 ≤ leading rest := by
    by_contra hlt
    refine render_ne_of_ne ?_ (isSegment_of_mem_plain h _) (isSegment_of_mem_plain h _) hsame
    rw [leading_verbatim]
    omega
  refine ⟨hlead, ?_⟩
  rw [plainIdentity, plainIdentity, leading_verbatim, Nat.min_eq_left hlead] at hsame
  have hsegs := congrArg List.length (render_injective 2 (isSegment_of_mem_plain h _)
    (isSegment_of_mem_plain h _) hsame)
  rw [List.length_map, List.length_map, resolved_verbatim, List.length_append,
    List.length_take, List.length_singleton] at hsegs
  omega

/-- The identity is a normal form of the path: its own identity, and that of all spellings. -/
def IsNormalForm (std : RustStd) (p : List Char) : Prop :=
  identity std (identity std p) = identity std p ∧ OneIdentity std p

/-- **When the identity of a path is a normal form**, on characters. -/
theorem isNormalForm_iff (h : LowercaseLaws std) (p : List Char) :
    IsNormalForm std p ↔ HasNormalForm p := by
  have hsegs := isSegment_of_mem_plain h p
  have hlow : ((resolved p).map (lowered std)).map (lowered std) =
      (resolved p).map (lowered std) := by
    rw [List.map_map]
    exact List.map_congr_left fun s _ => h.lowered_lowered s
  have hrender := identity_render_iff h (Nat.min_le_left 2 (leading p)) hsegs hlow
  -- lower case makes no `?` of anything else
  have hquestion : (min 2 (leading p) = 2 ∧
      ∃ t ts, (resolved p).map (lowered std) = ['?'] :: t :: ts) ↔
      2 ≤ leading p ∧ ∃ seg segs, resolved p = ['?'] :: seg :: segs := by
    refine and_congr (by omega) ⟨?_, ?_⟩
    · rintro ⟨t, ts, hmap⟩
      obtain ⟨q, seg, segs, hres, hq, -, -⟩ : ∃ q seg segs, resolved p = q :: seg :: segs ∧
          lowered std q = ['?'] ∧ lowered std seg = t ∧ segs.map (lowered std) = ts := by
        obtain ⟨q, rest, hres, hq, hrest⟩ := List.map_eq_cons_iff.mp hmap
        obtain ⟨seg, segs, rfl, hseg, hsegs⟩ := List.map_eq_cons_iff.mp hrest
        exact ⟨q, seg, segs, hres, hq, hseg, hsegs⟩
      exact ⟨seg, segs, by rw [hres, h.eq_of_lowered (by simp) hq]⟩
    · rintro ⟨seg, segs, hres⟩
      refine ⟨lowered std seg, segs.map (lowered std), ?_⟩
      rw [hres, List.map_cons, List.map_cons, h.lowered_of_ascii (by decide) (by decide)]
      rfl
  constructor
  · rintro ⟨hown, hone⟩
    refine ⟨hone.not_device h, fun rest hrest => hone.verbatim h hrest, ?_⟩
    rw [identity_eq_plainIdentity h (hone.not_device h) fun rest hrest => hone.verbatim h hrest,
      plainIdentity, hrender, hquestion] at hown
    exact fun htwo seg segs hres => hown ⟨htwo, seg, segs, hres⟩
  · intro hp
    refine ⟨?_, fun q hq => ?_⟩
    · rw [identity_eq_plainIdentity h hp.not_device hp.verbatim, plainIdentity, hrender,
        hquestion]
      rintro ⟨htwo, seg, segs, hres⟩
      exact hp.not_question htwo seg segs hres
    · have hq' := hp.of_folded_eq hq
      rw [identity_eq_plainIdentity h hq'.not_device hq'.verbatim,
        identity_eq_plainIdentity h hp.not_device hp.verbatim, plainIdentity_of_folded_eq hq]

/-- **When the identity of a path is a normal form.** It is its own identity, and that of all
paths that differ only in using `/` or `\` as separators, exactly under the condition. -/
theorem normalForm_iff (std : RustStd) (h : LowercaseLaws std) (p : String) :
    (normalizePathIdentity std (normalizePathIdentity std p) = normalizePathIdentity std p ∧
      ∀ q : String, q.toList.map foldSeparator = p.toList.map foldSeparator →
        normalizePathIdentity std q = normalizePathIdentity std p) ↔
      HasNormalForm p.toList := by
  rw [← isNormalForm_iff h]
  refine and_congr ?_ ⟨?_, ?_⟩
  · rw [normalizePathIdentity_eq std p, normalizePathIdentity_eq, String.toList_ofList,
      String.ofList_inj]
  · intro hall q hq
    have hsame := hall (String.ofList q) (by rwa [String.toList_ofList])
    rwa [normalizePathIdentity_eq, normalizePathIdentity_eq std p, String.toList_ofList,
      String.ofList_inj] at hsame
  · intro hall q hq
    rw [normalizePathIdentity_eq, normalizePathIdentity_eq std p, hall q.toList hq]

/-- A path with a drive letter, in two spellings. -/
theorem normalForm_drive :
    normalizePathIdentity RustStd.ascii (normalizePathIdentity RustStd.ascii "C:/Docs/a.TXT") =
        normalizePathIdentity RustStd.ascii "C:/Docs/a.TXT" ∧
      ∀ q : String, q.toList.map foldSeparator = "C:/Docs/a.TXT".toList.map foldSeparator →
        normalizePathIdentity RustStd.ascii q =
          normalizePathIdentity RustStd.ascii "C:/Docs/a.TXT" := by
  refine (normalForm_iff RustStd.ascii lowercaseLaws_ascii "C:/Docs/a.TXT").mpr ⟨?_, ?_, ?_⟩
  · rintro ⟨t, ht⟩
    cases (List.cons.inj ht).1
  · intro rest hrest
    cases (List.cons.inj hrest).1
  · intro htwo
    exact absurd htwo (by decide)

/-- With three separators before its `?` a path has an identity that is not its own, and with
slashes one that is not that of its other spelling. -/
theorem not_normalForm :
    (¬ ∀ p : String, normalizePathIdentity RustStd.ascii (normalizePathIdentity RustStd.ascii p) =
      normalizePathIdentity RustStd.ascii p) ∧
    ¬ ∀ p q : String, q.toList.map foldSeparator = p.toList.map foldSeparator →
      normalizePathIdentity RustStd.ascii q = normalizePathIdentity RustStd.ascii p := by
  constructor
  · intro h
    exact absurd (h "\\\\\\?\\C:\\x") (by decide +kernel)
  · intro h
    exact absurd (h "\\\\?\\C:\\x" "//?/C:/x" (by decide)) (by decide +kernel)

end AuraLauncher.Domain
