import AuraLauncher.Domain.Names
import AuraLauncher.Domain.Splitting
import AuraLauncher.Lib.Stack

/-!
# The segments of a path and its identity

`normalize_path_identity` of `launcher-domain/src/lib.rs` in terms of what it does to segments: a
path is split at its separators, the segments are moves on a stack, and what is left on it is
written out again in lower case after as many separators as the path begins with, two at most.

* `LowercaseLaws` — what the results rely on of `char::to_lowercase`.
* `resolved`, `surplus`, `leading` — the segments left on the stack, the `..` that find none, and
  the separators at the front.
* `IsSegment`, `render` — the texts that are written, which read back as they were written
  (`resolved_render`, `leading_render`).
* `identity` and its equations — the function on characters, for each of the prefixes that are
  looked at.
-/

namespace AuraLauncher.Domain

open AuraLauncher.Lib

variable {std : RustStd}

/-! ## Lower case -/

/-- What the identity of a path relies on of `char::to_lowercase`: ASCII is lowered as it is known,
a result is not empty and is its own lower case, and what has a part in the syntax of paths comes
from itself only. -/
structure LowercaseLaws (std : RustStd) : Prop where
  ascii : ∀ c : Char, c.toNat < 128 → std.toLowercase c = [c.toLower]
  ne_nil : ∀ c, std.toLowercase c ≠ []
  lower : ∀ c, ∀ d ∈ std.toLowercase c, std.toLowercase d = [d]
  syntactic : ∀ c, ∀ d ∈ std.toLowercase c, isSeparator d = true ∨ d = '.' ∨ d = '?' → c = d

/-- A capital of ASCII is moved to its small letter, and nothing else is changed. -/
theorem toLower_cases (c : Char) :
    (65 ≤ c.toNat ∧ c.toNat ≤ 90 ∧ c.toLower.toNat = c.toNat + 32) ∨
      (¬ (65 ≤ c.toNat ∧ c.toNat ≤ 90) ∧ c.toLower = c) := by
  unfold Char.toLower
  split_ifs with h
  · have hlow : 65 ≤ c.val.toNat := h.1
    have hhigh : c.val.toNat ≤ 90 := h.2
    have hadd : (c.val + ('a'.val - 'A'.val)).toNat = c.val.toNat + 32 := by
      have hshift : ('a'.val - 'A'.val).toNat = 32 := by decide
      rw [UInt32.toNat_add]
      omega
    exact .inl ⟨hlow, hhigh, hadd⟩
  · exact .inr ⟨h, rfl⟩

/-- The laws hold of the standard library on ASCII. -/
theorem lowercaseLaws_ascii : LowercaseLaws RustStd.ascii where
  ascii _ _ := rfl
  ne_nil c := List.cons_ne_nil c.toLower []
  lower c d hd := by
    obtain rfl : d = c.toLower := List.mem_singleton.mp hd
    refine congrArg (fun e => [e]) ?_
    rcases toLower_cases c with ⟨hlow, hhigh, hc⟩ | ⟨-, hc⟩
    · rcases toLower_cases c.toLower with ⟨-, hhigh', -⟩ | ⟨-, hself⟩
      · omega
      · exact hself
    · rw [hc, hc]
  syntactic c d hd hsyn := by
    obtain rfl : d = c.toLower := List.mem_singleton.mp hd
    rcases toLower_cases c with ⟨hlow, hhigh, hc⟩ | ⟨-, hc⟩
    · -- a small letter has no part in the syntax
      have hsmall : c.toLower.toNat < 97 := by
        simp only [isSeparator, Bool.or_eq_true, beq_iff_eq] at hsyn
        rcases hsyn with (h | h) | h | h
        · rw [h]
          decide
        · rw [h]
          decide
        · rw [h]
          decide
        · rw [h]
          decide
      omega
    · exact hc.symm

/-- The lower case of a text. -/
def lowered (std : RustStd) (s : List Char) : List Char := s.flatMap std.toLowercase

theorem isSeparator_iff {c : Char} : isSeparator c = true ↔ c = '/' ∨ c = '\\' := by
  simp [isSeparator]

namespace LowercaseLaws

variable (h : LowercaseLaws std)

include h

theorem lowered_of_ascii {c : Char} (hc : c.toNat < 128) (hself : c.toLower = c)
    (s : List Char) : lowered std (c :: s) = c :: lowered std s := by
  rw [lowered, List.flatMap_cons, h.ascii c hc, hself]
  rfl

theorem lowered_lowered (s : List Char) : lowered std (lowered std s) = lowered std s := by
  have hfixed : ∀ t : List Char, (∀ d ∈ t, std.toLowercase d = [d]) → lowered std t = t := by
    intro t ht
    induction t with
    | nil => rfl
    | cons c t ih =>
        rw [lowered, List.flatMap_cons, ht c List.mem_cons_self]
        exact congrArg (c :: ·) (ih fun d hd => ht d (List.mem_cons_of_mem c hd))
  refine hfixed _ fun d hd => ?_
  obtain ⟨c, -, hc⟩ := List.mem_flatMap.mp hd
  exact h.lower c d hc

/-- Nothing in lower case is a `U`. -/
theorem not_mem_lowered (s : List Char) : 'U' ∉ lowered std s := by
  intro hU
  obtain ⟨c, -, hc⟩ := List.mem_flatMap.mp hU
  have hself := h.lower c 'U' hc
  rw [h.ascii 'U' (by decide)] at hself
  exact absurd hself (by decide)

/-- A character of the syntax of paths is in the lower case of a text that has it. -/
theorem mem_of_mem_lowered {s : List Char} {d : Char} (hd : d ∈ lowered std s)
    (hsyn : isSeparator d = true ∨ d = '.' ∨ d = '?') : d ∈ s := by
  obtain ⟨c, hc, hcd⟩ := List.mem_flatMap.mp hd
  rwa [← h.syntactic c d hcd hsyn]

theorem lowered_ne_nil {s : List Char} (hs : s ≠ []) : lowered std s ≠ [] := by
  obtain ⟨c, s, rfl⟩ := List.exists_cons_of_ne_nil hs
  rw [lowered, List.flatMap_cons]
  exact List.append_ne_nil_of_left_ne_nil (h.ne_nil c) _

/-- A text of `.` and `?` is the lower case of itself only. -/
theorem eq_of_lowered {s t : List Char} (ht : ∀ c ∈ t, c = '.' ∨ c = '?')
    (hs : lowered std s = t) : s = t := by
  induction s generalizing t with
  | nil => exact hs
  | cons c s ih =>
      obtain ⟨d, ds, hcd⟩ := List.exists_cons_of_ne_nil (h.ne_nil c)
      have hd : d ∈ std.toLowercase c := hcd ▸ List.mem_cons_self
      have hdt := ht d (hs ▸ List.mem_append_left _ hd)
      obtain rfl : c = d := h.syntactic c d hd (.inr hdt)
      have hcons : lowered std (c :: s) = c :: lowered std s := by
        rcases hdt with rfl | rfl
        · exact h.lowered_of_ascii (by decide) (by decide) s
        · exact h.lowered_of_ascii (by decide) (by decide) s
      rw [hcons] at hs
      subst hs
      rw [← ih (fun d hd => ht d (List.mem_cons_of_mem _ hd)) rfl]

end LowercaseLaws

/-! ## Segments -/

/-- What a segment does to the segments before it. -/
def segmentMove (seg : List Char) : StackMove (List Char) :=
  if seg = [] ∨ seg = ['.'] then .stay
  else if seg = ['.', '.'] then .pop
  else .push seg

theorem pushSegment_eq_apply (out : List (List Char)) (seg : List Char) :
    pushSegment out seg = (segmentMove seg).apply out := by
  unfold pushSegment segmentMove
  split_ifs
  · rfl
  · rfl
  · rfl

/-- The moves of a path. -/
def pathMoves (p : List Char) : List (StackMove (List Char)) :=
  (splitOn isSeparator p).map segmentMove

/-- The segments that are left. -/
def resolved (p : List Char) : List (List Char) := StackMove.run [] (pathMoves p)

/-- The `..` that find no segment of the path before them. -/
def surplus (p : List Char) : ℕ := StackMove.climbs 0 (pathMoves p)

/-- The separators at the front. -/
def leading (p : List Char) : ℕ := (p.takeWhile isSeparator).length

theorem foldl_pushSegment (p : List Char) :
    (splitOn isSeparator p).foldl pushSegment [] = resolved p := by
  rw [resolved, StackMove.run, pathMoves, List.foldl_map]
  congr 1
  funext out seg
  exact pushSegment_eq_apply out seg

/-- A separator parts the moves of what is before it from those of what is after it. -/
theorem pathMoves_append_cons (a b : List Char) {c : Char} (hc : isSeparator c = true) :
    pathMoves (a ++ c :: b) = pathMoves a ++ pathMoves b := by
  rw [pathMoves, splitOn_append_cons a b hc, List.map_append]
  rfl

/-- The text is a segment that is kept. -/
structure IsSegment (seg : List Char) : Prop where
  ne_nil : seg ≠ []
  no_separator : ∀ c ∈ seg, isSeparator c = false
  ne_dot : seg ≠ ['.']
  ne_dots : seg ≠ ['.', '.']

theorem IsSegment.segmentMove_eq {seg : List Char} (h : IsSegment seg) :
    segmentMove seg = .push seg := by
  unfold segmentMove
  rw [if_neg (not_or.mpr ⟨h.ne_nil, h.ne_dot⟩), if_neg h.ne_dots]

/-- A path of one segment. -/
theorem IsSegment.pathMoves_eq {seg : List Char} (h : IsSegment seg) :
    pathMoves seg = [.push seg] := by
  rw [pathMoves, splitOn_of_forall h.no_separator, List.map_singleton, h.segmentMove_eq]

theorem pathMoves_nil : pathMoves [] = [.stay] := rfl

/-- The pieces of a text have no separators. -/
theorem no_separator_of_mem_splitOn {p seg : List Char} (h : seg ∈ splitOn isSeparator p) :
    ∀ c ∈ seg, isSeparator c = false := by
  induction p generalizing seg with
  | nil =>
      obtain rfl : seg = [] := by simpa [splitOn] using h
      exact fun c hc => absurd hc List.not_mem_nil
  | cons d p ih =>
      rw [splitOn] at h
      split_ifs at h with hd
      · rcases List.mem_cons.mp h with rfl | h
        · exact fun c hc => absurd hc List.not_mem_nil
        · exact ih h
      · obtain ⟨piece, pieces, hsplit, -, -⟩ := splitOn_infix isSeparator p
        rw [hsplit] at h ih
        rcases List.mem_cons.mp h with rfl | h
        · intro c hc
          rcases List.mem_cons.mp hc with rfl | hc
          · exact Bool.eq_false_of_not_eq_true hd
          · exact ih List.mem_cons_self c hc
        · exact ih (List.mem_cons_of_mem _ h)

/-- What is left of a path are segments. -/
theorem isSegment_of_mem_resolved {p seg : List Char} (h : seg ∈ resolved p) : IsSegment seg := by
  have hrun : ∀ (segs : List (List Char)) (out : List (List Char)),
      (∀ s ∈ segs, ∀ c ∈ s, isSeparator c = false) → (∀ s ∈ out, IsSegment s) →
      ∀ s ∈ StackMove.run out (segs.map segmentMove), IsSegment s := by
    intro segs
    induction segs with
    | nil => exact fun out _ hout => hout
    | cons seg segs ih =>
        intro out hsegs hout
        refine ih _ (fun s hs => hsegs s (List.mem_cons_of_mem _ hs)) ?_
        unfold segmentMove
        split_ifs with hstay hpop
        · exact hout
        · exact fun s hs => hout s (List.dropLast_subset out hs)
        · intro s hs
          rcases List.mem_append.mp hs with hs | hs
          · exact hout s hs
          · obtain rfl := List.mem_singleton.mp hs
            rw [not_or] at hstay
            exact ⟨hstay.1, hsegs s List.mem_cons_self, hstay.2, hpop⟩
  exact hrun _ [] (fun s hs => no_separator_of_mem_splitOn hs)
    (fun s hs => absurd hs List.not_mem_nil) seg h

/-- Lower case leaves a segment a segment. -/
theorem IsSegment.lowered (h : LowercaseLaws std) {seg : List Char} (hseg : IsSegment seg) :
    IsSegment (lowered std seg) where
  ne_nil := h.lowered_ne_nil hseg.ne_nil
  no_separator c hc := by
    by_contra hsep
    have hsep : isSeparator c = true := Bool.eq_true_of_not_eq_false hsep
    have hmem := h.mem_of_mem_lowered hc (.inl hsep)
    rw [hseg.no_separator c hmem] at hsep
    exact Bool.false_ne_true hsep
  ne_dot hdot := hseg.ne_dot (h.eq_of_lowered (by simp) hdot)
  ne_dots hdots := hseg.ne_dots (h.eq_of_lowered (by simp) hdots)

/-! ## Written paths -/

/-- The text of segments after a number of separators. -/
def render (k : ℕ) (segs : List (List Char)) : List Char :=
  List.replicate k '\\' ++ List.intercalate ['\\'] segs

theorem pathMoves_replicate_append (k : ℕ) (p : List Char) :
    pathMoves (List.replicate k '\\' ++ p) = List.replicate k .stay ++ pathMoves p := by
  induction k with
  | zero => rfl
  | succ k ih =>
      rw [List.replicate_succ, List.cons_append, ← List.nil_append ('\\' :: _),
        pathMoves_append_cons [] _ rfl, ih, pathMoves_nil]
      rfl

theorem run_replicate_stay (out : List (List Char)) (k : ℕ)
    (moves : List (StackMove (List Char))) :
    StackMove.run out (List.replicate k .stay ++ moves) = StackMove.run out moves := by
  induction k with
  | zero => rfl
  | succ k ih => exact ih

theorem run_pathMoves_intercalate (out : List (List Char)) {segs : List (List Char)}
    (h : ∀ s ∈ segs, IsSegment s) :
    StackMove.run out (pathMoves (List.intercalate ['\\'] segs)) = out ++ segs := by
  induction segs generalizing out with
  | nil => simp [pathMoves_nil, StackMove.run, StackMove.apply]
  | cons s segs ih =>
      have hs := h s List.mem_cons_self
      cases segs with
      | nil =>
          rw [List.intercalate_singleton, hs.pathMoves_eq]
          rfl
      | cons t segs =>
          rw [List.intercalate_cons_cons, List.append_assoc, List.singleton_append,
            pathMoves_append_cons s _ rfl, hs.pathMoves_eq, StackMove.run_append,
            ih _ fun u hu => h u (List.mem_cons_of_mem s hu)]
          simp [StackMove.run, StackMove.apply]

/-- **Written segments** are read back. -/
theorem resolved_render (k : ℕ) {segs : List (List Char)} (h : ∀ s ∈ segs, IsSegment s) :
    resolved (render k segs) = segs := by
  rw [resolved, render, pathMoves_replicate_append, run_replicate_stay,
    run_pathMoves_intercalate [] h, List.nil_append]

theorem render_injective (k : ℕ) {segs segs' : List (List Char)}
    (h : ∀ s ∈ segs, IsSegment s) (h' : ∀ s ∈ segs', IsSegment s)
    (heq : render k segs = render k segs') : segs = segs' := by
  rw [← resolved_render k h, heq, resolved_render k h']

/-- Segments written without separators before them do not begin with one. -/
theorem leading_intercalate {segs : List (List Char)} (h : ∀ s ∈ segs, IsSegment s) :
    leading (List.intercalate ['\\'] segs) = 0 := by
  cases segs with
  | nil => rfl
  | cons s segs =>
      have hs := h s List.mem_cons_self
      obtain ⟨c, s, rfl⟩ := List.exists_cons_of_ne_nil hs.ne_nil
      have hc := hs.no_separator c List.mem_cons_self
      cases segs with
      | nil =>
          rw [List.intercalate_singleton, leading, List.takeWhile_cons_of_neg (by simp [hc])]
          rfl
      | cons t segs =>
          rw [List.intercalate_cons_cons, List.cons_append, List.cons_append, leading,
            List.takeWhile_cons_of_neg (by simp [hc])]
          rfl

theorem leading_replicate_append (k : ℕ) (p : List Char) :
    leading (List.replicate k '\\' ++ p) = k + leading p := by
  induction k with
  | zero => simp
  | succ k ih =>
      have hcons : leading ('\\' :: (List.replicate k '\\' ++ p)) =
          leading (List.replicate k '\\' ++ p) + 1 := by
        rw [leading, List.takeWhile_cons_of_pos rfl]
        rfl
      rw [List.replicate_succ, List.cons_append, hcons, ih]
      omega

/-- The separators that were written are counted. -/
theorem leading_render (k : ℕ) {segs : List (List Char)} (h : ∀ s ∈ segs, IsSegment s) :
    leading (render k segs) = k := by
  rw [render, leading_replicate_append, leading_intercalate h, Nat.add_zero]

/-- Paths written with different separators before them are different. -/
theorem render_ne_of_ne {k k' : ℕ} {segs segs' : List (List Char)} (hk : k ≠ k')
    (h : ∀ s ∈ segs, IsSegment s) (h' : ∀ s ∈ segs', IsSegment s) :
    render k segs ≠ render k' segs' := by
  intro heq
  apply hk
  rw [← leading_render k h, heq, leading_render k' h']

/-- A written path begins with `\\` and a segment of one character exactly if it was written so,
with another segment after that one. -/
theorem prefix_render_iff {x : Char} (hx : isSeparator x = false) {k : ℕ}
    {segs : List (List Char)} (h : ∀ s ∈ segs, IsSegment s) :
    ['\\', '\\', x, '\\'] <+: render k segs ↔ k = 2 ∧ ∃ t ts, segs = [x] :: t :: ts := by
  constructor
  · rintro ⟨rest, hrest⟩
    have hk : k = 2 := by
      rw [← leading_render k h, ← hrest]
      have htwo := leading_replicate_append 2 (x :: '\\' :: rest)
      rw [leading, leading, List.takeWhile_cons_of_neg (by simp [hx])] at htwo
      exact htwo
    subst hk
    have htext : x :: '\\' :: rest = List.intercalate ['\\'] segs :=
      (List.cons.inj (List.cons.inj hrest).2).2
    refine ⟨rfl, ?_⟩
    cases segs with
    | nil => cases htext
    | cons s segs =>
        have hs := h s List.mem_cons_self
        have hno : '\\' ∉ s := fun hmem => by
          have hsep := hs.no_separator _ hmem
          cases hsep
        cases segs with
        | nil =>
            rw [List.intercalate_singleton] at htext
            rw [← htext] at hno
            exact absurd (List.mem_cons_of_mem x List.mem_cons_self) hno
        | cons t ts =>
            rw [List.intercalate_cons_cons, List.append_assoc] at htext
            obtain ⟨c, s, rfl⟩ := List.exists_cons_of_ne_nil hs.ne_nil
            obtain ⟨rfl, hrest'⟩ := List.cons.inj htext
            cases s with
            | nil => exact ⟨t, ts, rfl⟩
            | cons d s =>
                obtain ⟨rfl, -⟩ := List.cons.inj hrest'
                exact absurd (List.mem_cons_of_mem x List.mem_cons_self) hno
  · rintro ⟨rfl, t, ts, rfl⟩
    exact ⟨List.intercalate ['\\'] (t :: ts), by rw [render, List.intercalate_cons_cons]; rfl⟩

/-! ## The identity -/

/-- The identity of a path in which no prefix is looked at. -/
def plainIdentity (std : RustStd) (p : List Char) : List Char :=
  render (min 2 (leading p)) ((resolved p).map (lowered std))

/-- `normalizePathIdentity` on characters. -/
def identity (std : RustStd) (p : List Char) : List Char :=
  (normalizePathIdentity std (String.ofList p)).toList

theorem normalizePathIdentity_eq (std : RustStd) (raw : String) :
    normalizePathIdentity std raw = String.ofList (identity std raw.toList) := by
  rw [identity, String.ofList_toList, String.ofList_toList]

theorem lowered_intercalate (h : LowercaseLaws std) (segs : List (List Char)) :
    lowered std (List.intercalate ['\\'] segs) =
      List.intercalate ['\\'] (segs.map (lowered std)) := by
  induction segs with
  | nil => rfl
  | cons s segs ih =>
      cases segs with
      | nil => rw [List.map_singleton, List.intercalate_singleton, List.intercalate_singleton]
      | cons t segs =>
          rw [List.intercalate_cons_cons, List.map_cons, List.map_cons,
            List.intercalate_cons_cons, ← List.map_cons, ← ih, lowered, List.flatMap_append,
            List.flatMap_append, List.flatMap_singleton, h.ascii '\\' (by decide)]
          rfl

theorem stripPrefix_append (pre : String) (rest : List Char) :
    stripPrefix pre (String.ofList (pre.toList ++ rest)) = some (String.ofList rest) := by
  have hpre : pre.toList.isPrefixOf (pre.toList ++ rest) = true :=
    List.isPrefixOf_iff_prefix.mpr (List.prefix_append _ _)
  simp [stripPrefix, hpre, ← String.length_toList]

theorem stripPrefix_of_not_prefix {pre : String} {p : List Char} (h : ¬ pre.toList <+: p) :
    stripPrefix pre (String.ofList p) = none := by
  have hpre : pre.toList.isPrefixOf p = false := by
    rw [← Bool.not_eq_true, List.isPrefixOf_iff_prefix]
    exact h
  simp [stripPrefix, hpre]

/-- The text that is made of a path once its prefix was looked at. -/
theorem plainIdentity_eq (h : LowercaseLaws std) (p : List Char) :
    List.replicate (if (p.takeWhile isSeparator).length ≥ 2 then 2
        else if (p.takeWhile isSeparator).length > 0 then 1 else 0) '\\' ++
      (List.intercalate ['\\'] ((splitOn isSeparator p).foldl pushSegment [])).flatMap
        std.toLowercase = plainIdentity std p := by
  have hcount : (if leading p ≥ 2 then 2 else if leading p > 0 then 1 else 0) =
      min 2 (leading p) := by
    split_ifs
    · omega
    · omega
    · omega
  rw [foldl_pushSegment, plainIdentity, render, ← lowered_intercalate h, ← hcount]
  rfl

/-- The prefix of a device. -/
def devicePrefix : List Char := ['\\', '\\', '.', '\\']

/-- The prefix of a path that is taken as it stands. -/
def verbatimPrefix : List Char := ['\\', '\\', '?', '\\']

/-- What follows it in a path to a share. -/
def uncPrefix : List Char := ['U', 'N', 'C', '\\']

theorem identity_of_device {p : List Char} (hp : devicePrefix <+: p) :
    identity std p = lowered std p := by
  obtain ⟨rest, rfl⟩ := hp
  have hdevice : isDeviceNamespace (String.ofList (devicePrefix ++ rest)) = true := by
    rw [isDeviceNamespace]
    exact congrArg Option.isSome (stripPrefix_append "\\\\.\\" rest)
  rw [identity, normalizePathIdentity, if_pos hdevice, String.toList_ofList, String.toList_ofList]
  rfl

theorem isDeviceNamespace_eq_false {p : List Char} (hp : ¬ devicePrefix <+: p) :
    isDeviceNamespace (String.ofList p) = false := by
  have hnone : stripPrefix "\\\\.\\" (String.ofList p) = none := stripPrefix_of_not_prefix hp
  rw [isDeviceNamespace, hnone]
  rfl

theorem not_devicePrefix_verbatim (rest : List Char) :
    ¬ devicePrefix <+: verbatimPrefix ++ rest := by
  rintro ⟨t, ht⟩
  simp [devicePrefix, verbatimPrefix] at ht

theorem identity_of_verbatim_unc (h : LowercaseLaws std) (rest : List Char) :
    identity std (verbatimPrefix ++ (uncPrefix ++ rest)) =
      plainIdentity std ('\\' :: '\\' :: rest) := by
  have hdevice := isDeviceNamespace_eq_false (not_devicePrefix_verbatim (uncPrefix ++ rest))
  have hunc : stripPrefix "\\\\?\\UNC\\"
      (String.ofList (verbatimPrefix ++ (uncPrefix ++ rest))) =
      some (String.ofList rest) := stripPrefix_append "\\\\?\\UNC\\" rest
  have htext : ("\\\\" ++ String.ofList rest).toList = '\\' :: '\\' :: rest := by simp
  rw [identity, normalizePathIdentity, hdevice, if_neg Bool.false_ne_true, hunc]
  simp only [htext, String.toList_ofList]
  exact plainIdentity_eq h _

theorem identity_of_verbatim (h : LowercaseLaws std) {rest : List Char}
    (hrest : ¬ uncPrefix <+: rest) :
    identity std (verbatimPrefix ++ rest) = plainIdentity std rest := by
  have hdevice := isDeviceNamespace_eq_false (not_devicePrefix_verbatim rest)
  have hunc : stripPrefix "\\\\?\\UNC\\" (String.ofList (verbatimPrefix ++ rest)) = none := by
    refine stripPrefix_of_not_prefix fun hpre => hrest ?_
    exact (List.prefix_append_right_inj verbatimPrefix).mp hpre
  have hverbatim : stripPrefix "\\\\?\\" (String.ofList (verbatimPrefix ++ rest)) =
      some (String.ofList rest) := stripPrefix_append "\\\\?\\" rest
  rw [identity, normalizePathIdentity, hdevice, if_neg Bool.false_ne_true, hunc, hverbatim]
  simp only [Option.getD_some, String.toList_ofList]
  exact plainIdentity_eq h _

theorem identity_of_plain (h : LowercaseLaws std) {p : List Char} (hdev : ¬ devicePrefix <+: p)
    (hver : ¬ verbatimPrefix <+: p) : identity std p = plainIdentity std p := by
  have hunc : stripPrefix "\\\\?\\UNC\\" (String.ofList p) = none := by
    refine stripPrefix_of_not_prefix fun hpre => hver ?_
    exact (List.prefix_append verbatimPrefix uncPrefix).trans hpre
  have hverbatim : stripPrefix "\\\\?\\" (String.ofList p) = none :=
    stripPrefix_of_not_prefix hver
  rw [identity, normalizePathIdentity, isDeviceNamespace_eq_false hdev, if_neg Bool.false_ne_true,
    hunc, hverbatim]
  simp only [Option.getD_none, String.toList_ofList]
  exact plainIdentity_eq h _

end AuraLauncher.Domain
