import Mathlib.Data.List.Basic
import Mathlib.Tactic.Common

/-!
# Passes over a text

A pass goes through a text from its front. Of what it reads at a place it steps over one character,
leaves several as they are, or replaces several by a value. Several passes one after the other read
the values of the earlier ones too. The text with its replaced parts is a list of pieces, whose
`outs` is the text that the next pass reads and whose `raws` is the text of the beginning.

* `scanLoop read` — a pass.
* `Pass read` — a pass over pieces all of whose replacements lie in the text of the beginning.
* `Pass.scan` — what the pass makes of the text.
* `Pass.raws_eq`, `Pass.hasPart`, `Pass.region_after` — the text of the beginning stays, a replaced
  part was one before or was read as one, and text that is still there was not read to be replaced.
-/

namespace AuraLauncher.Lib

universe u

variable {α : Type u}

/-! ## Passes -/

/-- What is done at a place. -/
inductive Verdict (α : Type u)
  | step
  | leave (n : ℕ)
  | replace (n : ℕ) (value : List α)

/-- A pass, with a step for each place. -/
def scanLoop (read : List α → Verdict α) : ℕ → List α → List α
  | 0, s => s
  | _ + 1, [] => []
  | n + 1, c :: s =>
      match read (c :: s) with
      | .step => c :: scanLoop read n s
      | .leave k => (c :: s).take k ++ scanLoop read n ((c :: s).drop k)
      | .replace k v => v ++ scanLoop read n ((c :: s).drop k)

section scanLoop

variable {read : List α → Verdict α} {c : α} {s : List α} (n : ℕ)

variable (read) in
@[simp] theorem scanLoop_nil : scanLoop read n [] = [] := by
  cases n <;> rfl

theorem scanLoop_of_step (h : read (c :: s) = .step) :
    scanLoop read (n + 1) (c :: s) = c :: scanLoop read n s := by
  simp only [scanLoop, h]

theorem scanLoop_of_leave {k : ℕ} (h : read (c :: s) = .leave k) :
    scanLoop read (n + 1) (c :: s) =
      (c :: s).take k ++ scanLoop read n ((c :: s).drop k) := by
  simp only [scanLoop, h]

theorem scanLoop_of_replace {k : ℕ} {v : List α} (h : read (c :: s) = .replace k v) :
    scanLoop read (n + 1) (c :: s) = v ++ scanLoop read n ((c :: s).drop k) := by
  simp only [scanLoop, h]

end scanLoop

/-! ## Pieces -/

/-- A character of the text, or a part of it that was replaced by a value. -/
inductive Piece (α : Type u)
  | text (c : α)
  | part (raw value : List α)
deriving DecidableEq

/-- What is read of a piece. -/
def Piece.out : Piece α → List α
  | .text c => [c]
  | .part _ value => value

/-- What a piece was in the beginning. -/
def Piece.raw : Piece α → List α
  | .text c => [c]
  | .part raw _ => raw

/-- The text as it is read. -/
def outs (ps : List (Piece α)) : List α := ps.flatMap Piece.out

/-- The text of the beginning. -/
def raws (ps : List (Piece α)) : List α := ps.flatMap Piece.raw

/-- A text in which nothing was replaced. -/
def texts (s : List α) : List (Piece α) := s.map .text

section pieces

variable (c : α) (raw value s t : List α) (ps qs : List (Piece α))

@[simp] theorem outs_nil : outs ([] : List (Piece α)) = [] := rfl

@[simp] theorem outs_text : outs (.text c :: ps) = c :: outs ps := rfl

@[simp] theorem outs_part : outs (.part raw value :: ps) = value ++ outs ps := rfl

@[simp] theorem outs_append : outs (ps ++ qs) = outs ps ++ outs qs := List.flatMap_append

@[simp] theorem raws_text : raws (.text c :: ps) = c :: raws ps := rfl

@[simp] theorem raws_part : raws (.part raw value :: ps) = raw ++ raws ps := rfl

@[simp] theorem raws_append : raws (ps ++ qs) = raws ps ++ raws qs := List.flatMap_append

@[simp] theorem texts_nil : texts ([] : List α) = [] := rfl

@[simp] theorem texts_cons : texts (c :: s) = .text c :: texts s := rfl

@[simp] theorem texts_append : texts (s ++ t) = texts s ++ texts t := List.map_append

@[simp] theorem outs_texts : outs (texts s) = s := by
  induction s with
  | nil => rfl
  | cons c s ih => rw [texts_cons, outs_text, ih]

@[simp] theorem raws_texts : raws (texts s) = s := by
  induction s with
  | nil => rfl
  | cons c s ih => rw [texts_cons, raws_text, ih]

end pieces

/-! ## Passes over pieces -/

/-- A pass over pieces, with the number of characters that it still has to leave and with what it
still has to read of a value. What it replaces is text of the beginning. -/
inductive Pass (read : List α → Verdict α) :
    ℕ → List α → List (Piece α) → List (Piece α) → Prop
  | nil : Pass read 0 [] [] []
  | enter {k raw value ps qs} (rest : Pass read k value ps qs) :
      Pass read k [] (.part raw value :: ps) (.part raw value :: qs)
  | skipValue {k c value ps qs} (rest : Pass read k value ps qs) :
      Pass read (k + 1) (c :: value) ps qs
  | skipText {k c ps qs} (rest : Pass read k [] ps qs) :
      Pass read (k + 1) [] (.text c :: ps) (.text c :: qs)
  | stepValue {c value ps qs} (step : read (c :: (value ++ outs ps)) = .step)
      (rest : Pass read 0 value ps qs) : Pass read 0 (c :: value) ps qs
  | stepText {c ps qs} (step : read (c :: outs ps) = .step) (rest : Pass read 0 [] ps qs) :
      Pass read 0 [] (.text c :: ps) (.text c :: qs)
  | leave {k value ps qs} (leave : read (value ++ outs ps) = .leave (k + 1))
      (rest : Pass read (k + 1) value ps qs) : Pass read 0 value ps qs
  | replace {raw value ps qs} (replace : read (raw ++ outs ps) = .replace raw.length value)
      (nonempty : raw ≠ []) (rest : Pass read 0 [] ps qs) :
      Pass read 0 [] (texts raw ++ ps) (.part raw value :: qs)

section pass

variable {read : List α → Verdict α} {k : ℕ} {value : List α} {ps qs : List (Piece α)}

/-- **A pass makes the text of the pieces from the text of the pieces.** -/
theorem Pass.scan (h : Pass read k value ps qs) : ∀ n,
    ((value ++ outs ps).drop k).length ≤ n →
      (value ++ outs ps).take k ++ scanLoop read n ((value ++ outs ps).drop k) =
        value ++ outs qs := by
  induction h with
  | nil => simp
  | enter rest ih => simpa using ih
  | skipValue rest ih =>
      intro n hn
      simpa using ih n (by simpa using hn)
  | skipText rest ih =>
      intro n hn
      simpa using ih n (by simpa using hn)
  | stepValue step rest ih =>
      rintro (_ | n) hn
      · simp at hn
      · have hrest := ih n (by simp at hn ⊢; omega)
        simp only [List.take_zero, List.drop_zero, List.nil_append, List.cons_append] at hrest ⊢
        rw [scanLoop_of_step n step, hrest]
  | stepText step rest ih =>
      rintro (_ | n) hn
      · simp at hn
      · have hrest := ih n (by simp at hn ⊢; omega)
        simp only [List.take_zero, List.drop_zero, List.nil_append, outs_text] at hrest ⊢
        rw [scanLoop_of_step n step, hrest]
  | @leave k value ps qs leave rest ih =>
      intro n hn
      rw [List.take_zero, List.drop_zero, List.nil_append]
      cases hs : value ++ outs ps with
      | nil =>
          have hrest := ih n (by simp [hs])
          rw [hs] at hrest
          simpa using hrest
      | cons c s =>
          cases n with
          | zero => simp [hs] at hn
          | succ n =>
              have hrest := ih n (by simp [hs] at hn ⊢; omega)
              rw [hs] at leave hrest
              rw [scanLoop_of_leave n leave, hrest]
  | @replace raw value ps qs replace nonempty rest ih =>
      intro n hn
      obtain ⟨c, raw, rfl⟩ := List.exists_cons_of_ne_nil nonempty
      cases n with
      | zero => simp at hn
      | succ n =>
          have hrest := ih n (by simp at hn ⊢; omega)
          rw [List.take_zero, List.drop_zero, List.nil_append, List.nil_append] at hrest
          rw [List.cons_append] at replace
          simp only [List.take_zero, List.drop_zero, List.nil_append, texts_cons, List.cons_append,
            outs_text, outs_append, outs_texts, scanLoop_of_replace n replace, outs_part]
          simp [hrest]

theorem Pass.scan_outs (h : Pass read 0 [] ps qs) :
    scanLoop read (outs ps).length (outs ps) = outs qs := h.scan (outs ps).length (Nat.le_refl _)

/-- The text of the beginning stays. -/
theorem Pass.raws_eq (h : Pass read k value ps qs) : raws qs = raws ps := by
  induction h with
  | nil => rfl
  | enter rest ih => rw [raws_part, raws_part, ih]
  | skipValue rest ih => exact ih
  | skipText rest ih => rw [raws_text, raws_text, ih]
  | stepValue step rest ih => exact ih
  | stepText step rest ih => rw [raws_text, raws_text, ih]
  | leave leave rest ih => exact ih
  | replace replace nonempty rest ih => rw [raws_part, raws_append, raws_texts, ih]

/-- The part is one of the pieces, or text of them that is read to be replaced; `after` is the text
of the beginning behind it. -/
def HasPart (read : List α → Verdict α) (ps : List (Piece α)) (raw v after : List α) : Prop :=
  (∃ ps₁ ps₂, ps = ps₁ ++ .part raw v :: ps₂ ∧ raws ps₂ = after) ∨
    ∃ ps₁ ps₂, ps = ps₁ ++ (texts raw ++ ps₂) ∧ raws ps₂ = after ∧
      read (raw ++ outs ps₂) = .replace raw.length v

theorem HasPart.append_left {raw v after : List α} (before : List (Piece α))
    (h : HasPart read ps raw v after) : HasPart read (before ++ ps) raw v after := by
  rcases h with ⟨ps₁, ps₂, rfl, hraws⟩ | ⟨ps₁, ps₂, rfl, hraws, hread⟩
  · exact .inl ⟨before ++ ps₁, ps₂, (List.append_assoc ..).symm, hraws⟩
  · exact .inr ⟨before ++ ps₁, ps₂, (List.append_assoc ..).symm, hraws, hread⟩

/-- A replaced part was one before, or it was read as one. -/
theorem Pass.hasPart (h : Pass read k value ps qs) : ∀ {qs₁ qs₂ : List (Piece α)}
    {raw v : List α}, qs = qs₁ ++ .part raw v :: qs₂ → HasPart read ps raw v (raws qs₂) := by
  induction h with
  | nil => simp
  | @enter k raw value ps qs rest ih =>
      rintro (_ | ⟨p, qs₁⟩) qs₂ raw' v heq
      · obtain ⟨hpart, hrest⟩ := List.cons.inj heq
        exact .inl ⟨[], ps, by rw [hpart]; rfl, hrest ▸ rest.raws_eq.symm⟩
      · exact (ih (List.cons.inj heq).2).append_left [_]
  | skipValue rest ih => exact ih
  | skipText rest ih =>
      rintro (_ | ⟨p, qs₁⟩) qs₂ raw' v heq
      · cases heq
      · exact (ih (List.cons.inj heq).2).append_left [_]
  | stepValue step rest ih => exact ih
  | stepText step rest ih =>
      rintro (_ | ⟨p, qs₁⟩) qs₂ raw' v heq
      · cases heq
      · exact (ih (List.cons.inj heq).2).append_left [_]
  | leave leave rest ih => exact ih
  | @replace raw value ps qs replace nonempty rest ih =>
      rintro (_ | ⟨p, qs₁⟩) qs₂ raw' v heq
      · obtain ⟨hpart, hrest⟩ := List.cons.inj heq
        obtain ⟨rfl, rfl⟩ := Piece.part.inj hpart
        exact .inr ⟨[], ps, rfl, hrest ▸ rest.raws_eq.symm, replace⟩
      · exact (ih (List.cons.inj heq).2).append_left (texts raw)

/-- Text that is still there in front was there. -/
theorem Pass.exists_of_texts (h : Pass read k value ps qs) : value = [] →
    ∀ {mid : List α} {qs₂ : List (Piece α)}, qs = texts mid ++ qs₂ →
      ∃ ps₂, ps = texts mid ++ ps₂ ∧ raws ps₂ = raws qs₂ := by
  induction h with
  | nil =>
      rintro - mid qs₂ heq
      obtain ⟨hmid, rfl⟩ := List.append_eq_nil_iff.mp heq.symm
      exact ⟨[], by rw [hmid]; rfl, rfl⟩
  | @enter k raw value ps qs rest ih =>
      rintro - (_ | ⟨c, mid⟩) qs₂ heq
      · exact ⟨_, rfl, (Pass.enter rest).raws_eq.symm.trans (congrArg raws heq)⟩
      · cases heq
  | skipValue rest ih => intro hvalue; cases hvalue
  | @skipText k c ps qs rest ih =>
      rintro - (_ | ⟨c', mid⟩) qs₂ heq
      · exact ⟨_, rfl, (Pass.skipText rest).raws_eq.symm.trans (congrArg raws heq)⟩
      · obtain ⟨hc, heq⟩ := List.cons.inj heq
        obtain ⟨ps₂, rfl, hraws⟩ := ih rfl heq
        exact ⟨ps₂, by rw [hc]; rfl, hraws⟩
  | stepValue step rest ih => intro hvalue; cases hvalue
  | @stepText c ps qs step rest ih =>
      rintro - (_ | ⟨c', mid⟩) qs₂ heq
      · exact ⟨_, rfl, (Pass.stepText step rest).raws_eq.symm.trans (congrArg raws heq)⟩
      · obtain ⟨hc, heq⟩ := List.cons.inj heq
        obtain ⟨ps₂, rfl, hraws⟩ := ih rfl heq
        exact ⟨ps₂, by rw [hc]; rfl, hraws⟩
  | leave leave rest ih => exact ih
  | @replace raw value ps qs replace nonempty rest ih =>
      rintro - (_ | ⟨c, mid⟩) qs₂ heq
      · exact ⟨_, rfl,
          (Pass.replace replace nonempty rest).raws_eq.symm.trans (congrArg raws heq)⟩
      · cases heq

/-- The text was not read to be replaced: at its place, or at one before it that a pass left with
it. -/
def Left (read : List α → Verdict α) (s : List α) : Prop :=
  read s = .step ∨ ∃ x n, x.length < n ∧ read (x ++ s) = .leave n

/-- Text behind `ps₁` and before `ps₂` was not read to be replaced, and what a pass left before it
was left in `qs₁` too: the pieces `w`, from within the first of which on it was read. -/
def LeftAfter (read : List α → Verdict α) (ps₁ ps₂ qs₁ : List (Piece α)) (t : List α) : Prop :=
  read (t ++ outs ps₂) = .step ∨ ∃ ps₀ qs₀ w x n, ps₁ = ps₀ ++ w ∧ qs₁ = qs₀ ++ w ∧ x <:+ outs w ∧
    x.length < n ∧ read (x ++ (t ++ outs ps₂)) = .leave n

theorem LeftAfter.left {ps₁ ps₂ qs₁ : List (Piece α)} {t : List α}
    (h : LeftAfter read ps₁ ps₂ qs₁ t) : Left read (t ++ outs ps₂) := by
  rcases h with hstep | ⟨ps₀, qs₀, w, x, n, -, -, -, hn, hread⟩
  · exact .inl hstep
  · exact .inr ⟨x, n, hn, hread⟩

/-- What precedes the pieces is passed over. -/
theorem LeftAfter.append_left {ps₁ ps₂ qs₁ : List (Piece α)} {t : List α}
    (h : LeftAfter read ps₁ ps₂ qs₁ t) (before before' : List (Piece α)) :
    LeftAfter read (before ++ ps₁) ps₂ (before' ++ qs₁) t := by
  rcases h with hstep | ⟨ps₀, qs₀, w, x, n, rfl, rfl, hx, hn, hread⟩
  · exact .inl hstep
  · exact .inr ⟨before ++ ps₀, before' ++ qs₀, w, x, n, (List.append_assoc ..).symm,
      (List.append_assoc ..).symm, hx, hn, hread⟩

/-- Text that is still there was there, and was not read to be replaced. The pieces `left` and the
characters `x` and `value` at their end are those that were left last. -/
theorem Pass.region_aux (h : Pass read k value ps qs) : ∀ (left : List (Piece α)) (x : List α),
    x ++ value <:+ outs left →
    (k ≠ 0 → read (x ++ (value ++ outs ps)) = .leave (x.length + k)) →
      ∀ {qs₁ qs₂ : List (Piece α)} {c : α} {mid : List α}, qs = qs₁ ++ (texts (c :: mid) ++ qs₂) →
        ∃ ps₁ ps₂, ps = ps₁ ++ (texts (c :: mid) ++ ps₂) ∧ raws ps₂ = raws qs₂ ∧
          LeftAfter read (left ++ ps₁) ps₂ (left ++ qs₁) (c :: mid) := by
  induction h with
  | nil => simp
  | @enter k raw value ps qs rest ih =>
      rintro left x hx hread (_ | ⟨p, qs₁⟩) qs₂ c mid heq
      · cases heq
      · obtain ⟨rfl, hrest⟩ := List.cons.inj heq
        have hvalue : x ++ value <:+ outs (left ++ [.part raw value]) := by
          obtain ⟨t, ht⟩ := hx
          exact ⟨t, by simp [← ht]⟩
        obtain ⟨ps₁, ps₂, rfl, hraws, hleft⟩ := ih (left ++ [_]) x hvalue hread hrest
        rw [← List.append_cons, ← List.append_cons] at hleft
        exact ⟨.part raw value :: ps₁, ps₂, rfl, hraws, hleft⟩
  | @skipValue k c value ps qs rest ih =>
      intro left x hx hread
      refine ih left (x ++ [c]) (by rwa [← List.append_cons]) fun _ => ?_
      rw [← List.append_cons, List.length_append, List.length_singleton, Nat.add_assoc,
        Nat.add_comm 1 k]
      exact hread (Nat.succ_ne_zero k)
  | @skipText k c ps qs rest ih =>
      intro left x hx hread qs₁ qs₂ c' mid heq
      have hleave := hread (Nat.succ_ne_zero k)
      rw [List.append_nil] at hx
      rw [List.nil_append, outs_text] at hleave
      cases qs₁ with
      | nil =>
          obtain ⟨hc, hrest⟩ := List.cons.inj heq
          obtain ⟨ps₂, rfl, hraws⟩ := rest.exists_of_texts rfl hrest
          obtain rfl := Piece.text.inj hc
          rw [outs_append, outs_texts] at hleave
          exact ⟨[], ps₂, rfl, hraws, .inr ⟨[], [], left, x, x.length + (k + 1),
            List.append_nil _, List.append_nil _, hx, Nat.lt_add_of_pos_right (Nat.succ_pos k),
            hleave⟩⟩
      | cons p qs₁ =>
          obtain ⟨rfl, hrest⟩ := List.cons.inj heq
          have htext : x ++ [c] ++ [] <:+ outs (left ++ [.text c]) := by
            obtain ⟨t, ht⟩ := hx
            exact ⟨t, by simp [← ht]⟩
          obtain ⟨ps₁, ps₂, rfl, hraws, hleft⟩ := ih (left ++ [_]) (x ++ [c]) htext (fun _ => by
            rw [List.nil_append, ← List.append_cons, List.length_append, List.length_singleton,
              Nat.add_assoc, Nat.add_comm 1 k]
            exact hleave) hrest
          rw [← List.append_cons, ← List.append_cons] at hleft
          exact ⟨.text c :: ps₁, ps₂, rfl, hraws, hleft⟩
  | @stepValue c value ps qs step rest ih =>
      intro left x hx _
      refine ih left [] ?_ fun h => absurd rfl h
      exact ((List.suffix_cons c value).trans (List.suffix_append x _)).trans hx
  | @stepText c ps qs step rest ih =>
      rintro left x - - (_ | ⟨p, qs₁⟩) qs₂ c' mid heq
      · obtain ⟨hc, hrest⟩ := List.cons.inj heq
        obtain ⟨ps₂, rfl, hraws⟩ := rest.exists_of_texts rfl hrest
        obtain rfl := Piece.text.inj hc
        rw [outs_append, outs_texts] at step
        exact ⟨[], ps₂, rfl, hraws, .inl step⟩
      · obtain ⟨rfl, hrest⟩ := List.cons.inj heq
        obtain ⟨ps₁, ps₂, rfl, hraws, hleft⟩ :=
          ih [] [] List.nil_suffix (fun h => absurd rfl h) hrest
        have hbefore := hleft.append_left (left ++ [.text c]) (left ++ [.text c])
        rw [← List.append_cons, ← List.append_cons] at hbefore
        exact ⟨.text c :: ps₁, ps₂, rfl, hraws, hbefore⟩
  | @leave k value ps qs leave rest ih =>
      intro left x hx _
      refine ih left [] ((List.suffix_append x value).trans hx) fun _ => ?_
      rw [List.nil_append, List.length_nil, Nat.zero_add]
      exact leave
  | @replace raw value ps qs replace nonempty rest ih =>
      rintro left x - - (_ | ⟨p, qs₁⟩) qs₂ c mid heq
      · cases heq
      · obtain ⟨rfl, hrest⟩ := List.cons.inj heq
        obtain ⟨ps₁, ps₂, rfl, hraws, hleft⟩ :=
          ih [] [] List.nil_suffix (fun h => absurd rfl h) hrest
        have hbefore := hleft.append_left (left ++ texts raw) (left ++ [.part raw value])
        rw [← List.append_cons, List.append_assoc] at hbefore
        exact ⟨texts raw ++ ps₁, ps₂, (List.append_assoc ..).symm, hraws, hbefore⟩

/-- **Text that is still there** was there, and was not read to be replaced. -/
theorem Pass.region_after (h : Pass read 0 [] ps qs) {qs₁ qs₂ : List (Piece α)} {c : α}
    {mid : List α} (heq : qs = qs₁ ++ (texts (c :: mid) ++ qs₂)) :
    ∃ ps₁ ps₂, ps = ps₁ ++ (texts (c :: mid) ++ ps₂) ∧ raws ps₂ = raws qs₂ ∧
      LeftAfter read ps₁ ps₂ qs₁ (c :: mid) :=
  h.region_aux [] [] List.nil_suffix (fun h => absurd rfl h) heq

theorem Pass.region (h : Pass read 0 [] ps qs) {qs₁ qs₂ : List (Piece α)} {c : α} {mid : List α}
    (heq : qs = qs₁ ++ (texts (c :: mid) ++ qs₂)) :
    ∃ ps₁ ps₂, ps = ps₁ ++ (texts (c :: mid) ++ ps₂) ∧ raws ps₂ = raws qs₂ ∧
      Left read (c :: mid ++ outs ps₂) := by
  obtain ⟨ps₁, ps₂, hps, hraws, hleft⟩ := h.region_after heq
  exact ⟨ps₁, ps₂, hps, hraws, hleft.left⟩

/-- Where nothing was replaced yet, text that is still there was not read to be replaced, and what
a pass leaves before it is text too. -/
theorem Pass.region_texts {s : List α} (h : Pass read 0 [] (texts s) qs) {qs₁ qs₂ : List (Piece α)}
    {c : α} {mid : List α} (heq : qs = qs₁ ++ (texts (c :: mid) ++ qs₂)) :
    ∃ s₂, read (c :: mid ++ s₂) = .step ∨ ∃ x n, x.length < n ∧
      read (x ++ (c :: mid ++ s₂)) = .leave n ∧ ∃ qs₀, qs₁ = qs₀ ++ texts x := by
  obtain ⟨ps₁, ps₂, hps, -, hleft⟩ := h.region_after heq
  rcases hleft with hstep | ⟨ps₀, qs₀, w, x, n, rfl, rfl, hx, hn, hread⟩
  · exact ⟨outs ps₂, .inl hstep⟩
  · -- the pieces that were left are text
    obtain ⟨s₁, s₂, rfl, hs₁, -⟩ := List.map_eq_append_iff.mp hps
    obtain ⟨s₀, t, rfl, -, rfl⟩ := List.map_eq_append_iff.mp hs₁
    have hout : outs (t.map Piece.text) = t := outs_texts t
    rw [hout] at hx
    obtain ⟨u, rfl⟩ := hx
    exact ⟨outs ps₂, .inr ⟨x, n, hn, hread, qs₀ ++ texts u, by
      rw [List.map_append, ← List.append_assoc]
      rfl⟩⟩

end pass

end AuraLauncher.Lib
