import AuraLauncher.Runtime.Process

/-!
# Lines that nobody has read

The lines of a child (`Runtime.Process`) that wait to be read, counted by a predicate of the
protocol: `isAnswer l` for a line that ends the wait of a request. A line beyond the cap ends it
too, whatever it says; a failed reading of the output ends it as well, but nothing comes after it.

* `unread` — how many answers wait to be read; `answersIn` — how many arrive.
* `Tidy` — nothing comes after a failed reading of the output.
* `unread_observeAll`, `readLine_spec` — what arriving and reading do to the count.
-/

namespace AuraLauncher.Runtime

universe u

variable {ℓ : Type u} (isAnswer : ℓ → Bool)

/-- The event is an answer, or a line of which nobody can tell. -/
def ChildEvent.answers : ChildEvent ℓ → Bool
  | .line l => isAnswer l
  | .overlong => true
  | _ => false

/-- What was received is an answer, or stands for a line of which nobody can tell. -/
def itemIsAnswer : Except RuntimeError ℓ → Bool
  | .ok l => isAnswer l
  | .error .transportBroken => false
  | .error _ => true

/-- The number of answers among the events. -/
def answersIn (events : List (ChildEvent ℓ)) : ℕ := events.countP (ChildEvent.answers isAnswer)

namespace ProcessSession

/-- The number of answers that wait to be read. -/
def unread (p : ProcessSession ℓ) : ℕ := p.stdoutLines.countP (itemIsAnswer isAnswer)

/-- A failed reading is the last thing that is received. -/
def Tidy (p : ProcessSession ℓ) : Prop :=
  ∀ before after, p.stdoutLines = before ++ .error .transportBroken :: after →
    after = [] ∧ p.stdoutClosed = true

variable {p : ProcessSession ℓ}

theorem tidy_spawned (n : ℕ) : (spawned n : ProcessSession ℓ).Tidy := fun before after h => by
  simp [spawned] at h

@[simp]
theorem unread_spawned (n : ℕ) : (spawned n : ProcessSession ℓ).unread isAnswer = 0 := rfl

/-- An open output has had no failed reading. -/
theorem Tidy.not_mem (h : p.Tidy) (hopen : p.stdoutClosed = false) :
    (.error .transportBroken : Except RuntimeError ℓ) ∉ p.stdoutLines := by
  intro hmem
  obtain ⟨before, after, hsplit⟩ := List.append_of_mem hmem
  rw [(h before after hsplit).2] at hopen
  cases hopen

theorem Tidy.receive (h : p.Tidy) (item : Except RuntimeError ℓ)
    (hitem : item ≠ .error .transportBroken) : (p.receive item).Tidy := by
  unfold ProcessSession.receive
  split_ifs with hclosed
  · exact h
  · intro before after hsplit
    exfalso
    have hmem : (.error .transportBroken : Except RuntimeError ℓ) ∈ p.stdoutLines ++ [item] := by
      rw [show p.stdoutLines ++ [item] = before ++ .error .transportBroken :: after from hsplit]
      simp
    rcases List.mem_append.mp hmem with hmem | hmem
    · exact h.not_mem (by simpa using hclosed) hmem
    · exact hitem (List.mem_singleton.mp hmem).symm

theorem unread_receive (item : Except RuntimeError ℓ) : (p.receive item).unread isAnswer ≤
    p.unread isAnswer + if itemIsAnswer isAnswer item then 1 else 0 := by
  unfold ProcessSession.receive unread
  split_ifs <;> simp_all [List.countP_append]

theorem Tidy.observe (h : p.Tidy) (e : ChildEvent ℓ) : (p.observe e).Tidy := by
  cases e with
  | line l => exact h.receive _ (by simp)
  | overlong => exact h.receive _ (by simp)
  | readError =>
      intro before after hsplit
      refine ⟨?_, rfl⟩
      have hlines : (p.receive (.error .transportBroken)).stdoutLines =
          before ++ .error .transportBroken :: after := hsplit
      unfold ProcessSession.receive at hlines
      split_ifs at hlines with hclosed
      · exact (h before after hlines).1
      · by_contra hafter
        obtain ⟨init, last, rfl⟩ := (List.eq_nil_or_concat after).resolve_left hafter
        have hmem : (.error .transportBroken : Except RuntimeError ℓ) ∈ p.stdoutLines := by
          have hinit : p.stdoutLines = before ++ .error .transportBroken :: init := by
            have hassoc : p.stdoutLines ++ [.error .transportBroken] =
                (before ++ .error .transportBroken :: init) ++ [last] := by
              have hlines' : p.stdoutLines ++ [.error .transportBroken] =
                  before ++ .error .transportBroken :: init.concat last := hlines
              rw [hlines', List.concat_eq_append, List.append_assoc, List.cons_append]
            exact (List.append_inj' hassoc rfl).1
          rw [hinit]
          simp
        exact h.not_mem (by simpa using hclosed) hmem
  | closeStdout => exact fun before after hsplit => ⟨(h before after hsplit).1, rfl⟩
  | closeStdin => exact h
  | exit code => exact h

theorem unread_observe (e : ChildEvent ℓ) : (p.observe e).unread isAnswer ≤
    p.unread isAnswer + if e.answers isAnswer then 1 else 0 := by
  cases e with
  | line l => exact unread_receive isAnswer (.ok l)
  | overlong =>
      exact unread_receive isAnswer (.error (.outputLimitExceeded "stdout" p.maxStdoutLineBytes))
  | readError => exact unread_receive isAnswer (.error .transportBroken)
  | closeStdout => exact Nat.le_add_right _ _
  | closeStdin => exact Nat.le_add_right _ _
  | exit code => exact Nat.le_add_right _ _

/-- The answers that wait after some events waited before or arrived. -/
theorem unread_observeAll (h : p.Tidy) (events : List (ChildEvent ℓ)) :
    (p.observeAll events).Tidy ∧
      (p.observeAll events).unread isAnswer ≤ p.unread isAnswer + answersIn isAnswer events := by
  unfold ProcessSession.observeAll answersIn
  induction events generalizing p with
  | nil => exact ⟨h, Nat.le_refl _⟩
  | cons e events ih =>
      obtain ⟨htidy, hle⟩ := ih (h.observe e)
      have hobserve := unread_observe isAnswer (p := p) e
      refine ⟨htidy, ?_⟩
      rw [List.countP_cons]
      rw [List.foldl_cons]
      omega

/-- **What reading a line leaves unread**, when one answer at most waits or arrives: the answer is
read, or nothing ends the wait but the clock or the end of the output. -/
theorem readLine_spec (h : p.Tidy) {w : Wait ℓ}
    (hone : p.unread isAnswer + answersIn isAnswer w.arrivals ≤ 1) (timeout : String) :
    match p.readLine timeout w with
    | (.ok l, p') => p'.Tidy ∧ p'.unread isAnswer + (if isAnswer l then 1 else 0) ≤
        p.unread isAnswer + answersIn isAnswer w.arrivals
    | (.error e, p') => (∃ d, e = .ioTimeout d) ∨ p'.Tidy ∧ p'.unread isAnswer = 0 := by
  obtain ⟨htidy, hle⟩ := unread_observeAll isAnswer h w.arrivals
  unfold readLine
  dsimp only
  generalize p.observeAll w.arrivals = q at htidy hle
  cases hlate : w.late with
  | true => exact .inl ⟨timeout, rfl⟩
  | false =>
    cases hlines : q.stdoutLines with
    | nil =>
        cases hclosed : q.stdoutClosed with
        | true =>
            right
            refine ⟨?_, rfl⟩
            intro before after hsplit
            have hnil : [] = before ++ .error .transportBroken :: after := hsplit
            simp at hnil
        | false => exact .inl ⟨timeout, rfl⟩
    | cons item rest =>
        have hrest : ({ q with stdoutLines := rest } : ProcessSession ℓ).Tidy := by
          intro before after hsplit
          exact htidy (item :: before) after (hlines.trans (congrArg (item :: ·) hsplit))
        have hcount : rest.countP (itemIsAnswer isAnswer) +
            (if itemIsAnswer isAnswer item then 1 else 0) = q.unread isAnswer := by
          rw [unread, hlines, List.countP_cons]
        cases item with
        | ok l =>
            refine ⟨hrest, ?_⟩
            change rest.countP (itemIsAnswer isAnswer) + (if isAnswer l then 1 else 0) ≤ _
            exact hcount ▸ hle
        | error e =>
            right
            refine ⟨hrest, ?_⟩
            change rest.countP (itemIsAnswer isAnswer) = 0
            cases e with
            | transportBroken =>
                obtain ⟨rfl, -⟩ := htidy [] rest hlines
                rfl
            | _ =>
                simp only [itemIsAnswer, if_true] at hcount
                omega

end ProcessSession

end AuraLauncher.Runtime
