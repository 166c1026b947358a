import AuraLauncher.Index.Coordinator
import AuraLauncher.Index.Frame

/-!
# What becomes of a hint

A hint is settled when a batch with its paths is committed, or when a rescan that covers them is.
Until then each of its paths should wait in the queue, in the coalescer, or under a dirty root. The
stages of the loop that empty one of these places do not always fill another.

* `Waiting` — the places in which a path waits.
* `settles`, `hintMachine` — the loop beside the paths of the hints that are not settled yet.
* `Coordinator.Wf`, `wf_step` — what is empty at which stage.
* `KeepsHints`, `kept_hintStep_iff` — what a step needs to lose no path.
* `visits_kept_iff` — the runs that lose none.
* `overflow_loses_hint` — the overflow of one root, and a hint of another.
-/

namespace AuraLauncher.Index

open AuraLauncher.Lib AuraLauncher.Domain Coordinator

variable {π : Type} (plat : Platform π) (cfg : CoordinatorConfig π)

/-- The path waits in the queue, in the coalescer, or under a dirty root, drained or not. -/
def Waiting (c : Coordinator) (id : String) : Prop :=
  (∃ e ∈ c.queue.events, id ∈ changeIdentities plat.std e) ∨ id ∈ c.coalescer.order ∨
    c.dirty.Covers id ∨ ∃ r ∈ c.phase.roots, Contains r id

instance (c : Coordinator) (id : String) : Decidable (Waiting plat c id) :=
  inferInstanceAs (Decidable (_ ∨ _ ∨ _ ∨ _))

/-- The paths that a message names: those of a change below a configured root. -/
def namedPaths : Received → List String
  | .message (.change hint) =>
      if (containingRoot plat cfg.roots hint.path).isSome then changeIdentities plat.std hint
      else []
  | _ => []

theorem mem_changeIdentities {hint : FileChange} {id : String}
    (h : id ∈ namedPaths plat cfg (.message (.change hint))) :
    id ∈ changeIdentities plat.std hint := by
  have heq : namedPaths plat cfg (.message (.change hint)) =
      if (containingRoot plat cfg.roots hint.path).isSome then changeIdentities plat.std hint
      else [] := rfl
  rw [heq] at h
  split_ifs at h
  · exact h
  · exact absurd h List.not_mem_nil

/-- Whether a step commits the path to the index: by a rescan of a path that contains it, or by the
batch. -/
def settles (o : Outside π) (c : Coordinator) (id : String) : Bool :=
  match c.phase with
  | .recover _ (root :: _) =>
      (rescued plat o c.index root).any fun t => contains (rootIdentity plat t) id
  | .sweep =>
      (sweep plat o c).2.any fun root => contains (rootIdentity plat (plat.ofText root)) id
  | .batch => c.batchDue cfg o && o.batchError.isNone && c.coalescer.order.contains id
  | _ => false

/-- A step of the loop beside the paths that are not settled yet. -/
def hintStep (o : Outside π) (p : Coordinator × List String) : Coordinator × List String :=
  let named := if p.1.phase = .receive then namedPaths plat cfg o.received else []
  ((step plat cfg o p.1).1, (p.2 ++ named).filter fun id => !settles plat cfg o p.1 id)

/-- The loop and the hints it has been given: every step is possible in every state. -/
def hintMachine : Machine (Coordinator × List String) (Outside π) where
  step p o := some (hintStep plat cfg o p)

/-- No path is lost. -/
def Kept (p : Coordinator × List String) : Prop := ∀ id ∈ p.2, Waiting plat p.1 id

instance (p : Coordinator × List String) : Decidable (Kept plat p) :=
  inferInstanceAs (Decidable (∀ id ∈ p.2, _))

/-! ## What is empty at which stage -/

/-- The queue is emptied before a batch and filled by a message only; the dirty roots are drained in
the pass in which they were found. -/
def Coordinator.Wf (c : Coordinator) : Prop :=
  match c.phase with
  | .receive => c.queue.events = [] ∧ c.dirty = .empty
  | .drain starting => starting = true → c.queue.events = []
  | .recover starting _ => c.dirty = .empty ∧ (starting = true → c.queue.events = [])
  | .sweep => c.dirty = .empty
  | .bridge => c.dirty = .empty
  | .batch => c.queue.events = [] ∧ c.dirty = .empty
  | .stopped => True

/-- The containers of the hints are left alone. -/
structure SameHints (c c' : Coordinator) : Prop where
  queue : c'.queue = c.queue
  coalescer : c'.coalescer = c.coalescer
  dirty : c'.dirty = c.dirty

theorem SameHints.refl (c : Coordinator) : SameHints c c := ⟨rfl, rfl, rfl⟩

theorem SameHints.trans {c c' c'' : Coordinator} (h : SameHints c c') (h' : SameHints c' c'') :
    SameHints c c'' :=
  ⟨h'.queue.trans h.queue, h'.coalescer.trans h.coalescer, h'.dirty.trans h.dirty⟩

section frame

variable (o : Outside π)

theorem sameHints_recoverRoot (c : Coordinator) (root : String) :
    SameHints c (recoverRoot plat o c root) := by
  unfold recoverRoot
  cases recoveryTarget plat o c.index root with
  | none => exact ⟨rfl, rfl, rfl⟩
  | some t =>
      cases o.rescanError root with
      | none => exact ⟨rfl, rfl, rfl⟩
      | some e => exact ⟨rfl, rfl, rfl⟩

theorem sameHints_sweepEntry (s : Coordinator × List String) (entry : Rewatch) :
    SameHints s.1 (sweepEntry plat o s entry).1 := by
  obtain ⟨entry', failure, -, h⟩ | h := sweepEntry_cases plat o s entry
  · rw [h]
    exact ⟨rfl, rfl, rfl⟩
  · rw [h]
    exact ⟨rfl, rfl, rfl⟩

theorem sameHints_sweep (c : Coordinator) : SameHints c (sweep plat o c).1 := by
  unfold sweep
  refine List.foldlRecOn (motive := fun s : Coordinator × List String => SameHints c s.1) _ _
    ⟨rfl, rfl, rfl⟩ fun s hs entry _ => ?_
  exact hs.trans (sameHints_sweepEntry plat o s entry)

/-- A batch takes out what waits in the coalescer, if it is due, and nothing else. -/
theorem batch_eq (c : Coordinator) :
    (batch plat cfg o c).queue = c.queue ∧ (batch plat cfg o c).dirty = c.dirty ∧
      (batch plat cfg o c).coalescer = if c.batchDue cfg o then .empty else c.coalescer := by
  unfold batch
  split_ifs
  · cases o.batchError with
    | none => exact ⟨rfl, rfl, rfl⟩
    | some e => exact ⟨rfl, rfl, rfl⟩
  all_goals exact ⟨rfl, rfl, rfl⟩

/-- **What is empty stays as the stages have it.** -/
theorem wf_step {c : Coordinator} (h : c.Wf) : (step plat cfg o c).1.Wf := by
  unfold Coordinator.Wf at h
  cases hphase : c.phase with
  | receive =>
      rw [step_receive hphase]
      unfold receive
      cases o.received with
      | message msg => exact fun hstarting => absurd hstarting (by decide)
      | timeout => exact fun hstarting => absurd hstarting (by decide)
      | disconnected => trivial
  | drain starting =>
      rw [hphase] at h
      rw [step_drain hphase]
      exact ⟨rfl, h⟩
  | recover starting roots =>
      rw [hphase] at h
      obtain ⟨hdirty, hqueue⟩ := h
      cases roots with
      | nil =>
          rw [step_recover_nil hphase]
          cases starting with
          | false => exact hdirty
          | true => exact ⟨hqueue rfl, hdirty⟩
      | cons root roots =>
          have hsame := sameHints_recoverRoot plat o c root
          rw [step_recover_cons hphase]
          refine ⟨hsame.dirty.trans hdirty, fun hstarting => ?_⟩
          have hevents := congrArg BoundedQueue.events hsame.queue
          exact hevents.trans (hqueue hstarting)
  | sweep =>
      rw [hphase] at h
      rw [step_sweep hphase]
      exact (sameHints_sweep plat o c).dirty.trans h
  | bridge =>
      rw [hphase] at h
      rw [step_bridge hphase]
      exact ⟨rfl, h⟩
  | batch =>
      rw [hphase] at h
      obtain ⟨hqueue, hdirty, -⟩ := batch_eq plat cfg o c
      rw [step_batch hphase]
      exact ⟨(congrArg BoundedQueue.events hqueue).trans h.1, hdirty.trans h.2⟩
  | stopped =>
      rw [step_stopped hphase]
      unfold Coordinator.Wf
      rw [hphase]
      trivial

end frame

/-! ## What a step needs -/

/-- What a step needs to lose no path of `p.2`: a root that overflows contains them all; a dirty
root is scanned, without failure, from a path that contains those which wait nowhere else; a due
batch does not fail. -/
def KeepsHints (p : Coordinator × List String) (o : Outside π) : Prop :=
  match p.1.phase with
  | .receive => ∀ root, o.received = .message (.overflow root) →
      ∀ id ∈ p.2, (p.1.dirty.insert plat.std root).Covers id
  | .recover starting (root :: roots) => ∀ id ∈ p.2,
      Waiting plat { p.1 with phase := .recover starting roots } id ∨
        ∃ t, rescued plat o p.1.index root = some t ∧ Contains (rootIdentity plat t) id
  | .batch => p.1.batchDue cfg o = true → o.batchError ≠ none → p.2 = []
  | _ => True

section keeps

variable {o : Outside π} {c : Coordinator} {paths : List String}

theorem kept_iff : Kept plat (c, paths) ↔ ∀ id ∈ paths, Waiting plat c id := Iff.rfl

/-- What waits depends on the three containers and on the roots that a pass has drained. -/
theorem Waiting.congr {c' : Coordinator} (h : SameHints c c')
    (hroots : c'.phase.roots = c.phase.roots) {id : String} :
    Waiting plat c' id ↔ Waiting plat c id := by
  unfold Waiting
  rw [h.queue, h.coalescer, h.dirty, hroots]

/-- A change of stage alone, with the same drained roots, changes nothing for the hints. -/
theorem waiting_withPhase {phase : Phase} (h : phase.roots = c.phase.roots) {id : String} :
    Waiting plat { c with phase } id ↔ Waiting plat c id := by
  unfold Waiting
  rw [← h]

/-- With the queue and the dirty roots empty, what waits is in the coalescer. -/
theorem waiting_iff_of_empty (hqueue : c.queue.events = []) (hdirty : c.dirty = .empty)
    (hroots : c.phase.roots = []) {id : String} :
    Waiting plat c id ↔ id ∈ c.coalescer.order := by
  simp [Waiting, hqueue, hdirty, hroots]

/-- A message on an empty queue: only an overflow takes a path out of its place, and a hint is
stored. -/
theorem kept_receive_iff (hqueue : c.queue.events = []) (hdirty : c.dirty = .empty)
    (hphase : c.phase = .receive) (hkept : Kept plat (c, paths)) (msg : CoordinatorMsg) :
    Kept plat ({ handle plat cfg o c msg with phase := .drain false },
        paths ++ namedPaths plat cfg (.message msg)) ↔
      ∀ root, msg = .overflow root → ∀ id ∈ paths, (c.dirty.insert plat.std root).Covers id := by
  have hwaits : ∀ id ∈ paths, id ∈ c.coalescer.order := fun id hid =>
    (waiting_iff_of_empty plat hqueue hdirty (by rw [hphase]; rfl)).mp (hkept id hid)
  cases msg with
  | change hint =>
      obtain ⟨hstored, hevents⟩ := BoundedQueue.push_of_empty hqueue hint
      refine iff_of_true (fun id hid => ?_) fun root h => absurd h (by simp)
      have hhandle : handle plat cfg o c (.change hint) =
          { c with queue := (c.queue.push hint).1 } := if_pos hstored
      rw [hhandle]
      rcases List.mem_append.mp hid with hid | hid
      · exact .inr (.inl (hwaits id hid))
      · refine .inl ⟨hint, ?_, ?_⟩
        · rw [show ((c.queue.push hint).1).events = [hint] from hevents]
          exact List.mem_singleton.mpr rfl
        · exact mem_changeIdentities plat cfg hid
  | overflow root =>
      have hnamed : namedPaths plat cfg (.message (.overflow root)) = [] := rfl
      rw [hnamed, List.append_nil, kept_iff]
      simp only [handle, Waiting, BoundedQueue.new, Coalescer.empty, Phase.roots, List.not_mem_nil,
        false_and, exists_false, false_or, or_false, CoordinatorMsg.overflow.injEq]
      exact ⟨fun h root heq => heq ▸ h, fun h => h root rfl⟩
  | watcherExited root =>
      refine iff_of_true (fun id hid => ?_) fun root h => absurd h (by simp)
      have hid : id ∈ paths := by simpa [namedPaths] using hid
      exact .inr (.inl (hwaits id hid))
  | stop =>
      refine iff_of_true (fun id hid => ?_) fun root h => absurd h (by simp)
      have hid : id ∈ paths := by simpa [namedPaths] using hid
      exact .inr (.inl (hwaits id hid))

/-- The hint step of a stage other than the first, by its parts. -/
theorem hintStep_eq_of_ne (hphase : c.phase ≠ .receive) : hintStep plat cfg o (c, paths) =
    ((step plat cfg o c).1, paths.filter fun id => !settles plat cfg o c id) := by
  simp [hintStep, hphase]

theorem kept_filter_iff {p : String → Bool} : Kept plat (c, paths.filter fun id => !p id) ↔
    ∀ id ∈ paths, Waiting plat c id ∨ p id = true := by
  simp only [Kept, List.mem_filter, Bool.not_eq_true', and_imp]
  refine forall₂_congr fun id _ => ⟨fun h => ?_, fun h hnot => ?_⟩
  · cases hp : p id with
    | true => exact .inr rfl
    | false => exact .inl (h hp)
  · exact h.resolve_right (by simp [hnot])

/-- A stage that settles no path and takes none out of its place. -/
theorem kept_of_waiting (hphase : c.phase ≠ .receive) (hkept : Kept plat (c, paths))
    (hwaiting : ∀ id, Waiting plat c id → Waiting plat (step plat cfg o c).1 id) :
    Kept plat (hintStep plat cfg o (c, paths)) := by
  rw [hintStep_eq_of_ne plat cfg hphase, kept_filter_iff]
  exact fun id hid => .inl (hwaiting id (hkept id hid))

/-- The first stage: only an overflow can lose a path. -/
theorem kept_receiveStep_iff (hphase : c.phase = .receive) (hqueue : c.queue.events = [])
    (hdirty : c.dirty = .empty) (hkept : Kept plat (c, paths)) :
    Kept plat (hintStep plat cfg o (c, paths)) ↔ KeepsHints plat cfg (c, paths) o := by
  have hkeeps : KeepsHints plat cfg (c, paths) o ↔ ∀ root, o.received = .message (.overflow root) →
      ∀ id ∈ paths, (c.dirty.insert plat.std root).Covers id := by
    unfold KeepsHints
    simp only [hphase]
  have hstep : hintStep plat cfg o (c, paths) =
      (receive plat cfg o c, paths ++ namedPaths plat cfg o.received) := by
    simp [hintStep, hphase, settles, step_receive hphase]
  -- Without a message the containers stay as they are, whatever the next stage.
  have hstays : ∀ phase : Phase, phase.roots = [] → namedPaths plat cfg o.received = [] →
      receive plat cfg o c = { c with phase } →
      Kept plat (receive plat cfg o c, paths ++ namedPaths plat cfg o.received) := by
    intro phase hroots hnamed hreceive id hid
    rw [hnamed, List.append_nil] at hid
    rw [hreceive]
    exact (waiting_withPhase plat (by rw [hroots, hphase]; rfl)).mpr (hkept id hid)
  rw [hkeeps, hstep]
  cases hreceived : o.received with
  | message msg =>
      have hreceive : receive plat cfg o c =
          { handle plat cfg o c msg with phase := .drain false } := by
        simp only [receive, hreceived]
      rw [hreceive]
      simp only [Received.message.injEq]
      exact kept_receive_iff plat cfg hqueue hdirty hphase hkept msg
  | timeout =>
      rw [← hreceived]
      refine iff_of_true (hstays (.drain false) rfl (by rw [hreceived]; rfl) ?_)
        fun root h => absurd h (by simp [hreceived])
      simp only [receive, hreceived]
  | disconnected =>
      rw [← hreceived]
      refine iff_of_true (hstays .stopped rfl (by rw [hreceived]; rfl) ?_)
        fun root h => absurd h (by simp [hreceived])
      simp only [receive, hreceived]

/-- The recovery of a root: what waits nowhere else must be scanned. -/
theorem kept_recoverStep_iff {starting : Bool} {root : String} {roots : List String}
    (hphase : c.phase = .recover starting (root :: roots)) :
    Kept plat (hintStep plat cfg o (c, paths)) ↔ KeepsHints plat cfg (c, paths) o := by
  have hsame := sameHints_recoverRoot plat o c root
  have hrest : SameHints { c with phase := .recover starting roots }
      { recoverRoot plat o c root with phase := .recover starting roots } :=
    ⟨hsame.queue, hsame.coalescer, hsame.dirty⟩
  have hkeeps : KeepsHints plat cfg (c, paths) o ↔ ∀ id ∈ paths,
      Waiting plat { c with phase := .recover starting roots } id ∨
        ∃ t, rescued plat o c.index root = some t ∧ Contains (rootIdentity plat t) id := by
    unfold KeepsHints
    simp only [hphase]
  have hsettles : ∀ id, settles plat cfg o c id = true ↔
      ∃ t, rescued plat o c.index root = some t ∧ Contains (rootIdentity plat t) id := by
    intro id
    unfold settles
    simp only [hphase, Option.any_eq_true, contains_iff]
  rw [hintStep_eq_of_ne plat cfg (by simp [hphase]), kept_filter_iff, step_recover_cons hphase,
    hkeeps]
  refine forall₂_congr fun id _ => ?_
  rw [hsettles, Waiting.congr plat hrest rfl]

/-- The last stage: a batch that fails loses all that waits. -/
theorem kept_batchStep_iff (hphase : c.phase = .batch) (hqueue : c.queue.events = [])
    (hdirty : c.dirty = .empty) (hkept : Kept plat (c, paths)) :
    Kept plat (hintStep plat cfg o (c, paths)) ↔ KeepsHints plat cfg (c, paths) o := by
  obtain ⟨hqueue', hdirty', hcoalescer⟩ := batch_eq plat cfg o c
  have hwaits : ∀ id ∈ paths, id ∈ c.coalescer.order := fun id hid =>
    (waiting_iff_of_empty plat hqueue hdirty (by rw [hphase]; rfl)).mp (hkept id hid)
  have hafter : ∀ id, Waiting plat { batch plat cfg o c with phase := .receive } id ↔
      id ∈ (batch plat cfg o c).coalescer.order := fun id =>
    waiting_iff_of_empty plat (c := { batch plat cfg o c with phase := .receive })
      ((congrArg BoundedQueue.events hqueue').trans hqueue) (hdirty'.trans hdirty) rfl
  have hkeeps : KeepsHints plat cfg (c, paths) o ↔
      (c.batchDue cfg o = true → o.batchError ≠ none → paths = []) := by
    unfold KeepsHints
    simp only [hphase]
  have hsettles : ∀ id, settles plat cfg o c id = true ↔
      (c.batchDue cfg o = true ∧ o.batchError.isNone = true) ∧ id ∈ c.coalescer.order := by
    intro id
    unfold settles
    simp only [hphase, Bool.and_eq_true, List.contains_iff_mem]
  rw [hintStep_eq_of_ne plat cfg (by simp [hphase]), kept_filter_iff, step_batch hphase, hkeeps]
  refine (forall₂_congr fun id _ => or_congr (hafter id) (hsettles id)).trans ?_
  rw [hcoalescer]
  by_cases hdue : c.batchDue cfg o = true
  · rw [if_pos hdue]
    cases herror : o.batchError with
    | none =>
        refine iff_of_true (fun id hid => .inr ⟨⟨hdue, rfl⟩, hwaits id hid⟩) ?_
        exact fun _ h => absurd rfl h
    | some e =>
        have hnone : ∀ id, ¬ (id ∈ Coalescer.empty.order ∨
            (c.batchDue cfg o = true ∧ (some e).isNone = true) ∧ id ∈ c.coalescer.order) := by
          simp [Coalescer.empty]
        constructor
        · exact fun h _ _ => List.eq_nil_iff_forall_not_mem.mpr fun id hid => hnone id (h id hid)
        · exact fun h id hid => absurd hid (h hdue (by simp) ▸ List.not_mem_nil)
  · rw [if_neg hdue]
    exact iff_of_true (fun id hid => .inl (hwaits id hid)) fun h => absurd h hdue

/-- **What a step needs** to lose no path. -/
theorem kept_hintStep_iff (hwf : c.Wf) (hkept : Kept plat (c, paths)) :
    Kept plat (hintStep plat cfg o (c, paths)) ↔ KeepsHints plat cfg (c, paths) o := by
  unfold Coordinator.Wf at hwf
  cases hphase : c.phase with
  | receive =>
      rw [hphase] at hwf
      exact kept_receiveStep_iff plat cfg hphase hwf.1 hwf.2 hkept
  | drain starting =>
      refine iff_of_true (kept_of_waiting plat cfg (by simp [hphase]) hkept fun id h => ?_)
        (by simp [KeepsHints, hphase])
      rw [step_drain hphase]
      rcases h with h | h | h | ⟨r, hr, -⟩
      · exact .inl h
      · exact .inr (.inl h)
      · exact .inr (.inr (.inr h))
      · rw [hphase] at hr
        exact absurd hr List.not_mem_nil
  | recover starting roots =>
      cases roots with
      | nil =>
          refine iff_of_true (kept_of_waiting plat cfg (by simp [hphase]) hkept fun id h => ?_)
            (by simp [KeepsHints, hphase])
          rw [step_recover_nil hphase]
          refine (waiting_withPhase plat ?_).mpr h
          cases starting <;> rw [hphase] <;> rfl
      | cons root roots => exact kept_recoverStep_iff plat cfg hphase
  | sweep =>
      refine iff_of_true (kept_of_waiting plat cfg (by simp [hphase]) hkept fun id h => ?_)
        (by simp [KeepsHints, hphase])
      rw [step_sweep hphase]
      have hsame := sameHints_sweep plat o c
      have hswept : SameHints c { (sweep plat o c).1 with phase := .bridge } :=
        ⟨hsame.queue, hsame.coalescer, hsame.dirty⟩
      exact (Waiting.congr plat hswept (by rw [hphase]; rfl)).mpr h
  | bridge =>
      refine iff_of_true (kept_of_waiting plat cfg (by simp [hphase]) hkept fun id h => ?_)
        (by simp [KeepsHints, hphase])
      rw [step_bridge hphase]
      rcases h with h | h | h | ⟨r, hr, -⟩
      · exact .inr (.inl (Coalescer.mem_foldl_push.mpr (.inr h)))
      · exact .inr (.inl (Coalescer.mem_foldl_push.mpr (.inl h)))
      · exact .inr (.inr (.inl h))
      · rw [hphase] at hr
        exact absurd hr List.not_mem_nil
  | batch =>
      rw [hphase] at hwf
      exact kept_batchStep_iff plat cfg hphase hwf.1 hwf.2 hkept
  | stopped =>
      refine iff_of_true (kept_of_waiting plat cfg (by simp [hphase]) hkept fun id h => ?_)
        (by simp [KeepsHints, hphase])
      rw [step_stopped hphase]
      exact h

end keeps

/-! ## Runs -/

theorem wf_start (o : Outside π) (index : IndexDb) : (start plat cfg o index).Wf := by
  obtain ⟨hqueue, hphase, -⟩ := start_eq plat cfg o index
  unfold Coordinator.Wf
  rw [hphase]
  exact fun _ => congrArg BoundedQueue.events hqueue

/-- **The runs that lose no hint.** From the start, no path is lost in any state of a run when, and
only when, every step of the run has what it needs. -/
theorem visits_kept_iff (o₀ : Outside π) (index : IndexDb) (os : List (Outside π)) :
    (∀ t, (hintMachine plat cfg).Visits (start plat cfg o₀ index, []) os t → Kept plat t) ↔
      (hintMachine plat cfg).Along (KeepsHints plat cfg) (start plat cfg o₀ index, []) os := by
  have hstart : (start plat cfg o₀ index).Wf ∧ Kept plat (start plat cfg o₀ index, []) :=
    ⟨wf_start plat cfg o₀ index, fun id hid => absurd hid List.not_mem_nil⟩
  have hwf : ∀ t, (hintMachine plat cfg).Visits (start plat cfg o₀ index, []) os t → t.1.Wf := by
    rintro t ⟨bs, -, hrun⟩
    refine (hintMachine plat cfg).run_inv_of_step (I := fun p => p.1.Wf) ?_ hstart.1 hrun
    intro p o p' hp hstep
    obtain rfl : hintStep plat cfg o p = p' := Option.some.inj hstep
    exact wf_step plat cfg o hp
  rw [← (hintMachine plat cfg).forall_visits_iff_along (I := fun p => p.1.Wf ∧ Kept plat p)
    (fun p o _ => ⟨hintStep plat cfg o p, rfl⟩) ?_ hstart]
  · exact ⟨fun h t ht => ⟨hwf t ht, h t ht⟩, fun h t ht => (h t ht).2⟩
  · intro p o p' hp hstep
    obtain rfl : hintStep plat cfg o p = p' := Option.some.inj hstep
    have hwf' : (hintStep plat cfg o p).1.Wf := wf_step plat cfg o hp.1
    rw [and_iff_right hwf']
    exact kept_hintStep_iff plat cfg hp.1 hp.2

/-! ## An overflow of another root -/

/-- Two roots, `c:\a` and `c:\b`. -/
def twoRoots : CoordinatorConfig String := ⟨4096, 256, ["c:\\a", "c:\\b"]⟩

/-- A file of `c:\b` changes, and waits to be verified; then `c:\a` overflows. -/
def overflowRun : List (Outside String) :=
  [.idle, .idle, .idle, .idle,
    { (Outside.idle : Outside String) with
      received := .message (.change ⟨.created, "c:\\b\\new.txt", none⟩) },
    .idle, .idle, .idle, .idle, .idle,
    { (Outside.idle : Outside String) with received := .message (.overflow "c:\\a") }]

/-- **The hint of `c:\b` is gone**: it is neither queued nor coalesced, and only `c:\a` is dirty. -/
theorem overflow_loses_hint :
    ¬ ∀ (cfg : CoordinatorConfig String) (o₀ : Outside String) (index : IndexDb)
        (os : List (Outside String)) (t : Coordinator × List String),
      (hintMachine textPlatform cfg).Visits (start textPlatform cfg o₀ index, []) os t →
        Kept textPlatform t := by
  intro h
  have hrun : (hintMachine textPlatform twoRoots).run
      (start textPlatform twoRoots { (Outside.idle : Outside String) with
        pathExists := fun _ => true } .empty, []) overflowRun =
      some (overflowRun.foldl (fun p o => hintStep textPlatform twoRoots o p)
        (start textPlatform twoRoots { (Outside.idle : Outside String) with
          pathExists := fun _ => true } .empty, [])) :=
    (hintMachine textPlatform twoRoots).run_eq_foldl (fun _ _ => rfl) _ _
  exact absurd (h _ _ _ _ _ (.of_run hrun)) (by decide +kernel)

end AuraLauncher.Index
