import AuraLauncher.Index.Coordinator
import AuraLauncher.Index.Frame

/-!
# What becomes of a root that goes away

Beside the loop run the watchers, one thread for each root that existed when they were started. A
root without a watcher should be scheduled, so that the sweep starts its watcher when it is back.
Exits and the patrol schedule a root; the start and the recovery only mark it unavailable.

* `Watcher`, `watcherMachine` — the loop beside the watchers that run.
* `Scheduled`, `sweep_roots` — a scheduled root stays so until the sweep starts its watcher.
* `Due`, `sweep_started` — the roots whose watchers the sweep starts.
* `Retried`, `retried_watcherStep_iff` — every configured root is watched or scheduled; what a step
  needs for that.
* `visits_retried_iff` — the runs in which it always is.
* `retried_of_started` — where an identity, as a path, is its own identity, only the start matters.
* `missingRoot_not_retried` — a root that is missing at the start.
-/

namespace AuraLauncher.Index

open AuraLauncher.Lib AuraLauncher.Domain Coordinator

variable {π : Type} (plat : Platform π) (cfg : CoordinatorConfig π)

/-- A watcher that runs: the root that it reports, and the identity that it was started for. -/
structure Watcher where
  root : String
  identity : String
  deriving DecidableEq

/-- The watchers that are started before the coordinator. Source:
`launcher-indexer/src/coordinator.rs`, `spawn`. -/
def spawnWatchers (o : Outside π) : List Watcher :=
  (cfg.roots.filter fun r => o.pathExists r).map fun r => ⟨plat.lossy r, rootIdentity plat r⟩

/-- The watchers left when a message was received: one that exits is the sender of its message. -/
def afterMessage (ws : List Watcher) : Received → List Watcher
  | .message (.watcherExited root) => ws.eraseP fun w => w.root == root
  | _ => ws

/-- A step of the loop beside the watchers that run. -/
def watcherStep (o : Outside π) (p : Coordinator × List Watcher) : Coordinator × List Watcher :=
  let left := if p.1.phase = .receive then afterMessage p.2 o.received else p.2
  let stepped := step plat cfg o p.1
  (stepped.1, left ++ stepped.2.map fun key => ⟨plat.lossy (plat.ofText key), key⟩)

/-- The loop and the watchers: every step is possible in every state. -/
def watcherMachine : Machine (Coordinator × List Watcher) (Outside π) where
  step p o := some (watcherStep plat cfg o p)

/-- The identity is on the list of roots to be watched again. -/
def Scheduled (m : Maintenance) (id : String) : Prop := ∃ e ∈ m.rewatch, e.root = id

/-- A watcher for the identity runs. -/
def Watched (ws : List Watcher) (id : String) : Prop := ∃ w ∈ ws, w.identity = id

instance (m : Maintenance) (id : String) : Decidable (Scheduled m id) :=
  inferInstanceAs (Decidable (∃ e ∈ m.rewatch, e.root = id))

instance (ws : List Watcher) (id : String) : Decidable (Watched ws id) :=
  inferInstanceAs (Decidable (∃ w ∈ ws, w.identity = id))

/-- Every configured root is watched, or scheduled to be. -/
def Retried (p : Coordinator × List Watcher) : Prop :=
  ∀ r ∈ cfg.roots, Watched p.2 (rootIdentity plat r) ∨ Scheduled p.1.maint (rootIdentity plat r)

instance (p : Coordinator × List Watcher) : Decidable (Retried plat cfg p) :=
  inferInstanceAs (Decidable (∀ r ∈ cfg.roots, _))

/-! ## Scheduled roots -/

section scheduled

variable (o : Outside π) {m : Maintenance} {id : String}

theorem scheduled_keep {entry : Rewatch} :
    Scheduled (m.keep entry) id ↔ Scheduled m id ∨ entry.root = id := by
  simp [Scheduled, Maintenance.keep, or_and_right, exists_or]

theorem scheduled_scheduleRewatch {root : String} :
    Scheduled (m.scheduleRewatch plat o root) id ↔
      Scheduled m id ∨ normalizePathIdentity plat.std root = id := by
  unfold Maintenance.scheduleRewatch
  dsimp only
  split_ifs with h
  · obtain ⟨e, he, heq⟩ := List.any_eq_true.mp h
    rw [beq_iff_eq] at heq
    constructor
    · exact .inl
    · rintro (hid | hid)
      · exact hid
      · exact ⟨e, he, heq.trans hid⟩
  · simp [Scheduled, Maintenance.markUnavailable, or_and_right, exists_or]

/-- The patrol only adds to the schedule. -/
theorem scheduled_patrol (h : Scheduled m id) : Scheduled (m.patrol plat o) id := by
  unfold Maintenance.patrol
  split_ifs
  · refine List.foldlRecOn (motive := fun m => Scheduled m id) _ _ h fun m hm root _ => ?_
    unfold Maintenance.patrolRoot
    split_ifs
    · exact hm
    · exact (scheduled_scheduleRewatch plat o).mpr (.inl hm)
  · exact h

/-- The sweep of an entry puts its root back on the schedule, or starts a watcher for it. -/
theorem sweepEntry_roots (s : Coordinator × List String) (entry : Rewatch) :
    Scheduled (sweepEntry plat o s entry).1.maint id ∨ id ∈ (sweepEntry plat o s entry).2 ↔
      (Scheduled s.1.maint id ∨ id ∈ s.2) ∨ entry.root = id := by
  obtain ⟨entry', failure, hroot, heq⟩ | heq := sweepEntry_cases plat o s entry
  · rw [heq, scheduled_keep, hroot, or_right_comm]
    exact Iff.rfl
  · rw [heq, List.mem_append, List.mem_singleton, ← or_assoc, @eq_comm _ id]
    exact Iff.rfl

/-- **A scheduled root stays so** until the sweep starts its watcher: what is scheduled after the
patrol is scheduled after the sweep, or started by it. -/
theorem sweep_roots {c : Coordinator} :
    Scheduled (sweep plat o c).1.maint id ∨ id ∈ (sweep plat o c).2 ↔
      Scheduled (c.maint.patrol plat o) id := by
  refine (foldl_adds_iff (fun s : Coordinator × List String => Scheduled s.1.maint id ∨ id ∈ s.2)
    (fun entry : Rewatch => entry.root = id) (c.maint.patrol plat o).rewatch _
    (sweepEntry_roots plat o)).trans ?_
  simp [Scheduled]

/-- The sweep comes to scan a scheduled root, and the scan does not fail. -/
def Due (o : Outside π) (entry : Rewatch) : Prop :=
  entry.dueAt ≤ o.now ∧ o.pathExists (plat.ofText entry.root) = true ∧
    o.rescanError entry.root = none

instance (o : Outside π) (entry : Rewatch) : Decidable (Due plat o entry) :=
  inferInstanceAs (Decidable (_ ∧ _ ∧ _))

theorem sweepEntry_of_due (s : Coordinator × List String) {entry : Rewatch}
    (h : Due plat o entry) : (sweepEntry plat o s entry).2 = s.2 ++ [entry.root] := by
  obtain ⟨hdue, hexists, herror⟩ := h
  unfold sweepEntry
  dsimp only
  rw [if_neg (Nat.not_lt.mpr hdue), if_neg (by simp [hexists]), herror]

theorem sweepEntry_of_not_due (s : Coordinator × List String) {entry : Rewatch}
    (h : ¬ Due plat o entry) : (sweepEntry plat o s entry).2 = s.2 := by
  unfold sweepEntry
  dsimp only
  split_ifs with hwait hgone
  · rfl
  · rfl
  · cases herror : o.rescanError entry.root with
    | none => exact absurd ⟨Nat.le_of_not_lt hwait, by simpa using hgone, herror⟩ h
    | some e => rfl

/-- **The sweep starts the watchers of the roots that are due.** -/
theorem sweep_started (c : Coordinator) : (sweep plat o c).2 =
    ((c.maint.patrol plat o).rewatch.filter fun e => Due plat o e).map Rewatch.root := by
  have hgen : ∀ (entries : List Rewatch) (s : Coordinator × List String),
      (entries.foldl (sweepEntry plat o) s).2 =
        s.2 ++ (entries.filter fun e => Due plat o e).map Rewatch.root := by
    intro entries
    induction entries with
    | nil => exact fun s => (List.append_nil _).symm
    | cons entry entries ih =>
        intro s
        rw [List.foldl_cons, ih, List.filter_cons]
        by_cases hdue : Due plat o entry
        · rw [sweepEntry_of_due plat o s hdue, List.append_assoc, if_pos (decide_eq_true hdue)]
          rfl
        · rw [sweepEntry_of_not_due plat o s hdue, if_neg (by simpa using hdue)]
  exact hgen _ _

/-- The roots to be watched again, and the count of the watchers, are the same. -/
structure SameWatches (m m' : Maintenance) : Prop where
  rewatch : m'.rewatch = m.rewatch
  watcherCount : m'.watcherCount = m.watcherCount

theorem sameWatches_recoverRoot (c : Coordinator) (root : String) :
    SameWatches c.maint (recoverRoot plat o c root).maint := by
  unfold recoverRoot
  cases recoveryTarget plat o c.index root with
  | none => exact ⟨rfl, rfl⟩
  | some t =>
      cases o.rescanError root with
      | none => exact ⟨rfl, rfl⟩
      | some e => exact ⟨rfl, rfl⟩

theorem sameWatches_batch (c : Coordinator) : SameWatches c.maint (batch plat cfg o c).maint := by
  unfold batch
  split_ifs
  · cases o.batchError with
    | none => exact ⟨rfl, rfl⟩
    | some e => exact ⟨rfl, rfl⟩
  all_goals exact ⟨rfl, rfl⟩

/-- What a message schedules: the root of a watcher that exits. -/
theorem scheduled_receive_iff {c : Coordinator} :
    Scheduled (receive plat cfg o c).maint id ↔ Scheduled c.maint id ∨
      ∃ root, o.received = .message (.watcherExited root) ∧
        normalizePathIdentity plat.std root = id := by
  unfold receive
  cases hreceived : o.received with
  | timeout => simp
  | disconnected => simp
  | message msg =>
      cases msg with
      | stop => simp [handle]
      | overflow root => simp [handle]
      | watcherExited root =>
          simp only [handle, scheduled_scheduleRewatch, Received.message.injEq,
            CoordinatorMsg.watcherExited.injEq, exists_eq_left']
          exact Iff.rfl
      | change hint =>
          have hmaint : (handle plat cfg o c (.change hint)).maint = c.maint := by
            unfold handle
            dsimp only
            split_ifs
            · rfl
            · rfl
          simp [hmaint]

/-- **Only messages and the sweep touch the watchers**: the other stages leave the schedule and the
count, and start no watcher. -/
theorem sameWatches_step {c : Coordinator} (hreceive : c.phase ≠ .receive)
    (hsweep : c.phase ≠ .sweep) :
    SameWatches c.maint (step plat cfg o c).1.maint ∧ (step plat cfg o c).2 = [] := by
  cases hphase : c.phase with
  | receive => exact absurd hphase hreceive
  | drain starting =>
      rw [step_drain hphase]
      exact ⟨⟨rfl, rfl⟩, rfl⟩
  | recover starting roots =>
      cases roots with
      | nil =>
          rw [step_recover_nil hphase]
          exact ⟨⟨rfl, rfl⟩, rfl⟩
      | cons root roots =>
          rw [step_recover_cons hphase]
          -- only the phase is set after the recovery
          obtain ⟨hrewatch, hcount⟩ := sameWatches_recoverRoot plat o c root
          exact ⟨⟨hrewatch, hcount⟩, rfl⟩
  | sweep => exact absurd hphase hsweep
  | bridge =>
      rw [step_bridge hphase]
      exact ⟨⟨rfl, rfl⟩, rfl⟩
  | batch =>
      rw [step_batch hphase]
      obtain ⟨hrewatch, hcount⟩ := sameWatches_batch plat cfg o c
      exact ⟨⟨hrewatch, hcount⟩, rfl⟩
  | stopped =>
      rw [step_stopped hphase]
      exact ⟨⟨rfl, rfl⟩, rfl⟩

/-- **The stages after a message** keep a root scheduled, or start its watcher. -/
theorem scheduled_step {c : Coordinator} (hphase : c.phase ≠ .receive)
    (h : Scheduled c.maint id) :
    Scheduled (step plat cfg o c).1.maint id ∨ id ∈ (step plat cfg o c).2 := by
  by_cases hsweep : c.phase = .sweep
  · rw [step_sweep hsweep]
    exact (sweep_roots plat o).mpr (scheduled_patrol plat o h)
  · refine .inl ?_
    unfold Scheduled
    rw [(sameWatches_step plat cfg o hphase hsweep).1.rewatch]
    exact h

end scheduled

/-! ## What a step needs -/

/-- What a step needs to keep every root retried: an exit that takes the last watcher of a root
which is not scheduled is reported under the identity of that root. -/
def Reports (p : Coordinator × List Watcher) (o : Outside π) : Prop :=
  p.1.phase = .receive → ∀ root, o.received = .message (.watcherExited root) → ∀ r ∈ cfg.roots,
    Watched (afterMessage p.2 o.received) (rootIdentity plat r) ∨
      Scheduled p.1.maint (rootIdentity plat r) ∨
        normalizePathIdentity plat.std root = rootIdentity plat r

section retried

variable {o : Outside π} {c : Coordinator} {ws : List Watcher}

theorem afterMessage_of_not_exit {received : Received}
    (h : ¬ ∃ root, received = .message (.watcherExited root)) : afterMessage ws received = ws := by
  cases received with
  | timeout => rfl
  | disconnected => rfl
  | message msg =>
      cases msg with
      | watcherExited root => exact absurd ⟨root, rfl⟩ h
      | change hint => rfl
      | overflow root => rfl
      | stop => rfl

/-- The parts of a step after the first stage. -/
theorem watcherStep_eq_of_ne (hphase : c.phase ≠ .receive) :
    watcherStep plat cfg o (c, ws) = ((step plat cfg o c).1,
      ws ++ (step plat cfg o c).2.map fun key => ⟨plat.lossy (plat.ofText key), key⟩) := by
  simp [watcherStep, hphase]

/-- The parts of a step of the first stage. -/
theorem watcherStep_receive (hphase : c.phase = .receive) :
    watcherStep plat cfg o (c, ws) = (receive plat cfg o c, afterMessage ws o.received) := by
  simp [watcherStep, hphase, step_receive hphase]

/-- **What a step needs** to keep every root watched or scheduled. -/
theorem retried_watcherStep_iff (h : Retried plat cfg (c, ws)) :
    Retried plat cfg (watcherStep plat cfg o (c, ws)) ↔ Reports plat cfg (c, ws) o := by
  by_cases hphase : c.phase = .receive
  · rw [watcherStep_receive plat cfg hphase]
    unfold Retried Reports
    simp only [scheduled_receive_iff]
    constructor
    · intro h' _ root hexit r hr
      rcases h' r hr with hwatched | hscheduled | ⟨root', hexit', hid⟩
      · exact .inl hwatched
      · exact .inr (.inl hscheduled)
      · rw [hexit] at hexit'
        obtain rfl : root = root' := by simpa using hexit'
        exact .inr (.inr hid)
    · intro hreports r hr
      by_cases hexit : ∃ root, o.received = .message (.watcherExited root)
      · obtain ⟨root, hexit⟩ := hexit
        rcases hreports hphase root hexit r hr with hwatched | hscheduled | hid
        · exact .inl hwatched
        · exact .inr (.inl hscheduled)
        · exact .inr (.inr ⟨root, hexit, hid⟩)
      · -- no watcher exits, and the schedule is as it was
        rw [afterMessage_of_not_exit hexit]
        rcases h r hr with hwatched | hscheduled
        · exact .inl hwatched
        · exact .inr (.inl hscheduled)
  · rw [watcherStep_eq_of_ne plat cfg hphase]
    refine iff_of_true (fun r hr => ?_) fun hreceive => absurd hreceive hphase
    rcases h r hr with ⟨w, hw, hid⟩ | hscheduled
    · exact .inl ⟨w, List.mem_append_left _ hw, hid⟩
    · rcases scheduled_step plat cfg o hphase hscheduled with hscheduled | hspawned
      · exact .inr hscheduled
      · refine .inl ⟨⟨plat.lossy (plat.ofText (rootIdentity plat r)), rootIdentity plat r⟩, ?_, rfl⟩
        exact List.mem_append_right _ (List.mem_map.mpr ⟨_, hspawned, rfl⟩)

/-- At the start the roots are retried whose watchers were started. -/
theorem retried_start_iff (o₀ o₁ : Outside π) (index : IndexDb) :
    Retried plat cfg (start plat cfg o₁ index, spawnWatchers plat cfg o₀) ↔
      ∀ r ∈ cfg.roots, ∃ r' ∈ cfg.roots, o₀.pathExists r' = true ∧
        rootIdentity plat r' = rootIdentity plat r := by
  obtain ⟨-, -, hrewatch⟩ := start_eq plat cfg o₁ index
  refine forall₂_congr fun r _ => ?_
  have hnone : ¬ Scheduled (start plat cfg o₁ index).maint (rootIdentity plat r) := by
    simp [Scheduled, hrewatch]
  rw [or_iff_left hnone]
  constructor
  · rintro ⟨w, hw, hid⟩
    obtain ⟨r', hr', rfl⟩ := List.mem_map.mp hw
    obtain ⟨hr', hexists⟩ := List.mem_filter.mp hr'
    exact ⟨r', hr', hexists, hid⟩
  · rintro ⟨r', hr', hexists, hid⟩
    exact ⟨_, List.mem_map_of_mem (List.mem_filter.mpr ⟨hr', hexists⟩), hid⟩

/-- **The runs that retry every root.** Whatever exists at the start and whatever happens later,
every configured root is watched or scheduled in every state of a run when, and only when, its
watcher was started at first and every exit is reported under the identity it is started by. -/
theorem visits_retried_iff (o₀ o₁ : Outside π) (index : IndexDb) (os : List (Outside π)) :
    (∀ t, (watcherMachine plat cfg).Visits
        (start plat cfg o₁ index, spawnWatchers plat cfg o₀) os t → Retried plat cfg t) ↔
      (∀ r ∈ cfg.roots, ∃ r' ∈ cfg.roots, o₀.pathExists r' = true ∧
        rootIdentity plat r' = rootIdentity plat r) ∧
      (watcherMachine plat cfg).Along (Reports plat cfg)
        (start plat cfg o₁ index, spawnWatchers plat cfg o₀) os := by
  rw [← retried_start_iff plat cfg o₀ o₁ index]
  have hrule : Retried plat cfg (start plat cfg o₁ index, spawnWatchers plat cfg o₀) →
      ((∀ t, (watcherMachine plat cfg).Visits
          (start plat cfg o₁ index, spawnWatchers plat cfg o₀) os t → Retried plat cfg t) ↔
        (watcherMachine plat cfg).Along (Reports plat cfg)
          (start plat cfg o₁ index, spawnWatchers plat cfg o₀) os) := by
    refine (watcherMachine plat cfg).forall_visits_iff_along
      (fun p o _ => ⟨watcherStep plat cfg o p, rfl⟩) fun p o p' hp hstep => ?_
    obtain rfl : watcherStep plat cfg o p = p' := Option.some.inj hstep
    exact retried_watcherStep_iff plat cfg hp
  constructor
  · intro h
    have hstart := h _ ⟨[], List.nil_prefix, rfl⟩
    exact ⟨hstart, (hrule hstart).mp h⟩
  · exact fun h => (hrule h.1).mpr h.2

end retried

/-! ## Identities that are their own -/

section own

/-- Every watcher reports the identity it was started for, and only identities are scheduled. -/
structure OwnIdentities (p : Coordinator × List Watcher) : Prop where
  watchers : ∀ w ∈ p.2, normalizePathIdentity plat.std w.root = w.identity
  scheduled : ∀ id, Scheduled p.1.maint id → ∃ path, normalizePathIdentity plat.std path = id

variable {o : Outside π}

/-- The patrol schedules identities. -/
theorem identity_of_scheduled_patrol {m : Maintenance}
    (h : ∀ id, Scheduled m id → ∃ path, normalizePathIdentity plat.std path = id) :
    ∀ id, Scheduled (m.patrol plat o) id → ∃ path, normalizePathIdentity plat.std path = id := by
  unfold Maintenance.patrol
  split_ifs
  · refine List.foldlRecOn (motive := fun m => ∀ id, Scheduled m id →
      ∃ path, normalizePathIdentity plat.std path = id) _ _ h fun m hm root _ id hid => ?_
    unfold Maintenance.patrolRoot at hid
    split_ifs at hid
    · exact hm id hid
    · rcases (scheduled_scheduleRewatch plat o).mp hid with hid | hid
      · exact hm id hid
      · exact ⟨root, hid⟩
  · exact h

theorem mem_of_mem_afterMessage {ws : List Watcher} {received : Received} {w : Watcher}
    (h : w ∈ afterMessage ws received) : w ∈ ws := by
  cases received with
  | timeout => exact h
  | disconnected => exact h
  | message msg =>
      cases msg with
      | watcherExited root => exact List.mem_of_mem_eraseP h
      | change hint => exact h
      | overflow root => exact h
      | stop => exact h

/-- **A step keeps identities** where an identity, as a path, is its own identity. -/
theorem OwnIdentities.step
    (hown : ∀ path, normalizePathIdentity plat.std
      (plat.lossy (plat.ofText (normalizePathIdentity plat.std path))) =
        normalizePathIdentity plat.std path)
    {p : Coordinator × List Watcher} (h : OwnIdentities plat p) :
    OwnIdentities plat (watcherStep plat cfg o p) := by
  obtain ⟨c, ws⟩ := p
  by_cases hphase : c.phase = .receive
  · rw [watcherStep_receive plat cfg hphase]
    refine ⟨fun w hw => h.watchers w (mem_of_mem_afterMessage hw), fun id hid => ?_⟩
    rcases (scheduled_receive_iff plat cfg o).mp hid with hid | ⟨root, -, hid⟩
    · exact h.scheduled id hid
    · exact ⟨root, hid⟩
  · rw [watcherStep_eq_of_ne plat cfg hphase]
    -- what the stage leaves scheduled, and what it starts, are identities
    have hstep : ∀ id, Scheduled (Coordinator.step plat cfg o c).1.maint id ∨
        id ∈ (Coordinator.step plat cfg o c).2 →
          ∃ path, normalizePathIdentity plat.std path = id := by
      intro id hid
      by_cases hsweep : c.phase = .sweep
      · rw [step_sweep hsweep] at hid
        exact identity_of_scheduled_patrol plat h.scheduled id ((sweep_roots plat o).mp hid)
      · obtain ⟨hsame, hspawned⟩ := sameWatches_step plat cfg o hphase hsweep
        unfold Scheduled at hid
        rw [hsame.rewatch, hspawned] at hid
        rcases hid with hid | hid
        · exact h.scheduled id hid
        · exact absurd hid List.not_mem_nil
    refine ⟨fun w hw => ?_, fun id hid => hstep id (.inl hid)⟩
    rcases List.mem_append.mp hw with hw | hw
    · exact h.watchers w hw
    · obtain ⟨key, hkey, rfl⟩ := List.mem_map.mp hw
      obtain ⟨path, rfl⟩ := hstep key (.inr hkey)
      exact hown path

/-- With own identities every exit is reported under the identity it concerns. -/
theorem OwnIdentities.reports {p : Coordinator × List Watcher} (h : OwnIdentities plat p)
    (hretried : Retried plat cfg p) : Reports plat cfg p o := by
  intro _ root hexit r hr
  rcases hretried r hr with ⟨w, hw, hid⟩ | hscheduled
  · by_cases hroot : w.root = root
    · exact .inr (.inr (hroot ▸ (h.watchers w hw).trans hid))
    · refine .inl ⟨w, ?_, hid⟩
      rw [hexit]
      exact (List.mem_eraseP_of_neg (by simpa using hroot)).mpr hw
  · exact .inr (.inl hscheduled)

/-- **Only the start matters** where an identity, as a path, is its own identity: if every
configured root has its watcher at first, every root is retried in every run. -/
theorem retried_of_started
    (hown : ∀ path, normalizePathIdentity plat.std
      (plat.lossy (plat.ofText (normalizePathIdentity plat.std path))) =
        normalizePathIdentity plat.std path)
    {o₀ o₁ : Outside π} {index : IndexDb} {os : List (Outside π)} {t : Coordinator × List Watcher}
    (hstarted : ∀ r ∈ cfg.roots, o₀.pathExists r = true)
    (h : (watcherMachine plat cfg).Visits
      (start plat cfg o₁ index, spawnWatchers plat cfg o₀) os t) : Retried plat cfg t := by
  have hstart : OwnIdentities plat (start plat cfg o₁ index, spawnWatchers plat cfg o₀) := by
    refine ⟨fun w hw => ?_, fun id hid => ?_⟩
    · obtain ⟨r, -, rfl⟩ := List.mem_map.mp hw
      rfl
    · obtain ⟨e, he, -⟩ := hid
      rw [(start_eq plat cfg o₁ index).2.2] at he
      exact absurd he List.not_mem_nil
  have hretried : Retried plat cfg (start plat cfg o₁ index, spawnWatchers plat cfg o₀) :=
    (retried_start_iff plat cfg o₀ o₁ index).mpr fun r hr => ⟨r, hr, hstarted r hr, rfl⟩
  obtain ⟨bs, -, hrun⟩ := h
  refine ((watcherMachine plat cfg).run_inv_of_step
    (I := fun p => OwnIdentities plat p ∧ Retried plat cfg p) ?_ ⟨hstart, hretried⟩ hrun).2
  intro p o p' hp hstep
  obtain rfl : watcherStep plat cfg o p = p' := Option.some.inj hstep
  exact ⟨hp.1.step plat cfg hown,
    (retried_watcherStep_iff plat cfg hp.2).mpr (hp.1.reports plat cfg hp.2)⟩

end own

/-! ## A root that is missing at the start -/

/-- One root, `c:\data`. -/
def oneRoot : CoordinatorConfig String := ⟨4096, 256, ["c:\\data"]⟩

/-- The root appears, and a minute later the sweep comes by. -/
def appearedRun : List (Outside String) :=
  List.replicate 6 { (Outside.idle : Outside String) with
    pathExists := fun _ => true
    now := 60000 }

/-- **The root is never looked at again**: it is marked unavailable and not scheduled, and the sweep
that finds it back does not start its watcher. -/
theorem missingRoot_not_retried :
    ¬ ∀ (cfg : CoordinatorConfig String) (o₀ o₁ : Outside String) (index : IndexDb)
        (os : List (Outside String)) (t : Coordinator × List Watcher),
      (watcherMachine textPlatform cfg).Visits
        (start textPlatform cfg o₁ index, spawnWatchers textPlatform cfg o₀) os t →
          Retried textPlatform cfg t := by
  intro h
  have hrun : (watcherMachine textPlatform oneRoot).run
      (start textPlatform oneRoot .idle .empty, spawnWatchers textPlatform oneRoot .idle)
      appearedRun = some (appearedRun.foldl (fun p o => watcherStep textPlatform oneRoot o p)
        (start textPlatform oneRoot .idle .empty, spawnWatchers textPlatform oneRoot .idle)) :=
    (watcherMachine textPlatform oneRoot).run_eq_foldl (fun _ _ => rfl) _ _
  exact absurd (h oneRoot .idle .idle .empty appearedRun _ (.of_run hrun)) (by decide +kernel)

end AuraLauncher.Index
