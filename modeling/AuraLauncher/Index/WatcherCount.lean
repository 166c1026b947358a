import AuraLauncher.Index.Rewatch
import Mathlib.Data.Finset.Card

/-!
# Counting the watchers

`launcher-indexer/src/coordinator.rs`: `watcher_count` is to be the number of roots that have a
live watcher. The end of a watcher is noticed in two ways, by the message it sends when it exits and
by the patrol that finds its root missing, and each of them lowers the count.

* `Watch`, `watchStep`, `watchMachine` — the loop beside the watchers that are live, and those whose
  end the patrol has noticed while their message is still to come.
* `watcherCount_start`, `watcherCount_sweep` — what the start and the sweep count.
* `Counted`, `decrements` — the count is the number of watched roots; how far a step lowers it.
* `Accounted`, `counted_of_accounted` — the runs that count right: an end is noticed once.
* `not_counted_exitAfterPatrol` — an end that is noticed twice.
-/

namespace AuraLauncher.Index

open AuraLauncher.Lib AuraLauncher.Domain Coordinator

variable {π : Type} (plat : Platform π) (cfg : CoordinatorConfig π)

/-! ## The loop and the watchers -/

/-- The loop and the roots of its watchers, as they spell them. -/
structure Watch where
  coordinator : Coordinator
  /-- The watchers whose end is not noticed. -/
  live : List String
  /-- The watchers whose end the patrol noticed, and which have not sent their message yet. -/
  gone : List String

/-- What a step meets outside. -/
structure Notice (π : Type) where
  outside : Outside π
  /-- An exit is that of a watcher whose end was noticed before. -/
  stale : Bool

/-- The root of the watcher that says it exits. -/
def exited : Received → Option String
  | .message (.watcherExited root) => some root
  | _ => none

/-- The watched roots that the patrol finds missing. -/
def missing (o : Outside π) (m : Maintenance) : List String :=
  if o.now - m.lastExistenceCheck ≥ 1000 then
    m.watched.filter fun root => !o.pathExists (plat.ofText root)
  else []

/-- The identities of roots. -/
def identities (roots : List String) : List String := roots.map (normalizePathIdentity plat.std)

/-- The watchers after a message: a watcher says once that it exits. -/
def Watch.receive (p : Watch) (c : Coordinator) (n : Notice π) : Option Watch :=
  match exited n.outside.received with
  | none => some ⟨c, p.live, p.gone⟩
  | some root =>
      if n.stale then
        if root ∈ p.gone then some ⟨c, p.live, p.gone.erase root⟩ else none
      else if root ∈ p.live then some ⟨c, p.live.erase root, p.gone⟩
      else none

/-- The watchers after a sweep: with a missing root its watchers end, and new ones are started. -/
def Watch.sweep (p : Watch) (stepped : Coordinator × List String) (n : Notice π) : Watch :=
  let ended := identities plat (missing plat n.outside p.coordinator.maint)
  { coordinator := stepped.1
    live := p.live.filter (fun root => normalizePathIdentity plat.std root ∉ ended) ++
      stepped.2.map fun key => plat.lossy (plat.ofText key)
    gone := p.gone ++ p.live.filter fun root => normalizePathIdentity plat.std root ∈ ended }

/-- A step of the loop beside its watchers. -/
def watchStep (p : Watch) (n : Notice π) : Option Watch :=
  let stepped := step plat cfg n.outside p.coordinator
  match p.coordinator.phase with
  | .receive => p.receive stepped.1 n
  | .sweep => some (p.sweep plat stepped n)
  | _ => some ⟨stepped.1, p.live, p.gone⟩

/-- The loop and its watchers. -/
def watchMachine : Machine Watch (Notice π) where
  step := watchStep plat cfg

/-- The coordinator and its watchers at the start, of which those are started before whose root
exists. -/
def startWatch (o₀ o₁ : Outside π) (index : IndexDb) : Watch where
  coordinator := start plat cfg o₁ index
  live := (spawnWatchers plat cfg o₀).map Watcher.root
  gone := []

/-! ## What is counted -/

section counts

variable (o : Outside π)

theorem watcherCount_scheduleRewatch (m : Maintenance) (root : String) :
    (m.scheduleRewatch plat o root).watcherCount = m.watcherCount := by
  unfold Maintenance.scheduleRewatch
  dsimp only
  split_ifs <;> rfl

/-- The patrol lowers the count for each missing root. -/
theorem watcherCount_patrol (m : Maintenance) :
    (m.patrol plat o).watcherCount = m.watcherCount - (missing plat o m).length := by
  have hgen : ∀ (roots : List String) (m : Maintenance),
      (roots.foldl (Maintenance.patrolRoot plat o) m).watcherCount =
        m.watcherCount - (roots.filter fun root => !o.pathExists (plat.ofText root)).length := by
    intro roots
    induction roots with
    | nil => exact fun m => rfl
    | cons root roots ih =>
        intro m
        rw [List.foldl_cons, ih, Maintenance.patrolRoot]
        split_ifs with hexists
        · rw [List.filter_cons_of_neg (by simp [hexists])]
        · rw [List.filter_cons_of_pos (by simp [hexists]), watcherCount_scheduleRewatch,
            List.length_cons, Nat.sub_sub, Nat.add_comm 1]
  unfold Maintenance.patrol missing
  split_ifs
  · exact hgen _ _
  · rfl

/-- **The count after a sweep**: one less for each missing root, one more for each watcher that it
starts. -/
theorem watcherCount_sweep (c : Coordinator) : (sweep plat o c).1.maint.watcherCount =
    c.maint.watcherCount - (missing plat o c.maint).length + (sweep plat o c).2.length := by
  have hgen : ∀ (entries : List Rewatch) (s : Coordinator × List String) (n : ℕ),
      s.1.maint.watcherCount = n + s.2.length →
        (entries.foldl (sweepEntry plat o) s).1.maint.watcherCount =
          n + (entries.foldl (sweepEntry plat o) s).2.length := by
    intro entries
    induction entries with
    | nil => exact fun s n h => h
    | cons entry entries ih =>
        intro s n h
        refine ih _ n ?_
        obtain ⟨entry', failure, -, heq⟩ | heq := sweepEntry_cases plat o s entry
        · rw [heq]
          exact h
        · rw [heq, List.length_append, ← Nat.add_assoc, ← h]
          rfl
  rw [← watcherCount_patrol]
  exact hgen _ _ _ rfl

/-- **The count after a message**: one less when a watcher says that it exits. -/
theorem watcherCount_receive (c : Coordinator) : (receive plat cfg o c).maint.watcherCount =
    c.maint.watcherCount - if (exited o.received).isSome then 1 else 0 := by
  unfold receive
  cases o.received with
  | timeout => rfl
  | disconnected => rfl
  | message msg =>
      cases msg with
      | stop => rfl
      | overflow root => rfl
      | watcherExited root => exact watcherCount_scheduleRewatch plat o _ _
      | change hint =>
          show (handle plat cfg o c (.change hint)).maint.watcherCount = c.maint.watcherCount
          unfold handle
          dsimp only
          split_ifs <;> rfl

/-- **The count at the start**: the configured roots that exist. -/
theorem watcherCount_start (index : IndexDb) : (start plat cfg o index).maint.watcherCount =
    (cfg.roots.filter fun root => o.pathExists root).length := by
  have hgen : ∀ (roots : List π) (c : Coordinator),
      (roots.foldl (startRoot plat o) c).maint.watcherCount =
        c.maint.watcherCount + (roots.filter fun root => o.pathExists root).length := by
    intro roots
    induction roots with
    | nil => exact fun c => rfl
    | cons root roots ih =>
        intro c
        rw [List.foldl_cons, ih, startRoot]
        split_ifs with hexists
        · rw [List.filter_cons_of_pos hexists, List.length_cons, Nat.add_assoc, Nat.add_comm 1]
        · rw [List.filter_cons_of_neg hexists]
          rfl
  exact (hgen cfg.roots _).trans (Nat.zero_add _)

end counts

/-! ## The count and the watchers -/

/-- The roots that have a live watcher. -/
def liveRoots (p : Watch) : Finset String := (identities plat p.live).toFinset

/-- The count is the number of roots that have a live watcher. -/
def Counted (p : Watch) : Prop := p.coordinator.maint.watcherCount = (liveRoots plat p).card

instance (p : Watch) : Decidable (Counted plat p) := inferInstanceAs (Decidable (_ = _))

/-- How often a step lowers the count. -/
def decrements (p : Watch) (n : Notice π) : ℕ :=
  match p.coordinator.phase with
  | .receive => if (exited n.outside.received).isSome then 1 else 0
  | .sweep => (missing plat n.outside p.coordinator.maint).length
  | _ => 0

/-- The roots whose watchers the sweep starts, as these spell them. -/
def dueRoots (o : Outside π) (m : Maintenance) : List String :=
  ((m.patrol plat o).rewatch.filter fun e => Due plat o e).map fun e =>
    plat.lossy (plat.ofText e.root)

/-- What a step needs to count right: a watcher that exits is live and the only one of its root; of
the roots that the patrol finds missing each has a live watcher, and none is found twice; a root
whose watcher is started has no other one. -/
def Accounted (p : Watch) (n : Notice π) : Prop :=
  (p.coordinator.phase = .receive → ∀ root ∈ exited n.outside.received,
    n.stale = false ∧
      (identities plat p.live).count (normalizePathIdentity plat.std root) = 1) ∧
  (p.coordinator.phase = .sweep →
    ((identities plat (missing plat n.outside p.coordinator.maint)).Nodup ∧
      ∀ k ∈ identities plat (missing plat n.outside p.coordinator.maint),
        k ∈ identities plat p.live) ∧
    (identities plat (dueRoots plat n.outside p.coordinator.maint)).Nodup ∧
      ∀ k ∈ identities plat (dueRoots plat n.outside p.coordinator.maint),
        k ∈ identities plat p.live →
          k ∈ identities plat (missing plat n.outside p.coordinator.maint))

instance (p : Watch) (n : Notice π) : Decidable (Accounted plat p n) :=
  inferInstanceAs (Decidable ((_ → _) ∧ (_ → (_ ∧ _) ∧ _ ∧ _)))

section counted

variable {plat cfg} {p p' : Watch} {n : Notice π}

/-- Without its only watcher a root is not watched. -/
theorem card_liveRoots_erase {live : List String} {root : String} (hroot : root ∈ live)
    (honly : (identities plat live).count (normalizePathIdentity plat.std root) = 1) :
    (identities plat live).toFinset.card =
      (identities plat (live.erase root)).toFinset.card + 1 := by
  have hperm : (identities plat live).Perm
      (normalizePathIdentity plat.std root :: identities plat (live.erase root)) :=
    (List.perm_cons_erase hroot).map _
  have hnot : normalizePathIdentity plat.std root ∉
      (identities plat (live.erase root)).toFinset := by
    rw [List.mem_toFinset, ← List.count_eq_zero]
    rw [hperm.count_eq, List.count_cons_self] at honly
    exact Nat.succ.inj honly
  rw [List.toFinset_eq_of_perm _ _ hperm, List.toFinset_cons, Finset.card_insert_of_notMem hnot]

/-- A message keeps the count right. -/
theorem counted_receive (hcount : Counted plat p) (hphase : p.coordinator.phase = .receive)
    (h : Accounted plat p n)
    (hstep : p.receive (receive plat cfg n.outside p.coordinator) n = some p') :
    Counted plat p' ∧ decrements plat p n ≤ p.coordinator.maint.watcherCount := by
  have hone := watcherCount_receive plat cfg n.outside p.coordinator
  unfold Counted liveRoots at hcount ⊢
  unfold Watch.receive at hstep
  simp only [decrements, hphase]
  cases hexited : exited n.outside.received with
  | none =>
      simp only [hexited] at hstep hone
      obtain rfl := Option.some.inj hstep
      exact ⟨hone.trans hcount, Nat.zero_le _⟩
  | some root =>
      obtain ⟨hstale, honly⟩ := h.1 hphase root hexited
      simp only [hexited, hstale, Bool.false_eq_true, if_false] at hstep
      split_ifs at hstep with hroot
      obtain rfl := Option.some.inj hstep
      have hcard := card_liveRoots_erase hroot honly
      rw [hexited] at hone
      rw [hcard] at hcount
      refine ⟨?_, ?_⟩
      · rw [hone, hcount]
        exact Nat.add_sub_cancel _ 1
      · rw [hcount]
        exact Nat.le_add_left 1 _

/-- The roots with a live watcher after a sweep. -/
theorem liveRoots_sweep (p : Watch) (n : Notice π) :
    liveRoots plat (p.sweep plat (sweep plat n.outside p.coordinator) n) =
      (liveRoots plat p \
          (identities plat (missing plat n.outside p.coordinator.maint)).toFinset) ∪
        (identities plat (dueRoots plat n.outside p.coordinator.maint)).toFinset := by
  have hstarted : (sweep plat n.outside p.coordinator).2.map
      (fun key => plat.lossy (plat.ofText key)) =
        dueRoots plat n.outside p.coordinator.maint := by
    rw [sweep_started, List.map_map]
    rfl
  ext k
  simp only [liveRoots, Watch.sweep, hstarted, identities, List.map_append, List.toFinset_append,
    Finset.mem_union, Finset.mem_sdiff, List.mem_toFinset, List.mem_map, List.mem_filter,
    decide_eq_true_eq]
  refine or_congr ?_ Iff.rfl
  constructor
  · rintro ⟨root, ⟨hroot, hnot⟩, rfl⟩
    exact ⟨⟨root, hroot, rfl⟩, hnot⟩
  · rintro ⟨⟨root, hroot, rfl⟩, hnot⟩
    exact ⟨root, ⟨hroot, hnot⟩, rfl⟩

/-- A sweep keeps the count right. -/
theorem counted_sweep (hcount : Counted plat p) (hphase : p.coordinator.phase = .sweep)
    (h : Accounted plat p n) :
    Counted plat (p.sweep plat (step plat cfg n.outside p.coordinator) n) ∧
      decrements plat p n ≤ p.coordinator.maint.watcherCount := by
  obtain ⟨⟨hmissing, hended⟩, hdue, hnew⟩ := h.2 hphase
  have hsub : (identities plat (missing plat n.outside p.coordinator.maint)).toFinset ⊆
      liveRoots plat p := fun k hk =>
    List.mem_toFinset.mpr (hended k (List.mem_toFinset.mp hk))
  have hdisjoint : Disjoint
      (liveRoots plat p \
        (identities plat (missing plat n.outside p.coordinator.maint)).toFinset)
      (identities plat (dueRoots plat n.outside p.coordinator.maint)).toFinset := by
    refine Finset.disjoint_left.mpr fun k hlive hk => ?_
    obtain ⟨hlive, hnot⟩ := Finset.mem_sdiff.mp hlive
    exact hnot (List.mem_toFinset.mpr
      (hnew k (List.mem_toFinset.mp hk) (List.mem_toFinset.mp hlive)))
  have hlength : (identities plat (missing plat n.outside p.coordinator.maint)).toFinset.card =
      (missing plat n.outside p.coordinator.maint).length := by
    rw [List.toFinset_card_of_nodup hmissing]
    exact List.length_map _
  have hstarted : (identities plat (dueRoots plat n.outside p.coordinator.maint)).toFinset.card =
      (sweep plat n.outside p.coordinator).2.length := by
    rw [List.toFinset_card_of_nodup hdue, sweep_started]
    simp only [identities, dueRoots, List.length_map]
  constructor
  · have hroots : liveRoots plat (p.sweep plat (sweep plat n.outside p.coordinator) n) = _ :=
      liveRoots_sweep p n
    unfold Counted
    rw [step_sweep hphase]
    show (sweep plat n.outside p.coordinator).1.maint.watcherCount =
      (liveRoots plat (p.sweep plat (sweep plat n.outside p.coordinator) n)).card
    rw [hroots, Finset.card_union_of_disjoint hdisjoint, Finset.card_sdiff_of_subset hsub, hlength,
      hstarted, watcherCount_sweep, hcount]
  · simp only [decrements, hphase]
    rw [← hlength, hcount]
    exact Finset.card_le_card hsub

/-- **What a step needs** to keep the count right, and not to lower it below zero. -/
theorem counted_watchStep (hcount : Counted plat p) (h : Accounted plat p n)
    (hstep : watchStep plat cfg p n = some p') :
    Counted plat p' ∧ decrements plat p n ≤ p.coordinator.maint.watcherCount := by
  unfold watchStep at hstep
  by_cases hreceive : p.coordinator.phase = .receive
  · simp only [hreceive, step_receive hreceive] at hstep
    exact counted_receive hcount hreceive h hstep
  by_cases hsweep : p.coordinator.phase = .sweep
  · simp only [hsweep] at hstep
    obtain rfl := Option.some.inj hstep
    exact counted_sweep hcount hsweep h
  · have hsame := (sameWatches_step plat cfg n.outside hreceive hsweep).1.watcherCount
    have hnone : decrements plat p n = 0 := by
      unfold decrements
      split
      · exact absurd ‹_› hreceive
      · exact absurd ‹_› hsweep
      · rfl
    split at hstep
    · exact absurd ‹_› hreceive
    · exact absurd ‹_› hsweep
    · obtain rfl := Option.some.inj hstep
      exact ⟨hsame.trans hcount, hnone ▸ Nat.zero_le _⟩

variable (plat cfg)

/-- The roots that the coordinator finds at the start are those whose watchers were started, each
once. -/
def StartsOnce (o₀ o₁ : Outside π) : Prop :=
  (cfg.roots.filter fun root => o₁.pathExists root).map (rootIdentity plat) =
      (cfg.roots.filter fun root => o₀.pathExists root).map (rootIdentity plat) ∧
    ((cfg.roots.filter fun root => o₀.pathExists root).map (rootIdentity plat)).Nodup

instance (o₀ o₁ : Outside π) : Decidable (StartsOnce plat cfg o₀ o₁) :=
  inferInstanceAs (Decidable (_ ∧ _))

theorem counted_startWatch {o₀ o₁ : Outside π} (h : StartsOnce plat cfg o₀ o₁)
    (index : IndexDb) : Counted plat (startWatch plat cfg o₀ o₁ index) := by
  obtain ⟨hsame, hnodup⟩ := h
  have hlive : identities plat ((spawnWatchers plat cfg o₀).map Watcher.root) =
      (cfg.roots.filter fun root => o₀.pathExists root).map (rootIdentity plat) := by
    unfold identities spawnWatchers
    rw [List.map_map, List.map_map]
    rfl
  unfold Counted liveRoots startWatch
  rw [watcherCount_start, hlive, List.toFinset_card_of_nodup hnodup, ← hsame, List.length_map]

/-- **The runs that count right.** If every end of a watcher is noticed once, and no root gets a
second watcher, the count is the number of roots that have a live watcher in every state of a run,
and no step would lower it below zero. -/
theorem counted_of_accounted {o₀ o₁ : Outside π} {index : IndexDb} {ns : List (Notice π)}
    (hstart : StartsOnce plat cfg o₀ o₁)
    (h : (watchMachine plat cfg).Along (Accounted plat) (startWatch plat cfg o₀ o₁ index) ns) :
    (∀ t, (watchMachine plat cfg).Visits (startWatch plat cfg o₀ o₁ index) ns t →
        Counted plat t) ∧
      (watchMachine plat cfg).Along
        (fun p n => ∀ p', (watchMachine plat cfg).step p n = some p' →
          decrements plat p n ≤ p.coordinator.maint.watcherCount)
        (startWatch plat cfg o₀ o₁ index) ns := by
  have hcount := counted_startWatch plat cfg hstart index
  have hkeep : ∀ p n p', Counted plat p → Accounted plat p n →
      (watchMachine plat cfg).step p n = some p' → Counted plat p' :=
    fun p n p' hp hn hstep => (counted_watchStep hp hn hstep).1
  constructor
  · rintro t ⟨ms, ⟨rest, rfl⟩, hrun⟩
    exact (watchMachine plat cfg).run_inv hkeep hcount
      ((Machine.along_append _ hrun).mp h).1 hrun
  · exact h.imp_inv hkeep hcount fun p n hp hn p' hstep => (counted_watchStep hp hn hstep).2

end counted

/-! ## Two roots -/

/-- Two roots, `c:\a` and `c:\b`. -/
def rootsAB : CoordinatorConfig String := ⟨4096, 256, ["c:\\a", "c:\\b"]⟩

/-- All paths exist but one. -/
def without (absent : String) (now : ℕ) (received : Received) (stale : Bool) : Notice String where
  outside :=
    { (Outside.idle : Outside String) with
      received
      now
      later := now
      pathExists := fun path => path ≠ absent }
  stale

/-- Both roots exist at the start. -/
def startAB : Watch :=
  startWatch textPlatform rootsAB (without "" 0 .timeout false).outside
    (without "" 0 .timeout false).outside .empty

/-- The watcher of `c:\a` fails after the start, and is started again. -/
def restartRun : List (Notice String) :=
  List.replicate 4 (without "" 0 .timeout false) ++
    without "" 0 (.message (.watcherExited "c:\\a")) false ::
      List.replicate 6 (without "" 0 .timeout false)

theorem counted_restart :
    (∀ t, (watchMachine textPlatform rootsAB).Visits startAB restartRun t →
        Counted textPlatform t) ∧
      (watchMachine textPlatform rootsAB).Along
        (fun p n => ∀ p', (watchMachine textPlatform rootsAB).step p n = some p' →
          decrements textPlatform p n ≤ p.coordinator.maint.watcherCount) startAB restartRun :=
  counted_of_accounted textPlatform rootsAB (by decide +kernel) (by decide +kernel)

/-- `c:\a` is deleted after the start: the patrol misses it, and then its watcher exits. -/
def deletedRun : List (Notice String) :=
  List.replicate 4 (without "" 0 .timeout false) ++
    List.replicate 6 (without "c:\\a" 2000 .timeout false) ++
      [without "c:\\a" 2000 (.message (.watcherExited "c:\\a")) true]

/-- **The end of one watcher is counted twice**: the watcher of `c:\b` is live, and the count is
zero. -/
theorem not_counted_exitAfterPatrol :
    ¬ ∀ (cfg : CoordinatorConfig String) (o₀ o₁ : Outside String) (index : IndexDb)
        (ns : List (Notice String)) (t : Watch),
      (watchMachine textPlatform cfg).Visits (startWatch textPlatform cfg o₀ o₁ index) ns t →
        Counted textPlatform t := by
  intro h
  have hfound : (((watchMachine textPlatform rootsAB).run startAB deletedRun).any
      fun t => !decide (Counted textPlatform t)) = true := by decide +kernel
  obtain ⟨t, hrun, hwrong⟩ := (Option.any_eq_true _ _).mp hfound
  have hnot : ¬ Counted textPlatform t := by simpa using hwrong
  exact hnot (h _ _ _ _ _ t (.of_run hrun))

end AuraLauncher.Index
