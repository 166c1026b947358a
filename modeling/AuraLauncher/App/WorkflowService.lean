import AuraLauncher.Lib.Machine
import Mathlib.Data.List.Nodup

/-!
# Confirming a paused workflow

Every workflow runs on a thread of its own, which waits on a channel of its own whenever its run is
paused for a confirmation; the confirm event of the surface sends to the channel whose sender is in
one global slot. Modelled from `workflow_service.rs` of the application: `set_confirm_tx`,
`confirm_active_run` and the pause loop of `start_workflow`. The runner is left open: a running
workflow may pause or end at any time.

* `WorkflowService` — the slot and the threads, with what is recorded of the confirms and of the
  resumes they caused; `workflowService` — its machine.
* `Fresh` — what is asked of the resumes.
* `BeginsPauseClean` — a run that pauses has nothing unread in its channel.
* `Kept`, `Kept.step` — what every step keeps.
* `fresh_of_along` — runs whose pauses begin clean are fresh; `resume_of_pause` — a pause that
  begins otherwise can be resumed at once.

Left out are the views that are pushed to the surface.
-/

namespace AuraLauncher.App

open AuraLauncher.Lib

/-! ## The service -/

/-- How far a run is. -/
inductive RunPhase
  | running
  | waiting (since : ℕ)
  | ended
deriving DecidableEq, Repr

/-- A run's thread: its phase, and the confirms in its channel, named by their times. -/
structure RunThread where
  phase : RunPhase
  unread : List ℕ
deriving DecidableEq, Repr

/-- A pause that was resumed, and the confirm that resumed it. -/
structure Resume where
  run : ℕ
  pausedAt : ℕ
  confirmedAt : ℕ
deriving DecidableEq, Repr

/-- The state of the service; `time` counts the events. -/
structure WorkflowService where
  time : ℕ
  /-- The run whose sender is in the slot. Source: `CONFIRM_TX`. -/
  slot : Option ℕ
  runs : Threads ℕ RunThread
  /-- The confirm events, each with the run that was registered then. -/
  confirms : List (ℕ × Option ℕ)
  resumes : List Resume

/-- The service before any event. -/
def WorkflowService.start : WorkflowService := ⟨0, none, .empty, [], []⟩

inductive ServiceEvent
  /-- The thread of a new run puts its sender into the slot. -/
  | begin (run : ℕ)
  | pause (run : ℕ)
  | finish (run : ℕ)
  /-- The user confirms. -/
  | confirm
  /-- A waiting run takes a confirm from its channel. -/
  | resume (run : ℕ)
  /-- A waiting run stops waiting: its time is up, or its sender is gone from the slot. -/
  | giveUp (run : ℕ)
deriving DecidableEq, Repr

namespace WorkflowService

/-- The next event, with one run in another state. -/
def moved (s : WorkflowService) (run : ℕ) (t : RunThread) : WorkflowService :=
  { s with time := s.time + 1, runs := s.runs.set run t }

/-- The next event is a confirm. -/
def heard (s : WorkflowService) : WorkflowService :=
  { s with time := s.time + 1, confirms := (s.time, s.slot) :: s.confirms }

/-- A confirm event: the registered run gets it, unless its receiver is gone.
Source: `workflow_service.rs`, `confirm_active_run`. -/
def confirm (s : WorkflowService) : WorkflowService :=
  match s.slot with
  | none => s.heard
  | some run =>
      match s.runs run with
      | none => s.heard
      | some t =>
          if t.phase = .ended then s.heard
          else { s.heard with runs := s.runs.set run { t with unread := t.unread ++ [s.time] } }

end WorkflowService

/-- The service and its runs. Source: `workflow_service.rs`, `start_workflow`. -/
def workflowService : Machine WorkflowService ServiceEvent where
  step s
    | .begin run =>
        match s.runs run with
        | none => some { s.moved run ⟨.running, []⟩ with slot := some run }
        | some _ => none
    | .pause run =>
        match s.runs run with
        | some ⟨.running, unread⟩ => some (s.moved run ⟨.waiting s.time, unread⟩)
        | _ => none
    | .finish run =>
        match s.runs run with
        | some ⟨.running, _⟩ => some (s.moved run ⟨.ended, []⟩)
        | _ => none
    | .confirm => some s.confirm
    | .resume run =>
        match s.runs run with
        | some ⟨.waiting since, c :: unread⟩ =>
            some { s.moved run ⟨.running, unread⟩ with
              resumes := ⟨run, since, c⟩ :: s.resumes }
        | _ => none
    | .giveUp run =>
        match s.runs run with
        | some ⟨.waiting _, []⟩ => some (s.moved run ⟨.ended, []⟩)
        | _ => none

/-- Every pause that was resumed was so by a confirm after its beginning; a confirm resumed no two
pauses, and only one of the run that was registered when it came. -/
structure Fresh (s : WorkflowService) : Prop where
  afterPause : ∀ e ∈ s.resumes, e.pausedAt < e.confirmedAt
  once : (s.resumes.map Resume.confirmedAt).Nodup
  registered : ∀ e ∈ s.resumes, (e.confirmedAt, some e.run) ∈ s.confirms

/-- A run that pauses has no unread confirm. -/
def BeginsPauseClean (s : WorkflowService) : ServiceEvent → Prop
  | .pause run => ∀ t, s.runs run = some t → t.unread = []
  | _ => True

/-! ## What every step keeps -/

/-- What is so of the thread of `run`: its unread confirms are of its own, distinct and not taken,
and those that a waiting run has came after its pause. -/
structure RunThread.Held (s : WorkflowService) (run : ℕ) (t : RunThread) : Prop where
  distinct : t.unread.Nodup
  own : ∀ c ∈ t.unread, (c, some run) ∈ s.confirms
  untaken : ∀ c ∈ t.unread, c ∉ s.resumes.map Resume.confirmedAt
  past : ∀ since, t.phase = .waiting since → since < s.time
  afterPause : ∀ since, t.phase = .waiting since → ∀ c ∈ t.unread, since < c

/-- A thread that stays as it is keeps what is so of it while nothing is resumed. -/
theorem RunThread.Held.stay {s s' : WorkflowService} {run : ℕ} {t : RunThread} (h : t.Held s run)
    (htime : s.time ≤ s'.time) (hconfirms : s.confirms ⊆ s'.confirms)
    (hresumes : s'.resumes = s.resumes) : t.Held s' run where
  distinct := h.distinct
  own c hc := hconfirms (h.own c hc)
  untaken := hresumes ▸ h.untaken
  past since hw := (h.past since hw).trans_le htime
  afterPause := h.afterPause

/-- The invariant of the service. -/
structure Kept (s : WorkflowService) : Prop where
  threads : s.runs.Every (RunThread.Held s)
  past : ∀ p ∈ s.confirms, p.1 < s.time
  distinct : (s.confirms.map Prod.fst).Nodup
  fresh : Fresh s

theorem Kept.start : Kept .start where
  threads := Threads.every_empty _
  past := by simp [WorkflowService.start]
  distinct := List.nodup_nil
  fresh := ⟨by simp [WorkflowService.start], List.nodup_nil, by simp [WorkflowService.start]⟩

/-- A confirm is of one run only. -/
theorem Kept.run_eq {s : WorkflowService} (h : Kept s) {c : ℕ} {r r' : Option ℕ}
    (hr : (c, r) ∈ s.confirms) (hr' : (c, r') ∈ s.confirms) : r = r' := by
  have hpair := List.inj_on_of_nodup_map h.distinct hr hr' rfl
  exact congrArg Prod.snd hpair

/-- A confirm that resumed a run came before now. -/
theorem Kept.lt_time_of_resumed {s : WorkflowService} (h : Kept s) {c : ℕ}
    (hc : c ∈ s.resumes.map Resume.confirmedAt) : c < s.time := by
  obtain ⟨e, he, rfl⟩ := List.mem_map.mp hc
  exact h.past _ (h.fresh.registered e he)

/-- A step that takes or brings no confirm. -/
theorem Kept.moved {s : WorkflowService} (h : Kept s) (run : ℕ) (t : RunThread)
    (ht : t.Held (s.moved run t) run) : Kept (s.moved run t) where
  threads := by
    refine h.threads.set ht ?_
    intro j u _ _ hu
    exact hu.stay (Nat.le_succ _) (List.Subset.refl _) rfl
  past p hp := Nat.lt_succ_of_lt (h.past p hp)
  distinct := h.distinct
  fresh := ⟨h.fresh.afterPause, h.fresh.once, h.fresh.registered⟩

theorem Kept.heard {s : WorkflowService} (h : Kept s) : Kept s.heard where
  threads := h.threads.imp fun _ _ _ ht =>
    ht.stay (Nat.le_succ _) (List.subset_cons_self _ _) rfl
  past := by
    intro p hp
    rcases List.mem_cons.mp hp with rfl | hp
    · exact Nat.lt_succ_self s.time
    · exact Nat.lt_succ_of_lt (h.past p hp)
  distinct := by
    refine List.nodup_cons.mpr ⟨?_, h.distinct⟩
    intro hmem
    obtain ⟨p, hp, heq⟩ := List.mem_map.mp hmem
    exact absurd (h.past p hp) (heq ▸ lt_irrefl _)
  fresh := ⟨h.fresh.afterPause, h.fresh.once,
    fun e he => List.mem_cons_of_mem _ (h.fresh.registered e he)⟩

/-- The confirm that comes now is a new one of the registered run. -/
theorem RunThread.Held.delivered {s : WorkflowService} (h : Kept s) {run : ℕ} {t : RunThread}
    (hslot : s.slot = some run) (ht : t.Held s run) :
    RunThread.Held s.heard run { t with unread := t.unread ++ [s.time] } := by
  have hlt : ∀ c ∈ t.unread, c < s.time := fun c hc => h.past _ (ht.own c hc)
  constructor
  · rw [List.nodup_append]
    refine ⟨ht.distinct, List.nodup_singleton _, ?_⟩
    intro c hc d hd
    rw [List.mem_singleton.mp hd]
    exact (hlt c hc).ne
  · intro c hc
    rcases List.mem_append.mp hc with hc | hc
    · exact List.mem_cons_of_mem _ (ht.own c hc)
    · rw [List.mem_singleton.mp hc, ← hslot]
      exact List.mem_cons_self
  · intro c hc htaken
    rcases List.mem_append.mp hc with hc | hc
    · exact ht.untaken c hc htaken
    · rw [List.mem_singleton.mp hc] at htaken
      exact lt_irrefl _ (h.lt_time_of_resumed htaken)
  · exact fun since hw => Nat.lt_succ_of_lt (ht.past since hw)
  · intro since hw c hc
    rcases List.mem_append.mp hc with hc | hc
    · exact ht.afterPause since hw c hc
    · rw [List.mem_singleton.mp hc]
      exact ht.past since hw

theorem Kept.confirm {s : WorkflowService} (h : Kept s) : Kept s.confirm := by
  unfold WorkflowService.confirm
  split
  · exact h.heard
  · next run hslot =>
      split
      · exact h.heard
      · next t hrun =>
          split_ifs
          · exact h.heard
          · have hall := h.heard.threads.set
              (RunThread.Held.delivered h hslot (h.threads run t hrun)) fun _ _ _ _ hu => hu
            refine ⟨hall.imp ?_, h.heard.past, h.heard.distinct, h.heard.fresh.1, h.heard.fresh.2,
              h.heard.fresh.3⟩
            exact fun _ _ _ hu => hu.stay le_rfl (List.Subset.refl _) rfl

/-- A waiting run takes the first confirm of its channel. -/
theorem Kept.resumed {s : WorkflowService} (h : Kept s) {run since c : ℕ} {unread : List ℕ}
    (hrun : s.runs run = some ⟨.waiting since, c :: unread⟩) :
    Kept { s.moved run ⟨.running, unread⟩ with resumes := ⟨run, since, c⟩ :: s.resumes } := by
  have ht := h.threads run _ hrun
  obtain ⟨hc, hunread⟩ := List.nodup_cons.mp ht.distinct
  have hown := ht.own c List.mem_cons_self
  constructor
  · refine h.threads.set ⟨hunread, ?_, ?_, ?_, ?_⟩ ?_
    · exact fun d hd => ht.own d (List.mem_cons_of_mem _ hd)
    · intro d hd htaken
      rcases List.mem_cons.mp htaken with rfl | htaken
      · exact hc hd
      · exact ht.untaken d (List.mem_cons_of_mem _ hd) htaken
    · intro since' hw
      cases hw
    · intro since' hw
      cases hw
    · intro j u hj _ hu
      refine ⟨hu.distinct, hu.own, ?_, fun since hw => Nat.lt_succ_of_lt (hu.past since hw),
        hu.afterPause⟩
      intro d hd htaken
      rcases List.mem_cons.mp htaken with rfl | htaken
      · -- the confirm would be of two runs
        exact hj (Option.some.inj (h.run_eq (hu.own _ hd) hown))
      · exact hu.untaken d hd htaken
  · exact fun p hp => Nat.lt_succ_of_lt (h.past p hp)
  · exact h.distinct
  · refine ⟨?_, ?_, ?_⟩
    · intro e he
      rcases List.mem_cons.mp he with rfl | he
      · exact ht.afterPause since rfl c List.mem_cons_self
      · exact h.fresh.afterPause e he
    · exact List.nodup_cons.mpr ⟨ht.untaken c List.mem_cons_self, h.fresh.once⟩
    · intro e he
      rcases List.mem_cons.mp he with rfl | he
      · exact hown
      · exact h.fresh.registered e he

/-- A thread that is not waiting and has no unread confirm. -/
theorem RunThread.Held.of_nil {s : WorkflowService} {run : ℕ} {phase : RunPhase}
    (h : ∀ since, phase ≠ .waiting since) : RunThread.Held s run ⟨phase, []⟩ :=
  ⟨List.nodup_nil, by simp, by simp, fun since hw => absurd hw (h since), by simp⟩

/-- **One step**: every event keeps the invariant, if a run that pauses has no unread confirm. -/
theorem Kept.step {s s' : WorkflowService} {a : ServiceEvent} (h : Kept s)
    (hclean : BeginsPauseClean s a) (hstep : workflowService.step s a = some s') : Kept s' := by
  cases a with
  | begin run =>
      dsimp only [workflowService] at hstep
      split at hstep
      · obtain rfl := Option.some.inj hstep
        have hk := h.moved run ⟨.running, []⟩ (.of_nil fun _ => nofun)
        refine ⟨hk.threads.imp ?_, hk.past, hk.distinct, hk.fresh.1, hk.fresh.2, hk.fresh.3⟩
        exact fun _ _ _ hu => hu.stay le_rfl (List.Subset.refl _) rfl
      · cases hstep
  | pause run =>
      dsimp only [workflowService] at hstep
      split at hstep
      · next unread hrun =>
          obtain rfl := Option.some.inj hstep
          obtain rfl : unread = [] := hclean _ hrun
          refine h.moved _ _ ⟨List.nodup_nil, by simp, by simp, ?_, by simp⟩
          intro since hw
          obtain rfl : s.time = since := RunPhase.waiting.inj hw
          exact Nat.lt_succ_self _
      · cases hstep
  | finish run =>
      dsimp only [workflowService] at hstep
      split at hstep
      · obtain rfl := Option.some.inj hstep
        exact h.moved _ _ (.of_nil fun _ => nofun)
      · cases hstep
  | confirm =>
      obtain rfl := Option.some.inj hstep
      exact h.confirm
  | resume run =>
      dsimp only [workflowService] at hstep
      split at hstep
      · next hrun =>
          obtain rfl := Option.some.inj hstep
          exact h.resumed hrun
      · cases hstep
  | giveUp run =>
      dsimp only [workflowService] at hstep
      split at hstep
      · obtain rfl := Option.some.inj hstep
        exact h.moved _ _ (.of_nil fun _ => nofun)
      · cases hstep

/-! ## Whole runs -/

/-- **Runs whose pauses begin clean are fresh**: in every state met, each resumed pause was so by a
confirm that came after it began, and by one that resumed no other, of the registered run. -/
theorem fresh_of_along (as : List ServiceEvent)
    (h : workflowService.Along BeginsPauseClean .start as) {t : WorkflowService}
    (ht : workflowService.Visits .start as t) : Fresh t := by
  obtain ⟨bs, ⟨cs, rfl⟩, hrun⟩ := ht
  have halong := ((workflowService.along_append hrun).mp h).1
  exact (workflowService.run_inv (fun _ _ _ hI hG hs => Kept.step hI hG hs) .start halong
    hrun).fresh

/-- A confirm after the pause resumes it. -/
theorem fresh_of_along_late :
    ∃ t, workflowService.run .start [.begin 0, .pause 0, .confirm, .resume 0] = some t ∧
      t.resumes = [⟨0, 1, 2⟩] ∧ Fresh t := by
  have hpause : ∀ s t, workflowService.step .start (.begin 0) = some s → s.runs 0 = some t →
      t.unread = [] := by
    intro s t hs ht
    obtain rfl := Option.some.inj hs
    obtain rfl := Option.some.inj ht
    rfl
  refine ⟨_, rfl, rfl, fresh_of_along [.begin 0, .pause 0, .confirm, .resume 0] ?_ (.of_run rfl)⟩
  exact ⟨trivial, fun s hs => ⟨fun t ht => hpause s t hs ht,
    fun _ _ => ⟨trivial, fun _ _ => ⟨trivial, fun _ _ => trivial⟩⟩⟩⟩

/-- A confirm that comes while the run is running resumes its next pause. -/
theorem not_fresh_early :
    ∃ t, workflowService.run .start [.begin 0, .confirm, .pause 0, .resume 0] = some t ∧
      ¬ Fresh t := by
  refine ⟨_, rfl, fun h => ?_⟩
  have hlt : 2 < 1 := h.afterPause ⟨0, 2, 1⟩ List.mem_cons_self
  omega

theorem step_pause {s : WorkflowService} {run : ℕ} {unread : List ℕ}
    (h : s.runs run = some ⟨.running, unread⟩) :
    workflowService.step s (.pause run) = some (s.moved run ⟨.waiting s.time, unread⟩) := by
  simp only [workflowService, h]

theorem step_resume {s : WorkflowService} {run since c : ℕ} {unread : List ℕ}
    (h : s.runs run = some ⟨.waiting since, c :: unread⟩) :
    workflowService.step s (.resume run) =
      some { s.moved run ⟨.running, unread⟩ with resumes := ⟨run, since, c⟩ :: s.resumes } := by
  simp only [workflowService, h]

/-- **What the condition is for**: a run that pauses with an unread confirm can go on at once, by a
confirm that came before the pause. -/
theorem resume_of_pause {s : WorkflowService} (h : Kept s) {run c : ℕ} {unread : List ℕ}
    (hrun : s.runs run = some ⟨.running, c :: unread⟩) :
    ∃ t, workflowService.run s [.pause run, .resume run] = some t ∧ ¬ Fresh t := by
  have hpaused : (s.moved run ⟨.waiting s.time, c :: unread⟩).runs run =
      some ⟨.waiting s.time, c :: unread⟩ := Threads.set_self ..
  refine ⟨_, workflowService.run_cons_eq_some.mpr ⟨_, step_pause hrun,
    workflowService.run_cons_eq_some.mpr ⟨_, step_resume hpaused, rfl⟩⟩, ?_⟩
  intro hfresh
  have hlt : s.time < c := hfresh.afterPause ⟨run, s.time, c⟩ List.mem_cons_self
  have hpast := h.past _ ((h.threads run _ hrun).own c List.mem_cons_self)
  exact absurd hpast hlt.asymm

end AuraLauncher.App
