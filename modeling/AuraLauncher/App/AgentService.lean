import AuraLauncher.Lib.Machine

/-!
# Approving an agent's plan

An agent run that has a plan to approve announces it to the surface, puts the sender of a new
channel into one global slot and polls the channel; the confirm event of the surface sends to the
sender in the slot. Modelled from `agent_service.rs` of the application: `ACTIVE_CANCEL`,
`cancel_active_agent`, `APPROVAL_TX`, `confirm_active_approval`, `UiApprovalSink::request_approval`
and the parts of `start_agent_run` that set and clear the cancel slot.

* `AgentService` — the slot, the surface and the threads, with what is recorded of the requests
  that ended; `agentService` — its machine.
* `Faithful` — what is asked of approvals and of pending requests.
* `SlotMatches` — a confirm meets a shown request, and a run that ends its request clears no other
  one's sender.
* `AgentKept`, `AgentKept.step` — what every step keeps.
* `faithful_of_along` — runs whose steps match the slot are faithful; `not_faithful_of_clear`,
  `not_faithful_of_confirm` — what the other steps lead to.

A confirm carries what was so when it was sent, so that an approval can be compared with it. The
clock and the times of 150 ms are left open. Left out are what the agent loop does between two
requests and what else the surface shows.
-/

namespace AuraLauncher.App

open AuraLauncher.Lib

/-! ## The service -/

/-- An approval request, named by its run and the time it was made. -/
structure Request where
  run : ℕ
  madeAt : ℕ
deriving DecidableEq, Repr

/-- A confirm event, with the request whose sender was in the slot and the last one displayed. -/
structure Confirm where
  sentAt : ℕ
  owner : Option Request
  shown : Option Request
deriving DecidableEq, Repr

/-- Where a run is in `request_approval`; a request has its channel once its sender is in the
slot. -/
inductive AgentPhase
  /-- In no request. -/
  | working
  /-- The request is announced to the surface. -/
  | announced (request : Request)
  /-- Before the checks of the loop. -/
  | polling (request : Request) (unread : List Confirm)
  /-- In `recv_timeout`. -/
  | receiving (request : Request) (unread : List Confirm)
  /-- The loop has ended and the slot is to be cleared. -/
  | closing (request : Request)
  | finished
deriving DecidableEq, Repr

namespace AgentPhase

/-- The request that waits for the user. -/
def pending : AgentPhase → Option Request
  | polling request _ | receiving request _ => some request
  | working | announced _ | closing _ | finished => none

/-- The request of the phase. -/
def request : AgentPhase → Option Request
  | announced request | polling request _ | receiving request _ | closing request => some request
  | working | finished => none

/-- The confirms in the channel. -/
def unread : AgentPhase → List Confirm
  | polling _ unread | receiving _ unread => unread
  | working | announced _ | closing _ | finished => []

/-- The phase with one more confirm in the channel, if the receiver is there. -/
def deliver (c : Confirm) : AgentPhase → AgentPhase
  | polling request unread => polling request (unread ++ [c])
  | receiving request unread => receiving request (unread ++ [c])
  | phase => phase

@[simp] theorem deliver_pending (c : Confirm) (phase : AgentPhase) :
    (phase.deliver c).pending = phase.pending := by
  cases phase <;> rfl

@[simp] theorem deliver_request (c : Confirm) (phase : AgentPhase) :
    (phase.deliver c).request = phase.request := by
  cases phase <;> rfl

theorem request_of_pending {phase : AgentPhase} {r : Request} (h : phase.pending = some r) :
    phase.request = some r := by
  cases phase <;> first | exact h | cases h

theorem mem_deliver_unread {c d : Confirm} {phase : AgentPhase}
    (h : d ∈ (phase.deliver c).unread) : d ∈ phase.unread ∨ d = c := by
  cases phase with
  | polling | receiving => exact (List.mem_append.mp h).imp_right List.mem_singleton.mp
  | working | announced | closing | finished => exact absurd h List.not_mem_nil

end AgentPhase

/-- An agent run: its cancel flag and its phase. -/
structure AgentThread where
  cancelled : Bool
  phase : AgentPhase
deriving DecidableEq, Repr

/-- How a request ended. -/
inductive Ending
  | approved (confirm : Confirm)
  | cancelled
  | expired
  | disconnected
deriving DecidableEq, Repr

/-- A request that ended, and the last one that had taken the slot then. -/
structure Ended where
  request : Request
  ending : Ending
  lastOwner : Option Request
deriving DecidableEq, Repr

/-- The state of the service; `time` counts the events. -/
structure AgentService where
  time : ℕ
  /-- The request whose sender is in the slot. Source: `APPROVAL_TX`. -/
  slot : Option Request
  /-- The requests that took the slot, newest first. -/
  owners : List Request
  /-- The requests that the event loop has yet to display. -/
  displays : List Request
  shown : Option Request
  /-- The run whose flag is in the slot. Source: `ACTIVE_CANCEL`. -/
  active : Option ℕ
  runs : Threads ℕ AgentThread
  ended : List Ended

/-- The service before any event. -/
def AgentService.start : AgentService := ⟨0, none, [], [], none, none, .empty, []⟩

inductive AgentEvent
  | start (run : ℕ)
  /-- The run asks for approval and queues the display. -/
  | announce (run : ℕ)
  /-- The event loop displays the next queued request. -/
  | display
  /-- The run puts the sender of its request into the slot. -/
  | own (run : ℕ)
  | confirm
  | cancel
  /-- The loop checks the flag and the clock. -/
  | look (run : ℕ) (isExpired : Bool)
  /-- `recv_timeout` returns a confirm, or that the sender is gone. -/
  | receive (run : ℕ)
  /-- `recv_timeout` returns that the time is up. -/
  | timeout (run : ℕ)
  /-- The run clears the slot and returns from its request. -/
  | clear (run : ℕ)
  | finish (run : ℕ)
deriving DecidableEq, Repr

namespace AgentService

/-- The next event, with one run in another phase. -/
def moved (s : AgentService) (run : ℕ) (t : AgentThread) : AgentService :=
  { s with time := s.time + 1, runs := s.runs.set run t }

/-- The loop of a request ends. -/
def closed (s : AgentService) (run : ℕ) (cancelled : Bool) (request : Request) (ending : Ending) :
    AgentService :=
  { s.moved run ⟨cancelled, .closing request⟩ with
    ended := ⟨request, ending, s.owners.head?⟩ :: s.ended }

/-- A confirm event: it is sent to the channel whose sender is in the slot.
Source: `agent_service.rs`, `confirm_active_approval`. -/
def confirm (s : AgentService) : AgentService :=
  match s.slot with
  | none => { s with time := s.time + 1 }
  | some request =>
      match s.runs request.run with
      | none => { s with time := s.time + 1 }
      | some t =>
          if t.phase.pending = some request then
            s.moved request.run { t with phase := t.phase.deliver ⟨s.time, s.slot, s.shown⟩ }
          else { s with time := s.time + 1 }

/-- A cancel event sets the flag of the active run.
Source: `agent_service.rs`, `cancel_active_agent`. -/
def cancel (s : AgentService) : AgentService :=
  match s.active.bind fun run => (s.runs run).map fun t => (run, t) with
  | some (run, t) => s.moved run { t with cancelled := true }
  | none => { s with time := s.time + 1 }

end AgentService

/-- The service and its runs.
Source: `agent_service.rs`, `UiApprovalSink::request_approval` and `start_agent_run`. -/
def agentService : Machine AgentService AgentEvent where
  step s
    | .start run =>
        match s.runs run with
        | none => some { s.moved run ⟨false, .working⟩ with active := some run }
        | some _ => none
    | .announce run =>
        match s.runs run with
        | some ⟨flag, .working⟩ =>
            some { s.moved run ⟨flag, .announced ⟨run, s.time⟩⟩ with
              displays := s.displays ++ [⟨run, s.time⟩] }
        | _ => none
    | .display =>
        match s.displays with
        | request :: displays =>
            some { s with time := s.time + 1, shown := some request, displays := displays }
        | [] => none
    | .own run =>
        match s.runs run with
        | some ⟨flag, .announced request⟩ =>
            some { s.moved run ⟨flag, .polling request []⟩ with
              slot := some request, owners := request :: s.owners }
        | _ => none
    | .confirm => some s.confirm
    | .cancel => some s.cancel
    | .look run isExpired =>
        match s.runs run with
        | some ⟨true, .polling request _⟩ => some (s.closed run true request .cancelled)
        | some ⟨false, .polling request unread⟩ =>
            if isExpired then some (s.closed run false request .expired)
            else some (s.moved run ⟨false, .receiving request unread⟩)
        | _ => none
    | .receive run =>
        match s.runs run with
        | some ⟨flag, .receiving request (c :: _)⟩ =>
            some (s.closed run flag request (.approved c))
        | some ⟨flag, .receiving request []⟩ =>
            if s.slot = some request then none
            else some (s.closed run flag request .disconnected)
        | _ => none
    | .timeout run =>
        match s.runs run with
        | some ⟨flag, .receiving request unread⟩ =>
            some (s.moved run ⟨flag, .polling request unread⟩)
        | _ => none
    | .clear run =>
        match s.runs run with
        | some ⟨flag, .closing _⟩ => some { s.moved run ⟨flag, .working⟩ with slot := none }
        | _ => none
    | .finish run =>
        match s.runs run with
        | some ⟨flag, .working⟩ =>
            -- the cancel slot is cleared only if this run still owns it
            some { s.moved run ⟨flag, .finished⟩ with
              active := if s.active = some run then none else s.active }
        | _ => none

/-! ## What is asked of it -/

/-- A request is approved only by a confirm that came when it was in the slot and the last one
displayed; the last request that took the slot keeps it while it is pending; and a request whose
sender was gone from the slot was not the last one that took it. -/
structure Faithful (s : AgentService) : Prop where
  approved : ∀ e ∈ s.ended, ∀ c, e.ending = .approved c →
    c.owner = some e.request ∧ c.shown = some e.request
  undisturbed : ∀ run t r, s.runs run = some t → t.phase.pending = some r →
    s.owners.head? = some r → s.slot = some r
  superseded : ∀ e ∈ s.ended, e.ending = .disconnected → e.lastOwner ≠ some e.request

/-- The request waits for the user. -/
def AgentService.Pending (s : AgentService) (request : Request) : Prop :=
  ∃ t, s.runs request.run = some t ∧ t.phase.pending = some request

/-- A confirm meets no pending request that is not the last one displayed, and no run clears the
slot while the sender of another run's pending request is in it. -/
def SlotMatches (s : AgentService) : AgentEvent → Prop
  | .confirm => ∀ r, s.slot = some r → s.Pending r → s.shown = some r
  | .clear run => ∀ r, s.slot = some r → r.run ≠ run → ¬ s.Pending r
  | _ => True

instance (s : AgentService) (request : Request) : Decidable (s.Pending request) :=
  inferInstanceAs (Decidable (∃ t ∈ s.runs request.run, t.phase.pending = some request))

instance : ∀ s a, Decidable (SlotMatches s a)
  | s, .confirm => inferInstanceAs (Decidable (∀ r ∈ s.slot, s.Pending r → s.shown = some r))
  | s, .clear run => inferInstanceAs (Decidable (∀ r ∈ s.slot, r.run ≠ run → ¬ s.Pending r))
  | _, .start _ | _, .announce _ | _, .display | _, .own _ | _, .cancel | _, .look _ _
  | _, .receive _ | _, .timeout _ | _, .finish _ => .isTrue trivial

/-! ## What every step keeps -/

/-- A run in this phase is in a request of its own, and the confirms in its channel met it shown. -/
structure AgentPhase.Held (run : ℕ) (phase : AgentPhase) : Prop where
  own : ∀ r, phase.request = some r → r.run = run
  met : ∀ c ∈ phase.unread, c.owner = phase.pending ∧ c.shown = phase.pending

/-- A request that is pending in this phase keeps the slot if it was the last one that took it. -/
def AgentPhase.Keeps (s : AgentService) (phase : AgentPhase) : Prop :=
  ∀ r, phase.pending = some r → s.owners.head? = some r → s.slot = some r

/-- The invariant of the service. -/
structure AgentKept (s : AgentService) : Prop where
  held : s.runs.Every fun run t => t.phase.Held run
  keeps : s.runs.Every fun _ t => t.phase.Keeps s
  latest : ∀ r, s.slot = some r → s.owners.head? = some r
  approved : ∀ e ∈ s.ended, ∀ c, e.ending = .approved c →
    c.owner = some e.request ∧ c.shown = some e.request
  superseded : ∀ e ∈ s.ended, e.ending = .disconnected → e.lastOwner ≠ some e.request

theorem AgentKept.faithful {s : AgentService} (h : AgentKept s) : Faithful s :=
  ⟨h.approved, fun run t r ht hr => h.keeps run t ht r hr, h.superseded⟩

theorem AgentKept.start : AgentKept .start where
  held := Threads.every_empty _
  keeps := Threads.every_empty _
  latest := by simp [AgentService.start]
  approved := by simp [AgentService.start]
  superseded := by simp [AgentService.start]

/-- What is kept does not speak of the time, the surface, the cancel slot or the flags. -/
theorem AgentKept.congr {s s' : AgentService} (h : AgentKept s) (hslot : s'.slot = s.slot)
    (howners : s'.owners = s.owners) (hruns : s'.runs = s.runs) (hended : s'.ended = s.ended) :
    AgentKept s' where
  held := hruns ▸ h.held
  keeps := by
    intro run t ht r hr
    rw [hslot, howners]
    exact h.keeps run t (hruns ▸ ht) r hr
  latest := by
    rw [hslot, howners]
    exact h.latest
  approved := hended ▸ h.approved
  superseded := hended ▸ h.superseded

/-- A step of one run that leaves the slot alone. -/
theorem AgentKept.moved {s : AgentService} (h : AgentKept s) (run : ℕ) (t : AgentThread)
    (hheld : t.phase.Held run) (hkeeps : t.phase.Keeps s) : AgentKept (s.moved run t) where
  held := h.held.set hheld fun _ _ _ _ hu => hu
  keeps := h.keeps.set hkeeps fun _ _ _ _ hu => hu
  latest := h.latest
  approved := h.approved
  superseded := h.superseded

/-- A run that is in the same request, with the same confirms, is as well as before. -/
theorem AgentPhase.Held.of_eq {run : ℕ} {phase phase' : AgentPhase} (h : phase.Held run)
    (hrequest : phase'.request = phase.request) (hpending : phase'.pending = phase.pending)
    (hunread : phase'.unread = phase.unread) : phase'.Held run := by
  refine ⟨hrequest ▸ h.own, ?_⟩
  rw [hunread, hpending]
  exact h.met

/-- A phase in which nothing is pending and no confirm is unread. -/
theorem AgentPhase.Held.of_not_pending {run : ℕ} {phase : AgentPhase}
    (hown : ∀ r, phase.request = some r → r.run = run) (hunread : phase.unread = []) :
    phase.Held run := by
  refine ⟨hown, ?_⟩
  rw [hunread]
  intro c hc
  exact absurd hc List.not_mem_nil

theorem AgentPhase.Keeps.of_not_pending {s : AgentService} {phase : AgentPhase}
    (h : phase.pending = none) : phase.Keeps s := by
  intro r hr
  rw [h] at hr
  cases hr

/-- The loop of a request ends as it may. -/
theorem AgentKept.closed {s : AgentService} (h : AgentKept s) {run : ℕ} {flag flag' : Bool}
    {phase : AgentPhase} (hrun : s.runs run = some ⟨flag, phase⟩) {request : Request}
    (hrequest : phase.request = some request) {ending : Ending}
    (happroved : ∀ c, ending = .approved c → c.owner = some request ∧ c.shown = some request)
    (hgone : ending = .disconnected → s.owners.head? ≠ some request) :
    AgentKept (s.closed run flag' request ending) := by
  have hheld : (AgentPhase.closing request).Held run := by
    refine .of_not_pending ?_ rfl
    intro r hr
    exact (h.held run _ hrun).own r (hrequest.trans hr)
  have hmoved := h.moved run ⟨flag', .closing request⟩ hheld (.of_not_pending rfl)
  refine ⟨hmoved.held, hmoved.keeps, hmoved.latest, ?_, ?_⟩
  · intro e he c hc
    rcases List.mem_cons.mp he with rfl | he
    · exact happroved c hc
    · exact h.approved e he c hc
  · intro e he hc
    rcases List.mem_cons.mp he with rfl | he
    · exact hgone hc
    · exact h.superseded e he hc

/-- A confirm that meets the shown request, if it meets a pending one. -/
theorem AgentKept.confirm {s : AgentService} (h : AgentKept s) (hmatch : SlotMatches s .confirm) :
    AgentKept s.confirm := by
  have hidle : AgentKept { s with time := s.time + 1 } := h.congr rfl rfl rfl rfl
  unfold AgentService.confirm
  split
  · exact hidle
  · next request hslot =>
      split
      · exact hidle
      · next t hrun =>
          split_ifs with hpending
          · have hshown := hmatch request hslot ⟨t, hrun, hpending⟩
            have ht := h.held _ t hrun
            refine h.moved _ _ ⟨?_, ?_⟩ ?_
            · rw [AgentPhase.deliver_request]
              exact ht.own
            · intro c hc
              rw [AgentPhase.deliver_pending]
              rcases AgentPhase.mem_deliver_unread hc with hc | rfl
              · exact ht.met c hc
              · exact ⟨hslot.trans hpending.symm, hshown.trans hpending.symm⟩
            · intro r hr
              rw [AgentPhase.deliver_pending] at hr
              exact h.keeps _ t hrun r hr
          · exact hidle

theorem AgentKept.cancel {s : AgentService} (h : AgentKept s) : AgentKept s.cancel := by
  unfold AgentService.cancel
  split
  · next run t hactive =>
      obtain ⟨_, _, hrun⟩ := Option.bind_eq_some_iff.mp hactive
      obtain ⟨u, hu, heq⟩ := Option.map_eq_some_iff.mp hrun
      cases heq
      exact h.moved _ _ (h.held run t hu) (h.keeps run t hu)
  · exact h.congr rfl rfl rfl rfl

/-- A run takes the slot. -/
theorem AgentKept.owned {s : AgentService} (h : AgentKept s) {run : ℕ} {flag : Bool}
    {request : Request} (hrun : s.runs run = some ⟨flag, .announced request⟩) :
    AgentKept { s.moved run ⟨flag, .polling request []⟩ with
      slot := some request, owners := request :: s.owners } where
  held := by
    refine h.held.set ⟨?_, ?_⟩ fun _ _ _ _ hu => hu
    · exact (h.held run _ hrun).own
    · exact fun c hc => absurd hc List.not_mem_nil
  keeps := fun _ _ _ _ _ hr => hr
  latest := fun _ hr => hr
  approved := h.approved
  superseded := h.superseded

/-- A run clears the slot, which no pending request of another run has. -/
theorem AgentKept.cleared {s : AgentService} (h : AgentKept s) {run : ℕ} {flag : Bool}
    (hmatch : SlotMatches s (.clear run)) :
    AgentKept { s.moved run ⟨flag, .working⟩ with slot := none } where
  held := h.held.set (.of_not_pending nofun rfl) fun _ _ _ _ hu => hu
  keeps := by
    refine h.keeps.set (.of_not_pending rfl) ?_
    intro j u hj hu hkeeps r hr hlast
    -- the request of `j` has the slot, and `j` is the run it is of
    have hrequest : u.phase.request = some r := AgentPhase.request_of_pending hr
    obtain rfl : r.run = j := (h.held j u hu).own r hrequest
    exact absurd ⟨u, hu, hr⟩ (hmatch r (hkeeps r hr hlast) hj)
  latest := nofun
  approved := h.approved
  superseded := h.superseded

/-- **One step**: every event keeps the invariant, if it matches the slot. -/
theorem AgentKept.step {s s' : AgentService} {a : AgentEvent} (h : AgentKept s)
    (hmatch : SlotMatches s a) (hstep : agentService.step s a = some s') : AgentKept s' := by
  cases a with
  | start run =>
      dsimp only [agentService] at hstep
      split at hstep <;> cases hstep
      exact (h.moved run ⟨false, .working⟩ (.of_not_pending nofun rfl)
        (.of_not_pending rfl)).congr rfl rfl rfl rfl
  | announce run =>
      dsimp only [agentService] at hstep
      split at hstep <;> cases hstep
      next flag hrun =>
        have hown : ∀ r : Request, some ⟨run, s.time⟩ = some r → r.run = run := by
          rintro _ ⟨⟩
          rfl
        exact (h.moved run ⟨flag, .announced ⟨run, s.time⟩⟩
          (.of_not_pending hown rfl) (.of_not_pending rfl)).congr rfl rfl rfl rfl
  | display =>
      dsimp only [agentService] at hstep
      split at hstep <;> cases hstep
      exact h.congr rfl rfl rfl rfl
  | own run =>
      dsimp only [agentService] at hstep
      split at hstep <;> cases hstep
      next hrun => exact h.owned hrun
  | confirm =>
      obtain rfl := Option.some.inj hstep
      exact h.confirm hmatch
  | cancel =>
      obtain rfl := Option.some.inj hstep
      exact h.cancel
  | look run isExpired =>
      dsimp only [agentService] at hstep
      split at hstep
      · next hrun =>
          cases hstep
          exact h.closed hrun rfl nofun nofun
      · next hrun =>
          split_ifs at hstep <;> cases hstep
          · exact h.closed hrun rfl nofun nofun
          · exact h.moved _ _ ((h.held run _ hrun).of_eq rfl rfl rfl) fun r => h.keeps run _ hrun r
      · cases hstep
  | receive run =>
      dsimp only [agentService] at hstep
      split at hstep
      · next hrun =>
          cases hstep
          refine h.closed hrun rfl ?_ nofun
          rintro _ ⟨⟩
          exact (h.held run _ hrun).met _ List.mem_cons_self
      · next hrun =>
          split_ifs at hstep with hslot
          cases hstep
          refine h.closed hrun rfl nofun ?_
          intro _ hlast
          exact hslot (h.keeps run _ hrun _ rfl hlast)
      · cases hstep
  | timeout run =>
      dsimp only [agentService] at hstep
      split at hstep <;> cases hstep
      next hrun =>
        exact h.moved _ _ ((h.held run _ hrun).of_eq rfl rfl rfl) fun r => h.keeps run _ hrun r
  | clear run =>
      dsimp only [agentService] at hstep
      split at hstep <;> cases hstep
      exact h.cleared hmatch
  | finish run =>
      dsimp only [agentService] at hstep
      split at hstep <;> cases hstep
      next flag hrun =>
        exact (h.moved run ⟨flag, .finished⟩ (.of_not_pending nofun rfl)
          (.of_not_pending rfl)).congr rfl rfl rfl rfl

/-! ## Whole runs -/

/-- **Runs whose steps match the slot are faithful**: in every state met, approvals are of the
request that was in the slot and shown, and no request lost the slot but to a later one. -/
theorem faithful_of_along (as : List AgentEvent)
    (h : agentService.Along SlotMatches .start as) {t : AgentService}
    (ht : agentService.Visits .start as t) : Faithful t := by
  obtain ⟨bs, ⟨cs, rfl⟩, hrun⟩ := ht
  have halong := ((agentService.along_append hrun).mp h).1
  exact (agentService.run_inv (fun _ _ _ hI hG hs => AgentKept.step hI hG hs) .start halong
    hrun).faithful

/-- A shown plan is approved. -/
theorem faithful_of_along_shown :
    ∃ t, agentService.run .start [.start 0, .announce 0, .display, .own 0, .confirm, .look 0 false,
      .receive 0, .clear 0] = some t ∧
    t.ended.map Ended.ending = [.approved ⟨4, some ⟨0, 1⟩, some ⟨0, 1⟩⟩] ∧ Faithful t :=
  ⟨_, rfl, rfl, faithful_of_along [.start 0, .announce 0, .display, .own 0, .confirm, .look 0 false,
    .receive 0, .clear 0] (by decide) (.of_run rfl)⟩

/-- Two runs ask for approval one after the other; the first is superseded, its end clears the slot
of the second, and the second ends with its sender gone. -/
theorem not_faithful_superseded :
    ∃ t, agentService.run .start [.start 0, .announce 0, .own 0, .start 1, .announce 1, .own 1,
      .display, .display, .look 0 false, .receive 0, .clear 0, .look 1 false, .receive 1] = some t ∧
    ¬ Faithful t := by
  refine ⟨_, rfl, fun h => ?_⟩
  exact h.superseded ⟨⟨1, 4⟩, .disconnected, some ⟨1, 4⟩⟩ List.mem_cons_self rfl rfl

/-- **What the condition is for**: a clear that does not match the slot takes it from a pending
request of another run. -/
theorem not_faithful_of_clear {s t : AgentService} (h : AgentKept s) {run : ℕ} {r : Request}
    (hstep : agentService.step s (.clear run) = some t) (hslot : s.slot = some r)
    (hrun : r.run ≠ run) (hpending : s.Pending r) : ¬ Faithful t := by
  intro hfaithful
  dsimp only [agentService] at hstep
  split at hstep <;> cases hstep
  next flag _ _ =>
    obtain ⟨u, hu, hr⟩ := hpending
    have hstays := (Threads.set_of_ne s.runs ⟨flag, .working⟩ hrun).trans hu
    cases hfaithful.undisturbed r.run u r hstays hr (h.latest r hslot)

theorem step_receive {s : AgentService} {run : ℕ} {flag : Bool} {r : Request} {c : Confirm}
    {unread : List Confirm} (h : s.runs run = some ⟨flag, .receiving r (c :: unread)⟩) :
    agentService.step s (.receive run) = some (s.closed run flag r (.approved c)) := by
  simp only [agentService, h]

/-- The other half of it: a confirm that meets a waiting request that is not the one shown can
approve it at once. -/
theorem not_faithful_of_confirm {s : AgentService} {r : Request} {flag : Bool}
    (hslot : s.slot = some r) (hrun : s.runs r.run = some ⟨flag, .receiving r []⟩)
    (hshown : s.shown ≠ some r) :
    ∃ t, agentService.run s [.confirm, .receive r.run] = some t ∧ ¬ Faithful t := by
  have hconfirm : agentService.step s .confirm =
      some (s.moved r.run ⟨flag, .receiving r [⟨s.time, some r, s.shown⟩]⟩) := by
    simp [agentService, AgentService.confirm, hslot, hrun, AgentPhase.pending, AgentPhase.deliver]
  have hwaits : (s.moved r.run ⟨flag, .receiving r [⟨s.time, some r, s.shown⟩]⟩).runs r.run =
      some ⟨flag, .receiving r [⟨s.time, some r, s.shown⟩]⟩ := Threads.set_self ..
  refine ⟨_, agentService.run_cons_eq_some.mpr ⟨_, hconfirm,
    agentService.run_cons_eq_some.mpr ⟨_, step_receive hwaits, rfl⟩⟩, ?_⟩
  intro hfaithful
  have happroved := hfaithful.approved ⟨r, .approved ⟨s.time, some r, s.shown⟩, s.owners.head?⟩
    List.mem_cons_self _ rfl
  exact hshown happroved.2

end AuraLauncher.App
