import AuraLauncher.Lib.Machine

/-!
# The workers of a tool session

Opening a tool, an interaction with its surface and closing it each start a worker thread; a worker
that gets the lock of the one global session talks to the plugin of the session that is in there.
Modelled from `tool_ui_host.rs` of the application: `TOOL_SESSION`, `do_relay_event`, `open_tool`,
`relay_event` and `close_session`. A worker is named by the time of the interaction that started
it, and a session by the worker that opened it. Who gets the lock is left open, and so is whether a
plugin opens and whether a message can still be written to it.

* `ToolHost` — the session, the workers and what the plugins received; `toolHost` — its machine.
* `Orderly` — what is asked of the messages.
* `TakesTurn` — the worker that gets the lock finds its session not closed, and an event worker no
  earlier one waiting.
* `ToolKept`, `ToolKept.step` — what every step keeps.
* `orderly_of_along` — runs whose workers take their turns are orderly; `not_orderly_of_closed`,
  `not_orderly_of_overtaken` — what the other steps lead to.

Left out are the nodes that the surface shows.
-/

namespace AuraLauncher.App

open AuraLauncher.Lib

/-! ## The host -/

/-- A message of a session that follows its `tool.open`. -/
inductive ToolMessage
  /-- `tool.event`, for the interaction at that time. -/
  | event (interaction : ℕ)
  /-- `tool.close` -/
  | close
deriving DecidableEq, Repr

/-- What a worker is there for. -/
inductive Worker
  | opener
  | relay
  | close
  | done
deriving DecidableEq, Repr

/-- A message that the plugin of a session received. -/
structure ToolReceived where
  session : ℕ
  message : ToolMessage
deriving DecidableEq, Repr

/-- The state of the host; `time` counts the events. -/
structure ToolHost where
  time : ℕ
  /-- The session behind the lock. Source: `TOOL_SESSION`. -/
  session : Option ℕ
  workers : Threads ℕ Worker
  /-- What the plugins received, in its order. -/
  received : List ToolReceived

/-- The host before any event. -/
def ToolHost.start : ToolHost := ⟨0, none, .empty, []⟩

inductive ToolHostEvent
  | openTool
  | relayEvent
  | closeSession
  /-- The opener's plugin has answered `tool.open`, or has not. -/
  | opened (worker : ℕ) (isOpen : Bool)
  /-- A worker gets the lock, and its message is written or cannot be. -/
  | locks (worker : ℕ) (isWritten : Bool)
deriving DecidableEq, Repr

namespace ToolHost

/-- The next event, with one worker in another state. -/
def moved (s : ToolHost) (worker : ℕ) (w : Worker) : ToolHost :=
  { s with time := s.time + 1, workers := s.workers.set worker w }

/-- The worker sends its message to the session behind the lock, if there is one.
Source: `tool_ui_host.rs`, the threads of `relay_event` and `close_session`. -/
def send (s : ToolHost) (worker : ℕ) (message : ToolMessage) (isWritten : Bool) : ToolHost :=
  match s.session, isWritten with
  | some session, true =>
      { s.moved worker .done with received := s.received ++ [⟨session, message⟩] }
  | some _, false | none, _ => s.moved worker .done

end ToolHost

/-- The host and its workers.
Source: `tool_ui_host.rs`, `open_tool`, `relay_event` and `close_session`. -/
def toolHost : Machine ToolHost ToolHostEvent where
  step s
    | .openTool => some (s.moved s.time .opener)
    | .relayEvent => some (s.moved s.time .relay)
    | .closeSession => some (s.moved s.time .close)
    | .opened worker isOpen =>
        match s.workers worker with
        | some .opener =>
            if isOpen then some { s.moved worker .done with session := some worker }
            else some (s.moved worker .done)
        | _ => none
    | .locks worker isWritten =>
        match s.workers worker with
        | some .relay => some (s.send worker (.event worker) isWritten)
        -- the session stays behind the lock
        | some .close => some (s.send worker .close isWritten)
        | _ => none

theorem ToolHost.send_of_session {s : ToolHost} {session : ℕ} (h : s.session = some session)
    (worker : ℕ) (message : ToolMessage) : s.send worker message true =
      { s.moved worker .done with received := s.received ++ [⟨session, message⟩] } := by
  simp only [ToolHost.send, h]

/-! ## What is asked of it -/

/-- The first message may be received before the second. -/
def ToolMessage.Before : ToolMessage → ToolMessage → Prop
  | .event j, .event k => j < k
  | .event _, .close => True
  | .close, _ => False

/-- Only a close has nothing after it, and only two events have an order. -/
theorem ToolMessage.before_of_event {m n : ToolMessage} (hm : m ≠ .close)
    (h : ∀ j k, m = .event j → n = .event k → j < k) : m.Before n := by
  cases m with
  | event j =>
      cases n with
      | event k => exact h j k rfl rfl
      | close => trivial
  | close => exact absurd rfl hm

instance : ∀ m n, Decidable (ToolMessage.Before m n)
  | .event j, .event k => inferInstanceAs (Decidable (j < k))
  | .event _, .close => .isTrue trivial
  | .close, _ => .isFalse id

/-- Every plugin received the events of a session in the order of the interactions, none after the
session's close, and that at most once. -/
def Orderly (s : ToolHost) : Prop :=
  s.received.Pairwise fun p q => p.session = q.session → p.message.Before q.message

/-- The session behind the lock has not been closed. -/
def ToolHost.NotClosed (s : ToolHost) : Prop :=
  ∀ e ∈ s.received, s.session = some e.session → e.message ≠ .close

/-- A worker whose message is received finds the session not closed; and where it is an event, no
earlier event's worker still waits. -/
def TakesTurn (s : ToolHost) : ToolHostEvent → Prop
  | .locks worker true => s.session ≠ none →
      s.NotClosed ∧
        (s.workers worker = some .relay → ∀ k < worker, s.workers k ≠ some .relay)
  | _ => True

instance (s : ToolHost) : Decidable s.NotClosed :=
  inferInstanceAs (Decidable (∀ e ∈ s.received, s.session = some e.session → e.message ≠ .close))

instance : ∀ s a, Decidable (TakesTurn s a)
  | s, .locks worker true => inferInstanceAs (Decidable (s.session ≠ none → s.NotClosed ∧
      (s.workers worker = some .relay → ∀ k < worker, s.workers k ≠ some .relay)))
  | _, .locks _ false | _, .openTool | _, .relayEvent | _, .closeSession | _, .opened _ _ =>
      .isTrue trivial

/-! ## What every step keeps -/

/-- The invariant of the host: a worker has begun before now, and an event that was received
belongs to an interaction before that of every event worker that waits. -/
structure ToolKept (s : ToolHost) : Prop where
  orderly : Orderly s
  begun : s.workers.Every fun k _ => k < s.time
  past : ∀ e ∈ s.received, ∀ j, e.message = .event j → j < s.time
  first : ∀ e ∈ s.received, ∀ j, e.message = .event j → ∀ k, s.workers k = some .relay → j < k

theorem ToolKept.start : ToolKept .start where
  orderly := List.Pairwise.nil
  begun := Threads.every_empty _
  past := by simp [ToolHost.start]
  first := by simp [ToolHost.start]

/-- A worker that ends, or is not an event worker. -/
theorem ToolKept.moved {s : ToolHost} (h : ToolKept s) {worker : ℕ} {w : Worker}
    (hworker : worker ≤ s.time) (hw : w = .relay → worker = s.time) :
    ToolKept (s.moved worker w) where
  orderly := h.orderly
  begun := by
    refine h.begun.set (Nat.lt_succ_of_le hworker) ?_
    exact fun _ _ _ _ hk => Nat.lt_succ_of_lt hk
  past e he j hj := Nat.lt_succ_of_lt (h.past e he j hj)
  first := by
    intro e he j hj k hk
    by_cases hkw : k = worker
    · subst hkw
      have hrelay := Option.some.inj ((Threads.set_self s.workers k w).symm.trans hk)
      rw [hw hrelay]
      exact h.past e he j hj
    · exact h.first e he j hj k ((Threads.set_of_ne s.workers w hkw).symm.trans hk)

/-- A worker's message is received in its turn. -/
theorem ToolKept.send {s : ToolHost} (h : ToolKept s) {worker : ℕ} {w : Worker}
    (hworker : s.workers worker = some w) {message : ToolMessage} {isWritten : Bool}
    (hevent : ∀ j, message = .event j → j = worker ∧ w = .relay)
    (hturn : TakesTurn s (.locks worker isWritten)) :
    ToolKept (s.send worker message isWritten) := by
  have hbegun : worker < s.time := h.begun worker w hworker
  have hmoved : ToolKept (s.moved worker .done) := h.moved hbegun.le nofun
  unfold ToolHost.send
  split
  · next session hsession =>
      obtain ⟨hopen, hturn⟩ := hturn (by simp [hsession])
      refine ⟨?_, hmoved.begun, ?_, ?_⟩
      · refine List.pairwise_append.mpr ⟨h.orderly, List.pairwise_singleton _ _, ?_⟩
        intro p hp q hq hsame
        rw [List.mem_singleton.mp hq] at hsame ⊢
        refine ToolMessage.before_of_event (hopen p hp (hsame ▸ hsession)) ?_
        intro i j hi hj
        obtain ⟨rfl, rfl⟩ := hevent j hj
        exact h.first p hp i hi _ hworker
      · intro e he j hj
        rcases List.mem_append.mp he with he | he
        · exact hmoved.past e he j hj
        · rw [List.mem_singleton.mp he] at hj
          obtain ⟨rfl, -⟩ := hevent j hj
          exact Nat.lt_succ_of_lt hbegun
      · intro e he j hj k hk
        rcases List.mem_append.mp he with he | he
        · exact hmoved.first e he j hj k hk
        · rw [List.mem_singleton.mp he] at hj
          obtain ⟨rfl, rfl⟩ := hevent j hj
          have hne : k ≠ j := by
            rintro rfl
            cases (Threads.set_self s.workers k .done).symm.trans hk
          have hwaits := (Threads.set_of_ne s.workers .done hne).symm.trans hk
          have hle : ¬ k < j := fun hlt => hturn hworker k hlt hwaits
          omega
  · exact hmoved
  · exact hmoved

/-- **One step**: every step in its turn keeps the invariant. -/
theorem ToolKept.step {s s' : ToolHost} {a : ToolHostEvent} (h : ToolKept s)
    (hturn : TakesTurn s a) (hstep : toolHost.step s a = some s') : ToolKept s' := by
  cases a with
  | openTool | closeSession =>
      obtain rfl := Option.some.inj hstep
      exact h.moved le_rfl nofun
  | relayEvent =>
      obtain rfl := Option.some.inj hstep
      exact h.moved le_rfl fun _ => rfl
  | opened worker isOpen =>
      dsimp only [toolHost] at hstep
      split at hstep
      · next hworker =>
          have hmoved : ToolKept (s.moved worker .done) :=
            h.moved (h.begun worker _ hworker).le nofun
          split_ifs at hstep <;> cases hstep
          · exact ⟨hmoved.orderly, hmoved.begun, hmoved.past, hmoved.first⟩
          · exact hmoved
      · cases hstep
  | locks worker isWritten =>
      dsimp only [toolHost] at hstep
      split at hstep
      · next hworker =>
          cases hstep
          refine h.send hworker ?_ hturn
          rintro j ⟨⟩
          exact ⟨rfl, rfl⟩
      · next hworker =>
          cases hstep
          exact h.send hworker nofun hturn
      · cases hstep

/-! ## Whole runs -/

/-- **Runs whose workers take their turns are orderly.** -/
theorem orderly_of_along (as : List ToolHostEvent)
    (h : toolHost.Along TakesTurn .start as) {t : ToolHost}
    (ht : toolHost.Visits .start as t) : Orderly t := by
  obtain ⟨bs, ⟨cs, rfl⟩, hrun⟩ := ht
  have halong := ((toolHost.along_append hrun).mp h).1
  exact (toolHost.run_inv (fun _ _ _ hI hG hs => ToolKept.step hI hG hs) .start halong hrun).orderly

/-- Two events and a close whose workers get the lock in turn. -/
theorem orderly_of_along_inTurn :
    ∃ t, toolHost.run .start [.openTool, .opened 0 true, .relayEvent, .relayEvent, .locks 2 true,
      .closeSession, .locks 3 true, .locks 5 true] = some t ∧
    t.received = [⟨0, .event 2⟩, ⟨0, .event 3⟩, ⟨0, .close⟩] ∧ Orderly t :=
  ⟨_, rfl, rfl, orderly_of_along [.openTool, .opened 0 true, .relayEvent, .relayEvent,
    .locks 2 true, .closeSession, .locks 3 true, .locks 5 true] (by decide) (.of_run rfl)⟩

/-- The worker of an event gets the lock after the worker of a later close. -/
theorem not_orderly_eventAfterClose :
    ∃ t, toolHost.run .start [.openTool, .opened 0 true, .relayEvent, .closeSession, .locks 3 true,
      .locks 2 true] = some t ∧
    t.received = [⟨0, .close⟩, ⟨0, .event 2⟩] ∧ ¬ Orderly t := by
  refine ⟨_, rfl, rfl, fun h => ?_⟩
  exact (List.pairwise_cons.mp h).1 ⟨0, .event 2⟩ List.mem_cons_self rfl

/-- **What the condition is for**: a closed session stays behind the lock, and the next message of
any worker is received after its close. -/
theorem not_orderly_of_closed {s : ToolHost} {session worker : ℕ}
    (hsession : s.session = some session) (hclosed : ⟨session, .close⟩ ∈ s.received)
    (hworker : s.workers worker = some .relay ∨ s.workers worker = some .close) :
    ∃ t, toolHost.step s (.locks worker true) = some t ∧ ¬ Orderly t := by
  have hsend : ∀ m, ¬ Orderly (s.send worker m true) := by
    intro m horderly
    rw [ToolHost.send_of_session hsession] at horderly
    exact (List.pairwise_append.mp horderly).2.2 _ hclosed _ List.mem_cons_self rfl
  rcases hworker with hworker | hworker
  · exact ⟨s.send worker (.event worker) true, by simp only [toolHost, hworker], hsend _⟩
  · exact ⟨s.send worker .close true, by simp only [toolHost, hworker], hsend _⟩

/-- The other half of it: an event worker that gets the lock before an earlier one, with which it
shares the session, can be followed by it. -/
theorem not_orderly_of_overtaken {s : ToolHost} {session j k : ℕ} (hjk : j < k)
    (hsession : s.session = some session) (hj : s.workers j = some .relay)
    (hk : s.workers k = some .relay) :
    ∃ t, toolHost.run s [.locks k true, .locks j true] = some t ∧ ¬ Orderly t := by
  have hfirst : toolHost.step s (.locks k true) = some (s.send k (.event k) true) := by
    simp only [toolHost, hk]
  have hwaits : (s.send k (.event k) true).workers j = some .relay := by
    rw [ToolHost.send_of_session hsession]
    exact (Threads.set_of_ne s.workers .done hjk.ne).trans hj
  have hthen : toolHost.step (s.send k (.event k) true) (.locks j true) =
      some ((s.send k (.event k) true).send j (.event j) true) := by
    simp only [toolHost, hwaits]
  refine ⟨_, toolHost.run_cons_eq_some.mpr ⟨_, hfirst,
    toolHost.run_cons_eq_some.mpr ⟨_, hthen, rfl⟩⟩, ?_⟩
  intro horderly
  have hsame : (s.send k (.event k) true).session = some session := by
    rw [ToolHost.send_of_session hsession]
    exact hsession
  rw [ToolHost.send_of_session hsame, ToolHost.send_of_session hsession] at horderly
  have hbefore := (List.pairwise_append.mp horderly).2.2 ⟨session, .event k⟩
    (List.mem_append_right _ List.mem_cons_self) ⟨session, .event j⟩ List.mem_cons_self rfl
  exact absurd hjk (Nat.lt_asymm hbefore)

end AuraLauncher.App
