import AuraLauncher.Lib.Machine
import AuraLauncher.Search.Rank

/-!
# The search coordinator

`launcher-core/src/search_coordinator.rs`: a query goes to the providers that its strategy selects,
in at most `max_parallelism` groups, each worked off by a thread of its own. The threads share the
slots of the results, the list of errors and two counters; a provider that panics is isolated.

* `intentRoutesTo`, `SearchCoordinator.selected`, `SearchCoordinator.groups` — which providers are
  asked, and by which thread.
* `Worker`, `FanState`, `fanMachine` — what a thread is about to do; the threads step in any order,
  and the caller sets the flag of cancellation whenever it likes.
* `FanState.result` — what the search returns when every thread has ended, or its panic.
* `run_work_le`, `exists_finished` — every schedule ends.

The slots of the results are as many as the selected providers and are addressed by the place of a
provider among all of them. A provider is what its answer to the query is; a lock that an earlier
panic has poisoned makes it panic again.
-/

namespace AuraLauncher.Search

open AuraLauncher.Lib AuraLauncher.Domain

/-! ## Routing -/

/-- Source: `launcher-search/src/intelligence.rs`, `FilterKind`. -/
inductive FilterKind where
  | app | file | folder | cmd | plugin | wf
  deriving DecidableEq, Repr

/-- Source: `launcher-search/src/intelligence.rs`, `SearchStrategy`. -/
inductive SearchStrategy where
  | all
  | routed (kinds : List FilterKind)
  deriving DecidableEq, Repr

/-- Source: `str::starts_with`. -/
def startsWith (s pre : String) : Bool := pre.toList.isPrefixOf s.toList

/-- Source: `search_coordinator.rs`, `routes_to`. -/
def routesTo (kind : FilterKind) (providerId : String) : Bool :=
  match kind with
  | .app => startsWith providerId "app"
  | .file | .folder => startsWith providerId "file" || startsWith providerId "recent"
  | .cmd =>
      startsWith providerId "workflow" || startsWith providerId "settings" ||
        startsWith providerId "context"
  | .plugin => startsWith providerId "plugin"
  | .wf => startsWith providerId "workflow"

/-- Source: `search_coordinator.rs`, `intent_routes_to`. -/
def intentRoutesTo (strategy : SearchStrategy) (providerId : String) : Bool :=
  match strategy with
  | .all => true
  | .routed kinds => kinds.any fun k => routesTo k providerId

/-! ## The coordinator -/

/-- A provider as one search meets it. Source: `search_coordinator.rs`, `ProviderSlot`. -/
structure ProviderSlot where
  id : String
  /-- Its lock was poisoned by a panic of an earlier search. -/
  poisoned : Bool
  /-- What `query` and `take_last_error` answer; `none` is a panic. -/
  query : QueryContext → Option (List SearchCommand × Option String)

/-- What the worker gets of a provider; `none` when it catches a panic. Source:
`search_coordinator.rs`, the closure of `catch_unwind`. -/
def ProviderSlot.run (slot : ProviderSlot) (q : QueryContext) :
    Option (List SearchCommand × Option String) :=
  if slot.poisoned then none else slot.query q

/-- Source: `search_coordinator.rs`, `SearchCoordinator`. -/
structure SearchCoordinator where
  providers : List ProviderSlot
  maxParallelism : ℕ
  maxInFlightSeen : ℕ

/-- Source: `launcher-search/src/intelligence.rs`, `SearchResultState`. -/
inductive SearchResultState where
  | complete | partially | timedOut | cancelled | failed
  deriving DecidableEq, Repr

/-- Source: `search_coordinator.rs`, `CoordinatorResult`. -/
structure CoordinatorResult where
  commands : List SearchCommand
  errors : List String
  state : SearchResultState
  maxInFlight : ℕ

namespace SearchCoordinator

variable (c : SearchCoordinator)

/-- The places of the providers that the strategy selects. -/
def selected (strategy : SearchStrategy) : List ℕ :=
  (c.providers.zipIdx.filter fun p => intentRoutesTo strategy p.1.id).map Prod.snd

/-- The groups, filled in turn. -/
def groups (selected : List ℕ) : List (List ℕ) :=
  selected.zipIdx.foldl
    (fun groups p => groups.modify (p.2 % groups.length) fun group => group ++ [p.1])
    (List.replicate (min (max c.maxParallelism 1) (max selected.length 1)) [])

/-- What the worker gets of the provider at a place. -/
def answer (q : QueryContext) (idx : ℕ) : Option (List SearchCommand × Option String) :=
  (c.providers[idx]?).bind fun slot => slot.run q

/-- The name of the provider at a place. -/
def providerId (idx : ℕ) : String := ((c.providers[idx]?).map ProviderSlot.id).getD ""

end SearchCoordinator

/-! ## The threads -/

/-- What a thread is about to do. -/
inductive Worker where
  /-- To look at the flag and ask the next provider of its group. -/
  | ready (group : List ℕ)
  | querying (idx : ℕ) (rest : List ℕ)
  | storing (idx : ℕ) (commands : List SearchCommand) (error : Option String) (rest : List ℕ)
  | reporting (message : String) (rest : List ℕ)
  | finished
  /-- A panic that is not caught. -/
  | panicked

/-- What the threads of one search share, and the threads. -/
structure FanState where
  workers : List Worker
  results : List (Option (List SearchCommand))
  errors : List String
  cancelled : Bool
  /-- The flag of the caller, if it gave one. -/
  flag : Option Bool
  inFlight : ℕ
  maxInFlight : ℕ

/-- A thread steps, or the caller writes its flag. -/
inductive FanEvent where
  | work (w : ℕ)
  | setFlag (set : Bool)
  deriving DecidableEq

/-- Whether a thread steps. -/
def FanEvent.isWork : FanEvent → Bool
  | .work _ => true
  | .setFlag _ => false

/-- A thread moves on. -/
def FanState.put (s : FanState) (w : ℕ) (k : Worker) : FanState :=
  { s with workers := s.workers.set w k }

section

variable (c : SearchCoordinator) (q : QueryContext)

/-- What a thread does after its provider has answered or panicked. -/
def afterQuery (idx : ℕ) (rest : List ℕ) :
    Option (List SearchCommand × Option String) → Worker
  | some (commands, error) => .storing idx commands error rest
  | none => .reporting (c.providerId idx ++ ": provider panicked") rest

/-- What a thread does after it has stored the commands of its provider. -/
def afterStore (idx : ℕ) (rest : List ℕ) : Option String → Worker
  | some e => .reporting (c.providerId idx ++ ": " ++ e) rest
  | none => .ready rest

/-- One step of thread `w`. Source: `search_coordinator.rs`, the closure that `search` spawns. -/
def advance (s : FanState) (w : ℕ) : Worker → Option FanState
  | .ready [] => some (s.put w .finished)
  | .ready (idx :: rest) =>
      if s.flag = some true then some ({ s with cancelled := true }.put w .finished)
      else
        some ({ s with
          inFlight := s.inFlight + 1
          maxInFlight := max s.maxInFlight (s.inFlight + 1) }.put w (.querying idx rest))
  | .querying idx rest =>
      some ({ s with inFlight := s.inFlight - 1 }.put w
        (afterQuery c idx rest (c.answer q idx)))
  | .storing idx commands error rest =>
      -- the slot of a place that is not below the number of selected providers is out of bounds
      if idx < s.results.length then
        some ({ s with results := s.results.set idx (some commands) }.put w
          (afterStore c idx rest error))
      else some (s.put w .panicked)
  | .reporting message rest =>
      some ({ s with errors := s.errors ++ [message] }.put w (.ready rest))
  | .finished => none
  | .panicked => none

/-- The threads of one search. -/
def fanMachine : Machine FanState FanEvent where
  step s
    | .work w => (s.workers[w]?).bind (advance c q s w)
    | .setFlag set => some { s with flag := s.flag.map fun _ => set }

/-- The threads before their first step. Source: `search_coordinator.rs`, `search`, up to the
scope. -/
def SearchCoordinator.start (strategy : SearchStrategy) (flag : Option Bool) : FanState where
  workers := (c.groups (c.selected strategy)).map Worker.ready
  results := List.replicate (c.selected strategy).length none
  errors := []
  cancelled := false
  flag := flag
  inFlight := 0
  maxInFlight := c.maxInFlightSeen

end

/-- What a search comes to. -/
inductive SearchEnd where
  | panicked
  | returned (r : CoordinatorResult)

/-- Whether a thread has ended. -/
def Worker.ended : Worker → Bool
  | .finished => true
  | .panicked => true
  | _ => false

/-- Whether a thread has ended in a panic. -/
def Worker.isPanicked : Worker → Bool
  | .panicked => true
  | _ => false

/-- Every thread has ended, so the scope does. -/
def FanState.finished (s : FanState) : Bool := s.workers.all Worker.ended

/-- What the search comes to when every thread has ended. The scope passes a panic of a thread on.
Source: `search_coordinator.rs`, `search`, after the scope. -/
def FanState.result (s : FanState) : SearchEnd :=
  if s.workers.any Worker.isPanicked then .panicked
  else
    .returned
      { commands := s.results.flatMap fun slot => slot.getD []
        errors := s.errors
        state :=
          if s.cancelled then .cancelled else if s.errors.isEmpty then .complete else .partially
        maxInFlight := s.maxInFlight }

/-! ## What a step can do -/

/-- The steps of a thread: what it was about to do, what it is about to do next, and the state that
is shared. -/
inductive Move (c : SearchCoordinator) (q : QueryContext) (s : FanState) :
    Worker → Worker → FanState → Prop
  | done : Move c q s (.ready []) .finished s
  | cancelled {idx rest} (hflag : s.flag = some true) :
      Move c q s (.ready (idx :: rest)) .finished { s with cancelled := true }
  | asked {idx rest} (hflag : s.flag ≠ some true) :
      Move c q s (.ready (idx :: rest)) (.querying idx rest)
        { s with
          inFlight := s.inFlight + 1
          maxInFlight := max s.maxInFlight (s.inFlight + 1) }
  | answered {idx rest commands error} (hanswer : c.answer q idx = some (commands, error)) :
      Move c q s (.querying idx rest) (.storing idx commands error rest)
        { s with inFlight := s.inFlight - 1 }
  | isolated {idx rest} (hanswer : c.answer q idx = none) :
      Move c q s (.querying idx rest)
        (.reporting (c.providerId idx ++ ": provider panicked") rest)
        { s with inFlight := s.inFlight - 1 }
  | stored {idx commands rest} (error) (hidx : idx < s.results.length) :
      Move c q s (.storing idx commands error rest) (afterStore c idx rest error)
        { s with results := s.results.set idx (some commands) }
  | outOfBounds {idx commands error rest} (hidx : s.results.length ≤ idx) :
      Move c q s (.storing idx commands error rest) .panicked s
  | reported {message rest} :
      Move c q s (.reporting message rest) (.ready rest)
        { s with errors := s.errors ++ [message] }

variable {c : SearchCoordinator} {q : QueryContext}

/-- A thread moves no other. -/
theorem Move.workers {s s' : FanState} {k k' : Worker} (h : Move c q s k k' s') :
    s'.workers = s.workers := by
  cases h <;> rfl

theorem advance_eq_some_iff {s t : FanState} {w : ℕ} {k : Worker} :
    advance c q s w k = some t ↔ ∃ k' s', Move c q s k k' s' ∧ t = s'.put w k' := by
  constructor
  · intro h
    cases k with
    | ready group =>
        cases group with
        | nil => exact ⟨_, _, .done, (Option.some.inj h).symm⟩
        | cons idx rest =>
            by_cases hflag : s.flag = some true
            · rw [advance, if_pos hflag] at h
              exact ⟨_, _, .cancelled hflag, (Option.some.inj h).symm⟩
            · rw [advance, if_neg hflag] at h
              exact ⟨_, _, .asked hflag, (Option.some.inj h).symm⟩
    | querying idx rest =>
        rw [advance] at h
        cases hanswer : c.answer q idx with
        | none =>
            rw [hanswer] at h
            exact ⟨_, _, .isolated hanswer, (Option.some.inj h).symm⟩
        | some answer =>
            rw [hanswer] at h
            exact ⟨_, _, .answered hanswer, (Option.some.inj h).symm⟩
    | storing idx commands error rest =>
        by_cases hidx : idx < s.results.length
        · rw [advance, if_pos hidx] at h
          exact ⟨_, _, .stored error hidx, (Option.some.inj h).symm⟩
        · rw [advance, if_neg hidx] at h
          exact ⟨_, _, .outOfBounds (Nat.not_lt.mp hidx), (Option.some.inj h).symm⟩
    | reporting message rest => exact ⟨_, _, .reported, (Option.some.inj h).symm⟩
    | finished => exact absurd h (by simp [advance])
    | panicked => exact absurd h (by simp [advance])
  · rintro ⟨k', s', hmove, rfl⟩
    cases hmove with
    | done => rfl
    | cancelled hflag => rw [advance, if_pos hflag]
    | asked hflag => rw [advance, if_neg hflag]
    | answered hanswer => rw [advance, hanswer, afterQuery]
    | isolated hanswer => rw [advance, hanswer, afterQuery]
    | stored error hidx => rw [advance, if_pos hidx]
    | outOfBounds hidx => rw [advance, if_neg (Nat.not_lt.mpr hidx)]
    | reported => rfl

/-- **Inversion** of a step of a thread. -/
theorem step_work_iff {s t : FanState} {w : ℕ} :
    (fanMachine c q).step s (.work w) = some t ↔
      ∃ k k' s', s.workers[w]? = some k ∧ Move c q s k k' s' ∧ t = s'.put w k' := by
  have hstep : (fanMachine c q).step s (.work w) = (s.workers[w]?).bind (advance c q s w) := rfl
  rw [hstep, Option.bind_eq_some_iff]
  constructor
  · rintro ⟨k, hk, h⟩
    obtain ⟨k', s', hmove, rfl⟩ := advance_eq_some_iff.mp h
    exact ⟨k, k', s', hk, hmove, rfl⟩
  · rintro ⟨k, k', s', hk, hmove, rfl⟩
    exact ⟨k, hk, advance_eq_some_iff.mpr ⟨k', s', hmove, rfl⟩⟩

/-- A thread that has not ended can move. -/
theorem exists_move (s : FanState) {k : Worker} (h : k.ended = false) :
    ∃ k' s', Move c q s k k' s' := by
  cases k with
  | ready group =>
      cases group with
      | nil => exact ⟨_, _, .done⟩
      | cons idx rest =>
          by_cases hflag : s.flag = some true
          · exact ⟨_, _, .cancelled hflag⟩
          · exact ⟨_, _, .asked hflag⟩
  | querying idx rest =>
      cases hanswer : c.answer q idx with
      | none => exact ⟨_, _, .isolated hanswer⟩
      | some answer => exact ⟨_, _, .answered hanswer⟩
  | storing idx commands error rest =>
      rcases Nat.lt_or_ge idx s.results.length with hidx | hidx
      · exact ⟨_, _, .stored error hidx⟩
      · exact ⟨_, _, .outOfBounds hidx⟩
  | reporting message rest => exact ⟨_, _, .reported⟩
  | finished => exact absurd h (by simp [Worker.ended])
  | panicked => exact absurd h (by simp [Worker.ended])

/-! ## Every schedule ends -/

/-- How many steps a thread has before it at most. -/
def Worker.work : Worker → ℕ
  | .ready group => 4 * group.length + 1
  | .querying _ rest => 4 * rest.length + 4
  | .storing _ _ _ rest => 4 * rest.length + 3
  | .reporting _ rest => 4 * rest.length + 2
  | .finished => 0
  | .panicked => 0

/-- How many steps the threads have before them at most. -/
def FanState.work (s : FanState) : ℕ := s.workers.foldr (fun k n => k.work + n) 0

theorem work_set {ws : List Worker} {w : ℕ} {k : Worker} (k' : Worker) (h : ws[w]? = some k) :
    (ws.set w k').foldr (fun k n => k.work + n) 0 + k.work =
      ws.foldr (fun k n => k.work + n) 0 + k'.work := by
  induction ws generalizing w with
  | nil => simp at h
  | cons k₀ ws ih =>
      cases w with
      | zero =>
          obtain rfl : k₀ = k := by simpa using h
          simp only [List.set_cons_zero, List.foldr_cons]
          omega
      | succ w =>
          have hrest := ih (w := w) (by simpa using h)
          simp only [List.set_cons_succ, List.foldr_cons]
          omega

/-- A step of a thread lowers what is before them all. -/
theorem work_lt_of_step {s t : FanState} {w : ℕ} (h : (fanMachine c q).step s (.work w) = some t) :
    t.work < s.work := by
  obtain ⟨k, k', s', hk, hmove, rfl⟩ := step_work_iff.mp h
  have hlt : k'.work < k.work := by
    cases hmove with
    | stored error hidx => cases error <;> simp [afterStore, Worker.work]
    | _ => simp [Worker.work] <;> omega
  have hset := work_set k' hk
  have hput : (s'.put w k').work = (s.workers.set w k').foldr (fun k n => k.work + n) 0 := by
    unfold FanState.work FanState.put
    rw [hmove.workers]
  rw [hput]
  unfold FanState.work
  omega

/-- The threads take no more steps than the groups allow, whatever the schedule. -/
theorem run_work_le {s t : FanState} {es : List FanEvent} (h : (fanMachine c q).run s es = some t) :
    es.countP FanEvent.isWork ≤ s.work := by
  have hstep : ∀ s e s', True → True → (fanMachine c q).step s e = some s' →
      True ∧ s'.work + (if FanEvent.isWork e then 1 else 0) ≤ s.work := by
    intro s e s' _ _ hs
    refine ⟨trivial, ?_⟩
    cases e with
    | work w => exact work_lt_of_step hs
    | setFlag set =>
        obtain rfl := Option.some.inj hs
        simp [FanEvent.isWork, FanState.work]
  have hbound : es.countP FanEvent.isWork + t.work ≤ s.work :=
    (fanMachine c q).count_le_of_bound (I := fun _ => True) (G := fun _ _ => True) hstep trivial
      ((fanMachine c q).along_of_forall fun _ _ => trivial) h
  omega

/-- A thread that has not ended can step. -/
theorem exists_step {s : FanState} (h : s.finished = false) :
    ∃ w s', (fanMachine c q).step s (.work w) = some s' := by
  obtain ⟨k, hk, hended⟩ := List.all_eq_false.mp h
  obtain ⟨w, hw⟩ := List.mem_iff_getElem?.mp hk
  obtain ⟨k', s', hmove⟩ := exists_move (c := c) (q := q) s (Bool.not_eq_true _ ▸ hended)
  exact ⟨w, _, step_work_iff.mpr ⟨k, k', s', hw, hmove, rfl⟩⟩

/-- Every state can be run to the end of all threads, by their steps alone. -/
theorem exists_finished (s : FanState) : ∃ es t, (fanMachine c q).run s es = some t ∧
    (∀ e ∈ es, e.isWork = true) ∧ t.finished = true := by
  have hstep : ∀ s e s', True → FanEvent.isWork e = true → (fanMachine c q).step s e = some s' →
      True ∧ s'.work < s.work := by
    intro s e s' _ he hs
    cases e with
    | work w => exact ⟨trivial, work_lt_of_step hs⟩
    | setFlag set => exact absurd he (by simp [FanEvent.isWork])
  obtain ⟨es, t, hrun, halong, ht⟩ := (fanMachine c q).exists_run_to (I := fun _ => True)
    (Q := fun s => s.finished = true) (G := fun _ e => FanEvent.isWork e = true) hstep
    (fun s _ hs => by
      obtain ⟨w, s', hs'⟩ := exists_step (c := c) (q := q) (Bool.not_eq_true _ ▸ hs)
      exact ⟨.work w, s', rfl, hs'⟩)
    s trivial
  exact ⟨es, t, hrun, (fanMachine c q).forall_of_along hrun halong, ht⟩

end AuraLauncher.Search
