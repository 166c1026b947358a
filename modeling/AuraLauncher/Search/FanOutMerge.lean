import AuraLauncher.Search.FanOut
import Mathlib.Data.List.Perm.Basic
import Mathlib.Data.List.Sort

/-!
# What a fanned-out search returns

The search should return the commands of the selected providers that did not panic, in provider
order, whatever the order in which the threads come to them. The slot of a provider is addressed by
its place among all providers, so a selected provider whose place is not below the number of
selected providers has no slot, and storing its answer panics.

* `SearchCoordinator.expected` — the commands that the search should return.
* `Tracks` — what holds between the steps of the threads: every selected provider is still to be
  asked, is in the hands of a thread, or has its answer in its slot.
* `search_correct_iff` — the selections that are searched correctly under every schedule.
* `pluginOnly_panics` — a query that selects the second of two providers.
-/

namespace AuraLauncher.Search

open AuraLauncher.Lib

namespace SearchCoordinator

variable (c : SearchCoordinator) (q : QueryContext) (strategy : SearchStrategy)

/-- The commands of the selected providers that do not panic, in provider order. -/
def expected : List SearchCommand :=
  (c.providers.filter fun slot => intentRoutesTo strategy slot.id).flatMap fun slot =>
    ((slot.run q).map Prod.fst).getD []

/-- The commands that the provider at a place answers. -/
def commandsAt (idx : ℕ) : List SearchCommand := ((c.answer q idx).map Prod.fst).getD []

/-! ## Selections and groups -/

theorem pairwise_selected : (c.selected strategy).Pairwise (· < ·) := by
  have hsub : List.Sublist (c.selected strategy) (List.range' 0 c.providers.length) := by
    have hmap : c.providers.zipIdx.map Prod.snd = List.range' 0 c.providers.length :=
      List.zipIdx_map_snd 0 c.providers
    rw [← hmap]
    exact List.filter_sublist.map Prod.snd
  exact List.Pairwise.sublist hsub (List.pairwise_lt_range' 1 Nat.one_pos)

/-- The expected commands, place by place. -/
theorem expected_eq :
    c.expected q strategy = (c.selected strategy).flatMap (c.commandsAt q) := by
  have hfst : (c.providers.zipIdx.filter fun p => intentRoutesTo strategy p.1.id).map Prod.fst =
      c.providers.filter fun slot => intentRoutesTo strategy slot.id := by
    conv_rhs => rw [← List.zipIdx_map_fst 0 c.providers, List.filter_map]
    rfl
  unfold expected selected
  rw [← hfst, List.flatMap_map, List.flatMap_map]
  refine List.flatMap_congr fun p hp => ?_
  have hplace : c.providers[p.2]? = some p.1 :=
    List.mem_zipIdx_iff_getElem?.mp (List.mem_of_mem_filter hp)
  simp [commandsAt, answer, hplace]

theorem mem_flatten_modify {groups : List (List ℕ)} {i x idx : ℕ} (hi : i < groups.length) :
    idx ∈ (groups.modify i fun group => group ++ [x]).flatten ↔ idx ∈ groups.flatten ∨ idx = x := by
  induction groups generalizing i with
  | nil => exact absurd hi (Nat.not_lt_zero i)
  | cons group groups ih =>
      cases i with
      | zero =>
          simp only [List.modify_zero_cons, List.flatten_cons, List.mem_append, List.mem_singleton]
          tauto
      | succ i =>
          rw [List.modify_succ_cons, List.flatten_cons, List.flatten_cons, List.mem_append,
            List.mem_append, ih (Nat.lt_of_succ_lt_succ hi), or_assoc]

/-- Every selected provider is in some group, and no other is. -/
theorem mem_flatten_groups {selected : List ℕ} {idx : ℕ} :
    idx ∈ (c.groups selected).flatten ↔ idx ∈ selected := by
  have hgen : ∀ (places : List (ℕ × ℕ)) (groups : List (List ℕ)), 0 < groups.length →
      (idx ∈ (places.foldl (fun groups p =>
          groups.modify (p.2 % groups.length) fun group => group ++ [p.1]) groups).flatten ↔
        idx ∈ groups.flatten ∨ idx ∈ places.map Prod.fst) := by
    intro places
    induction places with
    | nil => simp
    | cons p places ih =>
        intro groups hpos
        rw [List.foldl_cons, ih _ (by rwa [List.length_modify]),
          mem_flatten_modify (Nat.mod_lt _ hpos), List.map_cons, List.mem_cons, or_assoc]
  have hpos : 0 < min (max c.maxParallelism 1) (max selected.length 1) := by omega
  unfold groups
  rw [hgen _ _ (by rwa [List.length_replicate]), List.zipIdx_map_fst]
  simp

end SearchCoordinator

/-! ## What holds between the steps -/

/-- The providers that a thread still has to store. -/
def Worker.todo : Worker → List ℕ
  | .ready group => group
  | .querying idx rest => idx :: rest
  | .storing idx _ _ rest => idx :: rest
  | .reporting _ rest => rest
  | .finished => []
  | .panicked => []

/-- The answer of a provider, if it gives one, is in its slot. -/
def Settled (c : SearchCoordinator) (q : QueryContext) (s : FanState) (idx : ℕ) : Prop :=
  ∀ commands error, c.answer q idx = some (commands, error) →
    s.results[idx]? = some (some commands)

/-- What holds between the steps of the threads, for the selected providers `sel`. -/
structure Tracks (c : SearchCoordinator) (q : QueryContext) (sel : List ℕ) (s : FanState) :
    Prop where
  length : s.results.length = sel.length
  /-- A slot holds what its provider answered. -/
  stored : ∀ idx commands, s.results[idx]? = some (some commands) →
    idx ∈ sel ∧ ∃ error, c.answer q idx = some (commands, error)
  todo : ∀ k ∈ s.workers, ∀ idx ∈ k.todo, idx ∈ sel
  holds : ∀ idx commands error rest, Worker.storing idx commands error rest ∈ s.workers →
    c.answer q idx = some (commands, error)
  panics : Worker.panicked ∈ s.workers →
    ∃ idx ∈ sel, (c.answer q idx).isSome = true ∧ sel.length ≤ idx
  /-- Unless the search is cancelled or a thread has panicked, nothing is lost. -/
  covers : s.cancelled = false → Worker.panicked ∉ s.workers → ∀ idx ∈ sel,
    (∃ k ∈ s.workers, idx ∈ k.todo) ∨ Settled c q s idx

section

variable {c : SearchCoordinator} {q : QueryContext} {sel : List ℕ}

theorem tracks_start (strategy : SearchStrategy) (flag : Option Bool) :
    Tracks c q (c.selected strategy) (c.start strategy flag) where
  length := List.length_replicate
  stored := by
    intro idx commands h
    have hmem := List.mem_of_getElem? h
    exact absurd (List.eq_of_mem_replicate hmem) (by simp)
  todo := by
    rintro k hk idx hidx
    obtain ⟨group, hgroup, rfl⟩ := List.mem_map.mp hk
    exact (c.mem_flatten_groups).mp (List.mem_flatten.mpr ⟨group, hgroup, hidx⟩)
  holds := by
    rintro idx commands error rest hk
    obtain ⟨group, -, hgroup⟩ := List.mem_map.mp hk
    exact absurd hgroup (by simp)
  panics := by
    rintro hk
    obtain ⟨group, -, hgroup⟩ := List.mem_map.mp hk
    exact absurd hgroup (by simp)
  covers := by
    rintro - - idx hidx
    obtain ⟨group, hgroup, hmem⟩ := List.mem_flatten.mp ((c.mem_flatten_groups).mpr hidx)
    exact .inl ⟨.ready group, List.mem_map_of_mem hgroup, hmem⟩

/-- The step of one thread, on its own providers. -/
theorem Move.todo_subset {s s' : FanState} {k k' : Worker} (h : Move c q s k k' s') :
    ∀ idx ∈ k'.todo, idx ∈ k.todo := by
  intro idx hidx
  cases h with
  | stored error hlt =>
      cases error <;> exact List.mem_cons_of_mem _ hidx
  | done => exact hidx
  | cancelled hflag => exact absurd hidx List.not_mem_nil
  | asked hflag => exact hidx
  | answered hanswer => exact hidx
  | isolated hanswer => exact List.mem_cons_of_mem _ hidx
  | outOfBounds hidx => exact absurd hidx List.not_mem_nil
  | reported => exact hidx

/-- What a slot holds stays there. -/
theorem Move.settled {s s' : FanState} {k k' : Worker} (h : Move c q s k k' s')
    (hholds : ∀ idx commands error rest, k = .storing idx commands error rest →
      c.answer q idx = some (commands, error)) {idx : ℕ} (hidx : Settled c q s idx) :
    Settled c q s' idx := by
  intro commands error hanswer
  have hslot := hidx commands error hanswer
  cases h with
  | @stored idx' commands' rest error' hlt =>
      dsimp only
      rw [List.getElem?_set]
      split_ifs with heq
      · subst heq
        have hsame := (hholds _ _ _ _ rfl).symm.trans hanswer
        rw [(Prod.mk.inj (Option.some.inj hsame)).1]
      · exact hslot
  | done => exact hslot
  | cancelled hflag => exact hslot
  | asked hflag => exact hslot
  | answered hanswer => exact hslot
  | isolated hanswer => exact hslot
  | outOfBounds hidx => exact hslot
  | reported => exact hslot

/-- A provider leaves the hands of its thread with its answer in its slot, unless the thread gives
up. -/
theorem Move.kept {s s' : FanState} {k k' : Worker} (h : Move c q s k k' s')
    (hholds : ∀ idx commands error rest, k = .storing idx commands error rest →
      c.answer q idx = some (commands, error)) (hcancelled : s'.cancelled = false)
    (hpanic : k' ≠ .panicked) {idx : ℕ} (hidx : idx ∈ k.todo) :
    idx ∈ k'.todo ∨ Settled c q s' idx := by
  cases h with
  | done => exact .inl hidx
  | cancelled hflag => exact absurd hcancelled (by simp)
  | asked hflag => exact .inl hidx
  | answered hanswer => exact .inl hidx
  | isolated hanswer =>
      rcases List.mem_cons.mp hidx with rfl | hidx
      · exact .inr fun commands error h => absurd (hanswer.symm.trans h) (by simp)
      · exact .inl hidx
  | @stored idx' commands rest error hlt =>
      rcases List.mem_cons.mp hidx with rfl | hrest
      · refine .inr fun commands' error' hanswer => ?_
        have hsame := (hholds _ _ _ _ rfl).symm.trans hanswer
        rw [(Prod.mk.inj (Option.some.inj hsame)).1]
        exact List.getElem?_set_self hlt
      · cases error <;> exact .inl hrest
  | outOfBounds hidx => exact absurd rfl hpanic
  | reported => exact .inl hidx

theorem Move.length_results {s s' : FanState} {k k' : Worker} (h : Move c q s k k' s') :
    s'.results.length = s.results.length := by
  cases h with
  | stored error hlt => exact List.length_set ..
  | _ => rfl

/-- A slot is filled with what the thread held for it, or it was full before. -/
theorem Move.slot {s s' : FanState} {k k' : Worker} (h : Move c q s k k' s') {idx : ℕ}
    {commands : List SearchCommand} (hslot : s'.results[idx]? = some (some commands)) :
    s.results[idx]? = some (some commands) ∨
      ∃ error rest, k = .storing idx commands error rest := by
  cases h with
  | @stored idx' commands' rest error hlt =>
      have hset : (s.results.set idx' (some commands'))[idx]? = some (some commands) := hslot
      rw [List.getElem?_set] at hset
      split_ifs at hset with heq
      · subst heq
        obtain rfl : commands' = commands := by simpa using hset
        exact .inr ⟨error, rest, rfl⟩
      · exact .inl hset
  | _ => exact .inl hslot

/-- Only a provider that has just answered is held with its commands. -/
theorem Move.answer_of_storing {s s' : FanState} {k k' : Worker} (h : Move c q s k k' s')
    {idx : ℕ} {commands : List SearchCommand} {error : Option String} {rest : List ℕ}
    (heq : k' = .storing idx commands error rest) : c.answer q idx = some (commands, error) := by
  cases h with
  | answered hanswer =>
      obtain ⟨rfl, rfl, rfl, rfl⟩ := Worker.storing.inj heq
      exact hanswer
  | stored error' hlt => cases error' <;> exact absurd heq (by simp [afterStore])
  | _ => exact absurd heq (by simp)

/-- A thread panics over an answer that has no slot. -/
theorem Move.storing_of_panicked {s s' : FanState} {k k' : Worker} (h : Move c q s k k' s')
    (heq : k' = .panicked) : ∃ idx commands error rest,
      k = .storing idx commands error rest ∧ s.results.length ≤ idx := by
  cases h with
  | outOfBounds hidx => exact ⟨_, _, _, _, rfl, hidx⟩
  | stored error' hlt => cases error' <;> exact absurd heq (by simp [afterStore])
  | _ => exact absurd heq (by simp)

/-- The search stays cancelled, and a thread that has panicked does not move. -/
theorem Move.undisturbed {s s' : FanState} {k k' : Worker} (h : Move c q s k k' s')
    (hcancelled : s'.cancelled = false) : s.cancelled = false ∧ k ≠ .panicked := by
  cases h with
  | cancelled hflag => exact absurd hcancelled (by simp)
  | _ => exact ⟨hcancelled, by simp⟩

/-- A thread that is replaced leaves the others as they were. -/
theorem mem_set_of_mem {ws : List Worker} {w : ℕ} {k k'' : Worker} (k' : Worker)
    (hk : ws[w]? = some k) (h : k'' ∈ ws) : k'' = k ∨ k'' ∈ ws.set w k' := by
  obtain ⟨i, hi⟩ := List.mem_iff_getElem?.mp h
  by_cases hiw : w = i
  · subst hiw
    exact .inl (Option.some.inj (hi.symm.trans hk))
  · exact .inr (List.mem_iff_getElem?.mpr ⟨i, by rw [List.getElem?_set_ne hiw, hi]⟩)

theorem mem_set_self {ws : List Worker} {w : ℕ} {k k' : Worker} (hk : ws[w]? = some k) :
    k' ∈ ws.set w k' :=
  List.mem_iff_getElem?.mpr ⟨w, List.getElem?_set_self (List.getElem?_eq_some_iff.mp hk).1⟩

/-- One step of a thread keeps track. -/
theorem Tracks.work {s s' : FanState} {w : ℕ} {k k' : Worker} (h : Tracks c q sel s)
    (hk : s.workers[w]? = some k) (hmove : Move c q s k k' s') : Tracks c q sel (s'.put w k') := by
  have hkmem : k ∈ s.workers := List.mem_of_getElem? hk
  have hworkers : (s'.put w k').workers = s.workers.set w k' := by
    unfold FanState.put
    rw [hmove.workers]
  have hholds : ∀ idx commands error rest, k = .storing idx commands error rest →
      c.answer q idx = some (commands, error) := by
    rintro idx commands error rest rfl
    exact h.holds idx commands error rest hkmem
  constructor
  · exact hmove.length_results.trans h.length
  · intro idx commands hslot
    rcases hmove.slot hslot with hslot | ⟨error, rest, rfl⟩
    · exact h.stored idx commands hslot
    · exact ⟨h.todo _ hkmem idx List.mem_cons_self, error, hholds _ _ _ _ rfl⟩
  · intro k'' hk'' idx hidx
    rw [hworkers] at hk''
    rcases List.mem_or_eq_of_mem_set hk'' with hk'' | rfl
    · exact h.todo k'' hk'' idx hidx
    · exact h.todo k hkmem idx (hmove.todo_subset idx hidx)
  · intro idx commands error rest hk''
    rw [hworkers] at hk''
    rcases List.mem_or_eq_of_mem_set hk'' with hk'' | heq
    · exact h.holds idx commands error rest hk''
    · exact hmove.answer_of_storing heq.symm
  · intro hpanic
    rw [hworkers] at hpanic
    rcases List.mem_or_eq_of_mem_set hpanic with hpanic | heq
    · exact h.panics hpanic
    · obtain ⟨idx, commands, error, rest, rfl, hidx⟩ := hmove.storing_of_panicked heq.symm
      have hanswer := hholds idx commands error rest rfl
      exact ⟨idx, h.todo _ hkmem idx List.mem_cons_self, by rw [hanswer]; rfl, h.length ▸ hidx⟩
  · intro hcancelled hpanic idx hidx
    rw [hworkers] at hpanic ⊢
    obtain ⟨hcancelled', hnot⟩ := hmove.undisturbed hcancelled
    have hnew : k' ≠ .panicked := fun heq => hpanic (heq ▸ mem_set_self hk)
    have hpanic' : Worker.panicked ∉ s.workers := by
      intro hmem
      rcases mem_set_of_mem k' hk hmem with heq | hmem
      · exact hnot heq.symm
      · exact hpanic hmem
    rcases h.covers hcancelled' hpanic' idx hidx with ⟨k'', hk'', htodo⟩ | hsettled
    · rcases mem_set_of_mem k' hk hk'' with rfl | hmem
      · rcases hmove.kept hholds hcancelled hnew htodo with htodo | hsettled
        · exact .inl ⟨k', mem_set_self hk, htodo⟩
        · exact .inr hsettled
      · exact .inl ⟨k'', hmem, htodo⟩
    · exact .inr (hmove.settled hholds hsettled)

theorem tracks_run {strategy : SearchStrategy} {flag : Option Bool} {es : List FanEvent}
    {s : FanState} (h : (fanMachine c q).run (c.start strategy flag) es = some s) :
    Tracks c q (c.selected strategy) s :=
  (fanMachine c q).run_inv_of_step (I := Tracks c q (c.selected strategy))
    (fun s e t hs hstep => by
      cases e with
      | work w =>
          obtain ⟨k, k', s', hk, hmove, rfl⟩ := step_work_iff.mp hstep
          exact hs.work hk hmove
      | setFlag set =>
          obtain rfl := Option.some.inj hstep
          exact { hs with })
    (tracks_start strategy flag) h

/-- Without a flag that is set, no thread gives up. -/
theorem not_cancelled_run {s t : FanState} {es : List FanEvent}
    (h : (fanMachine c q).run s es = some t) (hflag : s.flag ≠ some true)
    (hcancelled : s.cancelled = false) (hes : FanEvent.setFlag true ∉ es) :
    t.cancelled = false := by
  have hinv := (fanMachine c q).run_inv (I := fun s => s.flag ≠ some true ∧ s.cancelled = false)
    (G := fun _ e => e ≠ .setFlag true)
    (fun s e t hs he hstep => by
      cases e with
      | work w =>
          obtain ⟨k, k', s', hk, hmove, rfl⟩ := step_work_iff.mp hstep
          cases hmove with
          | cancelled hset => exact absurd hset hs.1
          | _ => exact hs
      | setFlag set =>
          obtain rfl := Option.some.inj hstep
          refine ⟨?_, hs.2⟩
          cases set with
          | true => exact absurd rfl he
          | false => cases s.flag <;> simp)
    ⟨hflag, hcancelled⟩
    ((fanMachine c q).along_of_forall fun e he heq => hes (heq ▸ he)) h
  exact hinv.2

/-! ## The merge -/

/-- Elements that contribute nothing may be left out. -/
theorem flatMap_filter {α β : Type} (p : α → Bool) (f : α → List β) (l : List α) :
    (l.filter p).flatMap f = l.flatMap fun a => if p a then f a else [] := by
  induction l with
  | nil => rfl
  | cons a l ih => cases hp : p a <;> simp [hp, ih]

/-- When every selected provider is settled, the slots hold the answers of the selected providers
and nothing else. -/
theorem Tracks.results_eq {s : FanState} (h : Tracks c q sel s)
    (hsettled : ∀ idx ∈ sel, Settled c q s idx) :
    s.results = (List.range sel.length).map fun idx =>
      if idx ∈ sel then (c.answer q idx).map Prod.fst else none := by
  refine List.ext_getElem? fun idx => ?_
  rcases Nat.lt_or_ge idx sel.length with hlt | hge
  · obtain ⟨slot, hslot⟩ : ∃ slot, s.results[idx]? = some slot :=
      ⟨_, List.getElem?_eq_getElem (h.length.symm ▸ hlt)⟩
    rw [hslot, List.getElem?_map, List.getElem?_range hlt, Option.map_some]
    congr 1
    cases slot with
    | some commands =>
        obtain ⟨hidx, error, hanswer⟩ := h.stored idx commands hslot
        rw [if_pos hidx, hanswer, Option.map_some]
    | none =>
        split_ifs with hidx
        · cases hanswer : c.answer q idx with
          | none => rfl
          | some answer =>
              have hsome := hsettled idx hidx answer.1 answer.2 hanswer
              exact absurd (hslot.symm.trans hsome) (by simp)
        · rfl
  · rw [List.getElem?_eq_none (h.length.symm ▸ hge), List.getElem?_eq_none (by simpa using hge)]

/-- The slots, one after the other, are the expected commands. -/
theorem Tracks.results_flatMap {s : FanState} (h : Tracks c q sel s)
    (hsettled : ∀ idx ∈ sel, Settled c q s idx) (hsel : sel.Pairwise (· < ·))
    (hslots : ∀ idx ∈ sel, (c.answer q idx).isSome = true → idx < sel.length) :
    (s.results.flatMap fun slot => slot.getD []) = sel.flatMap (c.commandsAt q) := by
  have hplaces : (List.range sel.length).filter (fun idx => decide (idx ∈ sel)) =
      sel.filter fun idx => decide (idx < sel.length) := by
    refine List.Perm.eq_of_pairwise ?_ (List.pairwise_lt_range.filter _) (hsel.filter _) ?_
    · exact fun a b _ _ hab hba => absurd hab (Nat.lt_asymm hba)
    · refine (List.perm_ext_iff_of_nodup (List.nodup_range.filter _) ?_).mpr fun idx => ?_
      · exact (hsel.imp Nat.ne_of_lt).filter _
      · simp [List.mem_filter, and_comm]
  calc (s.results.flatMap fun slot => slot.getD [])
      = (List.range sel.length).flatMap fun idx =>
          if decide (idx ∈ sel) = true then c.commandsAt q idx else [] := by
        rw [h.results_eq hsettled, List.flatMap_map]
        refine List.flatMap_congr fun idx _ => ?_
        by_cases hidx : idx ∈ sel <;> simp [hidx, SearchCoordinator.commandsAt]
    _ = (sel.filter fun idx => decide (idx < sel.length)).flatMap (c.commandsAt q) := by
        rw [← flatMap_filter, hplaces]
    _ = sel.flatMap (c.commandsAt q) := by
        rw [flatMap_filter]
        refine List.flatMap_congr fun idx hidx => ?_
        split_ifs with hlt
        · rfl
        · -- A provider without a slot has nothing to store.
          cases hanswer : c.answer q idx with
          | none => simp [SearchCoordinator.commandsAt, hanswer]
          | some answer =>
              exact absurd (decide_eq_true (hslots idx hidx (by rw [hanswer]; rfl))) hlt

theorem isPanicked_iff {k : Worker} : k.isPanicked = true ↔ k = .panicked := by
  cases k <;> simp [Worker.isPanicked]

theorem any_isPanicked_iff {s : FanState} :
    s.workers.any Worker.isPanicked = true ↔ Worker.panicked ∈ s.workers := by
  rw [List.any_eq_true]
  constructor
  · rintro ⟨k, hk, hpanic⟩
    exact isPanicked_iff.mp hpanic ▸ hk
  · exact fun h => ⟨_, h, rfl⟩

/-- A search without a panic returns what is in the slots. -/
theorem exists_result {s : FanState} (h : Worker.panicked ∉ s.workers) :
    ∃ r, s.result = .returned r ∧ r.commands = s.results.flatMap fun slot => slot.getD [] := by
  unfold FanState.result
  rw [if_neg fun hany => h (any_isPanicked_iff.mp hany)]
  exact ⟨_, rfl, rfl⟩

/-- A thread that has ended has nothing left to store. -/
theorem todo_of_finished {s : FanState} (h : s.finished = true) :
    ∀ k ∈ s.workers, k.todo = [] := by
  intro k hk
  have hended : k.ended = true := List.all_eq_true.mp h k hk
  cases k <;> first | rfl | exact absurd hended (by simp [Worker.ended])

/-- At the end of an undisturbed search every selected provider is settled. -/
theorem Tracks.settled_of_finished {s : FanState} (h : Tracks c q sel s)
    (hfinished : s.finished = true) (hcancelled : s.cancelled = false)
    (hpanic : Worker.panicked ∉ s.workers) : ∀ idx ∈ sel, Settled c q s idx := by
  intro idx hidx
  rcases h.covers hcancelled hpanic idx hidx with ⟨k, hk, htodo⟩ | hsettled
  · rw [todo_of_finished hfinished k hk] at htodo
    exact absurd htodo List.not_mem_nil
  · exact hsettled

variable (c q)

/-- **The fan-out.** Every schedule of the threads ends. Under every schedule the search returns
without a panic, and without a flag that is set returns the commands of the selected providers that
did not panic, in provider order, exactly when every selected provider that answers has its place
among all providers below the number of the selected ones. -/
theorem search_correct_iff (strategy : SearchStrategy) :
    (∀ flag es s, (fanMachine c q).run (c.start strategy flag) es = some s →
      es.countP FanEvent.isWork ≤ (c.start strategy flag).work ∧
      ∃ es' t, (fanMachine c q).run s es' = some t ∧ (∀ e ∈ es', e.isWork = true) ∧
        t.finished = true) ∧
    ((∀ flag es s, (fanMachine c q).run (c.start strategy flag) es = some s →
        s.finished = true → ∃ r, s.result = .returned r ∧
          (flag ≠ some true → FanEvent.setFlag true ∉ es →
            r.commands = c.expected q strategy)) ↔
      ∀ idx ∈ c.selected strategy, (c.answer q idx).isSome = true →
        idx < (c.selected strategy).length) := by
  refine ⟨fun flag es s h => ⟨run_work_le h, exists_finished s⟩, fun hall idx hidx hanswer => ?_,
    fun hslots flag es s hrun hfinished => ?_⟩
  · obtain ⟨es, s, hrun, hes, hfinished⟩ :=
      exists_finished (c := c) (q := q) (c.start strategy none)
    obtain ⟨r, hr, -⟩ := hall none es s hrun hfinished
    have htracks := tracks_run hrun
    have hpanic : Worker.panicked ∉ s.workers := by
      intro hmem
      rw [FanState.result, if_pos (any_isPanicked_iff.mpr hmem)] at hr
      exact absurd hr (by simp)
    have hcancelled : s.cancelled = false :=
      not_cancelled_run hrun (by simp [SearchCoordinator.start]) rfl fun hset =>
        absurd (hes _ hset) (by simp [FanEvent.isWork])
    -- The answer is in its slot, so there is one.
    obtain ⟨⟨commands, error⟩, hsome⟩ := Option.isSome_iff_exists.mp hanswer
    have hslot := htracks.settled_of_finished hfinished hcancelled hpanic idx hidx _ _ hsome
    exact htracks.length ▸ (List.getElem?_eq_some_iff.mp hslot).1
  · have htracks := tracks_run hrun
    have hpanic : Worker.panicked ∉ s.workers := by
      intro hmem
      obtain ⟨idx, hidx, hanswer, hge⟩ := htracks.panics hmem
      exact absurd (hslots idx hidx hanswer) (Nat.not_lt.mpr hge)
    obtain ⟨r, hr, hcommands⟩ := exists_result hpanic
    refine ⟨r, hr, fun hflag hes => ?_⟩
    have hcancelled : s.cancelled = false := not_cancelled_run hrun hflag rfl hes
    rw [hcommands, c.expected_eq]
    exact htracks.results_flatMap
      (htracks.settled_of_finished hfinished hcancelled hpanic) (c.pairwise_selected strategy)
      hslots

end

/-- A coordinator with the applications and a plugin, as it is after registration. -/
def appsAndPlugin : SearchCoordinator where
  providers :=
    [⟨"apps", false, fun _ => some ([], none)⟩, ⟨"plugin", false, fun _ => some ([], none)⟩]
  maxParallelism := 4
  maxInFlightSeen := 0

/-- A query for plugins selects the second provider alone. Its slot would be the second of one, so
the thread that stores its answer panics, and the search with it. -/
theorem appsAndPlugin_panics :
    ¬ ∀ (c : SearchCoordinator) (q : QueryContext) (strategy : SearchStrategy) flag es s,
      (fanMachine c q).run (c.start strategy flag) es = some s → s.finished = true →
        ∃ r, s.result = .returned r ∧ (flag ≠ some true → FanEvent.setFlag true ∉ es →
          r.commands = c.expected q strategy) := by
  intro h
  have hrun : ∃ s, (fanMachine appsAndPlugin ⟨"plugin:calc", "plugin:calc", ["plugin:calc"]⟩).run
      (appsAndPlugin.start (.routed [.plugin]) none) [.work 0, .work 0, .work 0] = some s ∧
      s.finished = true ∧ s.result = .panicked :=
    ⟨_, rfl, rfl, rfl⟩
  obtain ⟨s, hs, hfinished, hpanicked⟩ := hrun
  obtain ⟨r, hr, -⟩ := h _ _ _ _ _ s hs hfinished
  rw [hpanicked] at hr
  exact absurd hr (by simp)

end AuraLauncher.Search
