import AuraLauncher.Lib.Machine
import AuraLauncher.Runtime.Manager

/-!
# The crash budget of a runtime

`launcher-runtime/src/runtime_manager.rs`: the restarts that were admitted are counted apart from
the runtimes, so that a runtime that crashes again and again gets no new budget when it is stopped
and started. Whatever else is done, the answers to the crashes of a key depend on how many there
were: a delay from the list for each restart of the budget, and then a refusal. A key whose text is
that of another one shares the budget with it.

* `ManagerOp`, `manager` — the operations on all runtimes.
* `crashAnswers`, `RuntimePolicy.answer` — what `on_crash` answers in a run, and what it should.
* `CountsFor`, `crashAnswers_eq` — the crashes that are counted for a key only.
* `lastUsed`, `Guards` — when a runtime was used, and what may not be done to one in use.
* `crash_budget` — all of it, for every run.
* `not_keepsBudget_mcp` — a server that is refused its first delay.
-/

namespace AuraLauncher.Runtime

open AuraLauncher.Lib

universe u

/-! ## The operations -/

namespace RuntimeManager

variable {V : Type u} (m : RuntimeManager V)

/-- Idle for longer than the policy allows, and not busy; the difference is what `duration_since`
gives, zero if the activity is the later. -/
def isIdle (policy : RuntimePolicy) (now : ℕ) (e : RuntimeEntry V) : Bool :=
  match policy.idleTimeout with
  | none => false
  | some timeout => !e.busy && timeout < now - e.lastActivity

/-- What is removed under each text, and the manager without it. Source: `runtime_manager.rs`,
`RuntimeManager::sweep_idle`. -/
def sweepIdle (policy : RuntimePolicy) (now : ℕ) : (String → Option V) × RuntimeManager V :=
  (fun text => ((m text).entry.filter (isIdle policy now)).map RuntimeEntry.value,
    fun text => { m text with entry := (m text).entry.filter fun e => !isIdle policy now e })

/-- Source: `runtime_manager.rs`, `RuntimeManager::shutdown_all`. -/
def shutdownAll : (String → Option V) × RuntimeManager V :=
  (fun text => (m text).entry.map RuntimeEntry.value, fun text => { m text with entry := none })

/-- Source: `runtime_manager.rs`, `RuntimeManager::new`. -/
def new : RuntimeManager V := fun _ => RuntimeCell.empty

end RuntimeManager

/-- An operation on one runtime, or on all of them. -/
inductive ManagerOp (V : Type u)
  | ofKey (k : RuntimeKey) (op : RuntimeOp V)
  | sweepIdle (policy : RuntimePolicy) (now : ℕ)
  | shutdownAll

/-- What an operation makes of the manager. -/
def ManagerOp.act {V : Type u} : ManagerOp V → RuntimeManager V → RuntimeManager V
  | .ofKey k op, m => changeCell RuntimeKey.storageKey m (k, op.act)
  | .sweepIdle policy now, m => (m.sweepIdle policy now).2
  | .shutdownAll, m => m.shutdownAll.2

theorem ManagerOp.act_ofKey {V : Type u} (k : RuntimeKey) (op : RuntimeOp V) (m : RuntimeManager V)
    (text : String) : (ManagerOp.ofKey k op).act m text =
      if text = k.storageKey then op.act (m k.storageKey) else m text :=
  Function.update_apply _ _ _ _

/-- The manager under its operations. -/
def manager (V : Type u) : Machine (RuntimeManager V) (ManagerOp V) where
  step m op := some (op.act m)

/-! ## The answers to crashes -/

/-- The answer to a crash with `i` crashes before it: the delay of its slot, the last one when there
are no more, while there is a budget. -/
def RuntimePolicy.answer (policy : RuntimePolicy) (i : ℕ) : Except RuntimeManagerError ℕ :=
  if i < policy.maxRestarts.toNat then
    .ok (policy.restartBackoff[min i (policy.restartBackoff.length - 1)]?.getD 100)
  else .error .restartBudgetExhausted

variable {V : Type u}

/-- The answer to an operation, if it is `on_crash` of the key. -/
def ManagerOp.crashAnswer (k : RuntimeKey) (m : RuntimeManager V) :
    ManagerOp V → Option (Except RuntimeManagerError ℕ)
  | .ofKey k' (.onCrash policy) =>
      if k' = k then some ((m k.storageKey).onCrash policy).1 else none
  | _ => none

/-- What `on_crash` of the key answers in a run. -/
def crashAnswers (k : RuntimeKey) :
    RuntimeManager V → List (ManagerOp V) → List (Except RuntimeManagerError ℕ)
  | _, [] => []
  | m, op :: ops => (op.crashAnswer k m).toList ++ crashAnswers k (op.act m) ops

/-- The delays among the answers. -/
def delays (k : RuntimeKey) (ops : List (ManagerOp V)) : List ℕ :=
  (crashAnswers k .new ops).filterMap Except.toOption

/-- No more restarts than the budget has, the `n`-th after the `n`-th delay of the list, or after
the last one when the list is used up. -/
structure KeepsBudget (policy : RuntimePolicy) (ds : List ℕ) : Prop where
  length_le : ds.length ≤ policy.maxRestarts.toNat
  delay : ∀ n d, ds[n]? = some d →
    policy.restartBackoff[min n (policy.restartBackoff.length - 1)]? = some d

/-- The policy of every crash. -/
def FixedPolicy (policy : RuntimePolicy) (op : ManagerOp V) : Prop :=
  match op with
  | .ofKey _ (.onCrash policy') => policy' = policy
  | _ => True

/-- A crash that is counted under the text of the key is one of the key, or there is no budget for
it, and the counter does not wrap. -/
def CountsFor (k : RuntimeKey) (m : RuntimeManager V) (op : ManagerOp V) : Prop :=
  match op with
  | .ofKey k' (.onCrash policy) => k'.storageKey = k.storageKey →
      (m k.storageKey).restartCount.getD 0 ≠ 4294967295 ∧
        ((m k.storageKey).restartCount.getD 0 < policy.maxRestarts → k' = k)
  | _ => True

instance CountsFor.decidable (k : RuntimeKey) (m : RuntimeManager V) :
    ∀ op, Decidable (CountsFor k m op)
  | .ofKey k' (.onCrash policy) => inferInstanceAs (Decidable (k'.storageKey = k.storageKey →
      (m k.storageKey).restartCount.getD 0 ≠ 4294967295 ∧
        ((m k.storageKey).restartCount.getD 0 < policy.maxRestarts → k' = k)))
  | .ofKey _ (.useRuntime _ _) | .ofKey _ (.dropGuard _ _) | .ofKey _ .markBusy
  | .ofKey _ .release | .sweepIdle _ _ | .shutdownAll => .isTrue trivial

/-- The restarts that were admitted under the text of the key. -/
def RuntimeManager.restarts (m : RuntimeManager V) (k : RuntimeKey) : ℕ :=
  ((m k.storageKey).restartCount.getD 0).toNat

section answers

theorem RuntimeOp.restartCount_act {op : RuntimeOp V} (h : ∀ policy, op ≠ .onCrash policy)
    (c : RuntimeCell V) : (op.act c).restartCount = c.restartCount := by
  cases op with
  | useRuntime spawned now =>
      unfold RuntimeOp.act RuntimeCell.useRuntime
      dsimp only
      split
      · rfl
      · split
        · rfl
        · split <;> rfl
  | dropGuard used now => rfl
  | markBusy => rfl
  | onCrash policy => exact absurd rfl (h policy)
  | release =>
      unfold RuntimeOp.act RuntimeCell.release
      dsimp only
      split <;> rfl

/-- An operation that is no crash under the text leaves the count. -/
theorem restarts_act_of_ne {k : RuntimeKey} {op : ManagerOp V}
    (h : ∀ k' policy, op = .ofKey k' (.onCrash policy) → k'.storageKey ≠ k.storageKey)
    (m : RuntimeManager V) : (op.act m).restarts k = m.restarts k := by
  cases op with
  | ofKey k' op =>
      by_cases htext : k'.storageKey = k.storageKey
      · have hop : ∀ policy, op ≠ .onCrash policy := by
          rintro policy rfl
          exact h k' policy rfl htext
        rw [RuntimeManager.restarts, ManagerOp.act_ofKey, if_pos htext.symm,
          RuntimeOp.restartCount_act hop, htext]
        rfl
      · rw [RuntimeManager.restarts, ManagerOp.act_ofKey, if_neg (Ne.symm htext)]
        rfl
  | sweepIdle policy now => rfl
  | shutdownAll => rfl

theorem crashAnswer_of_ne {k : RuntimeKey} {op : ManagerOp V}
    (h : ∀ k' policy, op = .ofKey k' (.onCrash policy) → k'.storageKey ≠ k.storageKey)
    (m : RuntimeManager V) : op.crashAnswer k m = none := by
  unfold ManagerOp.crashAnswer
  split
  · next k' policy =>
      refine if_neg ?_
      rintro rfl
      exact h k' policy rfl rfl
  · rfl

/-- The answer to a crash and the count after it. -/
theorem RuntimeCell.onCrash_eq {policy : RuntimePolicy} (hpolicy : policy.restartPolicy = .onCrash)
    {c : RuntimeCell V} {i : ℕ}
    (hcount : (c.restartCount.getD 0).toNat = min i policy.maxRestarts.toNat)
    (hwrap : c.restartCount.getD 0 ≠ 4294967295) :
    (c.onCrash policy).1 = policy.answer i ∧
      ((c.onCrash policy).2.restartCount.getD 0).toNat = min (i + 1) policy.maxRestarts.toNat := by
  generalize hold : c.restartCount.getD 0 = count at hcount hwrap
  have hnext : (count + 1).toNat = count.toNat + 1 := by
    have hlt := count.toNat_lt
    have hne : count.toNat ≠ 4294967295 := fun heq => hwrap (UInt32.toNat_inj.mp heq)
    rw [UInt32.toNat_add]
    simp only [UInt32.toNat_one]
    omega
  have hslot : count + 1 - 1 = count := UInt32.add_sub_cancel count 1
  unfold onCrash RuntimePolicy.answer
  simp only [hpolicy, reduceCtorEq, if_false, hold, UInt32.lt_iff_toNat_lt, hnext, hslot]
  by_cases hbudget : i < policy.maxRestarts.toNat
  · rw [if_neg (by omega), if_pos hbudget]
    have hcounted : count.toNat = i := by omega
    rw [hcounted]
    refine ⟨rfl, ?_⟩
    rw [Option.getD_some, hnext]
    omega
  · rw [if_pos (by omega), if_neg hbudget]
    refine ⟨rfl, ?_⟩
    rw [hold]
    omega

/-- **The answers to the crashes of a key** depend on how many there were, whatever else is done. -/
theorem crashAnswers_eq {policy : RuntimePolicy} (hpolicy : policy.restartPolicy = .onCrash)
    {k : RuntimeKey} {ops : List (ManagerOp V)} (hfixed : ∀ op ∈ ops, FixedPolicy policy op)
    {m : RuntimeManager V} (halong : (manager V).Along (CountsFor k) m ops) {i : ℕ}
    (hcount : m.restarts k = min i policy.maxRestarts.toNat) :
    crashAnswers k m ops =
      (List.range' i (crashAnswers k m ops).length).map policy.answer := by
  induction ops generalizing m i with
  | nil => rfl
  | cons op ops ih =>
      have hrest := fun op hop => hfixed op (List.mem_cons_of_mem _ hop)
      have hnext := halong.2 (op.act m) rfl
      by_cases hcrash : ∃ k' p, op = .ofKey k' (.onCrash p) ∧ k'.storageKey = k.storageKey
      · obtain ⟨k', p, rfl, htext⟩ := hcrash
        obtain rfl : p = policy := hfixed _ List.mem_cons_self
        obtain ⟨hwrap, hbudget⟩ := halong.1 htext
        have hstep := RuntimeCell.onCrash_eq hpolicy hcount hwrap
        have hact : (ManagerOp.act (.ofKey k' (.onCrash p)) m).restarts k =
            min (i + 1) p.maxRestarts.toNat := by
          rw [RuntimeManager.restarts, ManagerOp.act_ofKey, if_pos htext.symm, htext]
          exact hstep.2
        by_cases hkey : k' = k
        · rw [crashAnswers, ManagerOp.crashAnswer, if_pos hkey, hstep.1, Option.toList_some,
            List.singleton_append, List.length_cons, List.range'_succ, List.map_cons]
          exact congrArg _ (ih hrest hnext hact)
        · -- another key is counted here only when there is no budget for it
          have hfull : p.maxRestarts.toNat ≤ i := by
            by_contra hlt
            refine hkey (hbudget (UInt32.lt_iff_toNat_lt.mpr ?_))
            have hcount' : ((m k.storageKey).restartCount.getD 0).toNat = _ := hcount
            omega
          rw [crashAnswers, ManagerOp.crashAnswer, if_neg hkey]
          exact ih hrest hnext (hact.trans (by omega))
      · have hno : ∀ k' p, op = .ofKey k' (.onCrash p) → k'.storageKey ≠ k.storageKey :=
          fun k' p hop htext => hcrash ⟨k', p, hop, htext⟩
        rw [crashAnswers, crashAnswer_of_ne hno]
        exact ih hrest hnext ((restarts_act_of_ne hno m).trans hcount)

theorem filterMap_answer (policy : RuntimePolicy) (n : ℕ) :
    ((List.range n).map policy.answer).filterMap Except.toOption =
      (List.range (min n policy.maxRestarts.toNat)).map fun i =>
        policy.restartBackoff[min i (policy.restartBackoff.length - 1)]?.getD 100 := by
  induction n with
  | zero => simp
  | succ n ih =>
      rw [List.range_succ, List.map_append, List.filterMap_append, ih]
      by_cases hn : n < policy.maxRestarts.toNat
      · have hmin : min (n + 1) policy.maxRestarts.toNat = n + 1 := by omega
        rw [hmin, List.range_succ, List.map_append, min_eq_left hn.le]
        simp [RuntimePolicy.answer, hn, Except.toOption]
      · rw [min_eq_right (by omega), min_eq_right (by omega)]
        simp [RuntimePolicy.answer, hn, Except.toOption]

theorem keepsBudget_of_answers {policy : RuntimePolicy} (hbackoff : policy.restartBackoff ≠ [])
    (n : ℕ) :
    KeepsBudget policy (((List.range n).map policy.answer).filterMap Except.toOption) := by
  rw [filterMap_answer]
  constructor
  · rw [List.length_map, List.length_range]
    exact min_le_right _ _
  · intro i d hd
    rw [List.getElem?_map, Option.map_eq_some_iff] at hd
    obtain ⟨j, hj, rfl⟩ := hd
    obtain ⟨hlt, rfl⟩ := List.getElem?_eq_some_iff.mp hj
    have hpos : 0 < policy.restartBackoff.length := List.length_pos_iff.mpr hbackoff
    have hslot : min i (policy.restartBackoff.length - 1) < policy.restartBackoff.length := by omega
    rw [List.getElem_range, List.getElem?_eq_getElem hslot, Option.getD_some]

end answers

/-! ## Runtimes in use -/

/-- The time of the operation, if with it a guard is given or dropped. -/
def RuntimeOp.usedAt (c : RuntimeCell V) : RuntimeOp V → Option ℕ
  | .useRuntime spawned now => if (c.useRuntime spawned now).1.isOk then some now else none
  | .dropGuard _ now => some now
  | _ => none

/-- The time of the operation, if it uses the runtime under the text. -/
def ManagerOp.usedAt (text : String) (m : RuntimeManager V) : ManagerOp V → Option ℕ
  | .ofKey k op => if k.storageKey = text then op.usedAt (m text) else none
  | _ => none

/-- When the runtime under the text was last used in a run. -/
def lastUsed (text : String) : RuntimeManager V → List (ManagerOp V) → Option ℕ
  | _, [] => none
  | m, op :: ops => (lastUsed text (op.act m) ops).or (op.usedAt text m)

/-- What may not be done to a runtime in use, in the state after a run. -/
structure Guards (past : List (ManagerOp V)) (m : RuntimeManager V) : Prop where
  use : ∀ (k : RuntimeKey) spawned now, ((m k.storageKey).useRuntime spawned now).1.isOk →
    (m k.storageKey).isBusy = false
  release : ∀ k text e, (m text).entry = some e →
    ((ManagerOp.ofKey k .release).act m text).entry = none → e.busy = false
  sweep : ∀ policy now text e, (m text).entry = some e →
    ((ManagerOp.sweepIdle policy now).act m text).entry = none → e.busy = false ∧
      ∃ timeout used, policy.idleTimeout = some timeout ∧ lastUsed text .new past = some used ∧
        timeout < now - used

section guards

theorem isBusy_of_useRuntime {c : RuntimeCell V} {spawned : Option V} {now : ℕ}
    (h : (c.useRuntime spawned now).1.isOk) : c.isBusy = false := by
  by_contra hbusy
  rw [Bool.not_eq_false] at hbusy
  simp [RuntimeCell.useRuntime, hbusy, Except.isOk, Except.toBool] at h

theorem busy_of_release {c : RuntimeCell V} {e : RuntimeEntry V} (he : c.entry = some e)
    (h : c.release.2.entry = none) : e.busy = false := by
  by_contra hbusy
  rw [Bool.not_eq_false] at hbusy
  simp [RuntimeCell.release, RuntimeCell.isBusy, he, hbusy] at h

theorem isIdle_iff {policy : RuntimePolicy} {now : ℕ} {e : RuntimeEntry V} :
    RuntimeManager.isIdle policy now e = true ↔
      e.busy = false ∧ ∃ timeout, policy.idleTimeout = some timeout ∧
        timeout < now - e.lastActivity := by
  unfold RuntimeManager.isIdle
  cases policy.idleTimeout <;> simp

theorem lastUsed_append (text : String) {m m' : RuntimeManager V} {past : List (ManagerOp V)}
    (hrun : (manager V).run m past = some m') (op : ManagerOp V) :
    lastUsed text m (past ++ [op]) = (op.usedAt text m').or (lastUsed text m past) := by
  induction past generalizing m with
  | nil =>
      obtain rfl := Option.some.inj hrun
      simp [lastUsed]
  | cons first past ih =>
      obtain ⟨m₁, hstep, hrest⟩ := (manager V).run_cons_eq_some.mp hrun
      obtain rfl := Option.some.inj hstep
      rw [List.cons_append, lastUsed, ih hrest, lastUsed, Option.or_assoc]

/-- A use that is refused leaves the cell, and any other marks the runtime. -/
theorem RuntimeCell.useRuntime_cases (c : RuntimeCell V) (spawned : Option V) (now : ℕ) :
    (c.useRuntime spawned now).1.isOk = false ∧ (c.useRuntime spawned now).2 = c ∨
      (c.useRuntime spawned now).1.isOk = true ∧
        ∃ v, (c.useRuntime spawned now).2.entry = some ⟨v, now, true⟩ := by
  unfold useRuntime
  by_cases hbusy : c.isBusy = true
  · rw [if_pos hbusy]
    exact .inl ⟨rfl, rfl⟩
  · rw [if_neg hbusy]
    cases c.entry with
    | some e => exact .inr ⟨rfl, e.value, rfl⟩
    | none =>
        cases spawned with
        | some v => exact .inr ⟨rfl, v, rfl⟩
        | none => exact .inl ⟨rfl, rfl⟩

/-- The activity of a runtime after an operation is the use that was made of it, or that of
before. -/
theorem RuntimeOp.lastActivity_act {op : RuntimeOp V} {c : RuntimeCell V} {e : RuntimeEntry V}
    (he : (op.act c).entry = some e) :
    op.usedAt c = some e.lastActivity ∨
      op.usedAt c = none ∧ c.entry.map RuntimeEntry.lastActivity = some e.lastActivity := by
  cases op with
  | useRuntime spawned now =>
      have hafter : (c.useRuntime spawned now).2.entry = some e := he
      rcases c.useRuntime_cases spawned now with ⟨hrefused, hsame⟩ | ⟨hok, v, hnew⟩
      · rw [hsame] at hafter
        exact .inr ⟨by simp [RuntimeOp.usedAt, hrefused], by rw [hafter, Option.map_some]⟩
      · obtain rfl := Option.some.inj (hnew.symm.trans hafter)
        exact .inl (by simp [RuntimeOp.usedAt, hok])
  | dropGuard used now =>
      obtain ⟨e₀, -, rfl⟩ := Option.map_eq_some_iff.mp he
      exact .inl rfl
  | markBusy =>
      obtain ⟨e₀, he₀, rfl⟩ := Option.map_eq_some_iff.mp he
      exact .inr ⟨rfl, by rw [he₀, Option.map_some]⟩
  | onCrash policy =>
      unfold RuntimeOp.act RuntimeCell.onCrash at he
      dsimp only at he
      split_ifs at he
  | release =>
      unfold RuntimeOp.act RuntimeCell.release at he
      dsimp only at he
      split_ifs at he
      exact .inr ⟨rfl, by rw [he, Option.map_some]⟩

theorem ManagerOp.lastActivity_act {op : ManagerOp V} {m : RuntimeManager V} {text : String}
    {e : RuntimeEntry V} (he : (op.act m text).entry = some e) :
    op.usedAt text m = some e.lastActivity ∨
      op.usedAt text m = none ∧
        (m text).entry.map RuntimeEntry.lastActivity = some e.lastActivity := by
  cases op with
  | ofKey k op =>
      rw [ManagerOp.act_ofKey] at he
      simp only [ManagerOp.usedAt]
      by_cases htext : text = k.storageKey
      · subst htext
        rw [if_pos rfl] at he ⊢
        exact RuntimeOp.lastActivity_act he
      · rw [if_neg htext] at he
        rw [if_neg (Ne.symm htext)]
        exact .inr ⟨rfl, by rw [he, Option.map_some]⟩
  | sweepIdle policy now =>
      obtain ⟨he, -⟩ := Option.filter_eq_some_iff.mp he
      exact .inr ⟨rfl, by rw [he, Option.map_some]⟩
  | shutdownAll => cases he

/-- The activity that is kept of a runtime is its last use. -/
theorem lastUsed_eq {past : List (ManagerOp V)} {m : RuntimeManager V}
    (hrun : (manager V).run .new past = some m) {text : String} {e : RuntimeEntry V}
    (he : (m text).entry = some e) : lastUsed text .new past = some e.lastActivity := by
  induction past using List.reverseRecOn generalizing m e with
  | nil =>
      obtain rfl := Option.some.inj hrun
      cases he
  | append_singleton past op ih =>
      obtain ⟨m₀, hpast, hstep⟩ := (manager V).run_append_eq_some.mp hrun
      obtain rfl : op.act m₀ = m := by simpa [Machine.run, manager] using hstep
      rw [lastUsed_append text hpast]
      rcases ManagerOp.lastActivity_act he with hused | ⟨hunused, hold⟩
      · rw [hused, Option.some_or]
      · obtain ⟨e₀, he₀, hactivity⟩ := Option.map_eq_some_iff.mp hold
        rw [hunused, Option.none_or, ih hpast he₀, hactivity]

/-- **Runtimes in use** are neither handed out nor removed. -/
theorem guards_of_run {past : List (ManagerOp V)} {m : RuntimeManager V}
    (hrun : (manager V).run .new past = some m) : Guards past m where
  use k spawned now := isBusy_of_useRuntime
  release k text e he hgone := by
    rw [ManagerOp.act_ofKey] at hgone
    split_ifs at hgone with htext
    · subst htext
      exact busy_of_release he hgone
    · rw [he] at hgone
      cases hgone
  sweep policy now text e he hgone := by
    have hidle : RuntimeManager.isIdle policy now e = true := by
      have hfilter : (m text).entry.filter (fun e => !RuntimeManager.isIdle policy now e) = none :=
        hgone
      simpa [he, Option.filter] using hfilter
    obtain ⟨hbusy, timeout, htimeout, hlt⟩ := isIdle_iff.mp hidle
    exact ⟨hbusy, timeout, e.lastActivity, htimeout, lastUsed_eq hrun he, hlt⟩

end guards

/-! ## The budget -/

/-- **The crash budget.** In every run in which the crashes that are counted for a key are its own,
the key gets the restarts of its budget, each after its delay, whatever else is done; and in every
state of every run a runtime in use is neither handed out nor removed. -/
theorem crash_budget (policy : RuntimePolicy) (hpolicy : policy.restartPolicy = .onCrash)
    (hbackoff : policy.restartBackoff ≠ []) (k : RuntimeKey) (ops : List (ManagerOp V))
    (hfixed : ∀ op ∈ ops, FixedPolicy policy op)
    (halong : (manager V).Along (CountsFor k) .new ops) :
    KeepsBudget policy (delays k ops) ∧
      (∀ i a, (crashAnswers k .new ops)[i]? = some a → a = policy.answer i) ∧
      ∀ past m, past <+: ops → (manager V).run .new past = some m → Guards past m := by
  have hanswers := crashAnswers_eq hpolicy hfixed halong (i := 0) (Nat.zero_min _).symm
  rw [← List.range_eq_range'] at hanswers
  refine ⟨?_, fun i a ha => ?_, fun past m _ hrun => guards_of_run hrun⟩
  · unfold delays
    rw [hanswers]
    exact keepsBudget_of_answers hbackoff _
  · rw [hanswers, List.getElem?_map, Option.map_eq_some_iff] at ha
    obtain ⟨j, hj, rfl⟩ := ha
    obtain ⟨-, rfl⟩ := List.getElem?_eq_some_iff.mp hj
    rw [List.getElem_range]

/-- A plugin that crashes, is stopped, and crashes again. -/
theorem crash_budget_plugin :
    KeepsBudget .default (delays (RuntimeKey.plugin "p")
      [.ofKey (.plugin "p") (.useRuntime (some ()) 5), .ofKey (.plugin "p") (.onCrash .default),
        .ofKey (.plugin "p") (.useRuntime (some ()) 9), .ofKey (.plugin "q") (.onCrash .default),
        .shutdownAll, .ofKey (.plugin "p") (.onCrash .default)]) :=
  (crash_budget .default rfl (List.cons_ne_nil _ _) (RuntimeKey.plugin "p") _
    (by simp [FixedPolicy]) (by decide)).1

/-- The first crash of the server `a/b` is answered with the second delay, after a crash of the
server `a` with the profile `b`. -/
theorem not_keepsBudget_mcp :
    RuntimePolicy.default.restartPolicy = .onCrash ∧ RuntimePolicy.default.restartBackoff ≠ [] ∧
      delays (RuntimeKey.mcp "a/b" none)
        ([.ofKey (.mcp "a" (some "b")) (.onCrash .default),
          .ofKey (.mcp "a/b" none) (.onCrash .default)] : List (ManagerOp Unit)) = [500] ∧
      ¬ KeepsBudget .default [500] := by
  refine ⟨rfl, List.cons_ne_nil _ _, by decide, fun h => ?_⟩
  exact absurd (h.delay 0 500 rfl) (by decide)

end AuraLauncher.Runtime
