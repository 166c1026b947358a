import AuraLauncher.Lib.Machine
import AuraLauncher.Plugin.Provider

/-!
# When a plugin is quarantined

The rule is that three protocol failures in a row quarantine a plugin. What is counted is something
else: the registry's count, which decides when a registry is attached, is reset by a refused action
only, and a discovery is not counted at all.

* `streak` — the protocol failures at the end of a history; `counted` — the failures the deciding
  count has in it, read off the history.
* `PluginHost.Counts` — the deciding count is that of the history, and the flags follow it; every
  call keeps this (`Counts.call`).
* `FailureInStep`, `InStep` — the failures at which the two counts reach three together.
* `quarantined_iff_along` — a run follows the rule in every state if and only if all its failures
  are of that kind.
-/

namespace AuraLauncher.Plugin

open AuraLauncher.Lib

/-- The protocol failures at the end of a history that is kept newest first. -/
def streak (sent : List Request) : ℕ :=
  (sent.takeWhile fun r => decide (r.outcome = .protocolFailure)).length

/-- The request adds to the count. -/
def counts : RequestKind → Outcome → Bool
  | .discover, _ => false
  | _, .protocolFailure => true
  | _, _ => false

/-- The request resets the count that decides: a refused action does, and a query that succeeds
does when the provider's own count decides. -/
def resets (attached : Bool) : RequestKind → Outcome → Bool
  | .discover, _ => false
  | .query _, .success => !attached
  | _, .businessFailure => true
  | _, _ => false

/-- The failures counted since the last reset. -/
def counted (attached : Bool) : List Request → ℕ
  | [] => 0
  | r :: past =>
      if resets attached r.kind r.outcome then 0
      else if counts r.kind r.outcome then counted attached past + 1
      else counted attached past

/-- A protocol failure after which the count and the streak are at three together or both below:
a failed discovery that is not the third in a row, or another failure that is the third in a row
when, and only when, it is the third that is counted. -/
def FailureInStep (attached : Bool) (past : List Request) : RequestKind → Prop
  | .discover => streak past ≠ 2
  | _ => counted attached past = 2 ↔ streak past = 2

namespace PluginHost

/-- The flag that decides: the registry's when there is one, else the provider's. -/
def isQuarantined (h : PluginHost) : Bool :=
  if h.provider.registry then h.marks.quarantined else h.provider.quarantined

/-- The count that decides. -/
def counter (h : PluginHost) : ℕ :=
  if h.provider.registry then h.marks.protocolFailures else h.provider.protocolFailures

/-- The deciding count is that of the history, and both flags follow it. -/
structure Counts (h : PluginHost) : Prop where
  counter_eq : h.counter = counted h.provider.registry h.sent
  cached_le : h.provider.protocolFailures ≤ h.counter
  flag_eq : h.isQuarantined = decide (quarantineThreshold ≤ h.counter)
  cached_flag_eq : h.provider.quarantined = h.isQuarantined

/-- A provider that has just been made, for a plugin without failures. -/
structure Fresh (h : PluginHost) : Prop where
  sent_eq : h.sent = []
  cached_eq : h.provider.protocolFailures = 0 ∧ h.provider.quarantined = false
  marks_eq : h.marks.protocolFailures = 0 ∧ h.marks.quarantined = false

theorem Fresh.counts {h : PluginHost} (hfresh : h.Fresh) : h.Counts := by
  obtain ⟨hsent, ⟨hcached, hflag⟩, hmarks, hmarked⟩ := hfresh
  have hcounter : h.counter = 0 := by simp [counter, hcached, hmarks]
  have hquarantined : h.isQuarantined = false := by simp [isQuarantined, hflag, hmarked]
  refine ⟨?_, ?_, ?_, ?_⟩
  · rw [hcounter, hsent]
    rfl
  · rw [hcounter, hcached]
  · rw [hcounter, hquarantined]
    rfl
  · rw [hflag, hquarantined]

/-- A provider made for a plugin the registry has no failures of. -/
theorem fresh_setRegistry {reg : PluginRegistry} {id : String}
    (hreg : (reg.state id).protocolFailures = 0 ∧ (reg.state id).quarantined = false) :
    Fresh ⟨reg, (PluginProvider.fromManifest id).setRegistry reg, []⟩ :=
  ⟨rfl, hreg, hreg⟩

/-- A plugin in quarantine is sent nothing. -/
theorem Counts.not_quarantined {h : PluginHost} (hcounts : h.Counts) {c : Call}
    {r : RequestKind × Outcome} (hr : h.request? c = some r) : h.isQuarantined = false := by
  cases c with
  | query text w =>
      obtain ⟨hno, -⟩ := Option.ite_none_left_eq_some.mp hr
      have hrefused : h.queryRefused = false := by
        rw [Bool.or_eq_true, not_or] at hno
        exact Bool.eq_false_iff.mpr hno.1
      unfold queryRefused at hrefused
      unfold isQuarantined
      split_ifs at hrefused ⊢ with hreg
      · exact (Bool.or_eq_false_iff.mp hrefused).1
      · exact (Bool.or_eq_false_iff.mp hrefused).2
  | execute actionId input executionId generation w =>
      obtain ⟨hno, -⟩ := Option.ite_none_left_eq_some.mp hr
      rw [Bool.or_eq_true, Bool.or_eq_true, not_or, not_or] at hno
      rw [← hcounts.cached_flag_eq]
      exact Bool.eq_false_iff.mpr hno.1.1

/-! ## What a request does to the counts -/

theorem counter_countFailure (h : PluginHost) : h.countFailure.counter = h.counter + 1 := by
  unfold counter
  by_cases hreg : h.provider.registry = true
  · have hmarks : h.countFailure.marks.protocolFailures = h.marks.protocolFailures + 1 := by
      show PluginLifecycleState.protocolFailures (PluginRegistry.state
        (if h.provider.registry then _ else _) h.provider.id) = _
      rw [if_pos hreg, PluginRegistry.state_recordFailure]
      rfl
    rw [if_pos hreg, ← hmarks]
    exact if_pos hreg
  · rw [if_neg hreg]
    exact if_neg hreg

theorem isQuarantined_countFailure {h : PluginHost} (hq : h.isQuarantined = false) :
    h.countFailure.isQuarantined = decide (quarantineThreshold ≤ h.counter + 1) := by
  unfold isQuarantined counter at *
  by_cases hreg : h.provider.registry = true
  · have hmarks : h.countFailure.marks.quarantined =
        decide (quarantineThreshold ≤ h.marks.protocolFailures + 1) := by
      show PluginLifecycleState.quarantined (PluginRegistry.state
        (if h.provider.registry then _ else _) h.provider.id) = _
      rw [if_pos hreg, PluginRegistry.state_recordFailure]
      rfl
    rw [if_pos hreg, ← hmarks]
    exact if_pos hreg
  · rw [if_neg hreg] at hq ⊢
    refine (if_neg hreg).trans ?_
    show (if quarantineThreshold ≤ h.provider.protocolFailures + 1 then true
      else if h.provider.registry then _ else h.provider.quarantined) = _
    rw [if_neg hreg, hq]
    split_ifs with hle <;> simp [hle]

theorem cached_flag_countFailure {h : PluginHost} (hle : h.provider.protocolFailures ≤ h.counter)
    (hq : h.isQuarantined = false) (hflag : h.provider.quarantined = h.isQuarantined) :
    h.countFailure.provider.quarantined = decide (quarantineThreshold ≤ h.counter + 1) := by
  show (if quarantineThreshold ≤ h.provider.protocolFailures + 1 then true
    else if h.provider.registry then (h.registry.recordFailure h.provider.id).2
    else h.provider.quarantined) = _
  by_cases hthird : quarantineThreshold ≤ h.provider.protocolFailures + 1
  · rw [if_pos hthird, decide_eq_true (by omega)]
  · rw [if_neg hthird]
    by_cases hreg : h.provider.registry = true
    · rw [if_pos hreg, PluginRegistry.recordFailure_snd, counter, if_pos hreg]
      rfl
    · have hcounter : h.counter = h.provider.protocolFailures := if_neg hreg
      rw [if_neg hreg, hflag, hq, hcounter, decide_eq_false hthird]

theorem marks_resetBoth (h : PluginHost) :
    h.resetBoth.marks = if h.provider.registry then
      { h.marks with protocolFailures := 0, quarantined := false } else h.marks := by
  by_cases hreg : h.provider.registry = true
  · rw [if_pos hreg]
    show PluginRegistry.state (if h.provider.registry then _ else _) h.provider.id = _
    rw [if_pos hreg, PluginRegistry.state_recordSuccess]
    rfl
  · rw [if_neg hreg]
    show PluginRegistry.state (if h.provider.registry then _ else _) h.provider.id = _
    rw [if_neg hreg]
    rfl

theorem counts_withSent {h : PluginHost} {s : List Request}
    (hcounter : h.counter = counted h.provider.registry s)
    (hle : h.provider.protocolFailures ≤ h.counter)
    (hflag : h.isQuarantined = decide (quarantineThreshold ≤ h.counter))
    (hcached : h.provider.quarantined = h.isQuarantined) : Counts { h with sent := s } :=
  ⟨hcounter, hle, hflag, hcached⟩

/-- A reset of the deciding count clears the flags. -/
theorem counts_withSent_zero {h : PluginHost} {s : List Request}
    (hs : counted h.provider.registry s = 0) (hzero : h.counter = 0)
    (hle : h.provider.protocolFailures = 0) (hclear : h.isQuarantined = false)
    (hcached : h.provider.quarantined = false) : Counts { h with sent := s } := by
  refine counts_withSent (hzero.trans hs.symm) ?_ ?_ (hcached.trans hclear.symm)
  · rw [hle]
    exact Nat.zero_le _
  · rw [hclear, hzero]
    rfl

theorem Counts.countFailure {h : PluginHost} (hcounts : h.Counts) (hq : h.isQuarantined = false)
    {s : List Request}
    (hs : counted h.provider.registry s = counted h.provider.registry h.sent + 1) :
    Counts { h.countFailure with sent := s } := by
  have hcount := h.counter_countFailure
  refine counts_withSent ?_ ?_ ?_ ?_
  · rw [hcount, hcounts.counter_eq]
    exact hs.symm
  · rw [hcount]
    exact Nat.succ_le_succ hcounts.cached_le
  · rw [hcount, isQuarantined_countFailure hq]
  · rw [cached_flag_countFailure hcounts.cached_le hq hcounts.cached_flag_eq,
      isQuarantined_countFailure hq]

theorem Counts.resetBoth {h : PluginHost} (hcounts : h.Counts) (hq : h.isQuarantined = false)
    {s : List Request} (hs : counted h.provider.registry s = 0) :
    Counts { h.resetBoth with sent := s } := by
  have hcached : h.provider.quarantined = false := hcounts.cached_flag_eq.trans hq
  have hmarks := h.marks_resetBoth
  refine counts_withSent_zero hs ?_ rfl ?_ hcached
  · unfold counter
    by_cases hreg : h.provider.registry = true
    · rw [hmarks, if_pos hreg]
      exact if_pos hreg
    · exact if_neg hreg
  · unfold isQuarantined
    by_cases hreg : h.provider.registry = true
    · rw [hmarks, if_pos hreg]
      exact if_pos hreg
    · exact (if_neg hreg).trans hcached

theorem Counts.resetCached {h : PluginHost} (hcounts : h.Counts) (hq : h.isQuarantined = false)
    {s : List Request}
    (hs : counted h.provider.registry s =
      if h.provider.registry then counted h.provider.registry h.sent else 0) :
    Counts { h.resetCached with sent := s } := by
  by_cases hreg : h.provider.registry = true
  · rw [if_pos hreg] at hs
    have hcount : h.resetCached.counter = h.counter := (if_pos hreg).trans (if_pos hreg).symm
    have hmark : h.resetCached.isQuarantined = h.isQuarantined :=
      (if_pos hreg).trans (if_pos hreg).symm
    refine counts_withSent ?_ (Nat.zero_le _) ?_ (hcounts.cached_flag_eq.trans hmark.symm)
    · rw [hcount, hcounts.counter_eq]
      exact hs.symm
    · rw [hcount, hmark, hcounts.flag_eq]
  · have hcached : h.provider.quarantined = false := hcounts.cached_flag_eq.trans hq
    rw [if_neg hreg] at hs
    exact counts_withSent_zero hs (if_neg hreg) rfl ((if_neg hreg).trans hcached) hcached

/-- Every request keeps the counts in step with the history. -/
theorem Counts.after {h : PluginHost} (hcounts : h.Counts) (hq : h.isQuarantined = false)
    (kind : RequestKind) (outcome : Outcome) : (h.after kind outcome).Counts := by
  have hkeep : ∀ s, counted h.provider.registry s = counted h.provider.registry h.sent →
      Counts { h with sent := s } := fun s hs => counts_withSent
    (hcounts.counter_eq.trans hs.symm) hcounts.cached_le hcounts.flag_eq hcounts.cached_flag_eq
  cases kind with
  | discover => exact hkeep _ rfl
  | query text =>
      cases outcome with
      | success =>
          refine hcounts.resetCached hq ?_
          cases h.provider.registry with
          | false => rfl
          | true => rfl
      | protocolFailure => exact hcounts.countFailure hq rfl
      | businessFailure => exact hcounts.resetBoth hq rfl
  | execute actionId input executionId generation =>
      cases outcome with
      | success => exact hkeep _ rfl
      | protocolFailure => exact hcounts.countFailure hq rfl
      | businessFailure => exact hcounts.resetBoth hq rfl

/-! ## The rule -/

/-- The plugin is quarantined exactly when the last three requests were protocol failures. -/
def FollowsRule (h : PluginHost) : Prop := h.isQuarantined = true ↔ 3 ≤ streak h.sent

/-- If the call sends a request that fails, the failure is in step. -/
def InStep (h : PluginHost) (c : Call) : Prop :=
  ∀ kind, h.request? c = some (kind, .protocolFailure) →
    FailureInStep h.provider.registry h.sent kind

theorem Counts.followsRule_iff {h : PluginHost} (hcounts : h.Counts) :
    h.FollowsRule ↔ (3 ≤ counted h.provider.registry h.sent ↔ 3 ≤ streak h.sent) := by
  rw [FollowsRule, hcounts.flag_eq, hcounts.counter_eq, decide_eq_true_iff]
  rfl

theorem after_sent (h : PluginHost) (kind : RequestKind) (outcome : Outcome) :
    (h.after kind outcome).sent = ⟨kind, outcome, h.marks⟩ :: h.sent := by
  cases kind <;> cases outcome <;> rfl

theorem after_attached (h : PluginHost) (kind : RequestKind) (outcome : Outcome) :
    (h.after kind outcome).provider.registry = h.provider.registry := by
  cases kind <;> cases outcome <;> rfl

theorem streak_cons (r : Request) (past : List Request) :
    streak (r :: past) = if r.outcome = .protocolFailure then streak past + 1 else 0 := by
  unfold streak
  split_ifs with h <;> simp [h]

/-- Without a failure to count, the count does not grow. -/
theorem counted_cons_le {attached : Bool} {r : Request} {past : List Request}
    (h : counts r.kind r.outcome = false) :
    counted attached (r :: past) ≤ counted attached past := by
  rw [counted, h, if_neg Bool.false_ne_true]
  split_ifs
  · exact Nat.zero_le _
  · exact Nat.le_refl _

/-- A request of a plugin that is not in quarantine keeps to the rule exactly when its failure is
in step. -/
theorem after_followsRule {h : PluginHost} (hcounts : h.Counts) (hrule : h.FollowsRule)
    (hq : h.isQuarantined = false) (kind : RequestKind) (outcome : Outcome) :
    (h.after kind outcome).FollowsRule ↔
      (outcome = .protocolFailure → FailureInStep h.provider.registry h.sent kind) := by
  have hshort : ¬ 3 ≤ streak h.sent := fun hle => by
    have := hrule.mpr hle
    rw [hq] at this
    cases this
  have hfew : ¬ 3 ≤ counted h.provider.registry h.sent := fun hle =>
    hshort ((hcounts.followsRule_iff.mp hrule).mp hle)
  rw [(hcounts.after hq kind outcome).followsRule_iff, after_sent, after_attached, streak_cons]
  cases outcome with
  | protocolFailure =>
      rw [if_pos rfl, forall_prop_of_true rfl]
      cases kind with
      | discover =>
          show (3 ≤ counted _ h.sent ↔ _) ↔ streak h.sent ≠ 2
          omega
      | query text =>
          show (3 ≤ counted _ h.sent + 1 ↔ _) ↔ (counted _ h.sent = 2 ↔ streak h.sent = 2)
          omega
      | execute actionId input executionId generation =>
          show (3 ≤ counted _ h.sent + 1 ↔ _) ↔ (counted _ h.sent = 2 ↔ streak h.sent = 2)
          omega
  | success =>
      refine iff_of_true (iff_of_false (fun hle => hfew (hle.trans ?_)) (by simp)) (by simp)
      exact counted_cons_le (by cases kind <;> rfl)
  | businessFailure =>
      refine iff_of_true (iff_of_false (fun hle => hfew (hle.trans ?_)) (by simp)) (by simp)
      exact counted_cons_le (by cases kind <;> rfl)

theorem counts_settle {h : PluginHost} : h.settle.Counts ↔ h.Counts :=
  ⟨fun ⟨a, b, c, d⟩ => ⟨a, b, c, d⟩, fun ⟨a, b, c, d⟩ => ⟨a, b, c, d⟩⟩

theorem followsRule_settle {h : PluginHost} : h.settle.FollowsRule ↔ h.FollowsRule := Iff.rfl

/-- A call keeps the counts. -/
theorem Counts.call {h : PluginHost} (hcounts : h.Counts) (c : Call) : (h.call c).Counts := by
  rw [← counts_settle, h.call_settle c]
  cases hr : h.request? c with
  | none => exact counts_settle.mpr hcounts
  | some r => exact counts_settle.mpr (hcounts.after (hcounts.not_quarantined hr) r.1 r.2)

/-- **One call** goes on following the rule exactly when a failure of its request is in step. -/
theorem call_followsRule {h : PluginHost} (hcounts : h.Counts) (hrule : h.FollowsRule) (c : Call) :
    (h.call c).FollowsRule ↔ h.InStep c := by
  rw [← followsRule_settle, h.call_settle c]
  cases hr : h.request? c with
  | none => exact iff_of_true hrule fun _ h' => by rw [hr] at h'; cases h'
  | some r =>
      obtain ⟨kind, outcome⟩ := r
      have hq := hcounts.not_quarantined hr
      refine (after_followsRule hcounts hrule hq kind outcome).trans ?_
      simp only [InStep, hr, Option.some.injEq, Prod.mk.injEq]
      exact ⟨fun hstep k hk => hk.1 ▸ hstep hk.2, fun hstep ho => hstep kind ⟨rfl, ho⟩⟩

end PluginHost

/-- Calls, one after the other. -/
def calls : Machine PluginHost Call := ⟨fun h c => some (h.call c)⟩

/-- **The quarantine rule.** Over calls routed through a fresh provider, the plugin is in every
state quarantined exactly when its last three requests were protocol failures, if and only if every
failure on the way is in step. -/
theorem quarantined_iff_along {start : PluginHost} (hfresh : start.Fresh) (cs : List Call) :
    (∀ h, calls.Visits start cs h → (h.isQuarantined = true ↔ 3 ≤ streak h.sent)) ↔
      calls.Along PluginHost.InStep start cs := by
  have hstart : start.Counts := hfresh.counts
  have hrule : start.FollowsRule := by
    rw [hstart.followsRule_iff, hfresh.sent_eq]
    exact Iff.rfl
  rw [← calls.forall_visits_iff_along (I := fun h => h.Counts ∧ h.FollowsRule)
    (fun h c _ => ⟨_, rfl⟩) ?_ ⟨hstart, hrule⟩]
  · constructor
    · rintro hall h ⟨bs, hbs, hrun⟩
      refine ⟨?_, hall h ⟨bs, hbs, hrun⟩⟩
      refine calls.run_inv_of_step (fun h c h' hcounts hstep => ?_) hstart hrun
      obtain rfl := Option.some.inj hstep
      exact hcounts.call c
    · exact fun hall h hvisit => (hall h hvisit).2
  · rintro h c h' ⟨hcounts, hfollows⟩ hstep
    obtain rfl := Option.some.inj hstep
    exact (and_iff_right (hcounts.call c)).trans (PluginHost.call_followsRule hcounts hfollows c)

/-- A fresh provider of a plugin the registry has never seen. -/
def freshHost : PluginHost :=
  ⟨fun _ => none, (PluginProvider.fromManifest "p").setRegistry fun _ => none, []⟩

/-- A query, answered or not. -/
def queryCall (ok : Bool) : Call :=
  .query "a" ⟨true, false, .ok (), if ok then .ok [] else .error .noResponse, .error .noResponse⟩

/-- Three failed queries in a row quarantine the plugin. -/
theorem quarantined_iff_along_three :
    (((freshHost.call (queryCall false)).call (queryCall false)).call
      (queryCall false)).isQuarantined = true := by
  have halong : calls.Along PluginHost.InStep freshHost
      [queryCall false, queryCall false, queryCall false] := by
    refine ⟨fun _ hk => ?_, fun _ h₁ => ?_⟩
    · obtain rfl := (Prod.mk.inj (Option.some.inj hk)).1
      exact (by decide : 0 = 2 ↔ 0 = 2)
    obtain rfl := Option.some.inj h₁
    refine ⟨fun _ hk => ?_, fun _ h₂ => ?_⟩
    · obtain rfl := (Prod.mk.inj (Option.some.inj hk)).1
      exact (by decide : 1 = 2 ↔ 1 = 2)
    obtain rfl := Option.some.inj h₂
    refine ⟨fun _ hk => ?_, fun _ _ => trivial⟩
    obtain rfl := (Prod.mk.inj (Option.some.inj hk)).1
    exact (by decide : 2 = 2 ↔ 2 = 2)
  have hrule := (quarantined_iff_along (PluginHost.fresh_setRegistry ⟨rfl, rfl⟩) _).mpr halong
  exact (hrule _ ⟨_, List.prefix_rfl, rfl⟩).mpr (by decide)

/-- A plugin that answers every other query is quarantined at its third failure. -/
theorem quarantined_not_after_streak :
    ¬ ∀ (start : PluginHost), start.Fresh → ∀ cs h, calls.run start cs = some h →
      (h.isQuarantined = true ↔ 3 ≤ streak h.sent) := by
  intro hall
  have hiff := hall freshHost (PluginHost.fresh_setRegistry ⟨rfl, rfl⟩)
    [queryCall false, queryCall true, queryCall false, queryCall true, queryCall false] _ rfl
  exact absurd (hiff.mp (by decide)) (by decide)

end AuraLauncher.Plugin
