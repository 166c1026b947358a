import AuraLauncher.Agent.Bounded
import Mathlib.Algebra.Ring.Nat
import Mathlib.Data.List.Forall2

/-!
# The accounts of a bounded run

What the host returns for a turn is noted in the record of the turn, which is written when the turn
is over. A turn that stops at a proposal that needs confirmation is not written down, so that what
was executed before it in the turn is in no record of the outcome.

* `Ledger` — the executions, the turn records and all that was handed to the host.
* `Accounted` — what the ledger of a run should be.
* `round_ledger` — what a round enters.
* `LosesRecords`, `accounted_iff` — the turns that are not written down, and the runs with accounts.
* `not_accounted_confirmed` — a run whose only execution is in no record.
-/

namespace AuraLauncher.Agent

open AuraLauncher.Lib

/-- What a run is to account for. -/
structure Ledger where
  executions : ℕ
  turnRecords : List AgentTurnRecord
  handed : List Handed

variable {C W : Type}

def AgentState.ledger (s : AgentState W) : Ledger := ⟨s.budget.executions, s.turnRecords, s.handed⟩

def AgentRunOutcome.ledger (o : AgentRunOutcome) : Ledger := ⟨o.executions, o.turnRecords, o.handed⟩

/-- The record of the turn is of these records of the host, each noted once, as a success or as a
failure. -/
def AgentTurnRecord.Notes (record : AgentTurnRecord) (records : List ExecutionRecord) : Prop :=
  record.executed = recordIds true records ∧ record.failed = recordIds false records

/-- The calls of the host are counted and within their limit, and all records that they returned
fall to the turn records, each to one. -/
structure Accounted (limits : AgentLimits) (l : Ledger) : Prop where
  executions : l.executions = l.handed.length
  bounded : l.executions ≤ limits.maxTotalExecutions
  recorded : ∃ groups : List (List ExecutionRecord), groups.flatten = returned l.handed ∧
    List.Forall₂ AgentTurnRecord.Notes l.turnRecords groups

/-- The turn that comes next notes something, and then stops at a proposal that needs
confirmation. -/
def LosesRecords (host : AgentExecutionHost C W) (planner : ActionPlanner C W) (goal : String)
    (s : AgentState W) : Prop :=
  (s.nextTurn host planner goal).needsConfirmation = true ∧
    ((s.nextTurn host planner goal).executed ≠ [] ∨ (s.nextTurn host planner goal).failed ≠ [])

variable {host : AgentExecutionHost C W} {planner : ActionPlanner C W} {goal : String}
  {limits : AgentLimits}

/-! ## Counting -/

theorem returned_append (handed handed' : List Handed) :
    returned (handed ++ handed') = returned handed ++ returned handed' :=
  List.flatMap_append

/-- A record is of a success or of a failure. -/
theorem length_recordIds (records : List ExecutionRecord) :
    (recordIds true records).length + (recordIds false records).length = records.length := by
  induction records with
  | nil => rfl
  | cons r records ih =>
      unfold recordIds at ih ⊢
      cases hr : r.ok <;> simp [hr] at ih ⊢ <;> omega

/-- The ids that the turn records have, counted. -/
def AgentTurnRecord.total (records : List AgentTurnRecord) : ℕ :=
  (records.map fun r => r.executed.length + r.failed.length).sum

theorem total_of_notes {turnRecords : List AgentTurnRecord} {groups : List (List ExecutionRecord)}
    (h : List.Forall₂ AgentTurnRecord.Notes turnRecords groups) :
    AgentTurnRecord.total turnRecords = groups.flatten.length := by
  induction h with
  | nil => rfl
  | cons hnotes _ ih =>
      unfold AgentTurnRecord.total at ih ⊢
      rw [List.map_cons, List.sum_cons, ih, hnotes.1, hnotes.2, length_recordIds,
        List.flatten_cons, List.length_append]

/-! ## What a round enters -/

/-- The ledger after a turn, which is written down unless it stopped for a confirmation. -/
theorem afterTurn_ledger (goal : String) (s : AgentState W) (proposals : List ActionProposal)
    (t : Turn W) :
    ∃ record : AgentTurnRecord, record.executed = t.executed ∧ record.failed = t.failed ∧
      (s.afterTurn goal proposals t).elim AgentState.ledger AgentRunOutcome.ledger =
        ⟨t.budget.executions,
          if t.needsConfirmation then s.turnRecords else s.turnRecords ++ [record], t.handed⟩ := by
  have hspent : (if t.failed = [] then t.budget else t.budget.recordFailure).executions =
      t.budget.executions := by
    split_ifs <;> rfl
  refine ⟨⟨(if t.failed = [] then t.budget else t.budget.recordFailure).turns, goal,
    proposals.length, t.executed, t.failed⟩, rfl, rfl, ?_⟩
  unfold AgentState.afterTurn
  dsimp only
  generalize (if t.failed = [] then t.budget else t.budget.recordFailure) = budget at hspent ⊢
  by_cases hconfirm : t.needsConfirmation = true
  · rw [if_pos hconfirm, if_pos hconfirm]
    rfl
  · rw [if_neg hconfirm, if_neg hconfirm, ← hspent]
    split_ifs <;> rfl

theorem needsConfirmation_of_afterTurn_inl {s s' : AgentState W} {proposals : List ActionProposal}
    {t : Turn W} (h : s.afterTurn goal proposals t = .inl s') : t.needsConfirmation = false := by
  by_contra hconfirm
  rw [Bool.not_eq_false] at hconfirm
  unfold AgentState.afterTurn at h
  dsimp only at h
  rw [if_pos hconfirm] at h
  cases h

/-- The ledger of what a round leads to. -/
def ledgerOf : AgentState W ⊕ AgentRunOutcome → Ledger :=
  Sum.elim AgentState.ledger AgentRunOutcome.ledger

/-- **What a round enters**: nothing, or the calls of a turn and the records they returned, which
are in a turn record unless the turn stops for a confirmation. -/
theorem round_ledger (host : AgentExecutionHost C W) (planner : ActionPlanner C W) (goal : String)
    (s : AgentState W) :
    (ledgerOf (s.round host planner goal) = s.ledger ∧
        (s.Starts host → ¬ LosesRecords host planner goal s)) ∨
      s.Starts host ∧ ∃ new record,
        Turned ⟨s.budget.recordTurn.recordProposals (s.nextProposals host planner goal).length,
            s.observation, [], [], false, (s.nextPlan host planner goal).2, s.handed⟩
          (s.nextProposals host planner goal) (s.nextTurn host planner goal) new ∧
        record.Notes (returned new) ∧
        ledgerOf (s.round host planner goal) = ⟨s.budget.executions + new.length,
          if (s.nextTurn host planner goal).needsConfirmation then s.turnRecords
          else s.turnRecords ++ [record], s.handed ++ new⟩ := by
  by_cases hstart : s.Starts host
  · have hgo : s.budget.canStartTurn (host.elapsedMs s.world).1 = .continue := hstart
    by_cases hnil : s.nextProposals host planner goal = []
    · refine .inl ⟨?_, fun _ hloses => ?_⟩
      · unfold AgentState.round
        rw [if_neg (not_not.mpr hgo), if_pos hnil]
        rfl
      · have hturn : (s.nextTurn host planner goal).needsConfirmation = false := by
          unfold AgentState.nextTurn AgentState.turn
          rw [hnil]
          rfl
        rw [hloses.1] at hturn
        cases hturn
    · obtain ⟨new, hhanded, hnew⟩ := nextTurn_turned host planner goal s
      obtain ⟨record, hexecuted, hfailed, hledger⟩ := afterTurn_ledger goal s
        (s.nextProposals host planner goal) (s.nextTurn host planner goal)
      refine .inr ⟨hstart, new, record, hnew, ⟨?_, ?_⟩, ?_⟩
      · exact hexecuted.trans hnew.executed
      · exact hfailed.trans hnew.failed
      · unfold AgentState.round ledgerOf
        rw [if_neg (not_not.mpr hgo), if_neg hnil, hledger, hnew.executions, hhanded]
        rfl
  · have hstop : s.budget.canStartTurn (host.elapsedMs s.world).1 ≠ .continue := hstart
    refine .inl ⟨?_, fun h => absurd h hstart⟩
    unfold AgentState.round
    rw [if_pos hstop]
    rfl

/-- The turn that comes next loses records exactly when it returned some and is not written
down. -/
theorem losesRecords_iff {s : AgentState W} {new : List Handed} {t : Turn W}
    {proposals : List ActionProposal} (ht : t.executed = [] ∧ t.failed = [])
    (hnew : Turned t proposals (s.nextTurn host planner goal) new) :
    LosesRecords host planner goal s ↔
      (s.nextTurn host planner goal).needsConfirmation = true ∧ returned new ≠ [] := by
  refine and_congr_right fun _ => ?_
  rw [hnew.executed, hnew.failed, ht.1, ht.2, List.nil_append, List.nil_append,
    ← List.length_pos_iff, ← List.length_pos_iff, ← List.length_pos_iff, ← length_recordIds]
  omega

/-- **What a round needs** to leave an accounted ledger. -/
theorem accounted_round_iff (host : AgentExecutionHost C W) (planner : ActionPlanner C W)
    (goal : String) {s : AgentState W} (hs : Accounted limits s.ledger)
    (hlimits : s.budget.limits = limits) :
    Accounted limits (ledgerOf (s.round host planner goal)) ↔
      (s.Starts host → ¬ LosesRecords host planner goal s) := by
  rcases round_ledger host planner goal s with
    ⟨hsame, hno⟩ | ⟨hstart, new, record, hnew, hnotes, hl⟩
  · rw [hsame]
    exact iff_of_true hs hno
  · obtain ⟨groups, hgroups, hrecords⟩ := hs.recorded
    have hcount : s.budget.executions + new.length = (s.handed ++ new).length := by
      rw [List.length_append]
      exact congrArg (· + new.length) hs.executions
    have hbound : s.budget.executions + new.length ≤ limits.maxTotalExecutions := by
      have hturn := hnew.bounded (hlimits ▸ hs.bounded)
      rw [hnew.executions] at hturn
      exact hlimits ▸ hturn
    rw [hl, losesRecords_iff ⟨rfl, rfl⟩ hnew]
    cases hconfirm : (s.nextTurn host planner goal).needsConfirmation with
    | false =>
        refine iff_of_true ⟨hcount, hbound, groups ++ [returned new], ?_, ?_⟩ (by simp)
        · rw [List.flatten_append, hgroups, List.flatten_singleton, returned_append]
          rfl
        · exact List.rel_append hrecords (.cons hnotes .nil)
    | true =>
        simp only [true_and, not_not, if_true, forall_prop_of_true hstart]
        constructor
        · -- the turn records have no more ids than before
          rintro ⟨-, -, groups', hgroups', hrecords'⟩
          have htotal := (total_of_notes hrecords).symm.trans (total_of_notes hrecords')
          rw [hgroups, hgroups', returned_append, List.length_append] at htotal
          rw [← List.length_eq_zero_iff]
          have hledger : (returned s.ledger.handed).length = (returned s.handed).length := rfl
          omega
        · intro hnone
          refine ⟨hcount, hbound, groups, ?_, hrecords⟩
          rw [hgroups, returned_append, hnone, List.append_nil]
          rfl

/-! ## The run -/

/-- A turn that is followed by another one was written down. -/
theorem not_losesRecords_of_inl {s s' : AgentState W} (h : s.round host planner goal = .inl s') :
    ¬ LosesRecords host planner goal s := by
  rintro ⟨hconfirm, -⟩
  rcases round_cases host planner goal s with ⟨o, hstop, -⟩ | ⟨-, hturn⟩
  · rw [hstop] at h
    cases h
  · rw [needsConfirmation_of_afterTurn_inl (hturn.symm.trans h)] at hconfirm
    cases hconfirm

/-- What holds between two turns. -/
theorem accounted_of_reaches {w : W} {s : AgentState W}
    (h : (boundedLoop host planner goal).Reaches (.init limits w) s) :
    Accounted limits s.ledger ∧ s.budget.limits = limits := by
  obtain ⟨n, hn⟩ := h
  refine (boundedLoop host planner goal).passes_induct
    (I := fun s => Accounted limits s.ledger ∧ s.budget.limits = limits) ?_ ?_ hn
  · rintro s s' ⟨hs, hlimits⟩ hbody
    have hround : s.round host planner goal = .inl s' := hbody
    obtain ⟨-, -, -, -, hlimits', -⟩ := round_eq_inl hround
    have hkept := (accounted_round_iff host planner goal hs hlimits).mpr fun _ =>
      not_losesRecords_of_inl hround
    rw [hround] at hkept
    exact ⟨hkept, hlimits'.trans hlimits⟩
  · exact ⟨⟨rfl, Nat.zero_le _, [], rfl, .nil⟩, rfl⟩

/-- **The accounts of a run.** The calls of the host are counted and within their limit, and every
record that they returned is in one turn record of the outcome, exactly when no turn stops for a
confirmation after it noted something. -/
theorem accounted_iff (host : AgentExecutionHost C W) (planner : ActionPlanner C W) (goal : String)
    (limits : AgentLimits) (w : W) :
    Accounted limits (runBoundedAgent host planner goal limits w).ledger ↔
      ∀ s, (boundedLoop host planner goal).Reaches (.init limits w) s → s.Starts host →
        ¬ LosesRecords host planner goal s := by
  have hexit : ∀ s, (boundedLoop host planner goal).Reaches (.init limits w) s →
      (boundedLoop host planner goal).body s = .inr (runBoundedAgent host planner goal limits w) →
      (Accounted limits (runBoundedAgent host planner goal limits w).ledger ↔
        (s.Starts host → ¬ LosesRecords host planner goal s)) := by
    intro s hreach hbody
    obtain ⟨hs, hlimits⟩ := accounted_of_reaches hreach
    have hround : s.round host planner goal =
        .inr (runBoundedAgent host planner goal limits w) := hbody
    rw [← accounted_round_iff host planner goal hs hlimits, hround]
    rfl
  constructor
  · intro hall s hreach
    cases hbody : (boundedLoop host planner goal).body s with
    | inl s' => exact fun _ => not_losesRecords_of_inl hbody
    | inr o =>
        obtain rfl : o = runBoundedAgent host planner goal limits w :=
          ((boundedLoop host planner goal).run_of_inr hbody).symm.trans hreach.run_eq.symm
        exact (hexit s hreach hbody).mp hall
  · intro hnone
    obtain ⟨n, s, -, hn, hbody⟩ := (boundedLoop host planner goal).exists_passes_run
      (.init limits w)
    exact (hexit s ⟨n, hn⟩ hbody).mpr (hnone s ⟨n, hn⟩)

/-- A host that asks for the confirmation of the action `ask`, and records a success of any
other. -/
def askingHost : AgentExecutionHost Unit Unit where
  catalog w := ([], w)
  execute proposals w := (proposals.map fun _ => ⟨some "e", true⟩, w)
  confirmationRequired p w := (p.actionId == "ask", w)
  elapsedMs w := (0, w)

/-- An action is executed, the next one needs confirmation, and the execution is in no record. -/
theorem not_accounted_confirmed :
    ¬∀ (host : AgentExecutionHost Unit Unit) (planner : ActionPlanner Unit Unit) (goal : String)
      (limits : AgentLimits),
      Accounted limits (runBoundedAgent host planner goal limits ()).ledger := by
  intro h
  obtain ⟨-, -, groups, hgroups, hnotes⟩ := h askingHost (.withDefaultReplan fun _ _ w =>
    ([⟨"p", "c", "run", .null⟩, ⟨"p", "c", "ask", .null⟩], w)) "goal" .default
  have hrun : (runBoundedAgent askingHost (.withDefaultReplan fun _ _ w =>
      ([⟨"p", "c", "run", .null⟩, ⟨"p", "c", "ask", .null⟩], w)) "goal" .default ()).ledger =
      ⟨1, [], [⟨⟨"p", "c", "run", .null⟩, [⟨some "e", true⟩]⟩]⟩ := rfl
  rw [hrun] at hgroups hnotes
  cases hnotes
  cases hgroups

end AuraLauncher.Agent
