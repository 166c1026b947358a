import AuraLauncher.Search.RankContract
import Mathlib.Data.List.Perm.Basic

/-!
# Ranking and the order of the candidates

The order in which the rows are sorted speaks of the score, the provider and the id. Two different
candidates of one source can tie in all three; the sort is stable, so the earlier of them comes
first, and the pass that drops repeated sources keeps that one.

* `rankWithBoost_perm` — without such ties the answer does not depend on the order of the
  candidates.
* `rankWithBoost_perm_iff` — some boost and some order tell two candidates apart when, and only
  when, they have one source, both match, and differ in more than the provider's score.
* `exists_perm_rank_ne` — two rows of one id, with different subtitles.
-/

namespace AuraLauncher.Search

open AuraLauncher.Domain AuraLauncher.Lib

section perm

variable (std : RustStd) (score : SearchCommand → QueryContext → ℚ)
  (commands : List SearchCommand) (query : QueryContext)

/-- The command without the score that its provider gave it. -/
def SearchCommand.unscored (c : SearchCommand) : SearchCommand := { c with score := 0 }

theorem scoredRow_eq (boost : SearchCommand → ℚ) (c : SearchCommand) :
    scoredRow score query boost c =
      { c.unscored with score := (scoredRow score query boost c).score } := rfl

/-- Rows with the same score show the same when the candidates do. -/
theorem scoredRow_congr {boost : SearchCommand → ℚ} {a b : SearchCommand}
    (h : a.unscored = b.unscored)
    (hscore : (scoredRow score query boost a).score = (scoredRow score query boost b).score) :
    scoredRow score query boost a = scoredRow score query boost b := by
  rw [scoredRow_eq score query boost a, scoredRow_eq score query boost b, h, hscore]

/-- The answer is a function of the sorted rows. -/
theorem rankWithBoost_congr {commands' : List SearchCommand} {boost : SearchCommand → ℚ}
    (h : matchingRows score commands' query boost = matchingRows score commands query boost)
    (limit : ℕ) : rankWithBoost std score commands' query limit boost =
      rankWithBoost std score commands query limit boost := by
  rw [rankWithBoost_eq, rankWithBoost_eq, allRows, allRows, h]

/-- **Order independence.** When matching candidates of one source with one boosted score differ in
nothing but the provider's score, the answer does not depend on the order of the candidates. -/
theorem rankWithBoost_perm {boost : SearchCommand → ℚ}
    (h : ∀ a ∈ commands, ∀ b ∈ commands, a.source = b.source →
      0 < (scoredRow score query boost a).score →
      (scoredRow score query boost a).score = (scoredRow score query boost b).score →
      a.unscored = b.unscored)
    {commands' : List SearchCommand} (hperm : commands'.Perm commands) (limit : ℕ) :
    rankWithBoost std score commands' query limit boost =
      rankWithBoost std score commands query limit boost := by
  refine rankWithBoost_congr std score commands query ?_ limit
  refine List.Perm.eq_of_pairwise ?_ (pairwise_matchingRows score commands' query boost)
    (pairwise_matchingRows score commands query boost) ?_
  · -- Rows that tie are equal, because their candidates are.
    intro v w hv hw hvw hwv
    obtain ⟨a, ha, rfl, hpos⟩ := (mem_matchingRows score commands' query boost).mp hv
    obtain ⟨b, hb, rfl, -⟩ := (mem_matchingRows score commands query boost).mp hw
    obtain ⟨hscore, hsource⟩ := hvw.antisymm hwv
    exact scoredRow_congr score query
      (h a (hperm.subset ha) b hb hsource hpos hscore) hscore
  · refine (List.perm_insertionSort RankLe _).trans (List.Perm.trans ?_
      (List.perm_insertionSort RankLe _).symm)
    exact (hperm.map _).filter _

/-- The first of the candidates is the answer, when whatever else matches ties with it. -/
theorem rankWithBoost_cons_of_ties {boost : SearchCommand → ℚ} {a : SearchCommand}
    {rest : List SearchCommand} (hpos : 0 < (scoredRow score query boost a).score)
    (hties : ∀ b ∈ rest, 0 < (scoredRow score query boost b).score → b.source = a.source ∧
      (scoredRow score query boost b).score = (scoredRow score query boost a).score) :
    rankWithBoost std score (a :: rest) query 1 boost = [scoredRow score query boost a] := by
  have hrows : matchingRows score (a :: rest) query boost =
      scoredRow score query boost a :: matchingRows score rest query boost := by
    unfold matchingRows
    rw [List.map_cons, List.filter_cons_of_pos (by simpa using hpos)]
    refine List.insertionSort_cons_of_forall_rel RankLe fun v hv => ?_
    obtain ⟨hv, hvpos⟩ := List.mem_filter.mp hv
    obtain ⟨b, hb, rfl⟩ := List.mem_map.mp hv
    obtain ⟨hsource, hscore⟩ := hties b hb (by simpa using hvpos)
    obtain ⟨hprovider, hid⟩ := Prod.mk.inj hsource
    have hle : a.id ≤ b.id := hid ▸ String.le_refl a.id
    exact .inr ⟨hscore.symm, .inr ⟨hprovider.symm, hle⟩⟩
  have hfirst : firstsBy SearchCommand.source
      (scoredRow score query boost a :: matchingRows score rest query boost) =
      [scoredRow score query boost a] := by
    refine firstsBy_cons_of_forall fun v hv => ?_
    obtain ⟨b, hb, rfl, hbpos⟩ := (mem_matchingRows score rest query boost).mp hv
    exact (hties b hb hbpos).1
  rw [rankWithBoost_eq, allRows, hrows, dropRepeated_eq, hfirst]
  rfl

/-- **Where the order shows.** Every boost, every limit and every order of the candidates give the
same answer exactly when matching candidates of one source differ in nothing but the provider's
score. -/
theorem rankWithBoost_perm_iff :
    (∀ (boost : SearchCommand → ℚ) (limit : ℕ) (commands' : List SearchCommand),
      commands'.Perm commands → rankWithBoost std score commands' query limit boost =
        rankWithBoost std score commands query limit boost) ↔
    ∀ a ∈ commands, ∀ b ∈ commands, a.source = b.source → 0 < score a query →
      0 < score b query → a.unscored = b.unscored := by
  classical
  constructor
  · intro hall a ha b hb hsource hapos hbpos
    -- A boost that leaves only the two, with one score.
    let boost : SearchCommand → ℚ := fun c =>
      if c = a ∨ c = b then 1 - score c query else - score c query
    have hboth : ∀ c, c = a ∨ c = b → (scoredRow score query boost c).score = 1 := by
      rintro c (rfl | rfl)
      · simp [scoredRow, boost, hapos]
      · simp [scoredRow, boost, hbpos]
    have hother : ∀ c, ¬ (c = a ∨ c = b) → ¬ 0 < (scoredRow score query boost c).score := by
      intro c hc
      by_cases hcpos : 0 < score c query <;> simp [scoredRow, boost, hc, hcpos]
    have hanswer : ∀ c ∈ commands, c = a ∨ c = b →
        rankWithBoost std score commands query 1 boost = [scoredRow score query boost c] := by
      intro c hc hcab
      have hpos : 0 < (scoredRow score query boost c).score := by
        rw [hboth c hcab]
        exact one_pos
      rw [← hall boost 1 (c :: commands.erase c) (List.perm_cons_erase hc).symm]
      refine rankWithBoost_cons_of_ties std score query hpos ?_
      intro d _ hd
      have hdab : d = a ∨ d = b := by
        by_contra hdab
        exact hother d hdab hd
      refine ⟨?_, (hboth d hdab).trans (hboth c hcab).symm⟩
      rcases hcab with rfl | rfl <;> rcases hdab with rfl | rfl <;>
        first | rfl | exact hsource | exact hsource.symm
    have hrow : scoredRow score query boost a = scoredRow score query boost b :=
      List.singleton_inj.mp ((hanswer a ha (.inl rfl)).symm.trans (hanswer b hb (.inr rfl)))
    have hunscored := congrArg SearchCommand.unscored hrow
    exact hunscored
  · intro h boost limit commands' hperm
    refine rankWithBoost_perm std score commands query ?_ hperm limit
    intro a ha b hb hsource hpos hscore
    exact h a ha b hb hsource (base_pos score query boost hpos)
      (base_pos score query boost (hscore ▸ hpos))

end perm

/-- An application that one provider lists twice, from two folders. -/
def listedTwice : List SearchCommand :=
  [{ fromProvider "np" "Notepad" "apps" .application 0 with subtitle := some "C:\\Windows" },
    { fromProvider "np" "Notepad" "apps" .application 0 with subtitle := some "D:\\Tools" }]

/-- The answer shows the folder that came first. -/
theorem exists_perm_rank_ne :
    ¬ ∀ (query : QueryContext) (boost : SearchCommand → ℚ) (limit : ℕ)
        (commands commands' : List SearchCommand), commands'.Perm commands →
      rankWithBoost RustStd.ascii (score SearchStd.ascii) commands' query limit boost =
        rankWithBoost RustStd.ascii (score SearchStd.ascii) commands query limit boost := by
  intro h
  have hanswers := congrArg (List.map SearchCommand.subtitle)
    (h (QueryContext.parse SearchStd.ascii.lower "notepad") (fun _ => 0) 10 listedTwice
      listedTwice.reverse (List.reverse_perm listedTwice))
  exact absurd hanswers (by decide +kernel)

end AuraLauncher.Search
