import AuraLauncher.Lib.While
import Mathlib.Algebra.GroupWithZero.Nat
import Mathlib.Data.Fintype.Card
import Mathlib.Data.Fintype.Sets
import Mathlib.Data.Fintype.EquivFin
import Mathlib.Logic.Relation
import Mathlib.Order.WellFounded

/-!
# Searching a finite directed graph

A graph is its list of edges, duplicates and loops allowed, over any type with decidable equality.

* `Digraph.reach E a` — the depth-first search from `a` with an explicit stack.
  `mem_reach_iff`: it lists exactly the nodes reachable from `a`.
* `Digraph.paint E colour a` — one depth-first search that paints nodes `visiting` and `done`, again
  with an explicit stack, and stops at the first node it meets again while it is being visited.
  `Digraph.paintAll E starts` runs it from every start in turn.
* `paintAll_isOk_iff`, `paint_isOk_iff` — the search comes through exactly on the acyclic graphs,
  when its starts give it every edge.
* `Acyclic.exists_minimal` — in an acyclic graph every nonempty finite set of nodes has a member
  without a predecessor in the set.
* `Acyclic.iff_extra`, `reflTransGen_of_extra` — two graphs compared by the edges that only one of
  them has.

The colour invariant has two halves. `Threaded` reads the stack downwards: the entries being
visited form a path, so meeting one of them again closes a cycle. `Covered` reads it upwards: what
a visited node still waits for lies above it, so a node is `done` only after all its successors.
-/

set_option linter.unusedSectionVars false

namespace AuraLauncher.Lib.Digraph

open Relation

variable {α : Type*} [DecidableEq α]

/-- The edge relation of an edge list. -/
def Edge (E : List (α × α)) (x y : α) : Prop := (x, y) ∈ E

/-- No node reaches itself along at least one edge. -/
def Acyclic (E : List (α × α)) : Prop := ∀ x, ¬ TransGen (Edge E) x x

/-- The successors of `x`, in the order of the edges. -/
def succs (E : List (α × α)) (x : α) : List α := (E.filter (·.1 = x)).map (·.2)

@[simp] theorem mem_succs {E : List (α × α)} {x y : α} : y ∈ succs E x ↔ Edge E x y := by
  simp [succs, Edge]

/-- Dropping the edges out of `x` from a count of edges, when none of them was excluded before. -/
theorem countP_eq_succs_add (E : List (α × α)) (p : α → Bool) (x : α) (hx : p x = true) :
    E.countP (fun e => p e.1) =
      (succs E x).length + E.countP (fun e => p e.1 && !decide (e.1 = x)) := by
  induction E with
  | nil => rfl
  | cons e E ih =>
      by_cases he : e.1 = x
      · simp only [succs, he, hx, decide_true, List.filter_cons_of_pos, List.map_cons,
          List.length_cons, List.countP_cons, Bool.not_true, Bool.and_false] at ih ⊢
        simp only [if_true, Bool.false_eq_true, if_false]
        omega
      · simp only [succs, he, decide_false, Bool.false_eq_true, not_false_eq_true,
          List.filter_cons_of_neg, List.countP_cons, Bool.not_false, Bool.and_true] at ih ⊢
        omega

/-! ## Reachability -/

/-- The search loop of `reach`: the stack, with its top first, and the nodes seen so far. The top
is popped; a node not seen before is recorded and its successors are pushed in order, so that the
last one ends on top. -/
def reachLoop (E : List (α × α)) : While (List α × List α) (List α) where
  body
    | ([], seen) => .inr seen
    | (x :: stack, seen) =>
        if x ∈ seen then .inl (stack, seen)
        else .inl ((succs E x).reverse ++ stack, seen ++ [x])
  bound s := s.1.length + E.countP (fun e => !decide (e.1 ∈ s.2))
  decreases := by
    rintro ⟨_ | ⟨x, stack⟩, seen⟩ s' h
    · cases h
    · dsimp only at h
      split_ifs at h with hx
      · cases h
        simp
      · cases h
        have hcount := countP_eq_succs_add E (fun y => !decide (y ∈ seen)) x (by simpa using hx)
        have heq : (fun e : α × α => !decide (e.1 ∈ seen ++ [x])) =
            fun e => !decide (e.1 ∈ seen) && !decide (e.1 = x) := by
          funext e
          simp [Bool.decide_or]
        simp only [heq, List.length_append, List.length_reverse, List.length_cons]
        omega

/-- The nodes reachable from `a`, in the order the search meets them. -/
def reach (E : List (α × α)) (a : α) : List α := (reachLoop E).run ([a], [])

/-- What holds at every pass of the search from `a`. -/
structure ReachInv (E : List (α × α)) (a : α) (s : List α × List α) : Prop where
  start : a ∈ s.2 ∨ a ∈ s.1
  seen_sound : ∀ y ∈ s.2, ReflTransGen (Edge E) a y
  stack_sound : ∀ y ∈ s.1, ReflTransGen (Edge E) a y
  closed : ∀ y ∈ s.2, ∀ z, Edge E y z → z ∈ s.2 ∨ z ∈ s.1

theorem ReachInv.step {E : List (α × α)} {a : α} (s s' : List α × List α)
    (hs : ReachInv E a s) (h : (reachLoop E).body s = .inl s') : ReachInv E a s' := by
  obtain ⟨_ | ⟨x, stack⟩, seen⟩ := s
  · cases h
  · have hx := hs.stack_sound x List.mem_cons_self
    simp only [reachLoop] at h
    split_ifs at h with hseen <;> cases h
    · refine ⟨?_, hs.seen_sound, fun y hy => hs.stack_sound y (List.mem_cons_of_mem x hy), ?_⟩
      · rcases hs.start with hstart | hstart
        · exact .inl hstart
        · rcases List.mem_cons.mp hstart with rfl | hstart
          · exact .inl hseen
          · exact .inr hstart
      · intro y hy z hz
        rcases hs.closed y hy z hz with hz | hz
        · exact .inl hz
        · rcases List.mem_cons.mp hz with rfl | hz
          · exact .inl hseen
          · exact .inr hz
    · constructor
      · rcases hs.start with hstart | hstart
        · exact .inl (List.mem_append_left _ hstart)
        · rcases List.mem_cons.mp hstart with rfl | hstart
          · exact .inl (by simp)
          · exact .inr (List.mem_append_right _ hstart)
      · intro y hy
        rcases List.mem_append.mp hy with hy | hy
        · exact hs.seen_sound y hy
        · obtain rfl : y = x := by simpa using hy
          exact hx
      · intro y hy
        rcases List.mem_append.mp hy with hy | hy
        · exact hx.tail (mem_succs.mp (List.mem_reverse.mp hy))
        · exact hs.stack_sound y (List.mem_cons_of_mem x hy)
      · intro y hy z hz
        rcases List.mem_append.mp hy with hy | hy
        · rcases hs.closed y hy z hz with hz | hz
          · exact .inl (List.mem_append_left _ hz)
          · rcases List.mem_cons.mp hz with rfl | hz
            · exact .inl (by simp)
            · exact .inr (List.mem_append_right _ hz)
        · obtain rfl : y = x := by simpa using hy
          exact .inr (List.mem_append_left _ (List.mem_reverse.mpr (mem_succs.mpr hz)))

/-- **The search is exact**: it lists the nodes reachable from its start. -/
theorem mem_reach_iff {E : List (α × α)} {a y : α} :
    y ∈ reach E a ↔ ReflTransGen (Edge E) a y := by
  -- at the exit the stack is empty, so the seen nodes are closed under edges
  have hexit : ∀ s r, ReachInv E a s → (reachLoop E).body s = .inr r → ReachInv E a ([], r) := by
    rintro ⟨_ | ⟨x, stack⟩, seen⟩ r hs h
    · cases h
      exact hs
    · simp only [reachLoop] at h
      split_ifs at h
  have hinv : ReachInv E a ([], reach E a) :=
    (reachLoop E).run_induct (I := ReachInv E a) (P := fun r => ReachInv E a ([], r))
      ReachInv.step hexit ([a], [])
      ⟨.inr List.mem_cons_self, by simp, by rintro y hy; simp at hy; subst hy; exact .refl, by simp⟩
  constructor
  · exact hinv.seen_sound y
  · intro h
    induction h with
    | refl => simpa using hinv.start
    | tail _ hyz ih => simpa using hinv.closed _ ih _ hyz

/-! ## Cycle detection -/

/-- The colours of the search; a node without one has not been met. -/
inductive Colour
  | visiting
  | done
  deriving DecidableEq

/-- The weight of a stack entry in `paintBound`. -/
def weight (entry : α × Bool) : ℕ := if entry.2 then 1 else 2

/-- One pass of the loop of `paint` on the stack, with its top first, and the colours. An entry
`(x, true)` marks that everything above it has been dealt with, so `x` is done; an entry
`(x, false)` asks for a visit. The loop leaves with `.error x` at a request for a node that is still
being visited. -/
def paintBody (E : List (α × α)) : List (α × Bool) × (α → Option Colour) →
    (List (α × Bool) × (α → Option Colour)) ⊕ Except α (α → Option Colour)
  | ([], colour) => .inr (.ok colour)
  | ((x, true) :: stack, colour) => .inl (stack, Function.update colour x (some .done))
  | ((x, false) :: stack, colour) =>
      match colour x with
      | some .done => .inl (stack, colour)
      | some .visiting => .inr (.error x)
      | none =>
          .inl (((succs E x).reverse.map fun y => (y, false)) ++ (x, true) :: stack,
            Function.update colour x (some .visiting))

/-- The entries of the stack, and twice the edges out of nodes without a colour. -/
def paintBound (E : List (α × α)) (s : List (α × Bool) × (α → Option Colour)) : ℕ :=
  (s.1.map weight).sum + 2 * E.countP (fun e => (s.2 e.1).isNone)

theorem paintBound_lt {E : List (α × α)} {s s' : List (α × Bool) × (α → Option Colour)}
    (h : paintBody E s = .inl s') : paintBound E s' < paintBound E s := by
  obtain ⟨_ | ⟨⟨x, _ | _⟩, stack⟩, colour⟩ := s
  · cases h
  · dsimp only [paintBody] at h
    split at h
    · cases h
      simp [paintBound, weight]
    · cases h
    · next hx =>
        cases h
        have hcount := countP_eq_succs_add E (fun y => (colour y).isNone) x (by simp [hx])
        have heq : (fun e : α × α =>
            (Function.update colour x (some .visiting) e.1).isNone) =
            fun e => (colour e.1).isNone && !decide (e.1 = x) := by
          funext e
          by_cases he : e.1 = x <;> simp [he]
        have hsum : (((succs E x).reverse.map fun y => (y, false)).map weight).sum =
            2 * (succs E x).length := by
          simp [weight, Function.comp_def, Nat.mul_comm]
        simp only [paintBound, heq, List.map_append, List.map_cons, List.sum_append,
          List.sum_cons, hsum]
        simp only [weight, if_true, Bool.false_eq_true, if_false]
        omega
  · cases h
    have hle : E.countP (fun e => (Function.update colour x (some Colour.done) e.1).isNone) ≤
        E.countP (fun e => (colour e.1).isNone) := by
      apply List.countP_mono_left
      intro e _ he
      by_cases hx : e.1 = x
      · simp [hx] at he
      · simpa [hx] using he
    simp only [paintBound, List.map_cons, List.sum_cons, weight, if_true]
    omega

/-- The loop of `paint`. -/
def paintLoop (E : List (α × α)) :
    While (List (α × Bool) × (α → Option Colour)) (Except α (α → Option Colour)) where
  body := paintBody E
  bound := paintBound E
  decreases := paintBound_lt

/-- One search from `start` on the colours left by the searches before it. -/
def paint (E : List (α × α)) (colour : α → Option Colour) (start : α) :
    Except α (α → Option Colour) :=
  (paintLoop E).run ([(start, false)], colour)

/-- The searches from all starts in turn. -/
def paintAll (E : List (α × α)) (starts : List α) : Except α (α → Option Colour) :=
  starts.foldlM (paint E) fun _ => none

/-! ### The stack read downwards: the path being visited -/

/-- The nodes being visited, the most recent first: the marked entries of the stack. -/
def path (stack : List (α × Bool)) : List α := (stack.filter (·.2)).map (·.1)

@[simp] theorem path_cons_true (x : α) (stack : List (α × Bool)) :
    path ((x, true) :: stack) = x :: path stack := rfl

@[simp] theorem path_cons_false (x : α) (stack : List (α × Bool)) :
    path ((x, false) :: stack) = path stack := rfl

@[simp] theorem path_requests_append (ys : List α) (stack : List (α × Bool)) :
    path ((ys.map fun y => (y, false)) ++ stack) = path stack := by
  induction ys with
  | nil => rfl
  | cons y ys ih => simpa using ih

/-- Every entry of the stack is a successor of the node being visited right below it. -/
def Threaded (E : List (α × α)) : List (α × Bool) → Prop
  | [] => True
  | (x, _) :: stack => (∀ p ∈ (path stack).head?, Edge E p x) ∧ Threaded E stack

/-- Pushing requests for successors of the node on top of the path keeps the stack threaded. -/
theorem Threaded.requests_append {E : List (α × α)} {ys : List α} {stack : List (α × Bool)}
    (hys : ∀ y ∈ ys, ∀ p ∈ (path stack).head?, Edge E p y) (h : Threaded E stack) :
    Threaded E ((ys.map fun y => (y, false)) ++ stack) := by
  induction ys with
  | nil => exact h
  | cons y ys ih =>
      refine ⟨?_, ih fun z hz => hys z (List.mem_cons_of_mem y hz)⟩
      show ∀ p ∈ (path ((ys.map fun y => (y, false)) ++ stack)).head?, Edge E p y
      rw [path_requests_append]
      exact hys y List.mem_cons_self

/-- On a threaded stack every node being visited reaches the most recent one. -/
theorem Threaded.reaches_head {E : List (α × α)} {stack : List (α × Bool)} {x p : α}
    (h : Threaded E stack) (hx : x ∈ path stack) (hp : p ∈ (path stack).head?) :
    ReflTransGen (Edge E) x p := by
  induction stack generalizing p with
  | nil => simp [path] at hx
  | cons entry stack ih =>
      obtain ⟨y, _ | _⟩ := entry
      · exact ih h.2 hx hp
      · obtain rfl : y = p := by simpa using hp
        rw [path_cons_true] at hx
        rcases List.mem_cons.mp hx with rfl | hx
        · exact .refl
        · cases hq : (path stack).head? with
          | none =>
              rw [List.head?_eq_none_iff] at hq
              rw [hq] at hx
              cases hx
          | some q => exact (ih h.2 hx hq).tail (h.1 q hq)

/-! ### The stack read upwards: what a visited node waits for -/

/-- Every successor of a node being visited is done or has an entry above that node; `above` lists
the nodes with an entry above the given stack. -/
def Covered (E : List (α × α)) (colour : α → Option Colour) : List α → List (α × Bool) → Prop
  | _, [] => True
  | above, (x, marked) :: stack =>
      (marked = true → ∀ z, Edge E x z → colour z = some .done ∨ z ∈ above) ∧
        Covered E colour (x :: above) stack

/-- A node may leave the entries above once it is done. -/
theorem Covered.mono {E : List (α × α)} {colour colour' : α → Option Colour}
    (hdone : ∀ z, colour z = some .done → colour' z = some .done) {stack : List (α × Bool)}
    {above above' : List α} (habove : ∀ z ∈ above, z ∈ above' ∨ colour' z = some .done)
    (h : Covered E colour above stack) : Covered E colour' above' stack := by
  induction stack generalizing above above' with
  | nil => trivial
  | cons entry stack ih =>
      obtain ⟨x, marked⟩ := entry
      refine ⟨fun hm z hz => ?_, ih (fun z hz => ?_) h.2⟩
      · rcases h.1 hm z hz with hz | hz
        · exact .inl (hdone z hz)
        · exact (habove z hz).symm
      · rcases List.mem_cons.mp hz with rfl | hz
        · exact .inl List.mem_cons_self
        · exact (habove z hz).imp_left (List.mem_cons_of_mem x)

/-- Requests wait for nothing; they only stand above the rest of the stack. -/
theorem Covered.requests_append {E : List (α × α)} {colour : α → Option Colour} {ys above : List α}
    {stack : List (α × Bool)} (h : Covered E colour (ys.reverse ++ above) stack) :
    Covered E colour above ((ys.map fun y => (y, false)) ++ stack) := by
  induction ys generalizing above with
  | nil => exact h
  | cons y ys ih =>
      refine ⟨fun hm => absurd hm Bool.false_ne_true, ih ?_⟩
      simpa using h

/-! ### The colour invariant -/

/-- The colours between two searches: nothing is being visited, and the done nodes are closed under
edges and lie on no cycle. -/
structure Clean (E : List (α × α)) (colour : α → Option Colour) : Prop where
  not_visiting : ∀ y, colour y ≠ some .visiting
  closed : ∀ y z, colour y = some .done → Edge E y z → colour z = some .done
  acyclic : ∀ y, colour y = some .done → ¬ TransGen (Edge E) y y

/-- What holds at every pass of the search from `start` on the colours `colour₀`. -/
structure PaintInv (E : List (α × α)) (colour₀ : α → Option Colour) (start : α)
    (s : List (α × Bool) × (α → Option Colour)) : Prop where
  threaded : Threaded E s.1
  visiting : ∀ y, s.2 y = some .visiting → y ∈ path s.1
  covered : Covered E s.2 [] s.1
  closed : ∀ y z, s.2 y = some .done → Edge E y z → s.2 z = some .done
  acyclic : ∀ y, s.2 y = some .done → ¬ TransGen (Edge E) y y
  kept : ∀ y, colour₀ y = some .done → s.2 y = some .done
  start : s.2 start = some .done ∨ start ∈ s.1.map (·.1)

/-- A set of nodes closed under edges keeps every path that starts in it. -/
theorem closed_of_reflTransGen {E : List (α × α)} {p : α → Prop}
    (hclosed : ∀ y z, p y → Edge E y z → p z) {x y : α} (hx : p x)
    (h : ReflTransGen (Edge E) x y) : p y := by
  induction h with
  | refl => exact hx
  | tail _ hyz ih => exact hclosed _ _ ih hyz

/-- A marked entry on top: all successors are done, so the node becomes done, and no cycle runs
through it because a cycle would have to come back out of the done nodes. -/
theorem PaintInv.finish {E : List (α × α)} {colour₀ colour : α → Option Colour} {start x : α}
    {stack : List (α × Bool)} (h : PaintInv E colour₀ start ((x, true) :: stack, colour)) :
    PaintInv E colour₀ start (stack, Function.update colour x (some .done)) := by
  have hsucc : ∀ z, Edge E x z → colour z = some .done := by
    intro z hz
    simpa using h.covered.1 rfl z hz
  have hmono : ∀ z, colour z = some .done →
      Function.update colour x (some .done) z = some .done := by
    intro z hz
    by_cases hzx : z = x <;> simp [hzx, hz]
  refine ⟨h.threaded.2, ?_, ?_, ?_, ?_, fun y hy => hmono y (h.kept y hy), ?_⟩
  · intro y hy
    have hyx : y ≠ x := by
      rintro rfl
      simp at hy
    have hy' := h.visiting y (by simpa [hyx] using hy)
    simpa [hyx] using hy'
  · refine h.covered.2.mono hmono fun z hz => .inr ?_
    obtain rfl : z = x := by simpa using hz
    simp
  · intro y z hy hz
    by_cases hyx : y = x
    · subst hyx
      exact hmono z (hsucc z hz)
    · exact hmono z (h.closed y z (by simpa [hyx] using hy) hz)
  · intro y hy hcycle
    by_cases hyd : colour y = some .done
    · exact h.acyclic y hyd hcycle
    · obtain rfl : y = x := by
        by_contra hyx
        exact hyd (by simpa [hyx] using hy)
      -- the first node after `y` on the cycle is done, so the whole rest of the cycle is
      obtain ⟨z, hz, hback⟩ := TransGen.head'_iff.mp hcycle
      exact hyd (closed_of_reflTransGen h.closed (hsucc z hz) hback)
  · rcases h.start with hs | hs
    · exact .inl (hmono start hs)
    · rcases List.mem_cons.mp hs with hs | hs
      · exact .inl (by simp [hs])
      · exact .inr hs

/-- A request for a node that is done already is dropped. -/
theorem PaintInv.skip {E : List (α × α)} {colour₀ colour : α → Option Colour} {start x : α}
    {stack : List (α × Bool)} (h : PaintInv E colour₀ start ((x, false) :: stack, colour))
    (hx : colour x = some .done) : PaintInv E colour₀ start (stack, colour) := by
  refine ⟨h.threaded.2, h.visiting, ?_, h.closed, h.acyclic, h.kept, ?_⟩
  · refine h.covered.2.mono (fun _ hz => hz) fun z hz => .inr ?_
    obtain rfl : z = x := by simpa using hz
    exact hx
  · rcases h.start with hs | hs
    · exact .inl hs
    · rcases List.mem_cons.mp hs with rfl | hs
      · exact .inl hx
      · exact .inr hs

/-- A request for a node without a colour starts its visit. -/
theorem PaintInv.visit {E : List (α × α)} {colour₀ colour : α → Option Colour} {start x : α}
    {stack : List (α × Bool)} (h : PaintInv E colour₀ start ((x, false) :: stack, colour))
    (hx : colour x = none) :
    PaintInv E colour₀ start
      (((succs E x).reverse.map fun y => (y, false)) ++ (x, true) :: stack,
        Function.update colour x (some .visiting)) := by
  have hdone : ∀ z, Function.update colour x (some Colour.visiting) z = some .done ↔
      colour z = some .done := by
    intro z
    by_cases hzx : z = x <;> simp [hzx, hx]
  have hthread : Threaded E ((x, true) :: stack) := h.threaded
  constructor
  · refine hthread.requests_append fun y hy p hp => ?_
    obtain rfl : x = p := by simpa using hp
    simpa using hy
  · intro y hy
    rw [path_requests_append, path_cons_true]
    by_cases hyx : y = x
    · exact hyx ▸ List.mem_cons_self
    · exact List.mem_cons_of_mem x (h.visiting y (by simpa [hyx] using hy))
  · refine Covered.requests_append ⟨fun _ z hz => .inr (by simpa using hz), ?_⟩
    refine h.covered.2.mono (fun z hz => (hdone z).mpr hz) fun z hz => .inl ?_
    obtain rfl : z = x := by simpa using hz
    exact List.mem_cons_self
  · intro y z hy hz
    exact (hdone z).mpr (h.closed y z ((hdone y).mp hy) hz)
  · intro y hy
    exact h.acyclic y ((hdone y).mp hy)
  · intro y hy
    exact (hdone y).mpr (h.kept y hy)
  · rcases h.start with hs | hs
    · exact .inl ((hdone start).mpr hs)
    · refine .inr ?_
      rw [List.map_append]
      exact List.mem_append_right _ hs

/-- A request for a node that is being visited closes a cycle through it. -/
theorem PaintInv.cycle {E : List (α × α)} {colour₀ colour : α → Option Colour} {start x : α}
    {stack : List (α × Bool)} (h : PaintInv E colour₀ start ((x, false) :: stack, colour))
    (hx : colour x = some .visiting) : TransGen (Edge E) x x := by
  have hmem : x ∈ path stack := h.visiting x hx
  cases hp : (path stack).head? with
  | none =>
      rw [List.head?_eq_none_iff] at hp
      rw [hp] at hmem
      cases hmem
  | some p =>
      have hreach := h.threaded.2.reaches_head hmem hp
      exact TransGen.tail' hreach (h.threaded.1 p hp)

/-- What one search leaves: clean colours in which its start and all nodes done before are done, or
a node on a cycle. -/
def PaintResult (E : List (α × α)) (colour₀ : α → Option Colour) (start : α) :
    Except α (α → Option Colour) → Prop
  | .ok colour =>
      Clean E colour ∧ colour start = some .done ∧
        ∀ y, colour₀ y = some .done → colour y = some .done
  | .error x => TransGen (Edge E) x x

theorem paint_spec {E : List (α × α)} {colour : α → Option Colour} (h : Clean E colour)
    (start : α) : PaintResult E colour start (paint E colour start) := by
  refine (paintLoop E).run_induct (I := PaintInv E colour start) ?_ ?_ ([(start, false)], colour) ?_
  · rintro ⟨_ | ⟨⟨x, _ | _⟩, stack⟩, c⟩ s' hs hb
    · cases hb
    · dsimp only [paintLoop, paintBody] at hb
      split at hb
      · next hx =>
          cases hb
          exact hs.skip hx
      · cases hb
      · next hx =>
          cases hb
          exact hs.visit hx
    · cases hb
      exact hs.finish
  · rintro ⟨_ | ⟨⟨x, _ | _⟩, stack⟩, c⟩ r hs hb
    · cases hb
      refine ⟨⟨fun y hy => ?_, hs.closed, hs.acyclic⟩, by simpa using hs.start, hs.kept⟩
      have hmem := hs.visiting y hy
      cases hmem
    · dsimp only [paintLoop, paintBody] at hb
      split at hb
      · cases hb
      · next hx =>
          cases hb
          exact hs.cycle hx
      · cases hb
    · cases hb
  · refine ⟨⟨by simp [path], trivial⟩, ?_, ⟨fun hm => absurd hm Bool.false_ne_true, trivial⟩,
      h.closed, h.acyclic, fun _ hy => hy, .inr List.mem_cons_self⟩
    intro y hy
    exact absurd hy (h.not_visiting y)

/-- What all searches together leave. -/
theorem paintAll_spec {E : List (α × α)} (starts : List α) {colour : α → Option Colour}
    (h : Clean E colour) :
    match starts.foldlM (paint E) colour with
    | .ok colour' => Clean E colour' ∧ (∀ s ∈ starts, colour' s = some .done) ∧
        ∀ y, colour y = some .done → colour' y = some .done
    | .error x => TransGen (Edge E) x x := by
  induction starts generalizing colour with
  | nil => exact ⟨h, by simp, fun _ hy => hy⟩
  | cons s starts ih =>
      have hs := paint_spec h s
      rw [List.foldlM_cons]
      cases hp : paint E colour s with
      | error x =>
          rw [hp] at hs
          exact hs
      | ok colour₁ =>
          rw [hp] at hs
          obtain ⟨hclean, hdone, hkept⟩ := hs
          have hrest := ih hclean
          show match starts.foldlM (paint E) colour₁ with
            | .ok colour' => Clean E colour' ∧ (∀ t ∈ s :: starts, colour' t = some .done) ∧
                ∀ y, colour y = some .done → colour' y = some .done
            | .error x => TransGen (Edge E) x x
          cases hr : starts.foldlM (paint E) colour₁ with
          | error x =>
              rw [hr] at hrest
              exact hrest
          | ok colour₂ =>
              rw [hr] at hrest
              obtain ⟨hclean₂, hall, hkept₂⟩ := hrest
              refine ⟨hclean₂, ?_, fun y hy => hkept₂ y (hkept y hy)⟩
              intro t ht
              rcases List.mem_cons.mp ht with rfl | ht
              · exact hkept₂ t hdone
              · exact hall t ht

/-- **The cycle search is exact**: started from every node with an edge out of it, it comes through
exactly on the acyclic graphs. -/
theorem paintAll_isOk_iff {E : List (α × α)} {starts : List α}
    (hstarts : ∀ x y, Edge E x y → x ∈ starts) :
    (∃ colour, paintAll E starts = .ok colour) ↔ Acyclic E := by
  have hclean : Clean E fun _ => none := ⟨by simp, by simp, by simp⟩
  have hspec := paintAll_spec starts hclean
  unfold paintAll
  cases hr : starts.foldlM (paint E) fun _ => none with
  | error x =>
      rw [hr] at hspec
      constructor
      · rintro ⟨colour, hc⟩
        cases hc
      · intro hac
        exact absurd hspec (hac x)
  | ok colour =>
      rw [hr] at hspec
      obtain ⟨hclean, hall, -⟩ := hspec
      refine ⟨fun _ x hcycle => ?_, fun _ => ⟨colour, rfl⟩⟩
      obtain ⟨z, hz, -⟩ := TransGen.head'_iff.mp hcycle
      exact hclean.acyclic x (hall x (hstarts x z hz)) hcycle

/-- **One search is exact** on a graph in which it gets to every edge: it comes through exactly when
the graph is acyclic. -/
theorem paint_isOk_iff {E : List (α × α)} {start : α}
    (hreach : ∀ x y, Edge E x y → ReflTransGen (Edge E) start x) :
    (∃ colour, paint E (fun _ => none) start = .ok colour) ↔ Acyclic E := by
  have hclean : Clean E fun _ => none := ⟨by simp, by simp, by simp⟩
  have hspec := paint_spec hclean start
  cases hr : paint E (fun _ => none) start with
  | error x =>
      rw [hr] at hspec
      constructor
      · rintro ⟨colour, hc⟩
        cases hc
      · intro hac
        exact absurd hspec (hac x)
  | ok colour =>
      rw [hr] at hspec
      obtain ⟨hclean, hstart, -⟩ := hspec
      refine ⟨fun _ x hcycle => ?_, fun _ => ⟨colour, rfl⟩⟩
      obtain ⟨z, hz, -⟩ := TransGen.head'_iff.mp hcycle
      have hdone : colour x = some .done :=
        closed_of_reflTransGen (p := fun y => colour y = some .done)
          hclean.closed hstart (hreach x z hz)
      exact hclean.acyclic x hdone hcycle

/-! ## Acyclic graphs -/

/-- Every nonempty finite set of nodes of an acyclic graph has a member without a predecessor in
the set. -/
theorem Acyclic.exists_minimal {E : List (α × α)} (h : Acyclic E) (s : Finset α)
    (hs : s.Nonempty) : ∃ x ∈ s, ∀ y ∈ s, ¬ Edge E y x := by
  let r : s → s → Prop := fun a b => TransGen (Edge E) a.1 b.1
  have : IsTrans s r := ⟨fun _ _ _ => TransGen.trans⟩
  have : Std.Irrefl r := ⟨fun a => h a.1⟩
  have hwf : WellFounded r := Finite.wellFounded_of_trans_of_irrefl r
  obtain ⟨a, ha⟩ := hs
  obtain ⟨m, -, hm⟩ := hwf.has_min Set.univ ⟨⟨a, ha⟩, trivial⟩
  exact ⟨m.1, m.2, fun y hy hedge => hm ⟨y, hy⟩ trivial (.single hedge)⟩

/-! ## Two graphs on the same nodes -/

/-- A path of `E` is one of `F`, or it takes an edge that `F` does not have. -/
theorem transGen_or_extra {E F : List (α × α)} {x y : α} (h : TransGen (Edge E) x y) :
    TransGen (Edge F) x y ∨ ∃ a b, ReflTransGen (Edge E) x a ∧ Edge E a b ∧ ¬ Edge F a b ∧
      ReflTransGen (Edge E) b y := by
  induction h with
  | @single y hxy =>
      by_cases hF : Edge F x y
      · exact .inl (.single hF)
      · exact .inr ⟨x, y, .refl, hxy, hF, .refl⟩
  | @tail y z hpath hyz ih =>
      rcases ih with hF | ⟨a, b, hxa, hab, hno, hby⟩
      · by_cases hedge : Edge F y z
        · exact .inl (hF.tail hedge)
        · exact .inr ⟨y, z, hpath.to_reflTransGen, hyz, hedge, .refl⟩
      · exact .inr ⟨a, b, hxa, hab, hno, hby.tail hyz⟩

/-- Next to an acyclic graph, a graph is acyclic when none of its further edges closes a cycle. -/
theorem Acyclic.iff_extra {E F : List (α × α)} (hF : Acyclic F) :
    Acyclic E ↔ ∀ a b, Edge E a b → ¬ Edge F a b → ¬ ReflTransGen (Edge E) b a := by
  constructor
  · intro hE a b hab _ hba
    exact hE a (TransGen.head' hab hba)
  · intro h x hcycle
    rcases transGen_or_extra (F := F) hcycle with hx | ⟨a, b, hxa, hab, hno, hbx⟩
    · exact hF x hx
    · exact h a b hab hno (hbx.trans hxa)

/-- A graph reaches all that another reaches from a node when it reaches the ends of the edges it
does not have. -/
theorem reflTransGen_of_extra {E F : List (α × α)} {x y : α} (hpath : ReflTransGen (Edge F) x y)
    (h : ∀ a b, Edge F a b → ¬ Edge E a b → ReflTransGen (Edge E) x b) :
    ReflTransGen (Edge E) x y := by
  induction hpath with
  | refl => exact .refl
  | @tail y z _ hyz ih =>
      by_cases hedge : Edge E y z
      · exact ih.tail hedge
      · exact h y z hyz hedge

end AuraLauncher.Lib.Digraph
