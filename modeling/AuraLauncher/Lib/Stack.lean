import Mathlib.Data.List.Basic

/-!
# Stacks under sequences of moves

A stack grows and shrinks at the end of a list, and popping an empty stack does nothing. What a
sequence of moves does to any stack is said by two things of the sequence alone: how far it climbs
below the place it starts from, and the stack it leaves on an empty one.

* `StackMove`, `StackMove.run` — moves, and a sequence of them on a stack.
* `StackMove.climbs` — the pops of a sequence that find none of its own pushes.
* `StackMove.run_eq_take_append` — the law of a sequence on any stack.
* `StackMove.run_replicate_pop_append` — what pops before a sequence take away from it.
-/

namespace AuraLauncher.Lib

universe u

/-- A move of a stack. -/
inductive StackMove (α : Type u)
  | push (a : α)
  | pop
  | stay
  deriving DecidableEq

namespace StackMove

variable {α : Type u}

/-- A stack after one move. -/
def apply (stack : List α) : StackMove α → List α
  | push a => stack ++ [a]
  | pop => stack.dropLast
  | stay => stack

/-- A stack after a sequence of moves. -/
def run (stack : List α) (moves : List (StackMove α)) : List α := moves.foldl apply stack

theorem run_cons (stack : List α) (m : StackMove α) (moves : List (StackMove α)) :
    run stack (m :: moves) = run (apply stack m) moves := rfl

theorem run_append (stack : List α) (moves moves' : List (StackMove α)) :
    run stack (moves ++ moves') = run (run stack moves) moves' :=
  List.foldl_append

/-- How far a sequence climbs below its start, if there are `height` pushes to pop first. -/
def climbs (height : ℕ) : List (StackMove α) → ℕ
  | [] => 0
  | push _ :: moves => climbs (height + 1) moves
  | pop :: moves =>
      match height with
      | 0 => climbs 0 moves + 1
      | height + 1 => climbs height moves
  | stay :: moves => climbs height moves

/-- A sequence leaves of the stack below its own pushes what it does not climb. -/
theorem run_append_eq (stack top : List α) (moves : List (StackMove α)) :
    run (stack ++ top) moves =
      stack.take (stack.length - climbs top.length moves) ++ run top moves := by
  induction moves generalizing stack top with
  | nil => simp [run, climbs]
  | cons m moves ih =>
      cases m with
      | push a =>
          have happ : apply (stack ++ top) (push a) = stack ++ (top ++ [a]) :=
            List.append_assoc stack top [a]
          rw [run_cons, happ, ih, List.length_append]
          rfl
      | stay => exact ih stack top
      | pop =>
          rcases List.eq_nil_or_concat top with rfl | ⟨top, a, rfl⟩
          · -- the pop takes from the stack below
            have hstep := ih stack.dropLast []
            rw [List.append_nil, List.length_nil] at hstep
            have hempty : run [] (pop :: moves) = run ([] : List α) moves := rfl
            rw [List.append_nil, run_cons, apply, hstep, hempty, List.length_nil, climbs,
              List.length_dropLast, List.dropLast_eq_take, List.take_take]
            congr 2
            omega
          · have happ : apply (stack ++ (top ++ [a])) pop = stack ++ top := by
              rw [apply, ← List.append_assoc, List.dropLast_concat]
            rw [List.concat_eq_append, run_cons, happ, ih, run_cons, apply, List.dropLast_concat,
              List.length_append, List.length_singleton, climbs]

/-- **A sequence of moves on any stack** takes away what it climbs, and puts on what it puts on an
empty one. -/
theorem run_eq_take_append (stack : List α) (moves : List (StackMove α)) :
    run stack moves = stack.take (stack.length - climbs 0 moves) ++ run [] moves := by
  simpa using run_append_eq stack [] moves

/-- Pops alone. -/
theorem run_replicate_pop (stack : List α) (n : ℕ) :
    run stack (List.replicate n pop) = stack.take (stack.length - n) := by
  induction n generalizing stack with
  | zero => simp [run]
  | succ n ih =>
      rw [List.replicate_succ, run_cons, apply, ih, List.length_dropLast, List.dropLast_eq_take,
        List.take_take]
      congr 1
      omega

/-- **Pops before a sequence** take away as many more elements of the stack, as far as there are
any. -/
theorem run_replicate_pop_append (stack : List α) (n : ℕ) (moves : List (StackMove α)) :
    run stack (List.replicate n pop ++ moves) =
      stack.take (stack.length - (n + climbs 0 moves)) ++ run [] moves := by
  rw [run_append, run_replicate_pop, run_eq_take_append, List.length_take, List.take_take]
  congr 2
  omega

end StackMove

end AuraLauncher.Lib
