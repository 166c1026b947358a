import Mathlib.Data.List.Basic
import Mathlib.Tactic.Common

/-!
# A child process and its lines

`launcher-runtime/src/process.rs`, `error.rs`, `types.rs` and `lifecycle.rs`: one live child with
bounded lines on its output, as the owners of a protocol see it.

A protocol is no concern of the runtime, so the lines are of any type `ℓ`; a protocol takes for it
what its parser makes of a line. What the child does, and when the clock runs out, is data that the
operations are given: a `ChildEvent` for each thing the child does, and a `Wait` for each line that
is waited for.

* `ProcessSession` — the lines received and not yet read, and how the child stands.
* `ProcessSession.observe`, `ProcessSession.observeAll` — the child goes on.
* `ProcessSession.writeLine`, `ProcessSession.readLine`, `ProcessSession.kill`,
  `ProcessSession.shutdown` — the operations.
* `ProcessSession.Gone` — the child has exited; what is written to it does not arrive.

The drained diagnostics, the identity of the process and the time of its last activity are left
out: no operation here reads them.
-/

namespace AuraLauncher.Runtime

universe u

variable {ℓ : Type u}

/-! ## Errors and states -/

/-- Durations are given as their `Debug` texts. Source: `error.rs`, `RuntimeError`. -/
inductive RuntimeError
  | spawnFailed (m : String)
  | startupTimeout (after : String)
  | ioTimeout (after : String)
  | outputLimitExceeded (stream : String) (limit : ℕ)
  | transportBroken
  | processExited (code : Option Int32)
  | shutdownTimeout
  | invalidSpec (m : String)
  deriving DecidableEq

/-- Source: `lifecycle.rs`, `LifecycleState`. -/
inductive LifecycleState
  | created
  | starting
  | running
  | stopping
  | stopped
  | crashed
  deriving DecidableEq, Repr

/-- Source: `lifecycle.rs`, `LifecycleState::is_alive`. -/
def LifecycleState.isAlive : LifecycleState → Bool
  | .starting | .running => true
  | _ => false

/-- Source: `types.rs`, `ProcessTermination`. -/
inductive ProcessTermination
  | exited (code : Option Int32)
  | killed
  | unknown
  deriving DecidableEq

/-! ## The child -/

/-- What a child does that the runtime can notice. Lines that a child wrote before it exited may
arrive after its exit. -/
inductive ChildEvent (ℓ : Type u)
  /-- A complete line arrives. -/
  | line (l : ℓ)
  /-- A line beyond the cap arrives, or the output ends inside a line. -/
  | overlong
  /-- Reading the output fails, which ends the reader. -/
  | readError
  /-- The output ends. -/
  | closeStdout
  /-- The child closes its input and goes on. -/
  | closeStdin
  | exit (code : Option Int32)

/-- What happens while a line is waited for. -/
structure Wait (ℓ : Type u) where
  /-- The time that is left when the wait begins; `none` when there is none. -/
  left : Option String
  /-- What the child does until the wait ends. -/
  arrivals : List (ChildEvent ℓ)
  /-- The time ran out before the channel was looked at. -/
  late : Bool
  /-- The exit status that polling finds, when the output has ended. -/
  polled : ProcessTermination

/-- Source: `process.rs`, `ProcessSession`. -/
structure ProcessSession (ℓ : Type u) where
  /-- What the reader thread has received and nobody has read yet, oldest first. -/
  stdoutLines : List (Except RuntimeError ℓ)
  /-- The reader thread has ended. -/
  stdoutClosed : Bool
  /-- The child has closed its input. -/
  stdinClosed : Bool
  /-- The exit status, once the child has exited. -/
  exited : Option (Option Int32)
  state : LifecycleState
  maxStdoutLineBytes : ℕ

namespace ProcessSession

/-- The session of a child that was just spawned. Source: `process.rs`, `ProcessSession::spawn`. -/
def spawned (maxStdoutLineBytes : ℕ) : ProcessSession ℓ :=
  ⟨[], false, false, none, .running, maxStdoutLineBytes⟩

/-- The reader thread passes an outcome on. Source: `process.rs`, `ProcessSession::spawn` (the
reader). -/
def receive (p : ProcessSession ℓ) (item : Except RuntimeError ℓ) : ProcessSession ℓ :=
  if p.stdoutClosed then p else { p with stdoutLines := p.stdoutLines ++ [item] }

/-- The child does something. -/
def observe (p : ProcessSession ℓ) : ChildEvent ℓ → ProcessSession ℓ
  | .line l => p.receive (.ok l)
  | .overlong => p.receive (.error (.outputLimitExceeded "stdout" p.maxStdoutLineBytes))
  | .readError => { p.receive (.error .transportBroken) with stdoutClosed := true }
  | .closeStdout => { p with stdoutClosed := true }
  | .closeStdin => { p with stdinClosed := true }
  | .exit code => { p with exited := p.exited.or (some code) }

/-- The child does one thing after the other. -/
def observeAll (p : ProcessSession ℓ) (events : List (ChildEvent ℓ)) : ProcessSession ℓ :=
  events.foldl observe p

/-! ## The operations -/

/-- A write arrives while the child runs and reads its input. Source: `process.rs`, `write_line`. -/
def writeLine (p : ProcessSession ℓ) : Except RuntimeError Unit :=
  if p.stdinClosed || p.exited.isSome then .error .transportBroken else .ok ()

/-- What an ended output means, by the exit status that polling finds. Source: `process.rs`,
`read_line` and `poll_termination`. -/
def closedError : ProcessTermination → RuntimeError
  | .exited code => .processExited code
  | _ => .transportBroken

/-- Source: `process.rs`, `read_line`. -/
def readLine (p : ProcessSession ℓ) (timeout : String) (w : Wait ℓ) :
    Except RuntimeError ℓ × ProcessSession ℓ :=
  let p := p.observeAll w.arrivals
  if w.late then (.error (.ioTimeout timeout), p)
  else
    match p.stdoutLines with
    | item :: rest => (item, { p with stdoutLines := rest })
    | [] =>
        if p.stdoutClosed then (.error (closedError w.polled), { p with state := .crashed })
        else (.error (.ioTimeout timeout), p)

/-- Source: `process.rs`, `kill`. -/
def kill (p : ProcessSession ℓ) : ProcessSession ℓ :=
  { p with exited := p.exited.or (some none), state := .stopped }

/-- Waits for the child to exit by itself, and kills it when it does not. Source: `process.rs`,
`shutdown`. -/
def shutdown (p : ProcessSession ℓ) (events : List (ChildEvent ℓ)) :
    Except RuntimeError ProcessTermination × ProcessSession ℓ :=
  let p := p.observeAll events
  match p.exited with
  | some code => (.ok (.exited code), { p with state := .stopped })
  | none => (.error .shutdownTimeout, p.kill)

/-! ## A child that has exited -/

/-- The child has exited. -/
def Gone (p : ProcessSession ℓ) : Prop := p.exited.isSome = true

instance (p : ProcessSession ℓ) : Decidable p.Gone :=
  inferInstanceAs (Decidable (p.exited.isSome = true))

variable {p : ProcessSession ℓ}

@[simp]
theorem receive_exited (item : Except RuntimeError ℓ) : (p.receive item).exited = p.exited := by
  unfold receive
  split_ifs <;> rfl

theorem Gone.observe (h : p.Gone) (e : ChildEvent ℓ) : (p.observe e).Gone := by
  unfold Gone at *
  cases e with
  | line l => simpa [ProcessSession.observe] using h
  | overlong => simpa [ProcessSession.observe] using h
  | readError => simpa [ProcessSession.observe] using h
  | closeStdout => exact h
  | closeStdin => exact h
  | exit code => simp [ProcessSession.observe]

/-- An exit is final. -/
theorem Gone.observeAll (h : p.Gone) (events : List (ChildEvent ℓ)) :
    (p.observeAll events).Gone := by
  unfold ProcessSession.observeAll
  induction events generalizing p with
  | nil => exact h
  | cons e events ih => exact ih (h.observe e)

/-- What is written to a child that has exited does not arrive. -/
theorem Gone.writeLine (h : p.Gone) : p.writeLine = .error .transportBroken := by
  unfold Gone at h
  simp [ProcessSession.writeLine, h]

theorem Gone.readLine (h : p.Gone) (timeout : String) (w : Wait ℓ) :
    (p.readLine timeout w).2.Gone := by
  have hafter := h.observeAll w.arrivals
  unfold ProcessSession.readLine
  dsimp only
  split
  · exact hafter
  · split
    · exact hafter
    · split <;> exact hafter

theorem gone_kill (p : ProcessSession ℓ) : p.kill.Gone := by
  unfold Gone kill
  simp

end ProcessSession

end AuraLauncher.Runtime
