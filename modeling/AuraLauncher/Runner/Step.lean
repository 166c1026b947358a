import AuraLauncher.Lib.While
import AuraLauncher.Runner.Variables

/-!
# Executing one step

`launcher-workflow/src/lib.rs`: the two ports of the runner and `execute_step`, which resolves the
action of a step, pauses for a confirmation or executes, and answers a failure by the policy.

The host is a parameter. Its state is whatever the host keeps between the calls of the runner, so
it may answer the same question differently the next time. Every call is recorded in `calls`, which
nothing in the runner reads.

* `Host` — `CommandSource` and `ActionExecutor`.
* `resolveReference`, `resolveStep` — one resolution of the action of a step.
* `resolveLoop` — resolution with its retries; `attemptLoop`, `executeStep` — the attempts of a
  step, which the source makes by recursion. Both are `While` loops, so their bounds are proved
  where they are defined.
* `resolveLoop_spec`, `attemptBody_cases` — what the resolution and one attempt can do.
-/

namespace AuraLauncher.Runner

open AuraLauncher.Domain AuraLauncher.Lib
open AuraLauncher.Workflow (Json)

universe u

/-! ## The host -/

/-- A classified failure. Source: `lib.rs`, `WfFailure`. -/
structure WfFailure where
  failureClass : WorkflowFailureClass
  reason : String
  executionId : Option String

/-- Source: `lib.rs`, `WfFailure::new`. -/
def WfFailure.new (c : WorkflowFailureClass) (reason : String) : WfFailure := ⟨c, reason, none⟩

/-- Source: `lib.rs`, `ExecutionOutcome`. -/
structure ExecutionOutcome where
  executionId : Option String
  pluginResult : Option Json

/-- The host of the runner: where commands live and how actions are executed, over a state that
only the host reads. Source: `lib.rs`, `CommandSource` and `ActionExecutor`. -/
structure Host (σ : Type u) where
  /-- The command of the popup session with this provider and id. -/
  inSession : σ → String → String → Option Command
  /-- A fresh discovery query of one provider. -/
  freshQuery : σ → String → Except (WorkflowFailureClass × String) (List Command) × σ
  /-- The execution of a resolved action: the action, its provider, the context generation and
  whether the user confirmed. -/
  execute : σ → Action → Option String → UInt64 → Bool → Except WfFailure ExecutionOutcome × σ

/-- A call made for a step: a discovery query, the resolution of an inline descriptor, or an
execution. An execution is recorded with the action as it was resolved; the host is given the
action with `confirmation_required` cleared. -/
inductive HostCall
  | discover (providerId : String)
  | descriptor (d : ActionDescriptor)
  | execute (resolved : Action) (providerId : Option String) (generation : UInt64)
      (confirmed : Bool)

/-- Whether a call is an execution. -/
def HostCall.isExecute : HostCall → Bool
  | .execute .. => true
  | _ => false

/-- Whether a call is the execution of an action that requires confirmation. -/
def HostCall.isConfirmed : HostCall → Bool
  | .execute a _ _ _ => a.confirmationRequired
  | _ => false

/-! ## One resolution -/

/-- The resolved action of a step. Source: `lib.rs`, `ResolvedStepAction`. -/
structure ResolvedStepAction where
  command : Option Command
  action : Action
  providerId : Option String

/-- The action of a command with the id of the reference. Source: `lib.rs`,
`ReferenceResolver::resolve`. -/
def commandAction (c : Command) (r : ActionReference) : Option Action :=
  c.actions.find? fun a => a.id == some r.actionId

/-- The referenced action among the commands of a discovery query. Source: `lib.rs`,
`ReferenceResolver::resolve` (the second part). -/
def findAction (r : ActionReference) (commands : List Command) :
    Except WfFailure (Command × Action) :=
  match commands.find? fun c => c.providerId == r.providerId && c.id == r.commandId with
  | none => .error (.new .commandNotFound (r.providerId ++ " :: " ++ r.commandId))
  | some c =>
      match commandAction c r with
      | none =>
          .error (.new .commandNotFound ("action " ++ r.actionId ++ " not on " ++ r.commandId))
      | some a => .ok (c, a)

variable {σ : Type u} (H : Host σ)

/-- The referenced action in the popup session. Source: `lib.rs`, `ReferenceResolver::resolve` (the
first part). -/
def sessionAction (r : ActionReference) (s : σ) : Option (Command × Action) :=
  (H.inSession s r.providerId r.commandId).bind fun c =>
    (commandAction c r).map fun a => (c, a)

/-- The popup session first, then a fresh discovery query. Source: `lib.rs`,
`ReferenceResolver::resolve`. -/
def resolveReference (r : ActionReference) (s : σ) :
    Except WfFailure (Command × Action) × σ × List HostCall :=
  match sessionAction H r s with
  | some found => (.ok found, s, [])
  | none =>
      match H.freshQuery s r.providerId with
      | (.error (c, reason), s) => (.error (.new c reason), s, [.discover r.providerId])
      | (.ok commands, s) => (findAction r commands, s, [.discover r.providerId])

/-- The JSON payload of an action. -/
def jsonPayload (a : Action) : Option Json :=
  match a.payload with
  | some (.json v) => some v
  | _ => none

/-- The payload of an action at run time: the input of the step unless it is null. Source: `lib.rs`,
`execute_step`. -/
def runtimeAction (a : Action) (input : Json) : Action :=
  if input.isNull then a else { a with payload := some (.json input) }

/-- The identity fields of the payload that the runtime input alters. Source: `lib.rs`,
`execute_step`. -/
def alteredIdentity (a : Action) (input : Json) : List String :=
  match jsonPayload a, jsonPayload (runtimeAction a input) with
  | some proj, some rt => identityMismatch proj rt
  | _, _ => []

/-- A referenced action with the input of the step, refused when the input alters the identity of
the route. Source: `lib.rs`, `execute_step`. -/
def bindReference (input : Json) (c : Command) (a : Action) :
    Except WfFailure ResolvedStepAction :=
  let mismatch := alteredIdentity a input
  if mismatch.isEmpty then
    .ok
      { command := some c
        action := runtimeAction a input
        providerId := if a.kind = .pluginInvoke then some c.providerId else none }
  else
    .error (.new .invalidInput
      ("runtime input alters resolved route identity: " ++ ", ".intercalate mismatch))

/-- The class of a descriptor error. Source: `lib.rs`, `classify_descriptor_error`. -/
def classifyDescriptorError : DescriptorError → WfFailure
  | .unknownActionType t => .new .invalidInput ("unknown action type: " ++ t)
  | .invalidInput t => .new .invalidInput t
  | .capabilityDenied cs =>
      .new .capabilityDenied ("[" ++ ", ".intercalate (cs.map Capability.debug) ++ "]")

/-- A descriptor with the input of the step, unless that is null. Source: `lib.rs`,
`execute_step`. -/
def runtimeDescriptor (d : ActionDescriptor) (input : Json) : ActionDescriptor :=
  if input.isNull then d else { d with input := input }

/-- The action of an inline descriptor. Source: `lib.rs`, `execute_step`. -/
def resolveInline (input : Json) (d : ActionDescriptor) : Except WfFailure ResolvedStepAction :=
  match resolveDescriptor (runtimeDescriptor d input) [] with
  | .ok a => .ok ⟨none, { a with id := some d.id, title := d.title }, none⟩
  | .error e => .error (classifyDescriptorError e)

/-- A disabled action is never executed. Source: `lib.rs`, `execute_step`. -/
def refuseDisabled (r : ResolvedStepAction) : Except WfFailure ResolvedStepAction :=
  match r.action.disabledReason with
  | some reason => .error (.new .capabilityDenied ("action disabled: " ++ reason))
  | none => .ok r

/-- One resolution of the action of a step. Source: `lib.rs`, `execute_step` (the body of the
resolution loop up to the policy). -/
def resolveStep (action : WorkflowAction) (input : Json) (s : σ) :
    Except WfFailure ResolvedStepAction × σ × List HostCall :=
  match action with
  | .reference r =>
      let found := resolveReference H r s
      (do
        let (c, a) ← found.1
        let r ← bindReference input c a
        refuseDisabled r, found.2)
  | .inline d =>
      (do
        let r ← resolveInline input d
        refuseDisabled r, s, [.descriptor (runtimeDescriptor d input)])

theorem eq_of_refuseDisabled {r r' : ResolvedStepAction} (h : refuseDisabled r = .ok r') :
    r' = r ∧ r.action.disabledReason = none := by
  unfold refuseDisabled at h
  split at h
  · cases h
  · rename_i hnone
    exact ⟨(Except.ok.inj h).symm, hnone⟩

theorem findAction_eq_ok {r : ActionReference} {commands : List Command} {c : Command} {a : Action}
    (h : findAction r commands = .ok (c, a)) : a ∈ c.actions := by
  unfold findAction at h
  split at h
  · cases h
  · split at h
    · cases h
    · rename_i ha
      obtain ⟨rfl, rfl⟩ := Prod.mk.inj (Except.ok.inj h)
      exact List.mem_of_find?_eq_some ha

/-- The action that a reference is resolved to is one of its command. -/
theorem resolveReference_eq_ok {r : ActionReference} {s : σ} {c : Command} {a : Action}
    (h : (resolveReference H r s).1 = .ok (c, a)) : a ∈ c.actions := by
  unfold resolveReference at h
  split at h
  · rename_i found hfound
    obtain rfl : found = (c, a) := Except.ok.inj h
    obtain ⟨c', -, hc'⟩ := Option.bind_eq_some_iff.mp hfound
    obtain ⟨a', ha', heq⟩ := Option.map_eq_some_iff.mp hc'
    obtain ⟨rfl, rfl⟩ := Prod.mk.inj heq
    exact List.mem_of_find?_eq_some ha'
  · split at h
    · cases h
    · exact findAction_eq_ok h

/-- **What a reference is resolved to**: an action of a command, with the input of the step where
that is not null, and only if the input leaves the identity of the route alone. -/
theorem resolveStep_reference {ref : ActionReference} {input : Json} {s : σ}
    {r : ResolvedStepAction} (h : (resolveStep H (.reference ref) input s).1 = .ok r) :
    ∃ c a, (resolveReference H ref s).1 = .ok (c, a) ∧ r.command = some c ∧
      r.action = runtimeAction a input ∧ alteredIdentity a input = [] ∧
      r.providerId = if a.kind = .pluginInvoke then some c.providerId else none := by
  obtain ⟨⟨c, a⟩, hfound, h⟩ := bind_eq_ok.mp h
  obtain ⟨r', hbind, hrefuse⟩ := bind_eq_ok.mp h
  obtain ⟨rfl, -⟩ := eq_of_refuseDisabled hrefuse
  unfold bindReference at hbind
  dsimp only at hbind
  split at hbind
  · rename_i hnil
    obtain rfl := Except.ok.inj hbind
    exact ⟨c, a, hfound, rfl, rfl, by simpa using hnil, rfl⟩
  · cases hbind

/-! ## Resolution with retries -/

/-- The run of a step in progress: its record, the state of the host and the calls so far. -/
structure Attempt (σ : Type u) where
  sr : StepRun
  host : σ
  calls : List HostCall

/-- Source: `lib.rs`, `StepOutcome`. -/
inductive StepOutcome
  | next
  | paused
  | failed
  deriving DecidableEq, Repr

variable (d : WorkflowDefinition) (step : WorkflowStep)

/-- Source: `lib.rs`, `policy_for`. -/
def policyFor (c : WorkflowFailureClass) : FailureAction :=
  d.failurePolicy.actionFor step.failurePolicy c

/-- Source: `lib.rs`, `max_attempts`. -/
def maxAttempts : UInt32 := d.failurePolicy.maxAttempts step.failurePolicy

/-- The record with a status. -/
def Attempt.withStatus (a : Attempt σ) (status : StepRunStatus) : Attempt σ :=
  { a with sr := { a.sr with status := status } }

/-- The answer of the policy to a failed resolution: `inl` to resolve again. The number counts the
resolutions that `ReResolve` asked for. Source: `lib.rs`, `execute_step` (the match on the policy
in the resolution loop). -/
def onResolveError (reResolves : ℕ) (a : Attempt σ) :
    FailureAction → (ℕ × Attempt σ) ⊕ (Except StepOutcome ResolvedStepAction × Attempt σ)
  | .reResolve =>
      if reResolves < 2 then .inl (reResolves + 1, a.withStatus .resolving)
      else .inr (.error .failed, a.withStatus .failed)
  | .retry =>
      if a.sr.attempt < maxAttempts d step then
        .inl (reResolves,
          { a with sr := { a.sr with status := .resolving, attempt := a.sr.attempt + 1 } })
      else .inr (.error .failed, a.withStatus .failed)
  | .skip => .inr (.error .next, a.withStatus .skipped)
  | .stop => .inr (.error .failed, a.withStatus .failed)

variable (input : Json)

/-- One round of the resolution loop. Source: `lib.rs`, `execute_step` (the resolution loop). -/
def resolveBody (s : ℕ × Attempt σ) :
    (ℕ × Attempt σ) ⊕ (Except StepOutcome ResolvedStepAction × Attempt σ) :=
  let (outcome, host, calls) := resolveStep H step.action input s.2.host
  match outcome with
  | .ok r => .inr (.ok r, { s.2 with host := host, calls := s.2.calls ++ calls })
  | .error f =>
      onResolveError d step s.1
        { sr := { s.2.sr with lastError := some f.reason }
          host := host
          calls := s.2.calls ++ calls }
        (policyFor d step f.failureClass)

/-- The rounds that the re-resolutions and the attempts leave. -/
def resolveBound (s : ℕ × Attempt σ) : ℕ :=
  (2 - s.1) + ((maxAttempts d step).toNat - s.2.sr.attempt.toNat)

theorem toNat_succ_of_lt {a b : UInt32} (h : a < b) : (a + 1).toNat = a.toNat + 1 := by
  have hlt : a.toNat < b.toNat := UInt32.lt_iff_toNat_lt.mp h
  have hb : b.toNat < 2 ^ 32 := b.toNat_lt
  rw [UInt32.toNat_add]
  exact Nat.mod_eq_of_lt (by simp; omega)

/-- A round that goes on uses up a re-resolution or an attempt; the attempts never fall. -/
theorem onResolveError_inl {n n' : ℕ} {a a' : Attempt σ} {p : FailureAction}
    (h : onResolveError d step n a p = .inl (n', a')) :
    resolveBound d step (n', a') < resolveBound d step (n, a) ∧
      a.sr.attempt.toNat ≤ a'.sr.attempt.toNat := by
  cases p with
  | reResolve =>
      simp only [onResolveError] at h
      split_ifs at h with hlt
      obtain ⟨rfl, rfl⟩ : n + 1 = n' ∧ a.withStatus .resolving = a' := by simpa using h
      refine ⟨?_, le_rfl⟩
      simp only [resolveBound, Attempt.withStatus]
      omega
  | retry =>
      simp only [onResolveError] at h
      split_ifs at h with hlt
      cases h
      have hsucc := toNat_succ_of_lt hlt
      have hlt : a.sr.attempt.toNat < (maxAttempts d step).toNat := UInt32.lt_iff_toNat_lt.mp hlt
      simp only [resolveBound, hsucc]
      omega
  | skip => cases h
  | stop => cases h

/-- A resolution that ends in an error ends the step as skipped where the policy says so and as
failed otherwise, and leaves the rest of its record. -/
theorem onResolveError_inr {n : ℕ} {a a' : Attempt σ} {p : FailureAction}
    {r : Except StepOutcome ResolvedStepAction} (h : onResolveError d step n a p = .inr (r, a')) :
    (r = .error .next ∧ a' = a.withStatus .skipped ∧ p = .skip ∨
      r = .error .failed ∧ a' = a.withStatus .failed ∧ p ≠ .skip) ∧
    a'.sr.attempt = a.sr.attempt ∧ a'.host = a.host ∧ a'.calls = a.calls := by
  have hend : r = .error .next ∧ a' = a.withStatus .skipped ∧ p = .skip ∨
      r = .error .failed ∧ a' = a.withStatus .failed ∧ p ≠ .skip := by
    cases p with
    | reResolve =>
        simp only [onResolveError] at h
        split_ifs at h
        cases h
        exact .inr ⟨rfl, rfl, by decide⟩
    | retry =>
        simp only [onResolveError] at h
        split_ifs at h
        cases h
        exact .inr ⟨rfl, rfl, by decide⟩
    | skip =>
        cases h
        exact .inl ⟨rfl, rfl, rfl⟩
    | stop =>
        cases h
        exact .inr ⟨rfl, rfl, by decide⟩
  refine ⟨hend, ?_⟩
  rcases hend with ⟨-, rfl, -⟩ | ⟨-, rfl, -⟩ <;> exact ⟨rfl, rfl, rfl⟩

/-- The resolution loop. Source: `lib.rs`, `execute_step` (the resolution loop). -/
def resolveLoop : While (ℕ × Attempt σ) (Except StepOutcome ResolvedStepAction × Attempt σ) where
  body := resolveBody H d step input
  bound := resolveBound d step
  decreases := by
    rintro ⟨n, a⟩ ⟨n', a'⟩ h
    unfold resolveBody at h
    split at h
    rename_i outcome host calls _
    cases outcome with
    | ok r => cases h
    | error f => exact (onResolveError_inl d step h).1

/-- Resolution never takes attempts back. -/
theorem resolveLoop_attempt_le (a : Attempt σ) :
    a.sr.attempt.toNat ≤ ((resolveLoop H d step input).run (0, a)).2.sr.attempt.toNat := by
  refine (resolveLoop H d step input).run_induct
    (I := fun s => a.sr.attempt.toNat ≤ s.2.sr.attempt.toNat)
    (P := fun r => a.sr.attempt.toNat ≤ r.2.sr.attempt.toNat) ?_ ?_ (0, a) le_rfl
  · rintro ⟨n, b⟩ ⟨n', b'⟩ hle hbody
    simp only [resolveLoop, resolveBody] at hbody
    split at hbody
    · cases hbody
    · exact hle.trans (onResolveError_inl d step hbody).2
  · rintro ⟨n, b⟩ ⟨r, b'⟩ hle hbody
    simp only [resolveLoop, resolveBody] at hbody
    split at hbody
    · cases hbody
      exact hle
    · rw [(onResolveError_inr d step hbody).2.1]
      exact hle

/-- What resolution may change of a step in progress: the status, the attempts and the last error of
its record, the host, and calls that are not executions at the end of its calls. -/
structure Resolves (a b : Attempt σ) : Prop where
  record : ∃ status attempt lastError,
    b.sr = { a.sr with status := status, attempt := attempt, lastError := lastError }
  calls : ∃ tail, b.calls = a.calls ++ tail ∧ ∀ c ∈ tail, c.isExecute = false

theorem Resolves.refl (a : Attempt σ) : Resolves a a :=
  ⟨⟨_, _, _, rfl⟩, [], by simp, by simp⟩

theorem Resolves.trans {a b c : Attempt σ} (h : Resolves a b) (h' : Resolves b c) :
    Resolves a c := by
  obtain ⟨⟨s, n, e, hrec⟩, tail, hcalls, hno⟩ := h
  obtain ⟨⟨s', n', e', hrec'⟩, tail', hcalls', hno'⟩ := h'
  refine ⟨⟨s', n', e', by rw [hrec', hrec]⟩, tail ++ tail', ?_, ?_⟩
  · rw [hcalls', hcalls, List.append_assoc]
  · intro x hx
    exact (List.mem_append.mp hx).elim (hno x) (hno' x)

theorem Resolves.output {a b : Attempt σ} (h : Resolves a b) : b.sr.output = a.sr.output := by
  obtain ⟨s, n, e, hrec⟩ := h.record
  rw [hrec]

theorem resolveReference_calls (r : ActionReference) (s : σ) :
    ∀ c ∈ (resolveReference H r s).2.2, c.isExecute = false := by
  intro c hc
  unfold resolveReference at hc
  split at hc
  · simp at hc
  · split at hc <;> obtain rfl := List.mem_singleton.mp hc <;> rfl

/-- A resolution makes no execution. -/
theorem resolveStep_calls (action : WorkflowAction) (s : σ) :
    ∀ c ∈ (resolveStep H action input s).2.2, c.isExecute = false := by
  cases action with
  | reference r => exact resolveReference_calls H r s
  | inline d =>
      intro c hc
      obtain rfl := List.mem_singleton.mp hc
      rfl

/-- A round that fails leaves the step to the policy with the record of the failure. -/
theorem resolveBody_error {n : ℕ} {a : Attempt σ} {f : WfFailure} {host : σ}
    {calls : List HostCall}
    (h : resolveStep H step.action input a.host = (.error f, host, calls)) :
    resolveBody H d step input (n, a) =
      onResolveError d step n ⟨{ a.sr with lastError := some f.reason }, host, a.calls ++ calls⟩
        (policyFor d step f.failureClass) := by
  unfold resolveBody
  rw [h]

theorem resolveBody_ok {n : ℕ} {a : Attempt σ} {r : ResolvedStepAction} {host : σ}
    {calls : List HostCall}
    (h : resolveStep H step.action input a.host = (.ok r, host, calls)) :
    resolveBody H d step input (n, a) = .inr (.ok r, ⟨a.sr, host, a.calls ++ calls⟩) := by
  unfold resolveBody
  rw [h]

theorem onResolveError_resolves {n : ℕ} {a : Attempt σ} {p : FailureAction} :
    (∀ n' a', onResolveError d step n a p = .inl (n', a') → Resolves a a') ∧
      ∀ r a', onResolveError d step n a p = .inr (r, a') → Resolves a a' := by
  constructor
  · intro n' a' h
    cases p with
    | reResolve =>
        simp only [onResolveError] at h
        split_ifs at h
        cases h
        exact ⟨⟨_, _, _, rfl⟩, [], by simp [Attempt.withStatus], by simp⟩
    | retry =>
        simp only [onResolveError] at h
        split_ifs at h
        cases h
        exact ⟨⟨_, _, _, rfl⟩, [], by simp, by simp⟩
    | skip => cases h
    | stop => cases h
  · intro r a' h
    rcases (onResolveError_inr d step h).1 with ⟨-, rfl, -⟩ | ⟨-, rfl, -⟩ <;>
      exact ⟨⟨_, _, _, rfl⟩, [], by simp [Attempt.withStatus], by simp⟩

/-- One round of the resolution loop changes no more than a resolution may, and ends in an error
only as skipped or as failed. -/
theorem resolveBody_spec {n : ℕ} {a : Attempt σ} :
    (∀ n' a', resolveBody H d step input (n, a) = .inl (n', a') → Resolves a a') ∧
      ∀ r a', resolveBody H d step input (n, a) = .inr (r, a') → Resolves a a' ∧
        ∀ outcome, r = .error outcome →
          outcome = .next ∧ a'.sr.status = .skipped ∨
            outcome = .failed ∧ a'.sr.status = .failed := by
  obtain ⟨⟨outcome, host, calls⟩, hres⟩ : ∃ res, resolveStep H step.action input a.host = res :=
    ⟨_, rfl⟩
  have hcalls : ∀ c ∈ calls, c.isExecute = false := by
    have h := resolveStep_calls H input step.action a.host
    rwa [hres] at h
  cases outcome with
  | ok r =>
      rw [resolveBody_ok H d step input hres]
      constructor
      · rintro n' a' ⟨⟩
      · rintro r' a' ⟨⟩
        exact ⟨⟨⟨_, _, _, rfl⟩, calls, rfl, hcalls⟩, by rintro _ ⟨⟩⟩
  | error f =>
      rw [resolveBody_error H d step input hres]
      have hfirst : Resolves a
          ⟨{ a.sr with lastError := some f.reason }, host, a.calls ++ calls⟩ :=
        ⟨⟨_, _, _, rfl⟩, calls, rfl, hcalls⟩
      constructor
      · intro n' a' h
        exact hfirst.trans ((onResolveError_resolves d step).1 n' a' h)
      · intro r a' h
        refine ⟨hfirst.trans ((onResolveError_resolves d step).2 r a' h), ?_⟩
        rintro outcome rfl
        rcases (onResolveError_inr d step h).1 with ⟨ho, rfl, -⟩ | ⟨ho, rfl, -⟩
        · exact .inl ⟨by simpa using ho, rfl⟩
        · exact .inr ⟨by simpa using ho, rfl⟩

/-- **What resolution does**: it changes no more than a resolution may, and where it gives no action
the step is skipped and goes on, or it has failed. -/
theorem resolveLoop_spec {n : ℕ} {a b : Attempt σ} {r : Except StepOutcome ResolvedStepAction}
    (h : (resolveLoop H d step input).run (n, a) = (r, b)) :
    Resolves a b ∧ ∀ outcome, r = .error outcome →
      outcome = .next ∧ b.sr.status = .skipped ∨ outcome = .failed ∧ b.sr.status = .failed := by
  have hrun := (resolveLoop H d step input).run_induct
    (I := fun s => Resolves a s.2)
    (P := fun s => Resolves a s.2 ∧ ∀ outcome, s.1 = .error outcome →
      outcome = .next ∧ s.2.sr.status = .skipped ∨ outcome = .failed ∧ s.2.sr.status = .failed)
    (fun s s' hI hbody => hI.trans ((resolveBody_spec H d step input).1 s'.1 s'.2 hbody))
    (fun s s' hI hbody => by
      obtain ⟨hres, hend⟩ := (resolveBody_spec H d step input).2 s'.1 s'.2 hbody
      exact ⟨hI.trans hres, hend⟩)
    (n, a) (Resolves.refl a)
  rwa [h] at hrun

/-! ## The attempts of a step -/

variable (gen : UInt64) (confirmed : Bool)

/-- The entry of `execute_step`. Source: `lib.rs`, `execute_step`. -/
def Attempt.enter (a : Attempt σ) : Attempt σ :=
  { a with sr := { a.sr with status := .resolving, attempt := a.sr.attempt + 1 } }

/-- The answer of the policy to a failed execution: `inl` for another attempt. Source: `lib.rs`,
`execute_step` (the match on the policy after the execution) and `re_resolve_budget`. -/
def onExecuteError (a : Attempt σ) : FailureAction → Attempt σ ⊕ (StepOutcome × Attempt σ)
  | .retry =>
      if a.sr.attempt < maxAttempts d step then .inl (a.withStatus .resolving)
      else .inr (.failed, a.withStatus .failed)
  | .reResolve =>
      if a.sr.attempt ≤ 2 then .inl (a.withStatus .resolving)
      else .inr (.failed, a.withStatus .failed)
  | .skip => .inr (.next, a.withStatus .skipped)
  | .stop => .inr (.failed, a.withStatus .failed)

/-- The record once the action is resolved. Source: `lib.rs`, `execute_step`. -/
def resolvedRecord (r : ResolvedStepAction) (sr : StepRun) : StepRun :=
  { sr with
    status := .resolved
    resolvedContextGeneration :=
      if r.command.isSome then some gen else sr.resolvedContextGeneration }

/-- The confirmation gate and the execution of a resolved action. The flag `confirmed` is passed to
`execute_step` by reference, but nothing there writes it. Source: `lib.rs`, `execute_step` (after
the resolution loop). -/
def executeResolved (r : ResolvedStepAction) (a : Attempt σ) :
    Attempt σ ⊕ (StepOutcome × Attempt σ) :=
  let sr := resolvedRecord gen r a.sr
  if r.action.confirmationRequired && !confirmed then
    .inr (.paused,
      { a with
        sr := { sr with
          status := .waitingForConfirmation
          lastError := some "confirmation required" } })
  else
    let action := { r.action with confirmationRequired := false }
    let calls := a.calls ++ [.execute r.action r.providerId gen confirmed]
    match H.execute a.host action r.providerId gen confirmed with
    | (.ok outcome, host) =>
        .inr (.next,
          { sr := { sr with
              status := .complete
              lastExecutionId := outcome.executionId
              resolvedContextGeneration := some gen
              output := outcome.pluginResult }
            host := host
            calls := calls })
    | (.error f, host) =>
        onExecuteError d step
          { sr := { sr with
              status := .executing
              lastError := some f.reason
              lastExecutionId := f.executionId }
            host := host
            calls := calls }
          (policyFor d step f.failureClass)

/-- One attempt: `inl` where the source calls `execute_step` again. Source: `lib.rs`,
`execute_step`. -/
def attemptBody (a : Attempt σ) : Attempt σ ⊕ (StepOutcome × Attempt σ) :=
  match (resolveLoop H d step input).run (0, a.enter) with
  | (.error outcome, a) => .inr (outcome, a)
  | (.ok r, a) => executeResolved H d step gen confirmed r a

/-- The attempts left: a retry needs fewer attempts than the maximum, a re-resolution at most two.
The counter wraps at the entry, so its last value has more left than any other. -/
def attemptBound (a : Attempt σ) : ℕ :=
  if a.sr.attempt.toNat = 2 ^ 32 - 1 then (maxAttempts d step).toNat + 4
  else (maxAttempts d step).toNat + 3 - a.sr.attempt.toNat

/-- Another attempt is made only below the maximum or within the budget for re-resolutions. -/
theorem onExecuteError_inl {a a' : Attempt σ} {p : FailureAction}
    (h : onExecuteError d step a p = .inl a') :
    a' = a.withStatus .resolving ∧
      (p = .retry ∧ a.sr.attempt < maxAttempts d step ∨ p = .reResolve ∧ a.sr.attempt ≤ 2) := by
  cases p with
  | retry =>
      simp only [onExecuteError] at h
      split_ifs at h with hlt
      exact ⟨(Sum.inl.inj h).symm, .inl ⟨rfl, hlt⟩⟩
  | reResolve =>
      simp only [onExecuteError] at h
      split_ifs at h with hle
      exact ⟨(Sum.inl.inj h).symm, .inr ⟨rfl, hle⟩⟩
  | skip => cases h
  | stop => cases h

/-- A step ends after a failed execution as skipped or as failed. -/
theorem onExecuteError_inr {a a' : Attempt σ} {p : FailureAction} {outcome : StepOutcome}
    (h : onExecuteError d step a p = .inr (outcome, a')) :
    outcome = .next ∧ a' = a.withStatus .skipped ∧ p = .skip ∨
      outcome = .failed ∧ a' = a.withStatus .failed := by
  cases p with
  | retry =>
      simp only [onExecuteError] at h
      split_ifs at h
      obtain ⟨rfl, rfl⟩ := Prod.mk.inj (Sum.inr.inj h)
      exact .inr ⟨rfl, rfl⟩
  | reResolve =>
      simp only [onExecuteError] at h
      split_ifs at h
      obtain ⟨rfl, rfl⟩ := Prod.mk.inj (Sum.inr.inj h)
      exact .inr ⟨rfl, rfl⟩
  | skip =>
      obtain ⟨rfl, rfl⟩ := Prod.mk.inj (Sum.inr.inj h)
      exact .inl ⟨rfl, rfl, rfl⟩
  | stop =>
      obtain ⟨rfl, rfl⟩ := Prod.mk.inj (Sum.inr.inj h)
      exact .inr ⟨rfl, rfl⟩

/-- Another attempt follows an execution that failed; its record keeps the attempt counter. -/
theorem executeResolved_inl {r : ResolvedStepAction} {a a' : Attempt σ}
    (h : executeResolved H d step gen confirmed r a = .inl a') :
    a'.sr.attempt = a.sr.attempt ∧
      (a.sr.attempt < maxAttempts d step ∨ a.sr.attempt ≤ 2) := by
  unfold executeResolved at h
  dsimp only at h
  split_ifs at h
  split at h
  · cases h
  · obtain ⟨rfl, hbudget⟩ := onExecuteError_inl d step h
    exact ⟨rfl, hbudget.imp And.right And.right⟩

/-- Another attempt is made only after the action was resolved. -/
theorem attemptBody_inl {a a' : Attempt σ}
    (h : attemptBody H d step input gen confirmed a = .inl a') :
    ∃ r b, (resolveLoop H d step input).run (0, a.enter) = (.ok r, b) ∧
      executeResolved H d step gen confirmed r b = .inl a' := by
  unfold attemptBody at h
  split at h
  · cases h
  · rename_i r b hrun
    exact ⟨r, b, hrun, h⟩

theorem attemptBound_lt {a a' : Attempt σ}
    (h : attemptBody H d step input gen confirmed a = .inl a') :
    attemptBound d step a' < attemptBound d step a := by
  obtain ⟨r, b, hrun, hexec⟩ := attemptBody_inl H d step input gen confirmed h
  obtain ⟨hattempt, hbudget⟩ := executeResolved_inl H d step gen confirmed hexec
  have hle : (a.sr.attempt + 1).toNat ≤ b.sr.attempt.toNat := by
    have hle := resolveLoop_attempt_le H d step input a.enter
    rwa [hrun] at hle
  have hsucc : (a.sr.attempt + 1).toNat = (a.sr.attempt.toNat + 1) % 2 ^ 32 :=
    UInt32.toNat_add _ _
  have hlast : a.sr.attempt.toNat < 2 ^ 32 := a.sr.attempt.toNat_lt
  have hbudget : b.sr.attempt.toNat < (maxAttempts d step).toNat ∨ b.sr.attempt.toNat ≤ 2 :=
    hbudget.imp UInt32.lt_iff_toNat_lt.mp UInt32.le_iff_toNat_le.mp
  have hmax : (maxAttempts d step).toNat < 2 ^ 32 := (maxAttempts d step).toNat_lt
  unfold attemptBound
  rw [hattempt]
  split_ifs <;> omega

/-- The attempts of a step. Source: `lib.rs`, `execute_step` (its recursion). -/
def attemptLoop : While (Attempt σ) (StepOutcome × Attempt σ) where
  body := attemptBody H d step input gen confirmed
  bound := attemptBound d step
  decreases := attemptBound_lt H d step input gen confirmed

/-- Source: `lib.rs`, `execute_step`. -/
def executeStep (a : Attempt σ) : StepOutcome × Attempt σ :=
  (attemptLoop H d step input gen confirmed).run a

/-! ## What a step does -/

/-- What one attempt can do, from the state `b` in which its resolution ends: give up as skipped or
failed, pause, or execute the resolved action and answer what the host says. -/
theorem attemptBody_cases (a : Attempt σ) :
    (∃ outcome b, (resolveLoop H d step input).run (0, a.enter) = (.error outcome, b) ∧
      attemptBody H d step input gen confirmed a = .inr (outcome, b)) ∨
    (∃ r b, (resolveLoop H d step input).run (0, a.enter) = (.ok r, b) ∧
      attemptBody H d step input gen confirmed a = executeResolved H d step gen confirmed r b) := by
  unfold attemptBody
  cases hrun : (resolveLoop H d step input).run (0, a.enter) with
  | mk r b =>
      cases r with
      | error outcome => exact .inl ⟨outcome, b, rfl, rfl⟩
      | ok r => exact .inr ⟨r, b, rfl, rfl⟩

/-- The executions among some calls. -/
def executions (calls : List HostCall) : ℕ := calls.countP HostCall.isExecute

theorem executions_append (xs ys : List HostCall) :
    executions (xs ++ ys) = executions xs + executions ys := List.countP_append

theorem Resolves.executions {a b : Attempt σ} (h : Resolves a b) :
    executions b.calls = executions a.calls := by
  obtain ⟨tail, hcalls, hno⟩ := h.calls
  have htail : Runner.executions tail = 0 := List.countP_eq_zero.mpr fun c hc => by simp [hno c hc]
  rw [hcalls, executions_append, htail, Nat.add_zero]

/-- The walk left by a result that may ask for another attempt. -/
def Attempt.ofResult : Attempt σ ⊕ (StepOutcome × Attempt σ) → Attempt σ := Sum.elim id Prod.snd

theorem onExecuteError_calls (a : Attempt σ) (p : FailureAction) :
    (Attempt.ofResult (onExecuteError d step a p)).calls = a.calls := by
  cases p with
  | retry =>
      simp only [onExecuteError]
      split_ifs <;> rfl
  | reResolve =>
      simp only [onExecuteError]
      split_ifs <;> rfl
  | skip => rfl
  | stop => rfl

/-! ## The calls of a step -/

theorem onResolveError_calls (n : ℕ) (a : Attempt σ) (p : FailureAction) :
    (Sum.elim Prod.snd Prod.snd (onResolveError d step n a p)).calls = a.calls := by
  cases p with
  | reResolve =>
      simp only [onResolveError]
      split_ifs <;> rfl
  | retry =>
      simp only [onResolveError]
      split_ifs <;> rfl
  | skip => rfl
  | stop => rfl

/-- A round of the resolution adds the calls of one resolution. -/
theorem resolveBody_calls (n : ℕ) (a : Attempt σ) :
    (Sum.elim Prod.snd Prod.snd (resolveBody H d step input (n, a))).calls =
      a.calls ++ (resolveStep H step.action input a.host).2.2 := by
  obtain ⟨⟨outcome, host, calls⟩, hres⟩ : ∃ res, resolveStep H step.action input a.host = res :=
    ⟨_, rfl⟩
  rw [hres]
  cases outcome with
  | ok r =>
      rw [resolveBody_ok H d step input hres]
      rfl
  | error f => rw [resolveBody_error H d step input hres, onResolveError_calls]

/-- The calls of the first resolution are among those of the whole resolution. -/
theorem resolveLoop_calls {n : ℕ} {a b : Attempt σ} {r : Except StepOutcome ResolvedStepAction}
    (h : (resolveLoop H d step input).run (n, a) = (r, b)) :
    a.calls ++ (resolveStep H step.action input a.host).2.2 <+: b.calls := by
  have hfirst := resolveBody_calls H d step input n a
  cases hbody : resolveBody H d step input (n, a) with
  | inl s =>
      obtain ⟨n', a'⟩ := s
      rw [hbody] at hfirst
      rw [(resolveLoop H d step input).run_of_inl hbody] at h
      obtain ⟨tail, htail, -⟩ := (resolveLoop_spec H d step input h).1.calls
      rw [← hfirst]
      exact ⟨tail, htail.symm⟩
  | inr s =>
      rw [hbody] at hfirst
      rw [(resolveLoop H d step input).run_of_inr hbody] at h
      subst h
      rw [← hfirst]
      exact List.prefix_rfl

/-- An action that is found is what one resolution gives. -/
theorem resolveLoop_ok {n : ℕ} {a b : Attempt σ} {r : ResolvedStepAction}
    (h : (resolveLoop H d step input).run (n, a) = (.ok r, b)) :
    ∃ s, (resolveStep H step.action input s).1 = .ok r := by
  obtain ⟨m, ⟨k, c⟩, -, -, hexit⟩ := (resolveLoop H d step input).exists_passes_run (n, a)
  rw [h] at hexit
  cases hres : (resolveStep H step.action input c.host).1 with
  | ok r' =>
      have hbody := resolveBody_ok H d step input (n := k) (a := c) (Prod.ext hres rfl)
      cases hexit.symm.trans hbody
      exact ⟨c.host, hres⟩
  | error f =>
      have hbody := resolveBody_error H d step input (n := k) (a := c) (Prod.ext hres rfl)
      rcases (onResolveError_inr d step (hbody.symm.trans hexit)).1 with ⟨⟨⟩, -⟩ | ⟨⟨⟩, -⟩

/-- **What happens to a resolved action**: it waits for a confirmation that is not there, or it is
executed, and then the step does not pause. -/
theorem executeResolved_cases (r : ResolvedStepAction) (a : Attempt σ) :
    (r.action.confirmationRequired = true ∧ confirmed = false ∧
      ∃ b, executeResolved H d step gen confirmed r a = .inr (.paused, b) ∧
        b.sr.status = .waitingForConfirmation ∧ b.calls = a.calls) ∨
    ((r.action.confirmationRequired = false ∨ confirmed = true) ∧
      (Attempt.ofResult (executeResolved H d step gen confirmed r a)).calls =
        a.calls ++ [.execute r.action r.providerId gen confirmed] ∧
      ∀ outcome b, executeResolved H d step gen confirmed r a = .inr (outcome, b) →
        outcome ≠ .paused) := by
  unfold executeResolved
  dsimp only
  split_ifs with hgate
  · obtain ⟨hreq, hno⟩ : r.action.confirmationRequired = true ∧ confirmed = false := by
      simpa using hgate
    exact .inl ⟨hreq, hno, _, rfl, rfl, rfl⟩
  · refine .inr ⟨?_, ?_⟩
    · revert hgate
      cases r.action.confirmationRequired <;> cases confirmed <;> simp
    · split
      · refine ⟨rfl, ?_⟩
        rintro _ _ ⟨⟩
        decide
      · refine ⟨onExecuteError_calls d step _ _, fun outcome b h => ?_⟩
        rcases onExecuteError_inr d step h with ⟨rfl, -⟩ | ⟨rfl, -⟩ <;> decide

/-- The calls of an attempt come after those so far. -/
theorem attemptBody_prefix (a : Attempt σ) :
    a.calls <+: (Attempt.ofResult (attemptBody H d step input gen confirmed a)).calls := by
  rcases attemptBody_cases H d step input gen confirmed a with
    ⟨o, b, hrun, heq⟩ | ⟨r, b, hrun, heq⟩
  · rw [heq]
    exact (List.prefix_append a.enter.calls _).trans (resolveLoop_calls H d step input hrun)
  · have hb : a.calls <+: b.calls :=
      (List.prefix_append a.enter.calls _).trans (resolveLoop_calls H d step input hrun)
    rw [heq]
    rcases executeResolved_cases H d step gen confirmed r b with
      ⟨-, -, b', hpause, -, hcalls⟩ | ⟨-, hcalls, -⟩
    · rw [hpause]
      exact hcalls ▸ hb
    · rw [hcalls]
      exact hb.trans (List.prefix_append _ _)

/-- The calls of a visit come after those so far. -/
theorem executeStep_prefix (a : Attempt σ) :
    a.calls <+: (executeStep H d step input gen confirmed a).2.calls := by
  refine (attemptLoop H d step input gen confirmed).run_induct
    (I := fun b => a.calls <+: b.calls) (P := fun r => a.calls <+: r.2.calls) ?_ ?_ a
    List.prefix_rfl
  · intro b b' hb hbody
    have h := attemptBody_prefix H d step input gen confirmed b
    rw [show attemptBody H d step input gen confirmed b = .inl b' from hbody] at h
    exact hb.trans h
  · intro b r hb hbody
    have h := attemptBody_prefix H d step input gen confirmed b
    rw [show attemptBody H d step input gen confirmed b = .inr r from hbody] at h
    exact hb.trans h

/-- A resolved action is executed once at most. -/
theorem executeResolved_executions (r : ResolvedStepAction) (a : Attempt σ) :
    executions (Attempt.ofResult (executeResolved H d step gen confirmed r a)).calls ≤
      executions a.calls + 1 := by
  rcases executeResolved_cases H d step gen confirmed r a with
    ⟨-, -, b, hpause, -, hcalls⟩ | ⟨-, hcalls, -⟩
  · rw [hpause]
    exact (congrArg executions hcalls).le.trans (Nat.le_succ _)
  · rw [hcalls, executions_append]
    exact le_rfl

theorem attemptBody_executions (a : Attempt σ) :
    executions (Attempt.ofResult (attemptBody H d step input gen confirmed a)).calls ≤
      executions a.calls + 1 := by
  rcases attemptBody_cases H d step input gen confirmed a with
    ⟨o, b, hrun, heq⟩ | ⟨r, b, hrun, heq⟩
  · rw [heq]
    exact ((resolveLoop_spec H d step input hrun).1.executions).le.trans (Nat.le_succ _)
  · rw [heq]
    have hres : executions b.calls = executions a.calls :=
      (resolveLoop_spec H d step input hrun).1.executions
    rw [← hres]
    exact executeResolved_executions H d step gen confirmed r b

/-- **Retries are bounded**: however the host answers, one visit of a step makes at most five
executions more than its maximum of attempts. -/
theorem executeStep_executions_le (a : Attempt σ) :
    executions (executeStep H d step input gen confirmed a).2.calls ≤
      executions a.calls + ((maxAttempts d step).toNat + 5) := by
  have hcost := (attemptLoop H d step input gen confirmed).run_cost_le
    (fun b => executions b.calls) (fun r => executions r.2.calls)
    (fun b b' hb => by
      have h := attemptBody_executions H d step input gen confirmed b
      rwa [show attemptBody H d step input gen confirmed b = .inl b' from hb] at h)
    (fun b r hb => by
      have h := attemptBody_executions H d step input gen confirmed b
      rwa [show attemptBody H d step input gen confirmed b = .inr r from hb] at h) a
  have hbound : attemptBound d step a ≤ (maxAttempts d step).toNat + 4 := by
    unfold attemptBound
    split_ifs <;> omega
  exact hcost.trans (by simp only [attemptLoop]; omega)

/-- The status a step has when `execute_step` returns. -/
def StepOutcome.Matches : StepOutcome → StepRunStatus → Prop
  | .next, status => status = .complete ∨ status = .skipped
  | .paused, status => status = .waitingForConfirmation
  | .failed, status => status = .failed

theorem executeResolved_status {r : ResolvedStepAction} {a a' : Attempt σ} {outcome : StepOutcome}
    (h : executeResolved H d step gen confirmed r a = .inr (outcome, a')) :
    outcome.Matches a'.sr.status := by
  unfold executeResolved at h
  dsimp only at h
  split_ifs at h
  · cases h
    rfl
  · split at h
    · cases h
      exact .inl rfl
    · rcases onExecuteError_inr d step h with ⟨rfl, rfl, -⟩ | ⟨rfl, rfl⟩
      · exact .inr rfl
      · rfl

/-- A step that goes on is complete or skipped, one that pauses waits, one that fails is failed. -/
theorem executeStep_status (a : Attempt σ) :
    (executeStep H d step input gen confirmed a).1.Matches
      (executeStep H d step input gen confirmed a).2.sr.status := by
  refine (attemptLoop H d step input gen confirmed).run_induct (I := fun _ => True)
    (P := fun r => r.1.Matches r.2.sr.status) (fun _ _ _ _ => trivial) ?_ a trivial
  rintro b ⟨outcome, c⟩ - hbody
  rcases attemptBody_cases H d step input gen confirmed b with
    ⟨o, b', hrun, heq⟩ | ⟨r, b', hrun, heq⟩
  · obtain ⟨rfl, rfl⟩ := Prod.mk.inj (Sum.inr.inj (heq.symm.trans hbody))
    rcases (resolveLoop_spec H d step input hrun).2 o rfl with ⟨rfl, hst⟩ | ⟨rfl, hst⟩
    · exact .inr hst
    · exact hst
  · exact executeResolved_status H d step gen confirmed (heq.symm.trans hbody)

end AuraLauncher.Runner
