import AuraLauncher.Domain.Std
import Mathlib.Order.Basic
import Mathlib.Order.Lattice

/-!
# Who may ask for what of the system

`launcher-domain/src/system.rs`: a command on the system is resolved into a record of the decision,
against a list of operations that are denied outright, the origins that may ask at all, and the
highest risk each of them may ask for. The serialised forms of the commands are left out.

* `SystemRisk` — the classes of risk, in their order.
* `SystemCommand.validate` — the checks of a command by itself.
* `SystemPolicy`, `SystemResolver`, `resolve` — the rules and the decision.
* `Permits` — what the rules permit, all of them and all of their entries.
* `resolve_cases` — the decision, ground by ground.
* `decidesExactly_iff` — the decision is what the rules permit exactly when neither of the two
  things `resolve` passes over matters: the operations the policy denies, and the ceilings of an
  origin after its first.
-/

namespace AuraLauncher.Domain

/-! ## Commands -/

/-- Source: `system.rs`, `SystemCapability`. -/
inductive SystemCapability where
  | process | window | file | clipboard | shell | uri | notification | power | settings
  deriving DecidableEq, Repr

/-- Source: `system.rs`, `SystemRisk`. -/
inductive SystemRisk where
  | info | readOnly | reversible | destructive | privileged
  deriving DecidableEq, Repr

namespace SystemRisk

/-- The place of a class in the order of the declaration. -/
def level : SystemRisk → ℕ
  | info => 0
  | readOnly => 1
  | reversible => 2
  | destructive => 3
  | privileged => 4

theorem level_injective : Function.Injective level := by
  intro a b h
  cases a <;> cases b <;> first | rfl | exact absurd h (by decide)

/-- Source: `system.rs`, `SystemRisk` (`PartialOrd`, `Ord`). -/
instance : LinearOrder SystemRisk := LinearOrder.lift' level level_injective

/-- Source: `system.rs`, `SystemRisk` (`Debug`). -/
def debug : SystemRisk → String
  | info => "Info"
  | readOnly => "ReadOnly"
  | reversible => "Reversible"
  | destructive => "Destructive"
  | privileged => "Privileged"

/-- Source: `system.rs`, `requires_confirmation`. -/
def requiresConfirmation : SystemRisk → Bool
  | destructive | privileged => true
  | _ => false

/-- The classes that need a confirmation are those from the destructive one on. -/
theorem requiresConfirmation_iff (r : SystemRisk) :
    r.requiresConfirmation = true ↔ destructive ≤ r := by
  cases r <;> decide

end SystemRisk

/-- What a command acts on. Source: `system.rs`, `SystemTarget`. -/
inductive SystemTarget where
  | process (pid : UInt32) (name : String) (creationTimeFt : Option Int64)
  | window (hwnd : UInt64) (title : String) (pid : Option UInt32)
  | file (path : String)
  | uri (scheme : String)
  | system (setting : String)
  deriving DecidableEq

/-- Source: `system.rs`, `SystemCommand`. -/
structure SystemCommand where
  capability : SystemCapability
  operation : String
  target : SystemTarget
  risk : SystemRisk
  /-- Who asks. -/
  origin : String
  deriving DecidableEq

/-- The characters of the name of an operation. -/
def isOperationChar (c : Char) : Bool := c.isLower || c == '_' || c.isDigit

/-- Source: `system.rs`, `SystemCommand::validate`. -/
def SystemCommand.validate (cmd : SystemCommand) : Except String Unit :=
  if cmd.operation.isEmpty || cmd.operation.utf8ByteSize > 64 then .error "invalid operation"
  else if !cmd.operation.toList.all isOperationChar then
    .error ("invalid operation `" ++ cmd.operation ++ "`")
  else if cmd.origin.isEmpty || cmd.origin.utf8ByteSize > 64 then .error "invalid origin"
  else
    match cmd.target with
    | .file path => if (trim path.toList).isEmpty then .error "empty file target" else .ok ()
    | _ => .ok ()

/-! ## Decisions -/

/-- The record of a decision. Source: `system.rs`, `Resolution`. -/
structure Resolution where
  approvedByPolicy : Bool
  risk : SystemRisk
  reason : String
  origin : String
  deriving DecidableEq

/-- Source: `system.rs`, `SystemPolicy`. -/
structure SystemPolicy where
  deniedOperations : List String
  /-- The origins that may ask; all of them when there is none. -/
  allowedOrigins : List String
  /-- The highest risk of an origin. -/
  originRiskCeiling : List (String × SystemRisk)

/-- Source: `system.rs`, `SystemPolicy::default`. -/
def SystemPolicy.default : SystemPolicy := ⟨[], [], []⟩

/-- Source: `system.rs`, `origin_allowed`. -/
def SystemPolicy.originAllowed (p : SystemPolicy) (origin : String) : Bool :=
  p.allowedOrigins.isEmpty || p.allowedOrigins.contains origin

/-- The first ceiling that is listed for the origin. Source: `system.rs`, `ceiling`. -/
def SystemPolicy.ceiling (p : SystemPolicy) (origin : String) : Option SystemRisk :=
  (p.originRiskCeiling.find? fun e => e.1 == origin).map Prod.snd

/-- Source: `system.rs`, `SystemResolver`. -/
structure SystemResolver where
  deniedOperations : List String
  policy : SystemPolicy

namespace SystemResolver

/-- Source: `system.rs`, `SystemResolver::resolve`. -/
def resolve (r : SystemResolver) (cmd : SystemCommand) : Except String Resolution := do
  cmd.validate
  if r.deniedOperations.contains cmd.operation then
    return ⟨false, cmd.risk, "operation `" ++ cmd.operation ++ "` denied by policy", cmd.origin⟩
  if !r.policy.originAllowed cmd.origin then
    return ⟨false, cmd.risk, "origin `" ++ cmd.origin ++ "` not allowed to resolve commands",
      cmd.origin⟩
  if let some ceiling := r.policy.ceiling cmd.origin then
    if cmd.risk > ceiling then
      return ⟨false, cmd.risk,
        "risk " ++ cmd.risk.debug ++ " exceeds origin ceiling " ++ ceiling.debug, cmd.origin⟩
  let reason :=
    if cmd.risk.requiresConfirmation then "requires confirmation before effect" else "allowed"
  return ⟨true, cmd.risk, reason, cmd.origin⟩

variable (r : SystemResolver) (cmd : SystemCommand)

/-- A ground on which `resolve` refuses a valid command: it is on the resolver's own list, its
origin may not ask, or its risk is above the first ceiling of the origin. -/
def Refuses : Prop :=
  cmd.operation ∈ r.deniedOperations ∨ r.policy.originAllowed cmd.origin = false ∨
    ∃ c, r.policy.ceiling cmd.origin = some c ∧ c < cmd.risk

/-- **The decision.** An invalid command gets the error of its check; for every other command there
is a record with its risk and origin, which approves it when there is no ground to refuse it. -/
theorem resolve_cases :
    (∃ e, cmd.validate = .error e ∧ r.resolve cmd = .error e) ∨
      cmd.validate = .ok () ∧ ∃ approved reason,
        r.resolve cmd = .ok ⟨approved, cmd.risk, reason, cmd.origin⟩ ∧
          (approved = true ↔ ¬ r.Refuses cmd) := by
  unfold resolve Refuses
  cases hvalid : cmd.validate with
  | error e => exact .inl ⟨e, rfl, rfl⟩
  | ok u =>
      refine .inr ⟨rfl, ?_⟩
      simp only [bind, Except.bind, pure, Except.pure, List.contains_eq_mem, decide_eq_true_eq]
      by_cases hdenied : cmd.operation ∈ r.deniedOperations
      · simp [hdenied]
      cases horigin : r.policy.originAllowed cmd.origin with
      | false => simp [hdenied]
      | true =>
          cases hceiling : r.policy.ceiling cmd.origin with
          | none => simp [hdenied]
          | some c =>
              by_cases hlt : c < cmd.risk
              · simp [hdenied, hlt]
              · simp [hdenied, hlt]

/-! ## What the rules permit -/

/-- A valid command that no list denies, from an origin that may ask, with a risk that is within
every ceiling of the origin. -/
structure Permits : Prop where
  valid : cmd.validate = .ok ()
  not_denied : cmd.operation ∉ r.deniedOperations
  not_denied_by_policy : cmd.operation ∉ r.policy.deniedOperations
  origin_allowed : r.policy.allowedOrigins = [] ∨ cmd.origin ∈ r.policy.allowedOrigins
  within_ceilings : ∀ e ∈ r.policy.originRiskCeiling, e.1 = cmd.origin → cmd.risk ≤ e.2

/-- The decision approves exactly what the rules permit, answers an invalid command with an error,
and every other with a record. -/
structure DecidesExactly : Prop where
  approves_iff : (∃ res, r.resolve cmd = .ok res ∧ res.approvedByPolicy = true) ↔ r.Permits cmd
  error_of_invalid : cmd.validate ≠ .ok () → ∃ e, r.resolve cmd = .error e
  refused : cmd.validate = .ok () → ¬ r.Permits cmd →
    ∃ res, r.resolve cmd = .ok res ∧ res.approvedByPolicy = false

theorem originAllowed_iff (p : SystemPolicy) (origin : String) :
    p.originAllowed origin = true ↔ p.allowedOrigins = [] ∨ origin ∈ p.allowedOrigins := by
  simp [SystemPolicy.originAllowed]

/-- The ceiling of an origin is one of those listed for it. -/
theorem mem_of_ceiling {p : SystemPolicy} {origin : String} {c : SystemRisk}
    (h : p.ceiling origin = some c) : (origin, c) ∈ p.originRiskCeiling := by
  obtain ⟨⟨o, c⟩, hfind, rfl⟩ := Option.map_eq_some_iff.mp h
  obtain rfl : o = origin := by simpa using List.find?_some hfind
  exact List.mem_of_find?_eq_some hfind

variable {r cmd}

/-- What is permitted is not refused. -/
theorem Permits.not_refuses (h : r.Permits cmd) : ¬ r.Refuses cmd := by
  rintro (hdenied | horigin | ⟨c, hceiling, hlt⟩)
  · exact h.not_denied hdenied
  · rw [(originAllowed_iff _ _).mpr h.origin_allowed] at horigin
    cases horigin
  · exact not_lt.mpr (h.within_ceilings _ (mem_of_ceiling hceiling) rfl) hlt

/-- A valid command that is not refused is permitted when the two things that `resolve` passes over
do not matter. -/
theorem permits_iff_of_not_refuses (hvalid : cmd.validate = .ok ()) (h : ¬ r.Refuses cmd) :
    r.Permits cmd ↔ cmd.operation ∉ r.policy.deniedOperations ∧
      ∀ e ∈ r.policy.originRiskCeiling, e.1 = cmd.origin → cmd.risk ≤ e.2 := by
  constructor
  · exact fun hpermits => ⟨hpermits.not_denied_by_policy, hpermits.within_ceilings⟩
  · rintro ⟨hpolicy, hceilings⟩
    refine ⟨hvalid, fun hdenied => h (.inl hdenied), hpolicy, ?_, hceilings⟩
    rw [← originAllowed_iff]
    by_contra horigin
    exact h (.inr (.inl (Bool.not_eq_true _ ▸ horigin)))

variable (r cmd)

/-- **When the decision is what the rules permit**: when the command is invalid or refused anyway,
or the policy does not deny its operation and no ceiling of its origin is below its risk. -/
theorem decidesExactly_iff : r.DecidesExactly cmd ↔
    cmd.validate ≠ .ok () ∨ r.Refuses cmd ∨
      cmd.operation ∉ r.policy.deniedOperations ∧
        ∀ e ∈ r.policy.originRiskCeiling, e.1 = cmd.origin → cmd.risk ≤ e.2 := by
  rcases r.resolve_cases cmd with ⟨e, hvalid, hresolve⟩ | ⟨hvalid, approved, reason, hresolve, happ⟩
  · have hne : cmd.validate ≠ .ok () := by simp [hvalid]
    refine iff_of_true ⟨?_, fun _ => ⟨e, hresolve⟩, fun hok => absurd hok hne⟩ (.inl hne)
    refine iff_of_false ?_ fun hpermits => hne hpermits.valid
    rintro ⟨res, hres, -⟩
    rw [hresolve] at hres
    cases hres
  · by_cases hrefuses : r.Refuses cmd
    · have hfalse : approved = false := by simpa [hrefuses] using happ
      refine iff_of_true ⟨?_, ?_, fun _ _ => ⟨_, hresolve, hfalse⟩⟩ (.inr (.inl hrefuses))
      · refine iff_of_false ?_ fun hpermits => hpermits.not_refuses hrefuses
        rintro ⟨res, hres, htrue⟩
        obtain rfl := Except.ok.inj (hresolve.symm.trans hres)
        rw [hfalse] at htrue
        cases htrue
      · exact fun hne => absurd hvalid hne
    · have htrue : approved = true := happ.mpr hrefuses
      have happroves : ∃ res, r.resolve cmd = .ok res ∧ res.approvedByPolicy = true :=
        ⟨_, hresolve, htrue⟩
      rw [← permits_iff_of_not_refuses hvalid hrefuses]
      constructor
      · intro h
        exact .inr (.inr (h.approves_iff.mp happroves))
      · rintro (hne | hno | hpermits)
        · exact absurd hvalid hne
        · exact absurd hno hrefuses
        · refine ⟨iff_of_true happroves hpermits, ?_, fun _ hnot => absurd hpermits hnot⟩
          exact fun hne => absurd hvalid hne

/-- The command to format a disk, from a search. -/
def formatDisk : SystemCommand where
  capability := .file
  operation := "format_disk"
  target := .file "C:"
  risk := .destructive
  origin := "search"

/-- An operation that the policy denies is approved. -/
theorem not_decidesExactly : ¬ ∀ (r : SystemResolver) (cmd : SystemCommand),
    r.DecidesExactly cmd := by
  intro h
  have hpermits := (h ⟨[], { SystemPolicy.default with deniedOperations := ["format_disk"] }⟩
    formatDisk).approves_iff.mp ⟨_, rfl, rfl⟩
  exact hpermits.not_denied_by_policy List.mem_cons_self

end SystemResolver

end AuraLauncher.Domain
