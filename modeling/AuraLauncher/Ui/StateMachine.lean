import AuraLauncher.Lib.Machine
import Mathlib.Logic.Function.Iterate

/-!
# The states of the user interface

`launcher-ui/src/ui_state.rs`: the windows and what lies over them. A root is opened from nothing or
from another root, an overlay is entered from the search of the launcher, and escape leads back. The
panel of actions is an overlay, and also a state of the launcher, which is how `is_root` sees it: it
can be opened as a root, and roots can be opened from it.

* `UiState`, `UiStateMachine` — the states, and the current one with the roots to return to.
* `UiOp`, `uiStates` — the operations, and the machine.
* `StepLaw`, `StateLaw` — what is asked of an operation, and of a state.
* `OpensProperly`, `lawful_iff` — the openings that have nothing to do with the panel, and the runs
  with them.
* `not_stepLaw_panel` — a root that is opened from the panel.
-/

namespace AuraLauncher.Ui

open AuraLauncher.Lib

/-! ## States -/

/-- Source: `ui_state.rs`, `LauncherState`. -/
inductive LauncherState
  | search
  | actionPanel (commandId : String)
  deriving DecidableEq

/-- Source: `ui_state.rs`, `UiState`. -/
inductive UiState
  | closed
  | launcher (state : LauncherState)
  | pluginContext (pluginId parentQuery query selectedResult : String)
  | preview (commandId : String)
  | contextMenu (commandId : String)
  | pluginCenter
  | settings
  deriving DecidableEq

namespace UiState

/-- Source: `ui_state.rs`, `UiState::is_root`. -/
def isRoot : UiState → Bool
  | .closed | .launcher _ | .pluginCenter | .settings => true
  | _ => false

/-- The states that lie over the search of the launcher. -/
def isOverlay : UiState → Bool
  | .launcher (.actionPanel _) | .pluginContext _ _ _ _ | .preview _ | .contextMenu _ => true
  | _ => false

/-- The panel of actions. -/
def isPanel : UiState → Bool
  | .launcher (.actionPanel _) => true
  | _ => false

/-- The states to return to. -/
def IsReturn (s : UiState) : Prop := s = .launcher .search ∨ s = .pluginCenter ∨ s = .settings

/-- The same state, but for the query and the selection in the context of a plugin. -/
def SamePlace : UiState → UiState → Prop
  | .pluginContext id parentQuery _ _, .pluginContext id' parentQuery' _ _ =>
      id = id' ∧ parentQuery = parentQuery'
  | s, s' => s = s'

theorem SamePlace.refl (s : UiState) : s.SamePlace s := by
  cases s <;> simp [SamePlace]

end UiState

/-- The two states are `from` and `to` there. Source: `ui_state.rs`, `TransitionError`. -/
inductive TransitionError
  | illegal (source target : UiState)
  deriving DecidableEq

/-- The root that was left last is the first. Source: `ui_state.rs`, `UiStateMachine`. -/
structure UiStateMachine where
  current : UiState
  rootStack : List UiState
  deriving DecidableEq

namespace UiStateMachine

/-- Source: `ui_state.rs`, `UiStateMachine::new`. -/
def new : UiStateMachine := ⟨.closed, []⟩

variable (m : UiStateMachine)

/-- Source: `ui_state.rs`, `UiStateMachine::open_root`. -/
def openRoot (target : UiState) : Except TransitionError Unit × UiStateMachine :=
  if target.isRoot = false ∨ target = .closed then (.error (.illegal m.current target), m)
  else
    match m.current with
    | .closed => (.ok (), { m with current := target })
    | .launcher _ | .pluginCenter | .settings => (.ok (), ⟨target, m.current :: m.rootStack⟩)
    | _ => (.error (.illegal m.current target), m)

/-- Source: `ui_state.rs`, `UiStateMachine::enter_overlay`. -/
def enterOverlay (target : UiState) : Except TransitionError Unit × UiStateMachine :=
  if m.current ≠ .launcher .search then (.error (.illegal m.current target), m)
  else
    match target with
    | .launcher (.actionPanel _) | .pluginContext _ _ _ _ | .preview _ | .contextMenu _ =>
        (.ok (), { m with current := target })
    | _ => (.error (.illegal m.current target), m)

/-- Source: `ui_state.rs`, `UiStateMachine::escape`. -/
def escape : Option UiState × UiStateMachine :=
  match m.current with
  | .closed => (none, m)
  | .launcher (.actionPanel _) | .pluginContext _ _ _ _ | .preview _ | .contextMenu _ =>
      (some (.launcher .search), { m with current := .launcher .search })
  | .launcher .search | .pluginCenter | .settings =>
      match m.rootStack with
      | s :: rest => (some s, ⟨s, rest⟩)
      | [] => (none, { m with current := .closed })

/-- Source: `ui_state.rs`, `UiStateMachine::set_plugin_context`. -/
def setPluginContext (query selectedResult : String) : UiStateMachine :=
  match m.current with
  | .pluginContext id parentQuery _ _ =>
      { m with current := .pluginContext id parentQuery query selectedResult }
  | _ => m

/-- Source: `ui_state.rs`, `UiStateMachine::reset_to_closed`. -/
def resetToClosed : UiStateMachine := ⟨.closed, []⟩

end UiStateMachine

/-! ## Operations -/

/-- An operation on the machine. -/
inductive UiOp
  | openRoot (target : UiState)
  | enterOverlay (target : UiState)
  | escape
  | setPluginContext (query selectedResult : String)
  | resetToClosed

/-- The machine after the operation. -/
def UiOp.act : UiOp → UiStateMachine → UiStateMachine
  | .openRoot target, m => (m.openRoot target).2
  | .enterOverlay target, m => (m.enterOverlay target).2
  | .escape, m => m.escape.2
  | .setPluginContext query selectedResult, m => m.setPluginContext query selectedResult
  | .resetToClosed, _ => .resetToClosed

/-- The operation is rejected. -/
def UiOp.Rejected (op : UiOp) (m : UiStateMachine) : Prop :=
  match op with
  | .openRoot target => ∃ e, (m.openRoot target).1 = .error e
  | .enterOverlay target => ∃ e, (m.enterOverlay target).1 = .error e
  | _ => False

/-- The machine as one of `Lib`. -/
def uiStates : Machine UiStateMachine UiOp where
  step m op := some (op.act m)

/-- What is asked of an operation. -/
structure StepLaw (m : UiStateMachine) (op : UiOp) : Prop where
  /-- An overlay that is current was so before, or is entered from the search. -/
  entered : (op.act m).current.isOverlay = true →
    m.current.SamePlace (op.act m).current ∨
      m.current = .launcher .search ∧ op = .enterOverlay (op.act m).current
  /-- No root is opened while an overlay is current. -/
  opened : m.current.isOverlay = true → ∀ target, op = .openRoot target → op.Rejected m
  /-- A rejected operation changes nothing. -/
  rejected : op.Rejected m → op.act m = m
  /-- From an overlay, escape goes to the search. -/
  escaped : m.current.isOverlay = true → op = .escape →
    (op.act m).current = .launcher .search ∧ m.escape.1 = some (.launcher .search)

/-- The machine after one escape. -/
def escaped (m : UiStateMachine) : UiStateMachine := m.escape.2

/-- What is asked of a state. -/
structure StateLaw (m : UiStateMachine) : Prop where
  /-- The roots to return to are the search and the two windows. -/
  returns : ∀ s ∈ m.rootStack, s.IsReturn
  /-- The machine is closed after as many escapes as there are roots to return to, and two. -/
  closes : ∀ n, m.rootStack.length + 2 ≤ n → (escaped^[n] m).current = .closed

/-- A root that can be opened is not the panel, and is not opened from it. -/
def OpensProperly (m : UiStateMachine) (op : UiOp) : Prop :=
  match op with
  | .openRoot target => target.isRoot = true → target ≠ .closed → m.current.isRoot = true →
      target.isPanel = false ∧ m.current.isPanel = false
  | _ => True

/-! ## One operation -/

section op

variable {m : UiStateMachine} {op : UiOp} {target : UiState}

theorem openRoot_rejected
    (h : target.isRoot = false ∨ target = .closed ∨ m.current.isRoot = false) :
    m.openRoot target = (.error (.illegal m.current target), m) := by
  unfold UiStateMachine.openRoot
  rcases h with h | h | h
  · rw [if_pos (.inl h)]
  · rw [if_pos (.inr h)]
  · split_ifs
    · rfl
    · cases hcur : m.current <;> simp [hcur, UiState.isRoot] at h ⊢

theorem openRoot_opened (hroot : target.isRoot = true) (hopen : target ≠ .closed)
    (hcur : m.current.isRoot = true) : (m.openRoot target).1 = .ok () ∧
      (m.openRoot target).2.current = target ∧
      ∀ s ∈ (m.openRoot target).2.rootStack, s ∈ m.rootStack ∨ s = m.current ∧ s ≠ .closed := by
  have hno : ¬ (target.isRoot = false ∨ target = .closed) := by simp [hroot, hopen]
  unfold UiStateMachine.openRoot
  rw [if_neg hno]
  cases hstate : m.current <;> simp [hstate, UiState.isRoot] at hcur ⊢ <;> tauto

/-- What an opening does. -/
theorem openRoot_cases (m : UiStateMachine) (target : UiState) :
    m.openRoot target = (.error (.illegal m.current target), m) ∨
      target.isRoot = true ∧ target ≠ .closed ∧ m.current.isRoot = true := by
  by_cases hrejected : target.isRoot = false ∨ target = .closed ∨ m.current.isRoot = false
  · exact .inl (openRoot_rejected hrejected)
  · simp only [not_or, Bool.not_eq_false] at hrejected
    exact .inr hrejected

/-- What an entering does. -/
theorem enterOverlay_cases (m : UiStateMachine) (target : UiState) :
    m.enterOverlay target = (.error (.illegal m.current target), m) ∨
      m.current = .launcher .search ∧ target.isOverlay = true ∧
        m.enterOverlay target = (.ok (), { m with current := target }) := by
  unfold UiStateMachine.enterOverlay
  split_ifs with hsearch
  · exact .inl rfl
  · split
    · exact .inr ⟨not_not.mp hsearch, rfl, rfl⟩
    · exact .inr ⟨not_not.mp hsearch, rfl, rfl⟩
    · exact .inr ⟨not_not.mp hsearch, rfl, rfl⟩
    · exact .inr ⟨not_not.mp hsearch, rfl, rfl⟩
    · exact .inl rfl

/-- What an escape does. -/
theorem escape_cases (m : UiStateMachine) :
    m.current = .closed ∧ m.escape = (none, m) ∨
      m.current.isOverlay = true ∧
        m.escape = (some (.launcher .search), { m with current := .launcher .search }) ∨
      m.current.IsReturn ∧ (m.rootStack = [] ∧ m.escape = (none, { m with current := .closed }) ∨
        ∃ s rest, m.rootStack = s :: rest ∧ m.escape = (some s, ⟨s, rest⟩)) := by
  unfold UiStateMachine.escape
  cases hcur : m.current with
  | closed => exact .inl ⟨rfl, rfl⟩
  | pluginContext id parentQuery query selectedResult => exact .inr (.inl ⟨rfl, rfl⟩)
  | preview commandId => exact .inr (.inl ⟨rfl, rfl⟩)
  | contextMenu commandId => exact .inr (.inl ⟨rfl, rfl⟩)
  | pluginCenter =>
      refine .inr (.inr ⟨.inr (.inl rfl), ?_⟩)
      cases hstack : m.rootStack <;> simp
  | settings =>
      refine .inr (.inr ⟨.inr (.inr rfl), ?_⟩)
      cases hstack : m.rootStack <;> simp
  | launcher state =>
      cases state with
      | actionPanel commandId => exact .inr (.inl ⟨rfl, rfl⟩)
      | search =>
          refine .inr (.inr ⟨.inl rfl, ?_⟩)
          cases hstack : m.rootStack <;> simp

theorem not_isOverlay_of_isReturn {s : UiState} (h : s.IsReturn) : s.isOverlay = false := by
  rcases h with rfl | rfl | rfl <;> rfl

/-- The panel is the only overlay among the roots. -/
theorem isPanel_of_isRoot {s : UiState} (hroot : s.isRoot = true) (hoverlay : s.isOverlay = true) :
    s.isPanel = true := by
  cases s with
  | launcher state => cases state <;> simp_all [UiState.isOverlay, UiState.isPanel]
  | _ => simp_all [UiState.isRoot, UiState.isOverlay]

theorem isReturn_of_isRoot {s : UiState} (hroot : s.isRoot = true) (hpanel : s.isPanel = false)
    (hopen : s ≠ .closed) : s.IsReturn := by
  cases s with
  | launcher state => cases state <;> simp_all [UiState.IsReturn, UiState.isPanel]
  | _ => simp_all [UiState.isRoot, UiState.IsReturn]

theorem isOverlay_of_isPanel {s : UiState} (h : s.isPanel = true) : s.isOverlay = true := by
  cases s with
  | launcher state => cases state <;> simp_all [UiState.isOverlay, UiState.isPanel]
  | _ => simp_all [UiState.isPanel]

theorem eq_of_samePlace {s s' : UiState} (h : s.SamePlace s') (hpanel : s'.isPanel = true) :
    s = s' := by
  cases s with
  | pluginContext id parentQuery query selectedResult =>
      cases s' <;> simp_all [UiState.SamePlace, UiState.isPanel]
  | _ => exact h

theorem samePlace_setPluginContext (m : UiStateMachine) (query selectedResult : String) :
    m.current.SamePlace (m.setPluginContext query selectedResult).current := by
  unfold UiStateMachine.setPluginContext
  cases hcur : m.current <;> simp [hcur, UiState.SamePlace]

theorem opensProperly_of_stepLaw (h : StepLaw m op) : OpensProperly m op := by
  cases op with
  | openRoot target =>
      intro hroot hopen hcur
      obtain ⟨hok, hnew, -⟩ := openRoot_opened hroot hopen hcur
      have hfrom : m.current.isPanel = false := by
        rw [← Bool.not_eq_true]
        intro hpanel
        obtain ⟨e, he⟩ := h.opened (isOverlay_of_isPanel hpanel) target rfl
        cases hok.symm.trans he
      refine ⟨?_, hfrom⟩
      rw [← Bool.not_eq_true]
      intro hpanel
      have hcurrent : ((UiOp.openRoot target).act m).current = target := hnew
      have hentered := h.entered (by rw [hcurrent]; exact isOverlay_of_isPanel hpanel)
      rw [hcurrent] at hentered
      rcases hentered with hsame | ⟨-, hop⟩
      · rw [eq_of_samePlace hsame hpanel, hpanel] at hfrom
        cases hfrom
      · cases hop
  | _ => trivial

/-- An operation that is rejected and changes nothing is lawful if it is no escape. -/
theorem stepLaw_of_rejected (hrejected : op.Rejected m) (hsame : op.act m = m)
    (hop : op ≠ .escape) : StepLaw m op where
  entered _ := .inl (by rw [hsame]; exact .refl _)
  opened _ _ _ := hrejected
  rejected _ := hsame
  escaped _ heq := absurd heq hop

/-- An opening from a root other than the panel, of one other than it, is lawful. -/
theorem stepLaw_openRoot (h : OpensProperly m (.openRoot target)) :
    StepLaw m (.openRoot target) := by
  rcases openRoot_cases m target with hrejected | ⟨hroot, hopen, hcur⟩
  · exact stepLaw_of_rejected ⟨_, congrArg Prod.fst hrejected⟩ (congrArg Prod.snd hrejected) nofun
  · obtain ⟨htarget, hfrom⟩ := h hroot hopen hcur
    obtain ⟨hok, hnew, -⟩ := openRoot_opened hroot hopen hcur
    have hcurrent : ((UiOp.openRoot target).act m).current = target := hnew
    refine ⟨fun hoverlay => ?_, fun hoverlay => ?_, ?_, nofun⟩
    · rw [hcurrent] at hoverlay
      rw [isPanel_of_isRoot hroot hoverlay] at htarget
      cases htarget
    · rw [isPanel_of_isRoot hcur hoverlay] at hfrom
      cases hfrom
    · rintro ⟨e, he⟩
      cases hok.symm.trans he

theorem stepLaw_enterOverlay : StepLaw m (.enterOverlay target) := by
  rcases enterOverlay_cases m target with hrejected | ⟨hsearch, hoverlay, hentered⟩
  · exact stepLaw_of_rejected ⟨_, congrArg Prod.fst hrejected⟩ (congrArg Prod.snd hrejected) nofun
  · have hact : (UiOp.enterOverlay target).act m = { m with current := target } :=
      congrArg Prod.snd hentered
    refine ⟨fun _ => .inr ⟨hsearch, by rw [hact]⟩, nofun, ?_, nofun⟩
    rintro ⟨e, he⟩
    cases (congrArg Prod.fst hentered).symm.trans he

theorem stepLaw_escape (hreturns : ∀ s ∈ m.rootStack, s.IsReturn) : StepLaw m .escape := by
  refine ⟨fun hoverlay => ?_, nofun, False.elim, fun hoverlay _ => ?_⟩
  · have hafter : (m.escape.2).current.isOverlay = true := hoverlay
    rcases escape_cases m with ⟨-, hescape⟩ | ⟨-, hescape⟩ | ⟨-, ⟨-, hescape⟩ | hpop⟩
    · refine .inl ?_
      change m.current.SamePlace (m.escape.2).current
      rw [hescape]
      exact .refl _
    · rw [hescape] at hafter
      cases hafter
    · rw [hescape] at hafter
      cases hafter
    · obtain ⟨s, rest, hstack, hescape⟩ := hpop
      rw [hescape] at hafter
      have hreturn := hreturns s (by rw [hstack]; exact List.mem_cons_self)
      rw [not_isOverlay_of_isReturn hreturn] at hafter
      cases hafter
  · rcases escape_cases m with ⟨hclosed, -⟩ | ⟨-, hescape⟩ | ⟨hreturn, -⟩
    · rw [hclosed] at hoverlay
      cases hoverlay
    · change (m.escape.2).current = _ ∧ _
      rw [hescape]
      exact ⟨rfl, rfl⟩
    · rw [not_isOverlay_of_isReturn hreturn] at hoverlay
      cases hoverlay

/-- **What an operation needs** in a state with the right roots to return to. -/
theorem stepLaw_iff (hreturns : ∀ s ∈ m.rootStack, s.IsReturn) :
    StepLaw m op ↔ OpensProperly m op := by
  refine ⟨opensProperly_of_stepLaw, fun h => ?_⟩
  cases op with
  | openRoot target => exact stepLaw_openRoot h
  | enterOverlay target => exact stepLaw_enterOverlay
  | escape => exact stepLaw_escape hreturns
  | setPluginContext query selectedResult =>
      exact ⟨fun _ => .inl (samePlace_setPluginContext m query selectedResult), nofun, False.elim,
        nofun⟩
  | resetToClosed => exact ⟨nofun, nofun, False.elim, nofun⟩

/-- Such an operation leaves the right roots to return to. -/
theorem returns_act (hreturns : ∀ s ∈ m.rootStack, s.IsReturn) (h : OpensProperly m op) :
    ∀ s ∈ (op.act m).rootStack, s.IsReturn := by
  cases op with
  | openRoot target =>
      intro s hs
      rcases openRoot_cases m target with hrejected | ⟨hroot, hopen, hcur⟩
      · have hsame : (UiOp.openRoot target).act m = m := congrArg Prod.snd hrejected
        exact hreturns s (hsame ▸ hs)
      · obtain ⟨-, hfrom⟩ := h hroot hopen hcur
        rcases (openRoot_opened hroot hopen hcur).2.2 s hs with hold | ⟨rfl, hne⟩
        · exact hreturns s hold
        · exact isReturn_of_isRoot hcur hfrom hne
  | enterOverlay target =>
      rcases enterOverlay_cases m target with hrejected | ⟨-, -, hentered⟩
      · have hsame : (UiOp.enterOverlay target).act m = m := congrArg Prod.snd hrejected
        rw [hsame]
        exact hreturns
      · have hact : (UiOp.enterOverlay target).act m = { m with current := target } :=
          congrArg Prod.snd hentered
        rw [hact]
        exact hreturns
  | escape =>
      intro s hs
      have hafter : s ∈ (m.escape.2).rootStack := hs
      rcases escape_cases m with ⟨-, hescape⟩ | ⟨-, hescape⟩ | ⟨-, ⟨-, hescape⟩ | hpop⟩
      · exact hreturns s (by rwa [hescape] at hafter)
      · exact hreturns s (by rwa [hescape] at hafter)
      · exact hreturns s (by rwa [hescape] at hafter)
      · obtain ⟨top, rest, hstack, hescape⟩ := hpop
        rw [hescape] at hafter
        exact hreturns s (by rw [hstack]; exact List.mem_cons_of_mem top hafter)
  | setPluginContext query selectedResult =>
      have hsame : (m.setPluginContext query selectedResult).rootStack = m.rootStack := by
        unfold UiStateMachine.setPluginContext
        split <;> rfl
      exact hsame ▸ hreturns
  | resetToClosed => exact fun s hs => absurd hs List.not_mem_nil

end op

/-! ## Escaping -/

section escaping

variable {m : UiStateMachine}

theorem iterate_escaped_closed (h : m.current = .closed) (n : ℕ) : escaped^[n] m = m := by
  refine Function.iterate_fixed ?_ n
  unfold escaped UiStateMachine.escape
  rw [h]

theorem closed_of_le {k n : ℕ} (hle : k ≤ n) (h : (escaped^[k] m).current = .closed) :
    (escaped^[n] m).current = .closed := by
  obtain ⟨j, rfl⟩ := Nat.exists_eq_add_of_le' hle
  rw [Function.iterate_add_apply, iterate_escaped_closed h, h]

/-- An escape from a root closes the machine or returns to the root that was left last. -/
theorem escape_of_isReturn (h : m.current.IsReturn) :
    (m.rootStack = [] ∧ escaped m = { m with current := .closed }) ∨
      ∃ s rest, m.rootStack = s :: rest ∧ escaped m = ⟨s, rest⟩ := by
  rcases escape_cases m with ⟨hclosed, -⟩ | ⟨hoverlay, -⟩ | ⟨-, ⟨hnil, hescape⟩ | hpop⟩
  · rw [hclosed] at h
    rcases h with h | h | h <;> cases h
  · rw [not_isOverlay_of_isReturn h] at hoverlay
    cases hoverlay
  · exact .inl ⟨hnil, congrArg Prod.snd hescape⟩
  · obtain ⟨s, rest, hcons, hescape⟩ := hpop
    exact .inr ⟨s, rest, hcons, congrArg Prod.snd hescape⟩

/-- From a root one escape for each root to return to, and one more. -/
theorem closes_of_isReturn (hreturns : ∀ s ∈ m.rootStack, s.IsReturn) (h : m.current.IsReturn) :
    (escaped^[m.rootStack.length + 1] m).current = .closed := by
  induction hstack : m.rootStack generalizing m with
  | nil =>
      rcases escape_of_isReturn h with ⟨-, hclosed⟩ | ⟨s, rest, hcons, -⟩
      · rw [List.length_nil, Nat.zero_add, Function.iterate_one, hclosed]
      · cases hstack.symm.trans hcons
  | cons s rest ih =>
      rcases escape_of_isReturn h with ⟨hnil, -⟩ | ⟨s', rest', hcons, hnext⟩
      · cases hstack.symm.trans hnil
      · obtain ⟨rfl, rfl⟩ := List.cons.inj (hstack.symm.trans hcons)
        rw [List.length_cons, Function.iterate_succ_apply, hnext]
        rw [hstack] at hreturns
        exact ih (fun r hr => hreturns r (List.mem_cons_of_mem s hr))
          (hreturns s List.mem_cons_self) rfl

theorem stateLaw_of_returns (hreturns : ∀ s ∈ m.rootStack, s.IsReturn) : StateLaw m := by
  refine ⟨hreturns, fun n hn => ?_⟩
  rcases escape_cases m with ⟨hclosed, -⟩ | ⟨-, hescape⟩ | ⟨hreturn, -⟩
  · rw [iterate_escaped_closed hclosed, hclosed]
  · -- one escape more than from the search
    refine closed_of_le hn ?_
    have hnext : escaped m = { m with current := .launcher .search } := congrArg Prod.snd hescape
    rw [Function.iterate_succ_apply, hnext]
    exact closes_of_isReturn (m := { m with current := .launcher .search }) hreturns (.inl rfl)
  · exact closed_of_le (by omega) (closes_of_isReturn hreturns hreturn)

end escaping

/-! ## The run -/

theorem returns_step {m m' : UiStateMachine} {op : UiOp}
    (hreturns : ∀ s ∈ m.rootStack, s.IsReturn) (hproper : OpensProperly m op)
    (hstep : uiStates.step m op = some m') : ∀ s ∈ m'.rootStack, s.IsReturn := by
  obtain rfl := Option.some.inj hstep
  exact returns_act hreturns hproper

theorem returns_new : ∀ s ∈ UiStateMachine.new.rootStack, s.IsReturn :=
  fun _ hs => absurd hs List.not_mem_nil

/-- **The states of the user interface** in a run from nothing: every operation and every state are
lawful exactly when no root is opened that is the panel, or from the panel. -/
theorem lawful_iff (ops : List UiOp) :
    (uiStates.Along StepLaw .new ops ∧ ∀ m, uiStates.Visits .new ops m → StateLaw m) ↔
      uiStates.Along OpensProperly .new ops := by
  refine ⟨fun h => h.1.mono fun m op => opensProperly_of_stepLaw, fun h => ⟨?_, ?_⟩⟩
  · refine h.imp_inv (I := fun m => ∀ s ∈ m.rootStack, s.IsReturn) ?_ returns_new ?_
    · exact fun m op m' => returns_step
    · exact fun m op hreturns hproper => (stepLaw_iff hreturns).mpr hproper
  · rintro m ⟨past, ⟨rest, rfl⟩, hrun⟩
    have halong := ((uiStates.along_append hrun).mp h).1
    exact stateLaw_of_returns (uiStates.run_inv (I := fun m => ∀ s ∈ m.rootStack, s.IsReturn)
      (fun m op m' => returns_step) returns_new halong hrun)

/-- The search is opened, the panel is entered from it, and a window is opened from the panel. -/
theorem not_stepLaw_panel : ¬ uiStates.Along StepLaw .new [.openRoot (.launcher .search),
    .enterOverlay (.launcher (.actionPanel "app:code")), .openRoot .settings] := by
  intro h
  have hlast := ((h.2 _ rfl).2 _ rfl).1
  obtain ⟨e, he⟩ := hlast.opened rfl .settings rfl
  cases he

end AuraLauncher.Ui
