import AuraLauncher.Lib.Machine
import AuraLauncher.Plugin.Provider

/-!
# Requests to a plugin that is switched off

The registry changes behind a provider: the management page enables and disables, other providers
of the same registry count failures. A query reads the registry, an execution goes by the flags the
provider took over when the registry was attached.

* `HostAction`, `hosts` — calls of the provider and changes of the registry, in any order.
* `Clear` — the registry marks the plugin neither disabled nor in quarantine.
* `SentWhenClear` — every request so far was sent while the registry was clear.
* `UpToDate` — an execution that the cached flags let through, with a process to send it to, finds
  the registry clear.
* `sentWhenClear_iff_along` — a run sends nothing to a plugin that is switched off if and only if
  all its executions are up to date.
-/

namespace AuraLauncher.Plugin

open AuraLauncher.Lib

/-- What may happen between and through the calls of a provider. -/
inductive HostAction
  /-- A call of the provider. -/
  | call (c : Call)
  /-- The management page, or another provider of the registry, on any plugin. -/
  | setEnabled (id : String) (enabled : Bool)
  | setTrust (id : String) (trust : TrustState)
  | noteManifestObserved (id : String)
  | recordFailure (id : String)
  | recordSuccess (id : String)
  /-- The provider is made anew and takes over what the registry has. -/
  | restart
  /-- `PluginProvider::set_enabled`. -/
  | setProviderEnabled (enabled : Bool)

namespace PluginHost

/-- The state after an action. -/
def act (h : PluginHost) : HostAction → PluginHost
  | .call c => h.call c
  | .setEnabled id enabled => { h with registry := h.registry.setEnabled id enabled }
  | .setTrust id trust => { h with registry := h.registry.setTrust id trust }
  | .noteManifestObserved id => { h with registry := h.registry.noteManifestObserved id }
  | .recordFailure id => { h with registry := (h.registry.recordFailure id).1 }
  | .recordSuccess id => { h with registry := h.registry.recordSuccess id }
  | .restart =>
      { h with provider := (PluginProvider.fromManifest h.provider.id).setRegistry h.registry }
  | .setProviderEnabled enabled => { h with provider := h.provider.setEnabled enabled }

end PluginHost

/-- Calls and changes of the registry, one after the other. -/
def hosts : Machine PluginHost HostAction := ⟨fun h a => some (h.act a)⟩

/-- The plugin is enabled and not in quarantine. -/
def PluginLifecycleState.Clear (st : PluginLifecycleState) : Prop :=
  st.enabled = true ∧ st.quarantined = false

/-- Every request was sent while the registry marked the plugin neither disabled nor in
quarantine. -/
def SentWhenClear (h : PluginHost) : Prop := ∀ r ∈ h.sent, r.marks.Clear

/-- An execution that the cached flags let through, with a process to send it to, finds the
registry clear. -/
def UpToDate (h : PluginHost) : HostAction → Prop
  | .call (.execute _ _ _ _ w) =>
      h.provider.quarantined = false → h.provider.disabled = false → h.starts w = true →
        h.marks.Clear
  | _ => True

namespace PluginHost

theorem after_sent_eq (h : PluginHost) (kind : RequestKind) (outcome : Outcome) :
    (h.after kind outcome).sent = ⟨kind, outcome, h.marks⟩ :: h.sent ∧
      (h.after kind outcome).provider.registry = h.provider.registry := by
  cases kind <;> cases outcome <;> exact ⟨rfl, rfl⟩

/-- A call adds the request it sends, marked as the registry has it, and leaves the registry
attached. -/
theorem call_sent (h : PluginHost) (c : Call) :
    (h.call c).sent =
        (h.request? c).elim h.sent (fun r => ⟨r.1, r.2, h.marks⟩ :: h.sent) ∧
      (h.call c).provider.registry = h.provider.registry := by
  have hsettle := h.call_settle c
  show (h.call c).settle.sent = _ ∧ (h.call c).settle.provider.registry = _
  rw [hsettle]
  cases h.request? c with
  | none => exact ⟨rfl, rfl⟩
  | some r => exact h.after_sent_eq r.1 r.2

/-- A query of a provider with a registry is sent to a plugin that is clear. -/
theorem clear_of_query {h : PluginHost} (hreg : h.provider.registry = true) {text : String}
    {w : Attempt} {r : RequestKind × Outcome} (hr : h.request? (.query text w) = some r) :
    h.marks.Clear := by
  obtain ⟨hno, -⟩ := Option.ite_none_left_eq_some.mp hr
  rw [Bool.or_eq_true, not_or, queryRefused, if_pos hreg, Bool.or_eq_true, not_or] at hno
  obtain ⟨⟨hquarantined, hdisabled⟩, -⟩ := hno
  exact ⟨by simpa using hdisabled, Bool.eq_false_iff.mpr hquarantined⟩

/-- **One action** of a provider with a registry sends nothing to a plugin that is switched off
exactly when it is up to date. -/
theorem act_sentWhenClear {h : PluginHost} (hreg : h.provider.registry = true) (a : HostAction) :
    (h.act a).provider.registry = true ∧
      (SentWhenClear (h.act a) ↔ SentWhenClear h ∧ UpToDate h a) := by
  cases a with
  | call c =>
      obtain ⟨hsent, hkept⟩ := h.call_sent c
      refine ⟨hkept.trans hreg, ?_⟩
      show (∀ r ∈ (h.call c).sent, r.marks.Clear) ↔ _
      rw [hsent]
      cases c with
      | query text w =>
          refine Iff.trans ?_ (and_iff_left trivial).symm
          cases hr : h.request? (.query text w) with
          | none => exact Iff.rfl
          | some r =>
              refine List.forall_mem_cons.trans (and_iff_right ?_)
              exact clear_of_query hreg hr
      | execute actionId input executionId generation w =>
          by_cases hlet : (h.provider.quarantined || h.provider.disabled || !h.starts w) = true
          · have hr : h.request? (.execute actionId input executionId generation w) = none :=
              if_pos hlet
            rw [hr]
            refine (and_iff_left fun hq hd hs => ?_).symm
            simp [hq, hd, hs] at hlet
          · have hr : h.request? (.execute actionId input executionId generation w) = some
                (.execute actionId input executionId generation, executeOutcome w.executeReply) :=
              if_neg hlet
            rw [hr]
            refine List.forall_mem_cons.trans (and_comm.trans (and_congr_right fun _ => ?_))
            simp only [Bool.or_eq_true, not_or, Bool.not_eq_true, Bool.not_eq_false'] at hlet
            exact ⟨fun hclear _ _ _ => hclear, fun hup => hup hlet.1.1 hlet.1.2 hlet.2⟩
  | restart => exact ⟨rfl, (and_iff_left trivial).symm⟩
  | setEnabled id enabled => exact ⟨hreg, (and_iff_left trivial).symm⟩
  | setTrust id trust => exact ⟨hreg, (and_iff_left trivial).symm⟩
  | noteManifestObserved id => exact ⟨hreg, (and_iff_left trivial).symm⟩
  | recordFailure id => exact ⟨hreg, (and_iff_left trivial).symm⟩
  | recordSuccess id => exact ⟨hreg, (and_iff_left trivial).symm⟩
  | setProviderEnabled enabled => exact ⟨hreg, (and_iff_left trivial).symm⟩

end PluginHost

/-- **Plugins that are switched off.** A run that starts with an attached registry and no request
sent nothing to a plugin that the registry marks disabled or in quarantine if and only if all its
executions are up to date. -/
theorem sentWhenClear_iff_along {start h : PluginHost} (hreg : start.provider.registry = true)
    (hsent : start.sent = []) {as : List HostAction} (hrun : hosts.run start as = some h) :
    SentWhenClear h ↔ hosts.Along UpToDate start as := by
  have hiff := hosts.iff_along_of_run (I := SentWhenClear)
    (J := fun h => h.provider.registry = true) (G := UpToDate) (fun s a s' hs hstep => by
      obtain rfl := Option.some.inj hstep
      exact PluginHost.act_sentWhenClear hs a) hreg hrun
  have hstart : SentWhenClear start := by
    unfold SentWhenClear
    rw [hsent]
    simp
  exact hiff.trans (and_iff_right hstart)

/-- A provider just attached to a registry that has never seen its plugin. -/
def attachedHost : PluginHost :=
  ⟨fun _ => none, (PluginProvider.fromManifest "p").setRegistry fun _ => none, []⟩

/-- An execution that succeeds. -/
def executeCall : Call :=
  .execute "a" .null "e" 0 ⟨true, false, .ok (), .ok [], .ok .null⟩

/-- An execution, and after the plugin is disabled a query. -/
theorem sentWhenClear_iff_along_query :
    SentWhenClear (((attachedHost.act (.call executeCall)).act (.setEnabled "p" false)).act
      (.call (.query "a" ⟨true, false, .ok (), .ok [], .ok .null⟩))) := by
  have hrun : hosts.run attachedHost [.call executeCall, .setEnabled "p" false,
      .call (.query "a" ⟨true, false, .ok (), .ok [], .ok .null⟩)] = some _ := rfl
  refine (sentWhenClear_iff_along rfl rfl hrun).mpr ⟨fun _ _ _ => ⟨rfl, rfl⟩, fun _ _ => ?_⟩
  exact ⟨trivial, fun _ _ => ⟨trivial, fun _ _ => trivial⟩⟩

/-- A plugin that is disabled after the provider was attached is sent an execution. -/
theorem sent_to_disabled :
    ¬ ∀ (start h : PluginHost) (as : List HostAction), start.provider.registry = true →
      start.sent = [] → hosts.run start as = some h → SentWhenClear h := by
  intro hall
  have hclear := hall attachedHost _ [.setEnabled "p" false, .call executeCall] rfl rfl rfl
  exact absurd (hclear _ List.mem_cons_self).1 (by decide)

end AuraLauncher.Plugin
