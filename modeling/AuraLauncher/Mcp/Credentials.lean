import AuraLauncher.Lib.Machine
import AuraLauncher.Lib.Naming
import AuraLauncher.Mcp.OAuth

/-!
# Stored credentials

`launcher-mcp/src/auth/storage.rs` (`InMemoryCredentialStore`) and `auth/mod.rs`
(`StoreAuthProvider`): credentials under the storage keys of their identities, and the provider that
turns them into headers and refreshes them.

A storage key joins three of the four fields of a credential key with separators that the fields may
contain. Everything here is about any set `A` of credential keys in use.

* `CredentialStore.load`, `save`, `delete` — the store in memory. It does not fail.
* `refreshCredential`, `currentHeader`, `onUnauthorized` — the provider of one key, with the store,
  the token endpoint and a log passed along.
* `Confusable`, `storageKey_eq_iff` — the keys with one storage key.
* `LoadIsolated`, `HeaderIsolated` — that no key gets the credential of another.
* `isolated_iff` — exactly when that holds.
-/

namespace AuraLauncher.Mcp

open AuraLauncher.Domain AuraLauncher.Lib
open AuraLauncher.Workflow (Json)

universe u

/-! ## The store -/

/-- Source: `storage.rs`, `InMemoryCredentialStore`. -/
abbrev CredentialStore : Type := String → Option Credential

namespace CredentialStore

/-- Source: `storage.rs`, `InMemoryCredentialStore::new`. -/
def empty : CredentialStore := fun _ => none

/-- Source: `storage.rs`, `load`. -/
def load (s : CredentialStore) (k : CredentialKey) : Option Credential := s k.storageKey

/-- Source: `storage.rs`, `save`. -/
def save (s : CredentialStore) (k : CredentialKey) (c : Credential) : CredentialStore :=
  Function.update s k.storageKey (some c)

/-- Source: `storage.rs`, `delete`. -/
def delete (s : CredentialStore) (k : CredentialKey) : CredentialStore :=
  Function.update s k.storageKey none

@[simp]
theorem load_save_self (s : CredentialStore) (k : CredentialKey) (c : Credential) :
    (s.save k c).load k = some c := Function.update_self ..

theorem load_save_of_ne {s : CredentialStore} {k k' : CredentialKey} (c : Credential)
    (h : k'.storageKey ≠ k.storageKey) : (s.save k c).load k' = s.load k' :=
  Function.update_of_ne h ..

@[simp]
theorem load_delete_self (s : CredentialStore) (k : CredentialKey) : (s.delete k).load k = none :=
  Function.update_self ..

theorem load_delete_of_ne {s : CredentialStore} {k k' : CredentialKey}
    (h : k'.storageKey ≠ k.storageKey) : (s.delete k).load k' = s.load k' :=
  Function.update_of_ne h ..

end CredentialStore

/-! ## The provider -/

/-- The port for the token endpoint. Source: `oauth.rs`, `OAuthHttp` (`post_form`). -/
abbrev OAuthHttp (η : Type u) : Type u :=
  η → String → List (String × String) → Except AuthError Json × η

/-- What became of credentials. -/
inductive AuthEvent
  /-- A credential that was issued for the key is stored. -/
  | saved (k : CredentialKey) (c : Credential)
  /-- The provider of the key refreshed a credential. -/
  | refreshed (k : CredentialKey) (old new : Credential)
  /-- The provider of the key gave a header. -/
  | sent (k : CredentialKey) (header : String)

/-- What the providers of one store work on. -/
structure AuthWorld (η : Type u) where
  store : CredentialStore
  http : η
  /-- What happened so far; it is not read. -/
  log : List AuthEvent

/-- Source: `auth/mod.rs`, `header_for`. -/
def headerFor (c : Credential) : String := "Bearer " ++ c.accessToken.expose

/-- Source: `auth/mod.rs`, `StoreAuthProvider`. The store and the port are in the `AuthWorld`. -/
structure StoreAuthProvider where
  key : CredentialKey
  tokenEndpoint : String

namespace StoreAuthProvider

variable {η : Type u} (http : OAuthHttp η) (p : StoreAuthProvider)

/-- The credential that a response gives, with the refresh token carried forward.
Source: `auth/mod.rs`, `refresh_credential` (from the response on). -/
def refreshedCredential (issuedAt : ℕ) (c : Credential) (v : Json) : Except AuthError Credential :=
  match TokenResponse.decode v with
  | none => .error .refreshFailed
  | some resp =>
      match credentialFromTokenResponse issuedAt p.key.issuer p.key.clientId resp with
      | .error e => .error e
      | .ok new => .ok { new with refreshToken := new.refreshToken.or c.refreshToken }

/-- Source: `auth/mod.rs`, `refresh_credential`. -/
def refreshCredential (issuedAt : ℕ) (c : Credential) (w : AuthWorld η) :
    Except AuthError Credential × AuthWorld η :=
  if c.issuer ≠ p.key.issuer then (.error .credentialIssuerMismatch, w)
  else
    match c.refreshToken with
    | none => (.error .refreshFailed, w)
    | some refreshToken =>
        match validateTokenEndpoint p.tokenEndpoint with
        | .error e => (.error e, w)
        | .ok _ =>
            match http w.http p.tokenEndpoint (refreshForm refreshToken.expose p.key.clientId) with
            | (.error e, h) => (.error e, { w with http := h })
            | (.ok v, h) =>
                match p.refreshedCredential issuedAt c v with
                | .error e => (.error e, { w with http := h })
                | .ok new => (.ok new, { w with
                    store := w.store.save p.key new
                    http := h
                    log := w.log ++ [.refreshed p.key c new] })

/-- A header is given. -/
def send (c : Credential) (w : AuthWorld η) : Except AuthError (Option String) × AuthWorld η :=
  (.ok (some (headerFor c)), { w with log := w.log ++ [.sent p.key (headerFor c)] })

/-- Source: `auth/mod.rs`, `current_header`. -/
def currentHeader (now issuedAt : ℕ) (w : AuthWorld η) :
    Except AuthError (Option String) × AuthWorld η :=
  match w.store.load p.key with
  | none => (.ok none, w)
  | some c =>
      if c.issuer ≠ p.key.issuer then (.error .credentialIssuerMismatch, w)
      else if c.expired now then
        match p.refreshCredential http issuedAt c w with
        | (.error e, w) => (.error e, w)
        | (.ok new, w) => p.send new w
      else p.send c w

/-- Source: `auth/mod.rs`, `on_unauthorized`. -/
def onUnauthorized (issuedAt : ℕ) (w : AuthWorld η) :
    Except AuthError (Option String) × AuthWorld η :=
  match w.store.load p.key with
  | none => (.ok none, w)
  | some c =>
      if c.issuer ≠ p.key.issuer then (.error .credentialIssuerMismatch, w)
      else
        match p.refreshCredential http issuedAt c w with
        | (.ok new, w) => p.send new w
        | (.error .refreshFailed, w) | (.error .invalidCredential, w) => (.ok none, w)
        | (.error e, w) => (.error e, w)

/-- The provider as a transport sees it, at some time. -/
def toAuthProvider (now issuedAt : ℕ) : AuthProvider (AuthWorld η) :=
  ⟨p.currentHeader http now issuedAt, p.onUnauthorized http issuedAt⟩

end StoreAuthProvider

/-! ## What a provider does -/

/-- What a call of the provider of a key does to the store and the log. -/
inductive Served {η : Type u} (k : CredentialKey) (w w' : AuthWorld η) : Prop
  /-- No header is given. -/
  | quiet (hstore : w'.store = w.store) (hlog : w'.log = w.log)
  /-- The stored credential is used. -/
  | current (c : Credential) (hload : w.store.load k = some c) (hstore : w'.store = w.store)
      (hlog : w'.log = w.log ++ [.sent k (headerFor c)])
  /-- The stored credential is refreshed first. -/
  | refreshed (c new : Credential) (hload : w.store.load k = some c)
      (hstore : w'.store = w.store.save k new)
      (hlog : w'.log = w.log ++ [.refreshed k c new, .sent k (headerFor new)])

namespace StoreAuthProvider

variable {η : Type u} (http : OAuthHttp η) (p : StoreAuthProvider)

/-- A refresh fails without a trace in store and log, or replaces the credential. -/
theorem refreshCredential_cases (issuedAt : ℕ) (c : Credential) (w : AuthWorld η) :
    (∃ e h, p.refreshCredential http issuedAt c w = (.error e, { w with http := h })) ∨
    ∃ new h, p.refreshCredential http issuedAt c w = (.ok new, { w with
      store := w.store.save p.key new
      http := h
      log := w.log ++ [.refreshed p.key c new] }) := by
  unfold refreshCredential
  split_ifs with hissuer
  · exact .inl ⟨_, w.http, rfl⟩
  · split
    · exact .inl ⟨_, w.http, rfl⟩
    · split
      · exact .inl ⟨_, w.http, rfl⟩
      · split
        · exact .inl ⟨_, _, rfl⟩
        · split
          · exact .inl ⟨_, _, rfl⟩
          · exact .inr ⟨_, _, rfl⟩

theorem currentHeader_served (now issuedAt : ℕ) (w : AuthWorld η) :
    Served p.key w (p.currentHeader http now issuedAt w).2 := by
  unfold currentHeader
  cases hload : w.store.load p.key with
  | none => exact .quiet rfl rfl
  | some c =>
      dsimp only
      split_ifs with hissuer hexpired
      · exact .quiet rfl rfl
      · rcases p.refreshCredential_cases http issuedAt c w with ⟨e, h, heq⟩ | ⟨new, h, heq⟩
        · rw [heq]
          exact .quiet rfl rfl
        · rw [heq]
          exact .refreshed c new hload rfl (List.append_assoc _ _ _)
      · exact .current c hload rfl rfl

theorem onUnauthorized_served (issuedAt : ℕ) (w : AuthWorld η) :
    Served p.key w (p.onUnauthorized http issuedAt w).2 := by
  unfold onUnauthorized
  cases hload : w.store.load p.key with
  | none => exact .quiet rfl rfl
  | some c =>
      dsimp only
      split_ifs with hissuer
      · exact .quiet rfl rfl
      · rcases p.refreshCredential_cases http issuedAt c w with ⟨e, h, heq⟩ | ⟨new, h, heq⟩
        · rw [heq]
          cases e <;> exact .quiet rfl rfl
        · rw [heq]
          exact .refreshed c new hload rfl (List.append_assoc _ _ _)

end StoreAuthProvider

/-! ## Runs -/

/-- What happens to the credentials of a store. -/
inductive AuthStep
  /-- An authorization is complete, and its credential is stored. -/
  | save (k : CredentialKey) (c : Credential)
  | delete (k : CredentialKey)
  /-- The provider of the key is asked for a header. -/
  | currentHeader (k : CredentialKey) (now issuedAt : ℕ)
  /-- The provider of the key is told of a 401. -/
  | onUnauthorized (k : CredentialKey) (issuedAt : ℕ)

/-- The key that the step is about. -/
def AuthStep.key : AuthStep → CredentialKey
  | .save k _ | .delete k | .currentHeader k _ _ | .onUnauthorized k _ => k

section Runs

variable {η : Type u} (http : OAuthHttp η) (tokenEndpoint : CredentialKey → String)

/-- One step; every key has its token endpoint. -/
def authStep (w : AuthWorld η) : AuthStep → AuthWorld η
  | .save k c => { w with store := w.store.save k c, log := w.log ++ [.saved k c] }
  | .delete k => { w with store := w.store.delete k }
  | .currentHeader k now issuedAt =>
      (StoreAuthProvider.currentHeader http ⟨k, tokenEndpoint k⟩ now issuedAt w).2
  | .onUnauthorized k issuedAt =>
      (StoreAuthProvider.onUnauthorized http ⟨k, tokenEndpoint k⟩ issuedAt w).2

/-- The providers of one store as a machine. -/
def authMachine : Machine (AuthWorld η) AuthStep where
  step w a := some (authStep http tokenEndpoint w a)

/-- The token was issued for the key: with a credential that was stored for it, or by refreshing a
credential whose token was. -/
inductive IssuedFor (log : List AuthEvent) (k : CredentialKey) : SecretString → Prop
  | saved {c : Credential} (h : .saved k c ∈ log) : IssuedFor log k c.accessToken
  | refreshed {p : CredentialKey} {old new : Credential} (h : .refreshed p old new ∈ log)
      (hold : IssuedFor log k old.accessToken) : IssuedFor log k new.accessToken

theorem IssuedFor.append {log : List AuthEvent} {k : CredentialKey} {token : SecretString}
    (h : IssuedFor log k token) (more : List AuthEvent) : IssuedFor (log ++ more) k token := by
  induction h with
  | saved h => exact .saved (List.mem_append_left more h)
  | refreshed h _ ih => exact .refreshed (List.mem_append_left more h) ih

/-- Every header that was given has a token that was issued for the key of its provider. -/
def SentOwn (log : List AuthEvent) : Prop :=
  ∀ k header, .sent k header ∈ log →
    ∃ token, IssuedFor log k token ∧ header = "Bearer " ++ token.expose

/-- What every key in use finds was issued for it, and so was what was sent. -/
structure OwnTokens (A : Set CredentialKey) (w : AuthWorld η) : Prop where
  stored : ∀ k ∈ A, ∀ c, w.store.load k = some c → IssuedFor w.log k c.accessToken
  sent : SentOwn w.log

theorem SentOwn.append {log more : List AuthEvent} (h : SentOwn log)
    (hmore : ∀ k header, .sent k header ∈ more →
      ∃ token, IssuedFor (log ++ more) k token ∧ header = "Bearer " ++ token.expose) :
    SentOwn (log ++ more) := by
  intro k header hmem
  rcases List.mem_append.mp hmem with hmem | hmem
  · obtain ⟨token, htoken, rfl⟩ := h k header hmem
    exact ⟨token, htoken.append more, rfl⟩
  · exact hmore k header hmem

variable {http tokenEndpoint} {A : Set CredentialKey}

/-- A provider keeps the tokens apart, where the storage keys are apart. -/
theorem OwnTokens.of_served {w w' : AuthWorld η} {k : CredentialKey} (h : OwnTokens A w)
    (hinj : Set.InjOn CredentialKey.storageKey A) (hk : k ∈ A) (hserved : Served k w w') :
    OwnTokens A w' := by
  cases hserved with
  | quiet hstore hlog =>
      refine ⟨?_, ?_⟩
      · rw [hstore, hlog]
        exact h.stored
      · rw [hlog]
        exact h.sent
  | current c hload hstore hlog =>
      have hc := h.stored k hk c hload
      refine ⟨?_, ?_⟩
      · intro k' hk' c' hload'
        rw [hstore] at hload'
        rw [hlog]
        exact (h.stored k' hk' c' hload').append _
      · rw [hlog]
        refine h.sent.append fun k' header hmem => ?_
        obtain ⟨rfl, rfl⟩ : k' = k ∧ header = headerFor c := by simpa using hmem
        exact ⟨c.accessToken, hc.append _, rfl⟩
  | refreshed c new hload hstore hlog =>
      have hnew : IssuedFor w'.log k new.accessToken := by
        rw [hlog]
        exact .refreshed (p := k) (List.mem_append_right _ (by simp))
          ((h.stored k hk c hload).append _)
      refine ⟨?_, ?_⟩
      · intro k' hk' c' hload'
        by_cases heq : k' = k
        · subst heq
          rw [hstore, CredentialStore.load_save_self] at hload'
          obtain rfl := Option.some.inj hload'
          exact hnew
        · rw [hstore, CredentialStore.load_save_of_ne new fun hname => heq (hinj hk' hk hname)]
            at hload'
          rw [hlog]
          exact (h.stored k' hk' c' hload').append _
      · rw [hlog] at hnew ⊢
        refine h.sent.append fun k' header hmem => ?_
        obtain ⟨rfl, rfl⟩ : k' = k ∧ header = headerFor new := by simpa using hmem
        exact ⟨new.accessToken, hnew, rfl⟩

/-- So does every step. -/
theorem OwnTokens.step {w : AuthWorld η} {a : AuthStep} (h : OwnTokens A w)
    (hinj : Set.InjOn CredentialKey.storageKey A) (ha : a.key ∈ A) :
    OwnTokens A (authStep http tokenEndpoint w a) := by
  cases a with
  | save k c =>
      refine ⟨?_, ?_⟩
      · intro k' hk' c' hload'
        by_cases heq : k' = k
        · subst heq
          have hsame : (w.store.save k' c).load k' = some c' := hload'
          rw [CredentialStore.load_save_self] at hsame
          obtain rfl := Option.some.inj hsame
          exact .saved (List.mem_append_right _ (by simp))
        · have hother : (w.store.save k c).load k' = some c' := hload'
          rw [CredentialStore.load_save_of_ne c fun hname => heq (hinj hk' ha hname)] at hother
          exact (h.stored k' hk' c' hother).append _
      · exact h.sent.append fun k' header hmem => by simp at hmem
  | delete k =>
      refine ⟨?_, h.sent⟩
      intro k' hk' c' hload'
      have hdelete : (w.store.delete k).load k' = some c' := hload'
      by_cases heq : k' = k
      · rw [heq, CredentialStore.load_delete_self] at hdelete
        cases hdelete
      · rw [CredentialStore.load_delete_of_ne fun hname => heq (hinj hk' ha hname)] at hdelete
        exact h.stored k' hk' c' hdelete
  | currentHeader k now issuedAt =>
      exact h.of_served hinj ha
        (StoreAuthProvider.currentHeader_served http ⟨k, tokenEndpoint k⟩ now issuedAt w)
  | onUnauthorized k issuedAt =>
      exact h.of_served hinj ha
        (StoreAuthProvider.onUnauthorized_served http ⟨k, tokenEndpoint k⟩ issuedAt w)

/-- **The tokens stay apart** in every run over keys whose storage keys are apart. -/
theorem OwnTokens.run {w w' : AuthWorld η} {steps : List AuthStep} (h : OwnTokens A w)
    (hinj : Set.InjOn CredentialKey.storageKey A) (hkeys : ∀ a ∈ steps, a.key ∈ A)
    (hrun : (authMachine http tokenEndpoint).run w steps = some w') : OwnTokens A w' := by
  refine (authMachine http tokenEndpoint).run_inv (G := fun _ a => a.key ∈ A) ?_ h
    ((authMachine http tokenEndpoint).along_of_forall hkeys) hrun
  intro x a x' hx ha hstep
  obtain rfl := Option.some.inj hstep
  exact hx.step hinj ha

end Runs

/-! ## Isolation -/

/-- A change of the store. -/
def CredentialStore.change (s : CredentialStore) : FileOp CredentialKey Credential → CredentialStore
  | .put k c => s.save k c
  | .drop k => s.delete k

/-- For every key in use the store gives what was last done under that very key. -/
def LoadIsolated (A : Set CredentialKey) : Prop :=
  ∀ ops : List (FileOp CredentialKey Credential), (∀ op ∈ ops, op.key ∈ A) → ∀ k ∈ A,
    (ops.foldl CredentialStore.change CredentialStore.empty).load k =
      ops.foldl (FileOp.apply id) (fun _ => none) k

/-- No provider of a key in use gives a header with a token that was not issued for its key. -/
def HeaderIsolated {η : Type u} (http : OAuthHttp η) (tokenEndpoint : CredentialKey → String)
    (A : Set CredentialKey) : Prop :=
  ∀ (h : η) (steps : List AuthStep) (w : AuthWorld η), (∀ a ∈ steps, a.key ∈ A) →
    (authMachine http tokenEndpoint).run ⟨CredentialStore.empty, h, []⟩ steps = some w →
    SentOwn w.log

theorem headerIsolated_of_injOn {η : Type u} (http : OAuthHttp η)
    (tokenEndpoint : CredentialKey → String) {A : Set CredentialKey}
    (hinj : Set.InjOn CredentialKey.storageKey A) : HeaderIsolated http tokenEndpoint A := by
  intro h steps w hkeys hrun
  have hstart : OwnTokens A (⟨CredentialStore.empty, h, []⟩ : AuthWorld η) := by
    constructor
    · intro k _ c hload
      cases hload
    · intro k header hmem
      cases hmem
  exact (hstart.run hinj hkeys hrun).sent

theorem loadIsolated_iff_injOn (A : Set CredentialKey) :
    LoadIsolated A ↔ Set.InjOn CredentialKey.storageKey A := by
  have hchange : CredentialStore.change = FileOp.apply CredentialKey.storageKey := by
    funext s op
    cases op <;> rfl
  have hnonempty : Nonempty Credential := ⟨⟨⟨""⟩, none, "", "", none, []⟩⟩
  unfold LoadIsolated
  rw [hchange]
  exact foldl_apply_eq_iff_injOn

/-! ## Storage keys -/

/-- Two keys that have one storage key: they differ in the resource origin only, or a separator in
one of their fields is where the other has it between two fields. -/
def CredentialKey.Confusable (k k' : CredentialKey) : Prop :=
  Shifted ':' k.serverId.toList (k.clientId.toList ++ '/' :: k.issuer.toList)
      k'.serverId.toList (k'.clientId.toList ++ '/' :: k'.issuer.toList) ∨
    k.serverId = k'.serverId ∧
      (Shifted '/' k.clientId.toList k.issuer.toList k'.clientId.toList k'.issuer.toList ∨
        k.clientId = k'.clientId ∧ k.issuer = k'.issuer)

theorem CredentialKey.storageKey_toList (k : CredentialKey) : k.storageKey.toList =
    "launcher-mcp/".toList ++
      (k.serverId.toList ++ ':' :: (k.clientId.toList ++ '/' :: k.issuer.toList)) := by
  unfold storageKey
  rw [String.toList_append, String.toList_append, String.toList_append, String.toList_append,
    String.toList_append, List.append_assoc, List.append_assoc, List.append_assoc,
    List.append_assoc]
  rfl

/-- **The keys with one storage key**. -/
theorem CredentialKey.storageKey_eq_iff (k k' : CredentialKey) :
    k.storageKey = k'.storageKey ↔ k.Confusable k' := by
  rw [← String.toList_inj, storageKey_toList, storageKey_toList, List.append_cancel_left_eq,
    append_cons_eq_iff, append_cons_eq_iff, Confusable]
  simp only [String.toList_inj]
  tauto

/-- Of keys without separators in their server and client, those are confusable that differ in the
resource origin only. -/
theorem CredentialKey.confusable_iff_of_plain {k k' : CredentialKey}
    (hserver : ':' ∉ k.serverId.toList ∧ ':' ∉ k'.serverId.toList)
    (hclient : '/' ∉ k.clientId.toList ∧ '/' ∉ k'.clientId.toList) :
    k.Confusable k' ↔
      k.serverId = k'.serverId ∧ k.clientId = k'.clientId ∧ k.issuer = k'.issuer := by
  have hs : ¬ Shifted ':' k.serverId.toList (k.clientId.toList ++ '/' :: k.issuer.toList)
      k'.serverId.toList (k'.clientId.toList ++ '/' :: k'.issuer.toList) :=
    not_shifted_of_not_mem hserver.1 hserver.2
  have hc : ¬ Shifted '/' k.clientId.toList k.issuer.toList k'.clientId.toList k'.issuer.toList :=
    not_shifted_of_not_mem hclient.1 hclient.2
  simp only [Confusable, hs, hc, false_or]

/-- **When credentials are isolated**: the store and the providers keep the keys in use apart
exactly when no two of them are confusable. -/
theorem isolated_iff {η : Type u} (http : OAuthHttp η) (tokenEndpoint : CredentialKey → String)
    (A : Set CredentialKey) :
    (LoadIsolated A ∧ HeaderIsolated http tokenEndpoint A) ↔
      A.Pairwise fun k k' => ¬ k.Confusable k' := by
  have hpairwise : Set.InjOn CredentialKey.storageKey A ↔
      A.Pairwise fun k k' => ¬ k.Confusable k' := by
    constructor
    · intro hinj k hk k' hk' hne hconfusable
      exact hne (hinj hk hk' ((k.storageKey_eq_iff k').mpr hconfusable))
    · intro h k hk k' hk' hname
      by_contra hne
      exact h hk hk' hne ((k.storageKey_eq_iff k').mp hname)
  rw [← hpairwise, ← loadIsolated_iff_injOn]
  constructor
  · exact And.left
  · intro hload
    exact ⟨hload, headerIsolated_of_injOn http tokenEndpoint ((loadIsolated_iff_injOn A).mp hload)⟩

/-! ## Two resources of one server -/

/-- A key of the server `github`, for a resource origin. -/
def githubKey (resourceOrigin : String) : CredentialKey :=
  ⟨"github", resourceOrigin, "https://auth.example", "launcher"⟩

/-- A token endpoint that is never reached. -/
def noHttp : OAuthHttp Unit := fun _ _ _ => (.error .refreshFailed, ())

/-- A credential for the first of two origins. -/
def githubCredential : Credential :=
  ⟨⟨"token-a"⟩, none, "https://auth.example", "launcher", none, []⟩

/-- A credential that was saved for one resource origin is loaded and sent for another. -/
theorem not_isolated :
    ¬ LoadIsolated {githubKey "https://a.example", githubKey "https://b.example"} ∧
    ¬ HeaderIsolated noHttp (fun _ => "https://auth.example/token")
      {githubKey "https://a.example", githubKey "https://b.example"} := by
  constructor
  · intro hload
    have hinj := (loadIsolated_iff_injOn _).mp hload
    have hsame : githubKey "https://a.example" = githubKey "https://b.example" :=
      hinj (Set.mem_insert _ _) (Set.mem_insert_of_mem _ rfl) rfl
    exact absurd hsame (by decide)
  · intro hheader
    have hkeys : ∀ a ∈ [AuthStep.save (githubKey "https://a.example") githubCredential,
        .currentHeader (githubKey "https://b.example") 0 0],
        a.key ∈ ({githubKey "https://a.example", githubKey "https://b.example"} :
          Set CredentialKey) := by
      intro a ha
      rcases List.mem_pair.mp ha with rfl | rfl
      · exact Set.mem_insert _ _
      · exact Set.mem_insert_of_mem _ rfl
    have hsent := hheader () _ _ hkeys rfl
    obtain ⟨token, hissued, -⟩ := hsent (githubKey "https://b.example") "Bearer token-a"
      (List.mem_cons_of_mem _ List.mem_cons_self)
    have hnone : ∀ token, ¬ IssuedFor [.saved (githubKey "https://a.example") githubCredential,
        .sent (githubKey "https://b.example") "Bearer token-a"] (githubKey "https://b.example")
          token := by
      intro token hissued
      induction hissued with
      | saved h =>
          rcases List.mem_pair.mp h with h | h
          · exact absurd (AuthEvent.saved.inj h).1 (by decide)
          · cases h
      | refreshed h => rcases List.mem_pair.mp h with h | h <;> cases h
    exact hnone token hissued

end AuraLauncher.Mcp
