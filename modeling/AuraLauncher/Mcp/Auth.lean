import Mathlib.Data.String.Basic
import Mathlib.Tactic.Common

/-!
# Credentials and the port of the authentication

`launcher-mcp/src/auth/types.rs` and `auth/mod.rs` (`AuthProviderT`): what the HTTP transport needs
to know of authentication, and the values it is made of.

* `SecretString` — a text that formatting does not show.
* `Credential`, `CredentialKey` — a credential and the identity it is stored under.
* `AuthError` — the errors, whose texts show no secret.
* `AuthProvider` — the two questions a transport asks.

A point in time is a number of nanoseconds. The states of an authorization that no function
modelled reads are left out.
-/

namespace AuraLauncher.Mcp

universe u

/-- A text that redacts itself when it is formatted; `expose` reads it.
Source: `types.rs`, `SecretString`. -/
structure SecretString where
  expose : String
  deriving DecidableEq

/-- Source: `types.rs`, `SecretString` (`Display`). -/
def SecretString.display (_ : SecretString) : String := "[REDACTED]"

/-- Source: `types.rs`, `Credential`. -/
structure Credential where
  accessToken : SecretString
  refreshToken : Option SecretString
  /-- The issuer that issued it. -/
  issuer : String
  clientId : String
  expiresAt : Option ℕ
  scopes : List String
  deriving DecidableEq

/-- Without a time of expiry a credential is valid. Source: `types.rs`, `Credential::expired`. -/
def Credential.expired (c : Credential) (now : ℕ) : Bool :=
  match c.expiresAt with
  | some e => e ≤ now
  | none => false

/-- Source: `types.rs`, `CredentialKey`. -/
structure CredentialKey where
  serverId : String
  resourceOrigin : String
  issuer : String
  clientId : String
  deriving DecidableEq

/-- The name a credential is stored under. Source: `types.rs`, `CredentialKey::storage_key`. -/
def CredentialKey.storageKey (k : CredentialKey) : String :=
  "launcher-mcp/" ++ k.serverId ++ ":" ++ k.clientId ++ "/" ++ k.issuer

/-- Source: `types.rs`, `AuthError`. -/
inductive AuthError
  | discoveryFailed
  | issuerMismatch
  | stateMismatch
  | authorizationDenied
  | tokenExchangeFailed
  | refreshFailed
  | credentialIssuerMismatch
  | invalidCredential
  | unsupportedFlow
  | metadataInvalid
  | redirectRejected
  deriving DecidableEq, Repr

/-- Source: `types.rs`, `AuthError` (`#[error]`). -/
def AuthError.text : AuthError → String
  | .discoveryFailed => "auth discovery failed"
  | .issuerMismatch => "credential issuer mismatch"
  | .stateMismatch => "oauth state mismatch"
  | .authorizationDenied => "authorization denied by user or server"
  | .tokenExchangeFailed => "token exchange failed"
  | .refreshFailed => "token refresh failed"
  | .credentialIssuerMismatch => "credential issuer changed since storage"
  | .invalidCredential => "invalid or expired credential"
  | .unsupportedFlow => "unsupported auth flow"
  | .metadataInvalid => "auth metadata invalid"
  | .redirectRejected => "redirect rejected"

/-- What a transport asks of authentication, with the state of the provider passed along.
Source: `auth/mod.rs`, `AuthProviderT`. -/
structure AuthProvider (α : Type u) where
  /-- The current header, refreshed where that is needed. -/
  currentHeader : α → Except AuthError (Option String) × α
  /-- A header after a refresh; `none` gives up. -/
  onUnauthorized : α → Except AuthError (Option String) × α

end AuraLauncher.Mcp
