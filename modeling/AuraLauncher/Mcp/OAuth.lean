import AuraLauncher.Lib.PercentCoding
import AuraLauncher.Mcp.Auth
import AuraLauncher.Mcp.HttpPolicy
import AuraLauncher.Mcp.Protocol
import AuraLauncher.Runtime.Utf8

/-!
# The authorization flow

`launcher-mcp/src/auth/oauth.rs`, `pkce.rs` and `discovery.rs` (`validate_issuer`): the URL that
starts an authorization, the callback that ends it, and the forms for the token endpoint.

The random bytes, the id of the process and the digest SHA-256 are arguments. Metadata discovery
and the `get_json` of the HTTP port have no caller among the functions modelled.

* `base64url`, `codeChallengeS256` — how random bytes and digests are written.
* `validateTokenEndpoint`, `redirectAllowed` — the URLs that are accepted.
* `beginAuthorization` — the URL and the session it belongs to.
* `urldecode`, `parseCallback`, `validateCallback` — the way back.
* `TokenResponse`, `credentialFromTokenResponse` — the answer of the token endpoint.
-/

namespace AuraLauncher.Mcp

open AuraLauncher.Domain
open AuraLauncher.Runtime (fromUtf8Lossy utf8Bytes)
open AuraLauncher.Workflow (Json)

/-! ## Random values -/

/-- Source: `pkce.rs`, `base64url` (`TABLE`). -/
def base64Table : List Char :=
  "ABCDEFGHIJKLMNOPQRSTUVWXYZabcdefghijklmnopqrstuvwxyz0123456789-_".toList

/-- The digit for six bits of a number. -/
def base64Digit (n : ℕ) : Char := base64Table.getD (n % 64) 'A'

/-- Three bytes a step, and no padding. Source: `pkce.rs`, `base64url`. -/
def base64url : List UInt8 → List Char
  | [] => []
  | [a] => [base64Digit (a.toNat / 4), base64Digit (a.toNat * 16)]
  | [a, b] =>
      let n := a.toNat * 65536 + b.toNat * 256
      [base64Digit (n / 262144), base64Digit (n / 4096), base64Digit (n / 64)]
  | a :: b :: c :: rest =>
      let n := a.toNat * 65536 + b.toNat * 256 + c.toNat
      base64Digit (n / 262144) :: base64Digit (n / 4096) :: base64Digit (n / 64) ::
        base64Digit n :: base64url rest

/-- Source: `pkce.rs`, `generate_state` and `generate_code_verifier`. -/
def secretOfBytes (bytes : List UInt8) : SecretString := ⟨String.ofList (base64url bytes)⟩

/-- Source: `pkce.rs`, `code_challenge_s256`. -/
def codeChallengeS256 (sha256 : List UInt8 → List UInt8) (verifier : String) : String :=
  String.ofList (base64url (sha256 (utf8Bytes verifier.toList)))

/-! ## URLs -/

/-- Source: `oauth.rs`, `validate_token_endpoint`. -/
def validateTokenEndpoint (url : String) : Except AuthError Unit :=
  match splitScheme url.toList with
  | none => .error .metadataInvalid
  | some (scheme, rest) =>
      let host := firstPiece endsAuthority rest
      let loopback := "127.0.0.1".toList.isPrefixOf host || "localhost".toList.isPrefixOf host ||
        "[::1]".toList.isPrefixOf host
      if asciiLowercase scheme = "https".toList then .ok ()
      else if asciiLowercase scheme = "http".toList ∧ loopback then .ok ()
      else .error .metadataInvalid

/-- The redirect URIs that are accepted. Source: `oauth.rs`, `begin_authorization` (the first
test). -/
def redirectAllowed (redirectUri : String) : Bool :=
  "http://127.0.0.1".toList.isPrefixOf redirectUri.toList ||
    "http://localhost".toList.isPrefixOf redirectUri.toList

/-! ## The start -/

/-- Source: `types.rs`, `AuthSession`. -/
structure AuthSession where
  authSessionId : String
  state : SecretString
  codeVerifier : SecretString
  authorizationServer : String
  redirectUri : String

/-- The URL of an authorization. The state is formatted, not exposed. Source: `oauth.rs`,
`begin_authorization` (the URL). -/
def authorizationUrl (authorizationEndpoint clientId redirectUri : String) (state : SecretString)
    (challenge : String) (scopes : List String) : String :=
  authorizationEndpoint ++ "?response_type=code&client_id=" ++ clientId ++ "&redirect_uri=" ++
    redirectUri ++ "&state=" ++ state.display ++ "&code_challenge=" ++ challenge ++
    "&code_challenge_method=S256" ++
    (if scopes.isEmpty then "" else "&scope=" ++ "%20".intercalate scopes)

/-- Source: `oauth.rs`, `begin_authorization`. -/
def beginAuthorization (sha256 : List UInt8 → List UInt8) (processId : ℕ)
    (stateBytes verifierBytes : List UInt8) (authorizationEndpoint clientId redirectUri : String)
    (scopes : List String) : Except AuthError (String × AuthSession) :=
  if !redirectAllowed redirectUri then .error .redirectRejected
  else
    let state := secretOfBytes stateBytes
    let codeVerifier := secretOfBytes verifierBytes
    let challenge := codeChallengeS256 sha256 codeVerifier.expose
    .ok (authorizationUrl authorizationEndpoint clientId redirectUri state challenge scopes,
      ⟨"a-" ++ toString processId, state, codeVerifier, authorizationEndpoint, redirectUri⟩)

/-! ## The way back -/

/-- One or two hexadecimal digits, with an optional plus sign before a digit. Bytes that are no
text have no digits. Source: `u8::from_str_radix` of `std::str::from_utf8`. -/
def hexByte : List UInt8 → Option UInt8
  | [a] => (Lib.hexDigitValue a).map UInt8.ofNat
  | [a, b] =>
      if a = 43 then (Lib.hexDigitValue b).map UInt8.ofNat
      else
        match Lib.hexDigitValue a, Lib.hexDigitValue b with
        | some m, some n => some (UInt8.ofNat (16 * m + n))
        | _, _ => none
  | _ => none

/-- The bytes of a decoded text, with `skip` bytes still belonging to the last escape. A percent
sign that begins no escape stands for itself. Source: `oauth.rs`, `urldecode` (the loop). -/
def urldecodeBytes : ℕ → List UInt8 → List UInt8
  | _, [] => []
  | skip + 1, _ :: rest => urldecodeBytes skip rest
  | 0, b :: rest =>
      if b = 37 then
        match hexByte (rest.take 2) with
        | some decoded => decoded :: urldecodeBytes 2 rest
        | none => b :: urldecodeBytes 0 rest
      else (if b = 43 then 32 else b) :: urldecodeBytes 0 rest

/-- Source: `oauth.rs`, `urldecode`. -/
def urldecode (s : List Char) : String := fromUtf8Lossy (urldecodeBytes 0 (utf8Bytes s))

/-- Source: `oauth.rs`, `Callback`. -/
structure Callback where
  code : String
  state : String
  iss : Option String
  deriving DecidableEq

/-- The parameters of a callback that were found so far. -/
structure CallbackFields where
  code : Option String
  state : Option String
  iss : Option String

/-- A parameter is found; a later one replaces an earlier one. Source: `oauth.rs`,
`parse_callback` (the match). -/
def CallbackFields.set (f : CallbackFields) (k : List Char) (v : String) : CallbackFields :=
  if k = "code".toList then { f with code := some v }
  else if k = "state".toList then { f with state := some v }
  else if k = "iss".toList then { f with iss := some v }
  else f

/-- Source: `oauth.rs`, `parse_callback` (the loop). -/
def readPairs : CallbackFields → List (List Char) → Except AuthError CallbackFields
  | f, [] => .ok f
  | f, pair :: pairs =>
      match splitOnce '=' pair with
      | none => .error .stateMismatch
      | some (k, v) => readPairs (f.set k (urldecode v)) pairs

/-- Source: `oauth.rs`, `parse_callback`. -/
def parseCallback (query : List Char) : Except AuthError Callback :=
  match readPairs ⟨none, none, none⟩ (splitOn (· == '&') (query.dropWhile (· == '?'))) with
  | .error e => .error e
  | .ok f =>
      match f.code, f.state with
      | some code, some state => .ok ⟨code, state, f.iss⟩
      | _, _ => .error .stateMismatch

/-- The issuers are compared without slashes at their ends. Source: `discovery.rs`,
`validate_issuer`. -/
def validateIssuer (discovered returned : String) : Except AuthError Unit :=
  if trimEndMatches '/' discovered.toList = trimEndMatches '/' returned.toList then .ok ()
  else .error .issuerMismatch

/-- Source: `oauth.rs`, `validate_callback`. -/
def validateCallback (session : AuthSession) (callback : Callback) (expectedIssuer : String) :
    Except AuthError Unit :=
  if callback.state ≠ session.state.expose then .error .stateMismatch
  else
    match callback.iss.elim (.ok ()) (validateIssuer expectedIssuer) with
    | .error e => .error e
    | .ok _ => if callback.code.isEmpty then .error .authorizationDenied else .ok ()

/-! ## Tokens -/

/-- Source: `oauth.rs`, `refresh_form`. -/
def refreshForm (refreshToken clientId : String) : List (String × String) :=
  [("grant_type", "refresh_token"), ("refresh_token", refreshToken), ("client_id", clientId)]

/-- Source: `oauth.rs`, `TokenResponse`. -/
structure TokenResponse where
  accessToken : String
  refreshToken : Option String
  expiresIn : Option UInt64
  scope : Option String

/-- Source: `oauth.rs`, `TokenResponse` (`Deserialize`). -/
def TokenResponse.decode (v : Json) : Option TokenResponse := do
  let fields ← structFields ["access_token", "refresh_token", "expires_in", "scope"] v
  let accessToken ← (fields.lookup "access_token").bind Json.asStr
  let refreshToken ← optionField Json.asStr fields "refresh_token"
  let expiresIn ← optionField decodeU64 fields "expires_in"
  let scope ← optionField Json.asStr fields "scope"
  return ⟨accessToken, refreshToken, expiresIn, scope⟩

/-- The issuer and the client are the expected ones, whatever the response says. Source: `oauth.rs`,
`credential_from_token_response`. -/
def credentialFromTokenResponse (now : ℕ) (expectedIssuer clientId : String)
    (response : TokenResponse) : Except AuthError Credential :=
  if response.accessToken.isEmpty then .error .tokenExchangeFailed
  else .ok {
    accessToken := ⟨response.accessToken⟩
    refreshToken := response.refreshToken.map SecretString.mk
    issuer := expectedIssuer
    clientId := clientId
    expiresAt := response.expiresIn.map fun s => now + s.toNat * 1000000000
    scopes := (response.scope.map fun scope =>
      (splitOn (· == ' ') scope.toList).map String.ofList).getD [] }

end AuraLauncher.Mcp
