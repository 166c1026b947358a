import AuraLauncher.Mcp.Invoke

/-!
# The policy of the HTTP transport

`launcher-mcp/src/transport/http_policy.rs`: which endpoint URLs may be used, what a status means,
and which content type is read.

The functions look at texts only, no name is resolved. They are written on lists of characters,
with the pieces of the standard library that they take texts apart with.

* `classifyHost`, `validateUrl` — the network class of a host, and the URLs that are accepted.
* `statusError`, `validateContentType` — what is made of a status and of a content type.

Reserved headers are left out: no function modelled sends a configured header.
-/

namespace AuraLauncher.Mcp

open AuraLauncher.Domain

/-! ## Texts -/

/-- Source: `str::to_ascii_lowercase`. -/
def asciiLowercase (s : List Char) : List Char := s.map Char.toLower

/-- The text before the last `sep` and the text after it. Source: `str::rsplit_once`. -/
def rsplitOnce (sep : Char) (s : List Char) : Option (List Char × List Char) :=
  (splitOnce sep s.reverse).map fun p => (p.2.reverse, p.1.reverse)

/-- Source: `str::trim_end_matches` with a character. -/
def trimEndMatches (c : Char) (s : List Char) : List Char := (s.reverse.dropWhile (· == c)).reverse

/-- The text up to the first separator. Source: `str::split`, and `next` of it. -/
def firstPiece (sep : Char → Bool) (s : List Char) : List Char := s.takeWhile fun c => !sep c

/-- The number that decimal digits write. -/
def decimalValue (digits : List Char) : ℕ :=
  digits.foldl (fun n c => 10 * n + (c.toNat - '0'.toNat)) 0

/-- A number with an optional plus sign. Source: `str::parse` for an unsigned type with the largest
value `max`. -/
def parseUnsigned (max : ℕ) (s : List Char) : Option ℕ :=
  let digits := if s.head? = some '+' then s.tail else s
  if digits.isEmpty || !digits.all Char.isDigit then none
  else if decimalValue digits ≤ max then some (decimalValue digits) else none

/-! ## Endpoint URLs -/

/-- Source: `http_policy.rs`, `NetworkClass`. -/
inductive NetworkClass
  | loopback
  | privateNetwork
  | publicNetwork
  | metadata
  deriving DecidableEq, Repr

/-- Source: `http_policy.rs`, `UrlPolicy`. -/
structure UrlPolicy where
  allowPrivateNetwork : Bool
  allowPlainHttp : Bool

/-- The text that is classified: what stands in brackets, or the text without dots at its end and
without a port. Source: `http_policy.rs`, `classify_host` (up to the first comparison). -/
def hostText (host : List Char) : List Char :=
  match asciiLowercase (trim host) with
  | '[' :: rest => firstPiece (· == ']') rest
  | host =>
      let host := trimEndMatches '.' host
      match rsplitOnce ':' host with
      | some (h, port) => if (parseUnsigned 65535 port).isSome then h else host
      | none => host

/-- The class of a dotted quad, by its first two numbers. Source: `http_policy.rs`,
`classify_host` (the dotted quads). -/
def classifyQuad (a b : ℕ) : NetworkClass :=
  if a = 127 then .loopback
  else if a = 10 then .privateNetwork
  else if a = 172 ∧ 16 ≤ b ∧ b ≤ 31 then .privateNetwork
  else if a = 192 ∧ b = 168 then .privateNetwork
  else if a = 169 ∧ b = 254 then .metadata
  else .publicNetwork

/-- Source: `http_policy.rs`, `classify_host` (from the first comparison on). -/
def classifyText (host : List Char) : NetworkClass :=
  if host ∈ ["localhost".toList, "127.0.0.1".toList, "0.0.0.0".toList, "::1".toList] then .loopback
  else if host = "169.254.169.254".toList ∨ "169.254.169.".toList.isPrefixOf host then .metadata
  else if "fe80:".toList.isPrefixOf host ∨ "fc".toList.isPrefixOf host ∨
      "fd".toList.isPrefixOf host then .privateNetwork
  else
    match (splitOn (· == '.') host).map (parseUnsigned 255) with
    | [some a, some b, some _, some _] => classifyQuad a b
    | _ => .publicNetwork

/-- Source: `http_policy.rs`, `classify_host`. -/
def classifyHost (host : List Char) : NetworkClass := classifyText (hostText host)

/-- What ends the host of a URL. -/
def endsAuthority (c : Char) : Bool := c == '/' || c == '?' || c == '#'

/-- The scheme of a URL and what comes after the `://`. Source: `str::split_once`. -/
def splitScheme (url : List Char) : Option (List Char × List Char) :=
  (findSub "://".toList url).map fun p => (p.1, p.2.drop 3)

/-- Source: `http_policy.rs`, `validate_url` (the network policy). -/
def networkPolicy (scheme : List Char) (cls : NetworkClass) (policy : UrlPolicy) :
    Except McpError Unit :=
  if cls = .metadata then
    .error (.invalidInput "mcp url points at a metadata endpoint (blocked)")
  else if scheme = "http".toList ∧ cls ≠ .loopback ∧ policy.allowPlainHttp = false then
    .error (.invalidInput ("plaintext http is only allowed for loopback endpoints unless " ++
      "allow_plain_http is explicitly configured"))
  else if cls = .privateNetwork ∧ policy.allowPrivateNetwork = false then
    .error (.invalidInput
      "private-network mcp endpoints require explicit allow_private_network")
  else .ok ()

/-- The scheme and the host, of a URL that is accepted. Source: `http_policy.rs`,
`validate_url`. -/
def validateUrl (url : String) (policy : UrlPolicy) : Except McpError (String × String) :=
  match splitScheme url.toList with
  | none => .error (.invalidInput ("mcp url must be absolute: " ++ url))
  | some (scheme, rest) =>
      let scheme := asciiLowercase scheme
      if scheme ≠ "http".toList ∧ scheme ≠ "https".toList then
        .error (.invalidInput ("mcp url scheme must be http(s): " ++ url))
      else
        let host := firstPiece endsAuthority rest
        if host.isEmpty then .error (.invalidInput ("mcp url has no host: " ++ url))
        else
          match networkPolicy scheme (classifyHost host) policy with
          | .error e => .error e
          | .ok _ => .ok (String.ofList scheme, String.ofList host)

/-! ## Responses -/

/-- Source: `http_policy.rs`, `validate_content_type`. -/
def validateContentType : Option String → Except McpError Unit
  | none => .error (.protocolViolation "response missing Content-Type")
  | some ct =>
      let media := asciiLowercase (trim (firstPiece (· == ';') ct.toList))
      if media = "application/json".toList then .ok ()
      else if media = "text/event-stream".toList then .error (.protocolViolation
        "text/event-stream responses are unsupported in P0-B (safe reject)")
      else .error (.protocolViolation
        ("unexpected response content-type: " ++ String.ofList media))

/-- What a status means; `none` for a success. Source: `http_policy.rs`, `status_error`. -/
def statusError (status : ℕ) (endpoint : String) : Option McpError :=
  if 200 ≤ status ∧ status ≤ 299 then none
  else if status = 400 ∨ status = 404 then
    some (.serverUnavailable ("http " ++ toString status ++ " from " ++ endpoint))
  else if status = 401 then some (.authenticationRequired ("http 401 from " ++ endpoint))
  else if status = 403 then some (.permissionDenied ("http 403 from " ++ endpoint))
  else if status = 408 then some (.timeout "0ns")
  else if status = 429 then
    some (.serverUnavailable ("http 429 (throttled) from " ++ endpoint))
  else if 500 ≤ status then
    some (.serverUnavailable ("http " ++ toString status ++ " from " ++ endpoint))
  else some (.protocolViolation
    ("unexpected http status " ++ toString status ++ " from " ++ endpoint))

/-- No status from 400 on is a success. -/
theorem isSome_statusError {status : ℕ} (h : 400 ≤ status) (endpoint : String) :
    (statusError status endpoint).isSome = true := by
  unfold statusError
  rw [if_neg (by omega)]
  split_ifs <;> rfl

end AuraLauncher.Mcp
