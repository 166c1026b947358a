import AuraLauncher.Lib.PercentCoding

/-!
# URIs and their hosts

The generic syntax of RFC 3986 as far as the authority: a URI is put together of a scheme, an
authority and the rest, an authority of a user information, a host and a port. The parts carry
their syntax as fields, so that a `Uri` is one that the grammar allows, and `Uri.text` is what is
written.

A host is an IPv4 address, an IPv6 address, an address of a later version or a name. The text of an
address is read by the grammar: an octet has no leading zeros, a name is what is no address.

* `ipv4Address`, `ipv6Address`, `isIpvFuture`, `isText` — the syntax of the parts.
* `HostText`, `Authority`, `Uri` — a URI; `HostText.host` — the host that is meant.
* `Host.ipv4?` — the IPv4 address of a host, also one that is mapped into IPv6.
* `Host.IsLinkLocalV4`, `Host.IsPrivate`, `Host.IsLoopback` — classes of hosts.
-/

namespace AuraLauncher.Lib

/-! ## Characters -/

/-- The delimiters that may stand for themselves inside a part. -/
def isSubDelim (c : Char) : Bool := c ∈ ['!', '$', '&', '\'', '(', ')', '*', '+', ',', ';', '=']

/-- A character of a name. -/
def isNameChar (c : Char) : Bool := isUnreserved c || isSubDelim c

/-- A character of a name, or a colon. -/
def isUserChar (c : Char) : Bool := isNameChar c || c == ':'

/-- The value of a hexadecimal digit of either case. -/
def hexCharValue (c : Char) : Option ℕ :=
  let n := c.toNat
  if 48 ≤ n ∧ n ≤ 57 then some (n - 48)
  else if 65 ≤ n ∧ n ≤ 70 then some (n - 55)
  else if 97 ≤ n ∧ n ≤ 102 then some (n - 87)
  else none

/-- A text of allowed characters and escapes. -/
def isText (allowed : Char → Bool) : List Char → Bool
  | [] => true
  | '%' :: a :: b :: rest =>
      (hexCharValue a).isSome && (hexCharValue b).isSome && isText allowed rest
  | c :: rest => allowed c && isText allowed rest

/-! ## Addresses -/

/-- The number that decimal digits write. -/
def digitsValue (digits : List Char) : ℕ :=
  digits.foldl (fun n c => 10 * n + (c.toNat - 48)) 0

/-- A number up to 255 without leading zeros. -/
def decOctet (s : List Char) : Option ℕ :=
  if s ≠ [] ∧ s.all Char.isDigit ∧ (s.head? = some '0' → s.length = 1) ∧ digitsValue s ≤ 255 then
    some (digitsValue s)
  else none

/-- Four octets. -/
def ipv4Address (s : List Char) : Option (ℕ × ℕ × ℕ × ℕ) :=
  match (s.splitOn '.').map decOctet with
  | [some a, some b, some c, some d] => some (a, b, c, d)
  | _ => none

/-- The number that hexadecimal digits write. -/
def hexValue (digits : List Char) : Option ℕ :=
  digits.foldlM (fun n c => (hexCharValue c).map (16 * n + ·)) 0

/-- A group of one to four hexadecimal digits. -/
def hexGroup (s : List Char) : Option ℕ :=
  if s ≠ [] ∧ s.length ≤ 4 then hexValue s else none

/-- Groups, the last two of which may be written as an IPv4 address. -/
def hexGroups : List (List Char) → Option (List ℕ)
  | [] => some []
  | [s] =>
      match ipv4Address s with
      | some (a, b, c, d) => some [256 * a + b, 256 * c + d]
      | none => (hexGroup s).map fun g => [g]
  | s :: rest =>
      match hexGroup s, hexGroups rest with
      | some g, some gs => some (g :: gs)
      | _, _ => none

/-- The texts before and after the first two colons in a row. -/
def splitColons : List Char → Option (List Char × List Char)
  | ':' :: ':' :: rest => some ([], rest)
  | c :: rest => (splitColons rest).map fun p => (c :: p.1, p.2)
  | [] => none

/-- The groups of one side of two colons. -/
def sideGroups (groups : List (List Char) → Option (List ℕ)) (s : List Char) :
    Option (List ℕ) :=
  if s = [] then some [] else groups (s.splitOn ':')

/-- Eight groups, where two colons in a row stand for at least one group of zeros. -/
def ipv6Address (s : List Char) : Option (List ℕ) :=
  match splitColons s with
  | none =>
      match hexGroups (s.splitOn ':') with
      | some gs => if gs.length = 8 then some gs else none
      | none => none
  | some (l, r) =>
      match sideGroups (fun pieces => pieces.mapM hexGroup) l, sideGroups hexGroups r with
      | some ls, some rs =>
          if ls.length + rs.length ≤ 7 then
            some (ls ++ List.replicate (8 - (ls.length + rs.length)) 0 ++ rs)
          else none
      | _, _ => none

/-- An address of a version to come: `v`, the version, a dot and a text. -/
def isIpvFuture : List Char → Bool
  | c :: rest =>
      let version := rest.takeWhile fun d => (hexCharValue d).isSome
      (c == 'v' || c == 'V') && !version.isEmpty &&
        match rest.drop version.length with
        | '.' :: text => !text.isEmpty && text.all isUserChar
        | _ => false
  | [] => false

/-! ## URIs -/

/-- A host. -/
inductive Host
  | ipv4 (a b c d : ℕ)
  | ipv6 (groups : List ℕ)
  | future (text : List Char)
  | name (text : List Char)
  deriving DecidableEq

/-- The text of a host. -/
inductive HostText
  /-- An address in brackets. -/
  | literal (text : List Char) (ok : (ipv6Address text).isSome = true ∨ isIpvFuture text = true)
  | name (text : List Char) (ok : isText isNameChar text = true)

namespace HostText

/-- What is written. -/
def text : HostText → List Char
  | .literal t _ => '[' :: (t ++ [']'])
  | .name t _ => t

/-- The host that is meant. -/
def host : HostText → Host
  | .literal t _ =>
      match ipv6Address t with
      | some gs => .ipv6 gs
      | none => .future t
  | .name t _ =>
      match ipv4Address t with
      | some (a, b, c, d) => .ipv4 a b c d
      | none => .name t

end HostText

/-- Who and where. -/
structure Authority where
  userinfo : Option (List Char)
  host : HostText
  port : Option (List Char)
  userinfo_ok : ∀ u, userinfo = some u → isText isUserChar u = true
  port_ok : ∀ p, port = some p → p.all Char.isDigit = true

/-- What is written. -/
def Authority.text (a : Authority) : List Char :=
  (a.userinfo.elim [] fun u => u ++ ['@']) ++ a.host.text ++ a.port.elim [] fun p => ':' :: p

/-- What ends an authority. -/
def endsAuthorityPart (c : Char) : Bool := c == '/' || c == '?' || c == '#'

/-- A URI with an authority. -/
structure Uri where
  scheme : List Char
  authority : Authority
  /-- The path, the query and the fragment. -/
  rest : List Char
  scheme_ok : ':' ∉ scheme
  rest_ok : ∀ c, rest.head? = some c → endsAuthorityPart c = true

/-- What is written. -/
def Uri.text (u : Uri) : List Char := u.scheme ++ "://".toList ++ u.authority.text ++ u.rest

/-! ## Classes of hosts -/

namespace Host

/-- The IPv4 address of a host; an IPv6 address that has one mapped into it is that address. -/
def ipv4? : Host → Option (ℕ × ℕ × ℕ × ℕ)
  | .ipv4 a b c d => some (a, b, c, d)
  | .ipv6 [0, 0, 0, 0, 0, 0xffff, x, y] => some (x / 256, x % 256, y / 256, y % 256)
  | _ => none

/-- A link-local IPv4 address, `169.254.0.0/16`. Services for metadata are among them. -/
def IsLinkLocalV4 (h : Host) : Prop :=
  ∃ a b c d, h.ipv4? = some (a, b, c, d) ∧ a = 169 ∧ b = 254

/-- A private IPv4 address, or a unique local or link-local IPv6 address. -/
def IsPrivate (h : Host) : Prop :=
  (∃ a b c d, h.ipv4? = some (a, b, c, d) ∧
    (a = 10 ∨ a = 172 ∧ 16 ≤ b ∧ b ≤ 31 ∨ a = 192 ∧ b = 168)) ∨
  ∃ g gs, h = .ipv6 (g :: gs) ∧ (0xfc00 ≤ g ∧ g ≤ 0xfdff ∨ 0xfe80 ≤ g ∧ g ≤ 0xfebf)

/-- A host that is the machine itself: a loopback address, the unspecified IPv4 address or the name
for them, which may end with the dot of the root. -/
def IsLoopback (h : Host) : Prop :=
  (∃ a b c d, h.ipv4? = some (a, b, c, d) ∧ (a = 127 ∨ a = 0 ∧ b = 0 ∧ c = 0 ∧ d = 0)) ∨
  h = .ipv6 [0, 0, 0, 0, 0, 0, 0, 1] ∨
  ∃ t, h = .name t ∧
    (t.map Char.toLower = "localhost".toList ∨ t.map Char.toLower = "localhost.".toList)

end Host

end AuraLauncher.Lib
