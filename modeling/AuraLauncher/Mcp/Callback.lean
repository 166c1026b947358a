import AuraLauncher.Domain.Splitting
import AuraLauncher.Lib.UriText
import AuraLauncher.Mcp.OAuth

/-!
# The round trip of an authorization

The callback of an authorization server (`Mcp.OAuth`): a code and a state, both percent-encoded,
are read back as they were sent, and the callback is accepted for one state only, the one in the
session. The URL that the server was given does not contain that state: it has the text that a
secret is formatted as.

* `urldecode_percentEncode`, `parseCallback_callbackQuery` — a callback is read back.
* `validateCallback_callbackQuery` — which callbacks are accepted.
* `statesIn`, `RoundTrip` — the states in a URL, and what the server may expect of them.
* `beginAuthorization_not_roundTrip` — no authorization makes the round trip.
-/

namespace AuraLauncher.Mcp

open AuraLauncher.Domain AuraLauncher.Lib
open AuraLauncher.Runtime (fromUtf8Lossy fromUtf8Lossy_utf8Bytes toNat_ofNat_of_lt utf8Bytes)

/-! ## Reading a callback -/

/-- A character that may stand for itself is ASCII and has no meaning in an encoding. -/
theorem bounds_of_isUnreserved {c : Char} (h : isUnreserved c = true) :
    c.toNat < 128 ∧ c.toNat ≠ 37 ∧ c.toNat ≠ 43 := by
  simp only [isUnreserved, Bool.or_eq_true, isAlphanum_iff, beq_iff_eq] at h
  rcases h with (((h | rfl) | rfl) | rfl) | rfl
  · omega
  all_goals decide

/-- A character that is kept is passed on. -/
theorem urldecodeBytes_unreserved {c : Char} (h : isUnreserved c = true) (rest : List UInt8) :
    urldecodeBytes 0 (String.utf8EncodeChar c ++ rest) =
      String.utf8EncodeChar c ++ urldecodeBytes 0 rest := by
  obtain ⟨hascii, hpercent, hplus⟩ := bounds_of_isUnreserved h
  have hbyte : (UInt8.ofNat c.toNat).toNat = c.toNat := toNat_ofNat_of_lt (by omega)
  have hpercent' : UInt8.ofNat c.toNat ≠ 37 := fun heq =>
    hpercent (hbyte.symm.trans (congrArg UInt8.toNat heq))
  have hplus' : UInt8.ofNat c.toNat ≠ 43 := fun heq =>
    hplus (hbyte.symm.trans (congrArg UInt8.toNat heq))
  rw [utf8EncodeChar_of_ascii hascii, List.singleton_append, List.singleton_append, urldecodeBytes,
    if_neg hpercent', if_neg hplus']

/-- An escape is undone. -/
theorem urldecodeBytes_percentByte (b : UInt8) (rest : List UInt8) :
    urldecodeBytes 0 ((percentByte b).flatMap String.utf8EncodeChar ++ rest) =
      b :: urldecodeBytes 0 rest := by
  have hb : b.toNat < 256 := b.toNat_lt
  have hhigh := hexDigitValue_hexDigitChar (show b.toNat / 16 < 16 by omega)
  have hlow := hexDigitValue_hexDigitChar (show b.toNat % 16 < 16 by omega)
  have hplus : UInt8.ofNat (hexDigitChar (b.toNat / 16)).toNat ≠ 43 := by
    intro heq
    rw [heq] at hhigh
    cases hhigh
  have hbyte : hexByte [UInt8.ofNat (hexDigitChar (b.toNat / 16)).toNat,
      UInt8.ofNat (hexDigitChar (b.toNat % 16)).toNat] = some b := by
    simp only [hexByte, if_neg hplus, hhigh, hlow]
    rw [Nat.div_add_mod, UInt8.ofNat_toNat]
  rw [utf8_percentByte]
  simp only [List.cons_append, List.nil_append, urldecodeBytes, if_true, List.take_succ_cons,
    List.take_zero, hbyte]

/-- **A component is read back**. -/
theorem urldecode_percentEncode (s : List Char) :
    urldecode (percentEncode isUnreserved s) = String.ofList s := by
  have hdecode := decode_percentEncode (fun c rest hc => urldecodeBytes_unreserved hc rest)
    urldecodeBytes_percentByte s []
  rw [List.append_nil] at hdecode
  have hnil : urldecodeBytes 0 [] = [] := rfl
  rw [hnil, List.append_nil] at hdecode
  rw [urldecode, utf8Bytes, hdecode]
  exact fromUtf8Lossy_utf8Bytes s

/-- The separators of a query do not occur in a component. -/
theorem not_mem_component {c : Char} (h : c = '&' ∨ c = '=') (s : List Char) :
    c ∉ percentEncode isUnreserved s := by
  rcases h with rfl | rfl
  all_goals exact not_mem_percentEncode (by decide) (by decide) (by decide) s

/-- The query of a callback with a code and a state. -/
def callbackQuery (code state : String) : List Char :=
  "code=".toList ++ percentEncode isUnreserved code.toList ++
    '&' :: ("state=".toList ++ percentEncode isUnreserved state.toList)

/-- Two pieces without the separator are the pieces of the text they make. -/
theorem splitOn_pair {p q : List Char} (hp : ∀ c ∈ p, (c == '&') = false)
    (hq : ∀ c ∈ q, (c == '&') = false) : splitOn (· == '&') (p ++ '&' :: q) = [p, q] := by
  rw [splitOn_eq_splitOnP, List.splitOnP_append_cons _ _ rfl, List.splitOnP_eq_singleton hp,
    List.splitOnP_eq_singleton hq]
  rfl

/-- **A callback is read back as it was sent**. -/
theorem parseCallback_callbackQuery (code state : String) :
    parseCallback (callbackQuery code state) = .ok ⟨code, state, none⟩ := by
  have hcomponent : ∀ name ∈ ["code=".toList, "state=".toList], ∀ s : List Char,
      ∀ c ∈ name ++ percentEncode isUnreserved s, (c == '&') = false := by
    intro name hname s c hc
    rw [beq_eq_false_iff_ne]
    rintro rfl
    rcases List.mem_append.mp hc with hc | hc
    · rcases List.mem_pair.mp hname with rfl | rfl
      all_goals exact absurd hc (by decide)
    · exact not_mem_component (.inl rfl) s hc
  have hpieces : splitOn (· == '&') (callbackQuery code state) =
      ["code=".toList ++ percentEncode isUnreserved code.toList,
        "state=".toList ++ percentEncode isUnreserved state.toList] :=
    splitOn_pair (hcomponent _ List.mem_cons_self _)
      (hcomponent _ (List.mem_cons_of_mem _ List.mem_cons_self) _)
  have hquery : (callbackQuery code state).dropWhile (· == '?') = callbackQuery code state := rfl
  have hcode : splitOnce '=' ("code=".toList ++ percentEncode isUnreserved code.toList) =
      some ("code".toList, percentEncode isUnreserved code.toList) :=
    splitOnce_append (a := "code".toList) (by decide)
  have hstate : splitOnce '=' ("state=".toList ++ percentEncode isUnreserved state.toList) =
      some ("state".toList, percentEncode isUnreserved state.toList) :=
    splitOnce_append (a := "state".toList) (by decide)
  unfold parseCallback
  rw [hquery, hpieces]
  simp only [readPairs, hcode, hstate, urldecode_percentEncode, String.ofList_toList]
  rfl

/-- **Which callbacks are accepted**: those with a code and with the state of the session. -/
theorem validateCallback_eq_ok_iff (session : AuthSession) (code state issuer : String) :
    validateCallback session ⟨code, state, none⟩ issuer = .ok () ↔
      state = session.state.expose ∧ code ≠ "" := by
  unfold validateCallback
  simp only [Option.elim_none]
  split_ifs with hstate hcode
  · simp [hstate]
  · simp only [false_iff, not_and, not_not]
    exact fun _ => String.isEmpty_iff.mp hcode
  · simp only [true_iff]
    exact ⟨not_not.mp hstate, fun hnil => hcode (String.isEmpty_iff.mpr hnil)⟩

/-! ## The state in the URL -/

/-- What takes the parameters of a URL apart. -/
def isUrlSeparator (c : Char) : Bool := c == '?' || c == '&' || c == '#'

/-- The values of the parameter `state` in a URL, decoded. -/
def statesIn (url : List Char) : List String :=
  (splitOn isUrlSeparator url).filterMap fun piece =>
    if "state=".toList.isPrefixOf piece then some (urldecode (piece.drop 6)) else none

/-- A server that redirects back with a code and with the state of the URL is accepted, and with any
other state it is rejected. -/
def RoundTrip (url : String) (session : AuthSession) (expectedIssuer : String) : Prop :=
  ∀ state ∈ statesIn url.toList, ∀ code ≠ "",
    (∃ cb, parseCallback (callbackQuery code state) = .ok cb ∧
      validateCallback session cb expectedIssuer = .ok ()) ∧
    ∀ other ≠ state, ∀ cb, parseCallback (callbackQuery code other) = .ok cb →
      validateCallback session cb expectedIssuer ≠ .ok ()

/-- **What the round trip comes down to**: the URL has no state but the one of the session. -/
theorem roundTrip_iff (url : String) (session : AuthSession) (expectedIssuer : String) :
    RoundTrip url session expectedIssuer ↔
      ∀ state ∈ statesIn url.toList, state = session.state.expose := by
  constructor
  · intro h state hstate
    obtain ⟨⟨cb, hparse, hvalid⟩, -⟩ := h state hstate "code" (by decide)
    rw [parseCallback_callbackQuery] at hparse
    obtain rfl := Except.ok.inj hparse
    exact ((validateCallback_eq_ok_iff session "code" state expectedIssuer).mp hvalid).1
  · intro h state hstate code hcode
    refine ⟨⟨_, parseCallback_callbackQuery code state,
      (validateCallback_eq_ok_iff session code state expectedIssuer).mpr ⟨h state hstate, hcode⟩⟩,
      ?_⟩
    intro other hother cb hparse hvalid
    rw [parseCallback_callbackQuery] at hparse
    obtain rfl := Except.ok.inj hparse
    have hsame := ((validateCallback_eq_ok_iff session code other expectedIssuer).mp hvalid).1
    exact hother (hsame.trans (h state hstate).symm)

theorem base64Digit_mem (n : ℕ) : base64Digit n ∈ base64Table := by
  have hlt : n % 64 < base64Table.length := Nat.mod_lt n (by decide)
  have hget : base64Digit n = base64Table[n % 64] := by simp [base64Digit, List.getD, hlt]
  rw [hget]
  exact List.getElem_mem hlt

/-- Random values are written with the digits of the table. -/
theorem mem_base64Table_of_mem {bytes : List UInt8} {c : Char} (h : c ∈ base64url bytes) :
    c ∈ base64Table := by
  induction bytes using base64url.induct with
  | case1 => cases h
  | case2 a =>
      simp only [base64url, List.mem_cons, List.not_mem_nil, or_false] at h
      rcases h with rfl | rfl
      all_goals exact base64Digit_mem _
  | case3 a b =>
      simp only [base64url, List.mem_cons, List.not_mem_nil, or_false] at h
      rcases h with rfl | rfl | rfl
      all_goals exact base64Digit_mem _
  | case4 a b c' rest ih =>
      simp only [base64url, List.mem_cons] at h
      rcases h with rfl | rfl | rfl | rfl | h
      · exact base64Digit_mem _
      · exact base64Digit_mem _
      · exact base64Digit_mem _
      · exact base64Digit_mem _
      · exact ih h

/-- A random value is not what a secret is formatted as. -/
theorem display_ne_expose (bytes : List UInt8) (secret : SecretString) :
    secret.display ≠ (secretOfBytes bytes).expose := by
  intro h
  have hchars : (base64url bytes) = "[REDACTED]".toList := by
    have htext := congrArg String.toList h
    rw [secretOfBytes, String.toList_ofList] at htext
    exact htext.symm
  have hmem : '[' ∈ base64url bytes := by
    rw [hchars]
    decide
  exact absurd (mem_base64Table_of_mem hmem) (by decide)

/-- The URL of an authorization has the formatted state. -/
theorem display_mem_statesIn (endpoint clientId redirectUri : String) (state : SecretString)
    (challenge : String) (scopes : List String) :
    state.display ∈
      statesIn (authorizationUrl endpoint clientId redirectUri state challenge scopes).toList := by
  have hpiece : "state=[REDACTED]".toList ∈ splitOn isUrlSeparator
      (authorizationUrl endpoint clientId redirectUri state challenge scopes).toList := by
    have hsplit : ∃ before after,
        (authorizationUrl endpoint clientId redirectUri state challenge scopes).toList =
          before ++ '&' :: ("state=[REDACTED]".toList ++ '&' :: after) :=
      ⟨endpoint.toList ++ "?response_type=code&client_id=".toList ++ clientId.toList ++
          "&redirect_uri=".toList ++ redirectUri.toList,
        "code_challenge=".toList ++ challenge.toList ++ "&code_challenge_method=S256".toList ++
          (if scopes.isEmpty then "" else "&scope=" ++ "%20".intercalate scopes).toList,
        by simp [authorizationUrl, SecretString.display]⟩
    obtain ⟨before, after, hsplit⟩ := hsplit
    rw [hsplit]
    exact mem_splitOn_between before after (by rfl) (by rfl) (by simp [isUrlSeparator])
  refine List.mem_filterMap.mpr ⟨_, hpiece, ?_⟩
  rfl

/-- **No authorization makes the round trip**: the URL has the formatted state, and the callback is
accepted with the secret one. -/
theorem beginAuthorization_not_roundTrip {sha256 : List UInt8 → List UInt8} {processId : ℕ}
    {stateBytes verifierBytes : List UInt8} {authorizationEndpoint clientId redirectUri : String}
    {scopes : List String} {url : String} {session : AuthSession}
    (h : beginAuthorization sha256 processId stateBytes verifierBytes authorizationEndpoint clientId
      redirectUri scopes = .ok (url, session)) (expectedIssuer : String) :
    ¬ RoundTrip url session expectedIssuer := by
  unfold beginAuthorization at h
  split_ifs at h
  obtain ⟨rfl, rfl⟩ := Prod.mk.inj (Except.ok.inj h)
  rw [roundTrip_iff]
  intro hall
  exact display_ne_expose stateBytes _ (hall _ (display_mem_statesIn _ _ _ _ _ _))

/-! ## An authorization -/

/-- SHA-256 of the verifier for 48 bytes of zeros. -/
def zeroDigest : List UInt8 :=
  [0xd5, 0x3e, 0xda, 0x7a, 0x63, 0x7c, 0x99, 0xcc, 0x7f, 0xb5, 0x66, 0xd9, 0x6e, 0x9f, 0xa1, 0x09,
    0xbf, 0x15, 0xc4, 0x78, 0x41, 0x0a, 0x3f, 0x5e, 0xb4, 0xd4, 0xc4, 0xe2, 0x6c, 0xd0, 0x81, 0xf6]

/-- An authorization whose random bytes are zeros. -/
def zeroAuthorization : Except AuthError (String × AuthSession) :=
  beginAuthorization (fun _ => zeroDigest) 7 (List.replicate 32 0) (List.replicate 48 0)
    "https://auth.example/authorize" "launcher" "http://127.0.0.1:8123/callback" []

/-- The callback with the state of the URL is rejected. -/
theorem roundTrip_rejected : ∃ url session,
    zeroAuthorization = .ok (url, session) ∧ "[REDACTED]" ∈ statesIn url.toList ∧
    parseCallback (callbackQuery "xyz" "[REDACTED]") = .ok ⟨"xyz", "[REDACTED]", none⟩ ∧
    validateCallback session ⟨"xyz", "[REDACTED]", none⟩ "https://auth.example" =
      .error .stateMismatch ∧
    ¬ RoundTrip url session "https://auth.example" := by
  have hstate := display_mem_statesIn "https://auth.example/authorize" "launcher"
    "http://127.0.0.1:8123/callback" (secretOfBytes (List.replicate 32 0))
    (codeChallengeS256 (fun _ => zeroDigest) (secretOfBytes (List.replicate 48 0)).expose) []
  have hne : "[REDACTED]" ≠ (secretOfBytes (List.replicate 32 0)).expose :=
    display_ne_expose (List.replicate 32 0) ⟨""⟩
  refine ⟨_, _, rfl, hstate, parseCallback_callbackQuery _ _, if_pos hne, ?_⟩
  rw [roundTrip_iff]
  exact fun hall => hne (hall _ hstate)

theorem beginAuthorization_not_roundTrip_zero : ∃ url session,
    zeroAuthorization = .ok (url, session) ∧ ¬ RoundTrip url session "https://auth.example" := by
  refine ⟨_, _, rfl, ?_⟩
  exact beginAuthorization_not_roundTrip (show zeroAuthorization = _ from rfl) _

end AuraLauncher.Mcp
