import AuraLauncher.Mcp.HostClass
import AuraLauncher.Mcp.OAuth

/-!
# Which URLs are admitted

Three functions decide about URLs before anything is sent: `validate_url` of the HTTP transport,
`validate_token_endpoint` and the first test of `begin_authorization`. They look for the host by
splitting and by prefixes. This file compares what they admit with the host that a client connects
to, which is the host of the URL by the grammar of URIs; a text is the text of one URI at most
(`Lib.Uri.text_injective`).

* `UrlSound`, `TokenSound`, `RedirectSound` — what is admitted has a host it may have.
* `Hidden` — the host is to be kept out and is not seen: a user information stands in front of it,
  it is an IPv6 address that is classified by its text, or its port is not read.
* `Mistaken` — a name that looks like the machine itself and is another.
* `Decoy` — the authority begins like the machine itself and goes on.
* `admissionSound_iff` — the functions are sound on a text exactly if none of these is the case.
-/

namespace AuraLauncher.Mcp

open AuraLauncher.Domain AuraLauncher.Lib

/-! ## What is to be kept out -/

/-- The host of a URI. -/
abbrev hostOf (u : Uri) : Host := u.authority.host.host

/-- A host that the policy keeps out. -/
def Forbidden (h : Host) (policy : UrlPolicy) : Prop :=
  h.IsLinkLocalV4 ∨ h.IsPrivate ∧ policy.allowPrivateNetwork = false

/-- What `validate_url` accepts has no host that is kept out, and is the machine itself when the
text is plain. -/
def UrlSound (u : Uri) (policy : UrlPolicy) : Prop :=
  ∀ r, validateUrl (String.ofList u.text) policy = .ok r →
    ¬(hostOf u).IsLinkLocalV4 ∧
    ((hostOf u).IsPrivate → policy.allowPrivateNetwork = true) ∧
    (asciiLowercase u.scheme = "http".toList → policy.allowPlainHttp = false →
      (hostOf u).IsLoopback)

/-- A plain token endpoint that is accepted is the machine itself. -/
def TokenSound (u : Uri) : Prop :=
  validateTokenEndpoint (String.ofList u.text) = .ok () →
    asciiLowercase u.scheme = "http".toList → (hostOf u).IsLoopback

/-- A redirect URI that is accepted is the machine itself. -/
def RedirectSound (u : Uri) : Prop :=
  ∀ (sha256 : List UInt8 → List UInt8) (processId : ℕ) (stateBytes verifierBytes : List UInt8)
    (authorizationEndpoint clientId : String) (scopes : List String) (r : String × AuthSession),
    beginAuthorization sha256 processId stateBytes verifierBytes authorizationEndpoint clientId
        (String.ofList u.text) scopes = .ok r →
      (hostOf u).IsLoopback

/-- A text is sound for the three functions, whatever URI it is. -/
def AdmissionSound (url : String) (policy : UrlPolicy) : Prop :=
  ∀ u : Uri, String.ofList u.text = url → UrlSound u policy ∧ TokenSound u ∧ RedirectSound u

/-! ## What is not seen -/

/-- The host is not what is classified, or is classified by less than it says. -/
def Hidden (a : Authority) (policy : UrlPolicy) : Prop :=
  match a.userinfo, a.host with
  | some u, _ =>
      ¬"169.254.169.".toList.isPrefixOf (asciiLowercase u) ∧
      ("fe80:".toList.isPrefixOf (asciiLowercase u) ∨ "fc".toList.isPrefixOf (asciiLowercase u) ∨
        "fd".toList.isPrefixOf (asciiLowercase u) → policy.allowPrivateNetwork = true)
  | none, .literal t _ =>
      ∀ g gs, ipv6Address t = some (g :: gs) → ¬(0xfc00 ≤ g ∧ g ≤ 0xfdff ∨ g = 0xfe80)
  | none, .name n _ =>
      ∃ p, a.port = some p ∧ ¬PortRead p ∧ ¬"169.254.169.".toList.isPrefixOf n

/-- A name that is taken for the machine itself. -/
def Mistaken (a : Authority) : Prop :=
  a.userinfo = none ∧ ¬a.host.host.IsLoopback ∧
    ∃ n ok, a.host = .name n ok ∧ (∀ p, a.port = some p → PortRead p) ∧
      LooksLoopback (nameText n a.port)

/-- The text begins like the machine itself: in the user information, or in a name that goes on. -/
def Decoy (a : Authority) : Prop :=
  match a.userinfo, a.host with
  | some u, h =>
      ("127.0.0.1".toList.isPrefixOf u ∨ "localhost".toList.isPrefixOf u) ∧ ¬h.host.IsLoopback
  | none, .literal _ _ => False
  | none, .name n _ =>
      (∃ more, n = "localhost".toList ++ more ∧ more ≠ [] ∧ more ≠ ['.']) ∨
      (∃ more, n = "127.0.0.1".toList ++ more ∧
        ¬(more.length ≤ 2 ∧ more.all Char.isDigit = true))

/-- **What the three functions see**: no host that is to be kept out is hidden, and nothing is
mistaken for the machine itself. -/
structure Seen (u : Uri) (policy : UrlPolicy) : Prop where
  forbidden :
    asciiLowercase u.scheme = "https".toList ∨
        asciiLowercase u.scheme = "http".toList ∧ policy.allowPlainHttp = true →
      Forbidden (hostOf u) policy → ¬Hidden u.authority policy
  loopback : asciiLowercase u.scheme = "http".toList → policy.allowPlainHttp = false →
    ¬Mistaken u.authority
  token : asciiLowercase u.scheme = "http".toList → ¬Decoy u.authority

/-! ## The class of a host that is kept out -/

/-- The IPv4 and the IPv6 addresses that are kept out. -/
theorem forbidden_cases {h : Host} {policy : UrlPolicy} (hf : Forbidden h policy) :
    (∃ a b c d, h = .ipv4 a b c d ∧ (classifyQuad a b = .metadata ∨
      classifyQuad a b = .privateNetwork ∧ policy.allowPrivateNetwork = false)) ∨
    ∃ g gs, h = .ipv6 (g :: gs) ∧ ((g = 0 ∨ 0xfe81 ≤ g ∧ g ≤ 0xfebf) ∨
      (0xfc00 ≤ g ∧ g ≤ 0xfdff ∨ g = 0xfe80) ∧ policy.allowPrivateNetwork = false) := by
  have hipv4? {a b c d : ℕ} (hv4 : h.ipv4? = some (a, b, c, d)) :
      h = .ipv4 a b c d ∨ ∃ gs, h = .ipv6 (0 :: gs) := by
    unfold Host.ipv4? at hv4
    split at hv4
    · simp only [Option.some.injEq, Prod.mk.injEq] at hv4
      obtain ⟨rfl, rfl, rfl, rfl⟩ := hv4
      exact .inl rfl
    · exact .inr ⟨_, rfl⟩
    · cases hv4
  rcases hf with ⟨a, b, c, d, hv4, rfl, rfl⟩ | ⟨hprivate, hallow⟩
  · rcases hipv4? hv4 with rfl | ⟨gs, rfl⟩
    · exact .inl ⟨_, _, c, d, rfl, .inl rfl⟩
    · exact .inr ⟨0, gs, rfl, .inl (.inl rfl)⟩
  · rcases hprivate with ⟨a, b, c, d, hv4, hab⟩ | ⟨g, gs, rfl, hg⟩
    · rcases hipv4? hv4 with rfl | ⟨gs, rfl⟩
      · refine .inl ⟨a, b, c, d, rfl, .inr ⟨?_, hallow⟩⟩
        unfold classifyQuad
        split_ifs <;> first | rfl | omega
      · exact .inr ⟨0, gs, rfl, .inl (.inl rfl)⟩
    · refine .inr ⟨g, gs, rfl, ?_⟩
      by_cases hsmall : 0xfe81 ≤ g
      · exact .inl (.inr ⟨hsmall, by omega⟩)
      · exact .inr ⟨by omega, hallow⟩

/-- A name is the host that is an IPv4 address if it is one. -/
theorem ipv4Address_of_name {a : Authority} {n : List Char} {ok : isText isNameChar n = true}
    (hhost : a.host = .name n ok) {w x y z : ℕ} (h : a.host.host = .ipv4 w x y z) :
    ipv4Address n = some (w, x, y, z) := by
  rw [hhost, HostText.host] at h
  split at h
  · next hv4 =>
      obtain ⟨rfl, rfl, rfl, rfl⟩ := by simpa using h
      exact hv4
  · cases h

section forbidden

variable {a : Authority} {policy : UrlPolicy}

/-- The policy lets a class pass. -/
def Passes (cls : NetworkClass) (policy : UrlPolicy) : Prop :=
  cls ≠ .metadata ∧ (cls = .privateNetwork → policy.allowPrivateNetwork = true)

theorem passes_of_userinfo {u : List Char} (hu : a.userinfo = some u) :
    classifyHost a.text ≠ .loopback ∧ (Hidden a policy ↔ Passes (classifyHost a.text) policy) := by
  rw [classifyHost_of_userinfo hu]
  refine ⟨prefixClass_ne_loopback _, ?_⟩
  simp only [Hidden, hu]
  unfold prefixClass Passes
  split_ifs with hmetadata hprivate
  · exact iff_of_false (fun h => h.1 hmetadata) (fun h => h.1 rfl)
  · exact ⟨fun h => ⟨by simp, fun _ => h.2 hprivate⟩, fun h => ⟨hmetadata, fun _ => h.2 rfl⟩⟩
  · exact iff_of_true ⟨hmetadata, fun h => absurd h hprivate⟩ ⟨by simp, by simp⟩

theorem host_of_loopback (ok : (ipv6Address "::1".toList).isSome = true ∨
    isIpvFuture "::1".toList = true) :
    (HostText.literal "::1".toList ok).host = .ipv6 [0, 0, 0, 0, 0, 0, 0, 1] := by
  revert ok
  decide

theorem passes_of_literal {t : List Char}
    {ok : (ipv6Address t).isSome = true ∨ isIpvFuture t = true} (hu : a.userinfo = none)
    (hhost : a.host = .literal t ok) (hf : Forbidden a.host.host policy) :
    classifyHost a.text ≠ .loopback ∧ (Hidden a policy ↔ Passes (classifyHost a.text) policy) := by
  have hne : t ≠ "::1".toList := by
    rintro rfl
    rw [hhost, host_of_loopback] at hf
    rcases hf with ⟨_, _, _, _, hv4, _⟩ | ⟨⟨_, _, _, _, hv4, _⟩ | ⟨g, gs, hv6, hr⟩, _⟩
    · cases hv4
    · cases hv4
    · obtain ⟨rfl, -⟩ := List.cons.inj (Host.ipv6.inj hv6)
      omega
  rw [classifyHost_of_literal hu hhost, if_neg hne]
  refine ⟨prefixClass_ne_loopback _, ?_⟩
  rw [hhost, HostText.host] at hf
  split at hf
  · next ks ht =>
      rcases forbidden_cases hf with ⟨w, x, y, z, h4, -⟩ | ⟨g, gs, h6, hg⟩
      · cases h4
      · obtain rfl := Host.ipv6.inj h6
        have hhidden : Hidden a policy ↔ ¬(0xfc00 ≤ g ∧ g ≤ 0xfdff ∨ g = 0xfe80) := by
          simp only [Hidden, hu, hhost]
          refine ⟨fun h => h g gs ht, fun h g' gs' ht' => ?_⟩
          obtain ⟨rfl, -⟩ := List.cons.inj (Option.some.inj (ht.symm.trans ht'))
          exact h
        rw [hhidden, Passes]
        rcases hg with hg | ⟨hg, hallow⟩
        · rw [(prefixClass_ipv6 ht).2 hg]
          exact iff_of_true (by omega) ⟨by simp, by simp⟩
        · rw [(prefixClass_ipv6 ht).1 hg, hallow]
          exact iff_of_false (fun h => h hg) (by simp)
  · rcases forbidden_cases hf with ⟨w, x, y, z, h4, -⟩ | ⟨g, gs, h6, -⟩
    · cases h4
    · cases h6

theorem passes_of_name {n : List Char} {ok : isText isNameChar n = true} (hu : a.userinfo = none)
    (hhost : a.host = .name n ok) (hf : Forbidden a.host.host policy) :
    classifyHost a.text ≠ .loopback ∧ (Hidden a policy ↔ Passes (classifyHost a.text) policy) := by
  obtain ⟨w, x, y, z, hv4, hquad⟩ : ∃ w x y z, ipv4Address n = some (w, x, y, z) ∧
      (classifyQuad w x = .metadata ∨
        classifyQuad w x = .privateNetwork ∧ policy.allowPrivateNetwork = false) := by
    rcases forbidden_cases hf with ⟨w, x, y, z, h4, hquad⟩ | ⟨g, gs, h6, -⟩
    · exact ⟨w, x, y, z, ipv4Address_of_name hhost h4, hquad⟩
    · rw [hhost, HostText.host] at h6
      split at h6 <;> cases h6
  -- as it stands, the address is seen for what it is
  have hread : classifyText n = classifyQuad w x := by
    rw [classifyText_ipv4 hv4, if_neg]
    intro hknown
    rcases ipv4Address_known hv4 hknown with rfl | rfl <;> simp [classifyQuad] at hquad
  have hseen : classifyText n ≠ .loopback ∧ ¬Passes (classifyText n) policy := by
    rw [hread, Passes]
    rcases hquad with hquad | ⟨hquad, hallow⟩
    · simp [hquad]
    · simp [hquad, hallow]
  rw [classifyHost_of_name hu hhost]
  simp only [Hidden, hu, hhost]
  cases hport : a.port with
  | none =>
      rw [nameText, asciiLowercase_ipv4 hv4, trimEndMatches_ipv4 hv4]
      exact ⟨hseen.1, iff_of_false (by simp) hseen.2⟩
  | some p =>
      by_cases hp : PortRead p
      · rw [nameText, if_pos hp, asciiLowercase_ipv4 hv4]
        refine ⟨hseen.1, iff_of_false ?_ hseen.2⟩
        rintro ⟨q, hq, hnot, -⟩
        obtain rfl := Option.some.inj hq
        exact hnot hp
      · rw [classifyText_of_not_portRead ok (a.port_ok p hport) hp]
        refine ⟨prefixClass_ne_loopback _, ?_⟩
        rw [asciiLowercase_ipv4 hv4, prefixClass_ipv4 hv4, Passes]
        split_ifs with hpre
        · refine iff_of_false ?_ fun h => h.1 rfl
          rintro ⟨_, _, _, h⟩
          exact h hpre
        · exact iff_of_true ⟨p, rfl, hp, hpre⟩ ⟨by simp, by simp⟩

/-- **The class of a host that is kept out** passes exactly if the host is hidden, and is never
that of the machine itself. -/
theorem passes_iff_hidden (hf : Forbidden a.host.host policy) :
    classifyHost a.text ≠ .loopback ∧ (Hidden a policy ↔ Passes (classifyHost a.text) policy) := by
  cases hu : a.userinfo with
  | some u => exact passes_of_userinfo hu
  | none =>
      cases hhost : a.host with
      | literal t ok => exact passes_of_literal hu hhost hf
      | name n ok => exact passes_of_name hu hhost hf

end forbidden

/-! ## What is taken for the machine itself -/

/-- **The class of the machine itself** is that of the machine itself and of names that are mistaken
for it. -/
theorem loopback_iff {a : Authority} (hnot : ¬a.host.host.IsLoopback) :
    classifyHost a.text = .loopback ↔ Mistaken a := by
  have hnone (h : ∀ n ok, a.userinfo = none → a.host ≠ .name n ok) : ¬Mistaken a := by
    rintro ⟨hu, -, n, ok, hhost, -⟩
    exact h n ok hu hhost
  cases hu : a.userinfo with
  | some u =>
      rw [classifyHost_of_userinfo hu]
      exact iff_of_false (prefixClass_ne_loopback _) (hnone (by simp [hu]))
  | none =>
      cases hhost : a.host with
      | literal t ok =>
          rw [classifyHost_of_literal hu hhost]
          refine iff_of_false ?_ (hnone (by simp [hhost]))
          split_ifs with ht
          · refine absurd (.inr (.inl ?_)) hnot
            subst ht
            rw [hhost, host_of_loopback]
          · exact prefixClass_ne_loopback _
      | name n ok =>
          rw [classifyHost_of_name hu hhost]
          by_cases hread : ∀ p, a.port = some p → PortRead p
          · have hcolon : ':' ∉ nameText n a.port := by
              have hn : ':' ∉ asciiLowercase n := by
                rw [mem_asciiLowercase (by decide)]
                exact not_mem_of_isText ok (by decide)
              cases hport : a.port with
              | none =>
                  intro hmem
                  exact hn (mem_of_mem_trimEndMatches hmem)
              | some p => rwa [nameText, if_pos (hread p hport)]
            rw [classifyText_eq_loopback_iff hcolon]
            constructor
            · intro h
              exact ⟨hu, hnot, n, ok, hhost, hread, h⟩
            · rintro ⟨-, -, m, ok', hm, -, h⟩
              obtain rfl := HostText.name.inj (hhost.symm.trans hm)
              exact h
          · push Not at hread
            obtain ⟨p, hport, hp⟩ := hread
            rw [hport, classifyText_of_not_portRead ok (a.port_ok p hport) hp]
            refine iff_of_false (prefixClass_ne_loopback _) ?_
            rintro ⟨-, -, m, ok', -, hall, -⟩
            exact hp (hall p hport)

/-! ## The functions -/

theorem splitScheme_text (u : Uri) :
    splitScheme u.text = some (u.scheme, u.authority.text ++ u.rest) := by
  have hfind (s r : List Char) (hs : ':' ∉ s) :
      findSub "://".toList (s ++ "://".toList ++ r) = some (s, "://".toList ++ r) := by
    induction s with
    | nil => simp [findSub]
    | cons c cs ih =>
        obtain ⟨hc, hcs⟩ : ':' ≠ c ∧ ':' ∉ cs := by simpa using hs
        have hpre : "://".toList.isPrefixOf (c :: (cs ++ "://".toList ++ r)) = false := by
          simp [List.isPrefixOf, hc]
        rw [List.cons_append, List.cons_append, findSub, hpre, if_neg Bool.false_ne_true, ih hcs]
        rfl
  rw [splitScheme, Uri.text, List.append_assoc _ u.authority.text, hfind _ _ u.scheme_ok]
  rfl

theorem firstPiece_authority (u : Uri) :
    firstPiece endsAuthority (u.authority.text ++ u.rest) = u.authority.text :=
  u.takeWhile_authority

theorem networkPolicy_eq_ok_iff {scheme : List Char} {cls : NetworkClass} {policy : UrlPolicy} :
    networkPolicy scheme cls policy = .ok () ↔ Passes cls policy ∧
      (scheme = "http".toList → policy.allowPlainHttp = false → cls = .loopback) := by
  unfold networkPolicy Passes
  split_ifs with hmetadata hplain hprivate
  · exact iff_of_false (by simp) fun h => h.1.1 hmetadata
  · exact iff_of_false (by simp) fun h => hplain.2.1 (h.2 hplain.1 hplain.2.2)
  · refine iff_of_false (by simp) fun h => ?_
    rw [h.1.2 hprivate.1] at hprivate
    cases hprivate.2
  · refine iff_of_true rfl ⟨⟨hmetadata, fun hcls => ?_⟩, fun hscheme hallow => ?_⟩
    · by_contra hallow
      exact hprivate ⟨hcls, Bool.eq_false_iff.mpr hallow⟩
    · by_contra hcls
      exact hplain ⟨hscheme, hcls, hallow⟩

/-- **When `validate_url` accepts.** -/
theorem validateUrl_accepts_iff (u : Uri) (policy : UrlPolicy) :
    (∃ r, validateUrl (String.ofList u.text) policy = .ok r) ↔
      (asciiLowercase u.scheme = "http".toList ∨ asciiLowercase u.scheme = "https".toList) ∧
      u.authority.text ≠ [] ∧ Passes (classifyHost u.authority.text) policy ∧
      (asciiLowercase u.scheme = "http".toList → policy.allowPlainHttp = false →
        classifyHost u.authority.text = .loopback) := by
  rw [← networkPolicy_eq_ok_iff, validateUrl, String.toList_ofList, splitScheme_text]
  simp only [firstPiece_authority, List.isEmpty_iff]
  split_ifs with hscheme hempty
  · exact iff_of_false (by simp) fun h => h.1.elim hscheme.1 hscheme.2
  · exact iff_of_false (by simp) fun h => h.2.1 hempty
  · have hscheme : asciiLowercase u.scheme = "http".toList ∨
        asciiLowercase u.scheme = "https".toList := by
      by_contra hnot
      exact hscheme (not_or.mp hnot)
    cases networkPolicy (asciiLowercase u.scheme) (classifyHost u.authority.text) policy with
    | error e => exact iff_of_false (by simp) fun h => by cases h.2.2
    | ok r => exact iff_of_true ⟨_, rfl⟩ ⟨hscheme, hempty, rfl⟩

/-- Where nothing is written, the host is the empty name. -/
theorem host_of_text_nil {a : Authority} (h : a.text = []) : a.host.host = .name [] := by
  have hhost : a.host.text = [] := by
    rw [Authority.text] at h
    exact (List.append_eq_nil_iff.mp (List.append_eq_nil_iff.mp h).1).2
  cases hh : a.host with
  | literal t ok =>
      rw [hh] at hhost
      cases hhost
  | name n ok =>
      rw [hh] at hhost
      obtain rfl : n = [] := hhost
      rfl

/-- **`validate_url` is sound on a URI exactly if it sees the host.** -/
theorem urlSound_iff (u : Uri) (policy : UrlPolicy) :
    UrlSound u policy ↔
      (asciiLowercase u.scheme = "https".toList ∨
          asciiLowercase u.scheme = "http".toList ∧ policy.allowPlainHttp = true →
        Forbidden (hostOf u) policy → ¬Hidden u.authority policy) ∧
      (asciiLowercase u.scheme = "http".toList → policy.allowPlainHttp = false →
        ¬Mistaken u.authority) := by
  have haccept := validateUrl_accepts_iff u policy
  constructor
  · intro hsound
    refine ⟨fun hscheme hf hhidden => ?_, fun hscheme hplain hmistaken => ?_⟩
    · have hwritten : u.authority.text ≠ [] := by
        intro htext
        rw [hostOf, host_of_text_nil htext] at hf
        rcases forbidden_cases hf with ⟨_, _, _, _, h, -⟩ | ⟨_, _, h, -⟩ <;> cases h
      have hnotPlain : asciiLowercase u.scheme = "http".toList → policy.allowPlainHttp = false →
          classifyHost u.authority.text = .loopback := by
        intro hhttp hplain
        rcases hscheme with hhttps | ⟨-, hplain'⟩
        · rw [hhttps] at hhttp
          simp at hhttp
        · rw [hplain] at hplain'
          cases hplain'
      obtain ⟨r, hr⟩ := haccept.mpr ⟨hscheme.symm.imp And.left id, hwritten,
        (passes_iff_hidden hf).2.mp hhidden, hnotPlain⟩
      obtain ⟨hlocal, hprivate, -⟩ := hsound r hr
      rcases hf with h | ⟨h, hallow⟩
      · exact hlocal h
      · rw [hprivate h] at hallow
        cases hallow
    · have hnot := hmistaken.2.1
      have hclass := (loopback_iff hnot).mpr hmistaken
      have hwritten : u.authority.text ≠ [] := by
        intro htext
        rw [htext] at hclass
        exact absurd hclass (by decide)
      have hpasses : Passes (classifyHost u.authority.text) policy := by
        rw [hclass]
        exact ⟨by simp, by simp⟩
      obtain ⟨r, hr⟩ := haccept.mpr ⟨.inl hscheme, hwritten, hpasses, fun _ _ => hclass⟩
      exact hnot ((hsound r hr).2.2 hscheme hplain)
  · rintro ⟨hseen, hloop⟩ r hr
    obtain ⟨hscheme, -, hpasses, hplainText⟩ := haccept.mp ⟨r, hr⟩
    have hforbidden : ¬Forbidden (hostOf u) policy := by
      intro hf
      obtain ⟨hnot, hhidden⟩ := passes_iff_hidden hf
      refine hseen ?_ hf (hhidden.mpr hpasses)
      rcases hscheme with hhttp | hhttps
      · refine .inr ⟨hhttp, ?_⟩
        by_contra hplain
        exact hnot (hplainText hhttp (Bool.eq_false_iff.mpr hplain))
      · exact .inl hhttps
    refine ⟨fun h => hforbidden (.inl h), fun h => ?_, fun hhttp hplain => ?_⟩
    · by_contra hallow
      exact hforbidden (.inr ⟨h, Bool.eq_false_iff.mpr hallow⟩)
    · by_contra hnot
      exact hloop hhttp hplain ((loopback_iff hnot).mp (hplainText hhttp hplain))

/-! ## What begins like the machine itself -/

/-- The beginnings that are asked for. -/
def BeginsLikeLoopback (s : List Char) : Prop :=
  "127.0.0.1".toList.isPrefixOf s = true ∨ "localhost".toList.isPrefixOf s = true

theorem beginsLikeLoopback_append_cons {c : Char}
    (hc : c ∉ "127.0.0.1".toList ∧ c ∉ "localhost".toList) (a b : List Char) :
    BeginsLikeLoopback (a ++ c :: b) ↔ BeginsLikeLoopback a := by
  rw [BeginsLikeLoopback, isPrefixOf_append_cons hc.1, isPrefixOf_append_cons hc.2]
  rfl

theorem digitsValue_ge (digits : List Char) (n : ℕ) :
    n * 10 ^ digits.length ≤
      digits.foldl (fun n c => 10 * n + (c.toNat - 48)) n := by
  induction digits generalizing n with
  | nil => simp
  | cons c cs ih =>
      refine le_trans ?_ (ih _)
      rw [List.length_cons, Nat.pow_succ, ← Nat.mul_assoc, Nat.mul_right_comm]
      exact Nat.mul_le_mul_right _ (by
        show n * 10 ≤ 10 * n + (c.toNat - 48)
        omega)

/-- The numbers of an address that begin with a one. -/
theorem isSome_decOctet_one_iff (more : List Char) :
    (decOctet ('1' :: more)).isSome = true ↔ more.length ≤ 2 ∧ more.all Char.isDigit = true := by
  constructor
  · intro h
    obtain ⟨v, hv⟩ := Option.isSome_iff_exists.mp h
    obtain ⟨-, hdigits, hvalue, hle⟩ := decOctet_eq_some hv
    have hmore : more.all Char.isDigit = true := by simpa using hdigits
    refine ⟨?_, hmore⟩
    have hge := digitsValue_ge more 1
    have hfold : digitsValue ('1' :: more) =
        more.foldl (fun n c => 10 * n + (c.toNat - 48)) 1 := rfl
    by_contra hlen
    have hpow : 10 ^ 3 ≤ 10 ^ more.length := Nat.pow_le_pow_right (by omega) (by omega)
    omega
  · rintro ⟨hlen, hmore⟩
    have hdigit {c : Char} (hc : c.isDigit = true) : c.toNat ≤ 57 :=
      (Char.isDigit_iff_toNat.mp hc).2
    have hle : digitsValue ('1' :: more) ≤ 255 := by
      rcases more with _ | ⟨x, _ | ⟨y, _ | ⟨z, rest⟩⟩⟩
      · decide
      · have hx : x.isDigit = true := by simpa using hmore
        have := hdigit hx
        show 10 * (10 * 0 + (49 - 48)) + (x.toNat - 48) ≤ 255
        omega
      · obtain ⟨hx, hy⟩ : x.isDigit = true ∧ y.isDigit = true := by simpa using hmore
        have hx := hdigit hx
        have hy := hdigit hy
        show 10 * (10 * (10 * 0 + (49 - 48)) + (x.toNat - 48)) + (y.toNat - 48) ≤ 255
        omega
      · simp at hlen
    have hall : ('1' :: more).all Char.isDigit = true := by
      rw [List.all_cons, hmore]
      rfl
    rw [decOctet, if_pos ⟨by simp, hall, by simp, hle⟩]
    rfl

/-- The addresses that begin with `127.0.0.1`. -/
theorem isSome_ipv4Address_iff (more : List Char) :
    (ipv4Address ("127.0.0.1".toList ++ more)).isSome = true ↔
      more.length ≤ 2 ∧ more.all Char.isDigit = true := by
  have hsplit : ("127.0.0.1".toList ++ more).splitOn '.' =
      ["127".toList, "0".toList, "0".toList] ++ ('1' :: more).splitOn '.' := by
    rw [show "127.0.0.1".toList ++ more = "127".toList ++ '.' :: ("0".toList ++ '.' ::
      ("0".toList ++ '.' :: ('1' :: more))) from rfl, List.splitOn_append_cons_self,
      List.splitOn_append_cons_self, List.splitOn_append_cons_self]
    rfl
  rw [← isSome_decOctet_one_iff]
  unfold ipv4Address
  rw [hsplit, List.map_append]
  obtain ⟨q, qs, hqs⟩ := List.exists_cons_of_ne_nil (List.splitOn_ne_nil '.' ('1' :: more))
  rw [hqs]
  have h127 : decOctet "127".toList = some 127 := by decide
  have h0 : decOctet "0".toList = some 0 := by decide
  rcases qs with _ | ⟨r, rs⟩
  · obtain rfl := eq_of_splitOn_singleton hqs
    cases hd : decOctet ('1' :: more) <;> simp only [List.map_cons, List.map_nil, h127, h0, hd,
      List.cons_append, List.nil_append, Option.isSome_some, Option.isSome_none]
  · have hnone : decOctet ('1' :: more) = none := by
      by_contra hsome
      obtain ⟨v, hv⟩ := Option.ne_none_iff_exists'.mp hsome
      refine dot_not_mem_of_decOctet hv ?_
      rw [eq_of_splitOn_cons hqs]
      simp
    rw [hnone]
    simp only [List.map_cons, List.map_nil, h127, h0, List.cons_append, List.nil_append]
    cases decOctet q <;> rfl

/-- What begins with the name of the machine itself is the machine itself if nothing follows, or
the dot of the root. -/
theorem isLoopback_localhost_iff {more : List Char}
    {ok : isText isNameChar ("localhost".toList ++ more) = true} :
    (HostText.name _ ok).host.IsLoopback ↔ more = [] ∨ more = ['.'] := by
  have hnone : ipv4Address ("localhost".toList ++ more) = none := by
    by_contra hsome
    rcases mem_ipv4Address (Option.isSome_iff_ne_none.mpr hsome) (c := 'l') (by simp) with h | h
    · cases h
    · cases h
  rw [HostText.host, hnone]
  have hlower : ("localhost".toList ++ more).map Char.toLower =
      "localhost".toList ++ more.map Char.toLower := by
    rw [List.map_append]
    rfl
  constructor
  · rintro (⟨_, _, _, _, hv4, -⟩ | h | ⟨t, ht, h⟩)
    · cases hv4
    · cases h
    · obtain rfl := Host.name.inj ht
      rw [hlower] at h
      rcases h with h | h
      · left
        have hmore : "localhost".toList ++ more.map Char.toLower = "localhost".toList ++ [] := h
        simpa using List.append_cancel_left hmore
      · right
        have hmore : "localhost".toList ++ more.map Char.toLower = "localhost".toList ++ ['.'] := h
        obtain ⟨c, rfl, hc⟩ := List.map_eq_singleton_iff.mp (List.append_cancel_left hmore)
        rw [(toLower_eq_iff (by decide)).mp hc]
  · rintro (rfl | rfl)
    · exact .inr (.inr ⟨_, rfl, .inl rfl⟩)
    · exact .inr (.inr ⟨_, rfl, .inr rfl⟩)

/-- What begins with the address of the machine itself is the machine itself if it is an address. -/
theorem isLoopback_address_iff {more : List Char}
    {ok : isText isNameChar ("127.0.0.1".toList ++ more) = true} :
    (HostText.name _ ok).host.IsLoopback ↔ more.length ≤ 2 ∧ more.all Char.isDigit = true := by
  rw [← isSome_ipv4Address_iff, HostText.host]
  cases hv4 : ipv4Address ("127.0.0.1".toList ++ more) with
  | none =>
      refine iff_of_false ?_ (by simp)
      rintro (⟨_, _, _, _, h, -⟩ | h | ⟨t, ht, h⟩)
      · cases h
      · cases h
      · obtain rfl := Host.name.inj ht
        rcases h with h | h <;> cases h
  | some q =>
      obtain ⟨a, b, c, d⟩ := q
      refine iff_of_true (.inl ⟨a, b, c, d, rfl, .inl ?_⟩) rfl
      obtain ⟨pa, pb, pc, pd, heq, ha, -⟩ := eq_of_ipv4Address hv4
      have heq : "127".toList ++ '.' :: ("0.0.1".toList ++ more) =
          pa ++ '.' :: (pb ++ '.' :: (pc ++ '.' :: pd)) := heq
      obtain ⟨rfl, -⟩ := append_cons_inj (by decide) (dot_not_mem_of_decOctet ha) heq
      have h127 : decOctet "127".toList = some 127 := by decide
      exact Option.some.inj (ha.symm.trans h127)

/-- **A decoy** begins like the machine itself and is another. -/
theorem decoy_iff (a : Authority) :
    Decoy a ↔ BeginsLikeLoopback a.text ∧ ¬a.host.host.IsLoopback := by
  cases hu : a.userinfo with
  | some u =>
      have htext : a.text = u ++ '@' :: (a.host.text ++ a.port.elim [] fun p => ':' :: p) := by
        rw [Authority.text, hu]
        simp
      rw [htext, beginsLikeLoopback_append_cons (by decide)]
      simp only [Decoy, hu]
      rfl
  | none =>
      have htext : a.text = a.host.text ++ a.port.elim [] fun p => ':' :: p := by
        rw [Authority.text, hu]
        simp
      cases hhost : a.host with
      | literal t ok =>
          simp only [Decoy, hu, hhost, false_iff]
          rintro ⟨hbegins, -⟩
          rw [htext, hhost] at hbegins
          rcases hbegins with h | h <;> cases h
      | name n ok =>
          have hbegins : BeginsLikeLoopback a.text ↔ BeginsLikeLoopback n := by
            rw [htext, hhost]
            cases a.port with
            | none => simp [HostText.text]
            | some p => exact beginsLikeLoopback_append_cons (by decide) n p
          rw [hbegins]
          simp only [Decoy, hu, hhost]
          constructor
          · rintro (⟨more, rfl, hne, hdot⟩ | ⟨more, rfl, hmore⟩)
            · exact ⟨.inr (List.isPrefixOf_iff_prefix.mpr (List.prefix_append _ _)), fun h =>
                (isLoopback_localhost_iff.mp h).elim hne hdot⟩
            · exact ⟨.inl (List.isPrefixOf_iff_prefix.mpr (List.prefix_append _ _)), fun h =>
                hmore (isLoopback_address_iff.mp h)⟩
          · rintro ⟨h | h, hnot⟩
            · obtain ⟨more, rfl⟩ := List.isPrefixOf_iff_prefix.mp h
              exact .inr ⟨more, rfl, fun hmore => hnot (isLoopback_address_iff.mpr hmore)⟩
            · obtain ⟨more, rfl⟩ := List.isPrefixOf_iff_prefix.mp h
              exact .inl ⟨more, rfl, fun hnil => hnot (isLoopback_localhost_iff.mpr (.inl hnil)),
                fun hdot => hnot (isLoopback_localhost_iff.mpr (.inr hdot))⟩

/-- The address in brackets that is asked for is the machine itself. -/
theorem isLoopback_of_bracket {a : Authority}
    (h : "[::1]".toList.isPrefixOf a.text = true) : a.host.host.IsLoopback := by
  obtain ⟨m, hm⟩ := List.isPrefixOf_iff_prefix.mp h
  have hfirst : a.text = '[' :: ("::1".toList ++ ']' :: m) := hm.symm
  rw [Authority.text] at hfirst
  cases hu : a.userinfo with
  | some u =>
      have hnot : '[' ∉ u := not_mem_of_isText (a.userinfo_ok u hu) (by decide)
      rw [hu] at hfirst
      rcases u with _ | ⟨c, cs⟩
      · cases hfirst
      · obtain rfl : c = '[' := (List.cons.inj hfirst).1
        simp at hnot
  | none =>
      rw [hu] at hfirst
      cases hhost : a.host with
      | name n ok =>
          have hnot : '[' ∉ n := not_mem_of_isText ok (by decide)
          rw [hhost] at hfirst
          rcases n with _ | ⟨c, cs⟩
          · cases hport : a.port with
            | none =>
                rw [hport] at hfirst
                cases hfirst
            | some p =>
                rw [hport] at hfirst
                cases hfirst
          · obtain rfl : c = '[' := (List.cons.inj hfirst).1
            simp at hnot
      | literal t ok =>
          rw [hhost] at hfirst
          have hfirst : t ++ ']' :: (a.port.elim [] fun p => ':' :: p) =
              "::1".toList ++ ']' :: m := by
            simpa [HostText.text] using hfirst
          obtain ⟨rfl, -⟩ := append_cons_inj (bracket_not_mem_literal ok) (by decide) hfirst
          rw [host_of_loopback]
          exact .inr (.inl rfl)

/-- **When `validate_token_endpoint` accepts.** -/
theorem validateTokenEndpoint_eq_ok_iff (u : Uri) :
    validateTokenEndpoint (String.ofList u.text) = .ok () ↔
      asciiLowercase u.scheme = "https".toList ∨ asciiLowercase u.scheme = "http".toList ∧
        (BeginsLikeLoopback u.authority.text ∨
          "[::1]".toList.isPrefixOf u.authority.text = true) := by
  rw [validateTokenEndpoint, String.toList_ofList, splitScheme_text, BeginsLikeLoopback]
  simp only [firstPiece_authority, Bool.or_eq_true]
  split_ifs with hhttps hhttp
  · exact iff_of_true rfl (.inl hhttps)
  · exact iff_of_true rfl (.inr hhttp)
  · exact iff_of_false (by simp) fun h => h.elim hhttps hhttp

/-- **`validate_token_endpoint` is sound on a URI exactly if it is no decoy.** -/
theorem tokenSound_iff (u : Uri) :
    TokenSound u ↔ (asciiLowercase u.scheme = "http".toList → ¬Decoy u.authority) := by
  rw [TokenSound, validateTokenEndpoint_eq_ok_iff, decoy_iff]
  constructor
  · rintro hsound hhttp ⟨hbegins, hnot⟩
    exact hnot (hsound (.inr ⟨hhttp, .inl hbegins⟩) hhttp)
  · intro hdecoy haccepted hhttp
    rcases haccepted with hhttps | ⟨-, hbegins | hbracket⟩
    · rw [hhttps] at hhttp
      simp at hhttp
    · by_contra hnot
      exact hdecoy hhttp ⟨hbegins, hnot⟩
    · exact isLoopback_of_bracket hbracket

/-- **The redirect URIs that are allowed** have the scheme as it stands and begin like the machine
itself. -/
theorem redirectAllowed_iff (u : Uri) :
    redirectAllowed (String.ofList u.text) = true ↔
      u.scheme = "http".toList ∧ BeginsLikeLoopback u.authority.text := by
  have hrest {pre : List Char} (hpre : ∀ c ∈ pre, endsAuthorityPart c = false) :
      pre.isPrefixOf (u.authority.text ++ u.rest) = pre.isPrefixOf u.authority.text := by
    have hend := u.rest_ok
    rcases hr : u.rest with _ | ⟨c, cs⟩
    · rw [List.append_nil]
    · rw [hr] at hend
      refine isPrefixOf_append_cons (fun hc => ?_) _ _
      have hfalse := hpre c hc
      rw [hend c rfl] at hfalse
      cases hfalse
  have hpart (pre : List Char) (hpre : ∀ c ∈ pre, endsAuthorityPart c = false) :
      ("http://".toList ++ pre).isPrefixOf u.text = true ↔
        u.scheme = "http".toList ∧ pre.isPrefixOf u.authority.text = true := by
    rw [← hrest hpre, List.isPrefixOf_iff_prefix, List.isPrefixOf_iff_prefix]
    have htext : u.text = u.scheme ++ ':' :: ("//".toList ++ (u.authority.text ++ u.rest)) := by
      simp [Uri.text]
    constructor
    · rintro ⟨m, hm⟩
      have hm : "http".toList ++ ':' :: ("//".toList ++ (pre ++ m)) = u.text := by
        rw [← hm]
        simp
      obtain ⟨hscheme, hafter⟩ := append_cons_inj (by decide) u.scheme_ok (hm.trans htext)
      exact ⟨hscheme.symm, m, List.append_cancel_left hafter⟩
    · rintro ⟨hscheme, m, hm⟩
      refine ⟨m, ?_⟩
      rw [htext, hscheme, ← hm]
      simp
  have haddress := hpart "127.0.0.1".toList (by simp [endsAuthorityPart])
  have hname := hpart "localhost".toList (by simp [endsAuthorityPart])
  have htext : (String.ofList u.text).toList = u.text := String.toList_ofList
  rw [redirectAllowed, htext, Bool.or_eq_true, BeginsLikeLoopback, and_or_left]
  exact or_congr haddress hname

/-- **`begin_authorization` is sound on a URI exactly if it is no decoy.** -/
theorem redirectSound_iff (u : Uri) :
    RedirectSound u ↔ (u.scheme = "http".toList → ¬Decoy u.authority) := by
  rw [decoy_iff]
  constructor
  · rintro hsound hhttp ⟨hbegins, hnot⟩
    have hallowed := (redirectAllowed_iff u).mpr ⟨hhttp, hbegins⟩
    obtain ⟨r, hr⟩ : ∃ r,
        beginAuthorization id 0 [] [] "" "" (String.ofList u.text) [] = .ok r := by
      rw [beginAuthorization, hallowed]
      exact ⟨_, rfl⟩
    exact hnot (hsound id 0 [] [] "" "" [] r hr)
  · intro hdecoy sha256 processId stateBytes verifierBytes endpoint clientId scopes r hr
    have hallowed : redirectAllowed (String.ofList u.text) = true := by
      by_contra hnot
      rw [beginAuthorization, Bool.eq_false_iff.mpr hnot] at hr
      cases hr
    obtain ⟨hhttp, hbegins⟩ := (redirectAllowed_iff u).mp hallowed
    by_contra hnot
    exact hdecoy hhttp ⟨hbegins, hnot⟩

/-- **The three functions are sound exactly on the URLs whose host they see.** -/
theorem admissionSound_iff (url : String) (policy : UrlPolicy) :
    AdmissionSound url policy ↔ ∀ u : Uri, String.ofList u.text = url → Seen u policy := by
  refine forall_congr' fun u => imp_congr_right fun _ => ?_
  rw [urlSound_iff, tokenSound_iff, redirectSound_iff]
  constructor
  · rintro ⟨⟨hforbidden, hloopback⟩, htoken, -⟩
    exact ⟨hforbidden, hloopback, htoken⟩
  · intro h
    refine ⟨⟨h.forbidden, h.loopback⟩, h.token, fun hhttp => h.token ?_⟩
    rw [hhttp]
    rfl

/-! ## URLs that are not seen -/

/-- The service for metadata, behind a user information. -/
def metadataBehindUser : Uri where
  scheme := "https".toList
  authority := ⟨some "a".toList, .name "169.254.169.254".toList (by decide), none,
    fun _ h => Option.some.inj h ▸ by decide, by simp⟩
  rest := "/latest".toList
  scheme_ok := by decide
  rest_ok := by simp; rfl

/-- A private address that is mapped into IPv6. -/
def mappedPrivate : Uri where
  scheme := "https".toList
  authority := ⟨none, .literal "::ffff:10.0.0.1".toList (.inl (by decide)), none, by simp, by simp⟩
  rest := "/".toList
  scheme_ok := by decide
  rest_ok := by simp; rfl

/-- A name that begins like the one of the machine itself. -/
def namedDecoy : Uri where
  scheme := "http".toList
  authority := ⟨none, .name "localhost.evil.example".toList (by decide), none, by simp, by simp⟩
  rest := "/token".toList
  scheme_ok := by decide
  rest_ok := by simp; rfl

/-- **URLs are admitted that should not be**: the service for metadata behind a user information, a
private address mapped into IPv6, and a plain token endpoint and redirect URI elsewhere. -/
theorem not_admissionSound :
    ¬AdmissionSound "https://a@169.254.169.254/latest" ⟨false, false⟩ ∧
    ¬AdmissionSound "https://[::ffff:10.0.0.1]/" ⟨false, false⟩ ∧
    ¬AdmissionSound "http://localhost.evil.example/token" ⟨false, false⟩ := by
  refine ⟨fun h => ?_, fun h => ?_, fun h => ?_⟩
  · exact ((h metadataBehindUser (by decide)).1 _ (by rfl)).1 ⟨169, 254, 169, 254, by decide⟩
  · have hallow := ((h mappedPrivate (by decide)).1 _ (by rfl)).2.1
      (.inl ⟨10, 0, 0, 1, by decide, .inl rfl⟩)
    cases hallow
  · have hdecoy : Decoy namedDecoy.authority := Or.inl ⟨".evil.example".toList, by decide⟩
    exact ((decoy_iff _).mp hdecoy).2 ((h namedDecoy (by decide)).2.1 (by rfl) (by decide))

end AuraLauncher.Mcp
