import AuraLauncher.Domain.Names

/-!
# The identity of an application

What a discovery source reports of an application, and the one text by which reports from several
sources are recognized as the same application, modelled from
`launcher-providers/src/app_identity.rs`.

* `ApplicationObservation` — one report; nothing in it is trusted.
* `canonicalIdentity` — the first of five tiers for which the report has the evidence.

The final extension of a Windows path is a parameter; nothing here depends on how it is found.
-/

namespace AuraLauncher.Providers

open AuraLauncher.Domain

/-- Source: `app_identity.rs`, `ApplicationObservation`. -/
structure ApplicationObservation where
  sourceId : String
  sourceKind : String
  identityHint : String
  displayName : String
  launchTarget : Option String
  packageIdentity : Option String
  aumid : Option String
  appPath : Option String
  observedAt : ℤ
deriving DecidableEq, Repr

/-- What `app_identity.rs` uses of the standard library and of the file names of Windows. -/
structure IdentityStd where
  std : RustStd
  /-- `Path::extension` on Windows. -/
  extension : String → Option String

/-- Names without anything but letters, digits, dots and backslashes, as they are read on
Windows. -/
def IdentityStd.plain : IdentityStd where
  std := .ascii
  extension path :=
    let name := (path.toList.reverse.takeWhile (· != '\\')).reverse
    let ext := (name.reverse.takeWhile (· != '.')).reverse
    if ext.length + 1 < name.length then some (String.ofList ext) else none

variable (S : IdentityStd)

/-- Source: `str::to_lowercase`. -/
def IdentityStd.lower (s : String) : String := String.ofList (s.toList.flatMap S.std.toLowercase)

/-- Source: `app_identity.rs`, `non_empty`. -/
def nonEmpty (s : Option String) : Option String :=
  (s.map fun s => String.ofList (trim s.toList)).filter fun s => !s.isEmpty

/-- Source: `app_identity.rs`, `is_exe` (with `eq_ignore_ascii_case`). -/
def isExe (path : String) : Bool :=
  (S.extension path).any fun e => e.toLower == "exe" || e.toLower == "lnk"

/-- The key under which reports are merged. Source: `app_identity.rs`, `canonical_identity`. -/
def canonicalIdentity (obs : ApplicationObservation) : String :=
  match nonEmpty obs.packageIdentity with
  | some pkg => "pkg:" ++ S.lower pkg
  | none =>
      match nonEmpty obs.aumid with
      | some aumid => "aumid:" ++ S.lower aumid
      | none =>
          match (nonEmpty obs.launchTarget).filter (isExe S) with
          | some target => "win32:" ++ normalizePathIdentity S.std target
          | none =>
              match nonEmpty obs.appPath with
              | some appPath => "apppath:" ++ normalizePathIdentity S.std appPath
              | none => "src:" ++ obs.sourceKind ++ ":" ++ obs.identityHint

end AuraLauncher.Providers
