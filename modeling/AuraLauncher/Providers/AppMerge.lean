import AuraLauncher.Lib.Firsts
import AuraLauncher.Lib.MergeBy
import AuraLauncher.Providers.AppIdentity
import Mathlib.Data.List.TakeWhile

/-!
# The merge of the applications

`launcher-providers/src/app_registry.rs`: the records of one application, from several sources,
become one entry, which keeps the sources. Exact duplicates are dropped with all their sources, and
an entry that another absorbs gives it its own source but not those that it had absorbed.

* `fromEntries` — the duplicates are dropped (`dedup`), and the records of an executable are merged
  (`mergeByExecutable`).
* `foldl_absorb_stays`, `foldl_absorb_lead` — what the records of an executable become.
* `recorded`, `lost` — the sources that their entry has, and those it does not take over.
* `KeepsSources` — an executable has one entry, of the start menu if a record is, with the sources
  of all its records.
* `keepsSources_iff` — when the merge keeps to it.
* `not_keepsSources_replaced` — an entry that a record of the start menu replaces.

A path is its text.
-/

namespace AuraLauncher.Providers

open AuraLauncher.Domain AuraLauncher.Lib

/-! ## The entries -/

/-- Source: `app_registry.rs`, `MAX_APPS`. -/
def maxApps : ℕ := 5000

/-- Source: `app_registry.rs`, `AppEntry`. -/
structure AppEntry where
  name : String
  path : String
  resolvedTarget : Option String
  /-- The sources of the records that became part of this one. -/
  mergedSources : List String
  source : String
deriving DecidableEq, Repr

/-- The sources of an entry, its own first. -/
def AppEntry.sources (e : AppEntry) : List String := e.source :: e.mergedSources

/-- The entry with more sources. -/
def AppEntry.pushAll (e : AppEntry) (sources : List String) : AppEntry :=
  { e with mergedSources := e.mergedSources ++ sources }

/-- The entry with one more source. -/
def AppEntry.push (e : AppEntry) (source : String) : AppEntry := e.pushAll [source]

/-- Source: `app_registry.rs`, `AppRegistryProvider`. -/
structure AppRegistryProvider where
  entries : List AppEntry
deriving DecidableEq, Repr

variable (S : IdentityStd)

/-- Source: `app_registry.rs`, `executable_identity`. -/
def executableIdentity (resolvedTarget : Option String) : Option String :=
  resolvedTarget.bind fun t =>
    if ".exe".toList.isSuffixOf (S.lower t).toList then some (normalizePathIdentity S.std t)
    else none

/-- The key under which an entry is merged. -/
def AppEntry.identity (e : AppEntry) : Option String := executableIdentity S e.resolvedTarget

/-- What exact duplicates have in common. Source: `app_registry.rs`, `dedup`. -/
def entryKey (e : AppEntry) : String × String := (S.lower e.name, S.lower e.path)

/-- Source: `app_registry.rs`, `dedup`. -/
def dedup (entries : List AppEntry) : List AppEntry := firstsBy (entryKey S) entries

/-- The entry that is kept of two of one executable. Source: `app_registry.rs`,
`merge_by_executable`, the arms for an identity that has an entry. -/
def absorb (kept e : AppEntry) : AppEntry :=
  if kept.source = "start-menu" then kept.push e.source
  else if e.source = "start-menu" then e.push kept.source
  else kept.push e.source

/-- The map of the source has for each identity the place of its entry. Source: `app_registry.rs`,
`merge_by_executable`. -/
def mergeByExecutable (entries : List AppEntry) : List AppEntry :=
  mergeBy (AppEntry.identity S) absorb entries

/-- Source: `app_registry.rs`, `AppRegistryProvider::from_entries`. -/
def fromEntries (entries : List AppEntry) : AppRegistryProvider :=
  ⟨(mergeByExecutable S (dedup S entries)).take maxApps⟩

/-! ## The entries of the catalog -/

/-- Source: `catalog.rs`, `CatalogLifecycle`. -/
inductive CatalogLifecycle
  | ready
  | stale
  | broken
deriving DecidableEq, Repr

/-- A row of the catalog, with what the provider reads of it. Source: `catalog.rs`,
`CatalogRecord`. -/
structure CatalogRecord where
  displayName : String
  source : String
  launchPath : String
  lifecycle : CatalogLifecycle
  sources : List String
  entryPath : String
deriving DecidableEq, Repr

/-- Source: `app_registry.rs`, `source_static`. -/
def sourceStatic (s : String) : String :=
  if s ∈ ["start-menu", "uninstall", "packaged", "app-paths", "portable"] then s else "catalog"

/-- Source: `app_registry.rs`, `is_exe_path` (with `eq_ignore_ascii_case`). -/
def isExePath (path : String) : Bool := (S.extension path).any fun e => e.toLower == "exe"

/-- The entry of a row. Source: `app_registry.rs`, `from_catalog_records`. -/
def CatalogRecord.entry (r : CatalogRecord) : AppEntry where
  name := r.displayName
  path := r.entryPath
  resolvedTarget := if isExePath S r.launchPath then some r.launchPath else none
  mergedSources := r.sources.map sourceStatic
  source := sourceStatic r.source

/-- Source: `app_registry.rs`, `AppRegistryProvider::from_catalog_records`. -/
def fromCatalogRecords (records : List CatalogRecord) : AppRegistryProvider :=
  fromEntries S ((records.filter fun r => r.lifecycle == .ready).map (CatalogRecord.entry S))

/-! ## The records of one executable -/

section absorb

variable {first o e : AppEntry} {rest : List AppEntry}

@[simp] theorem AppEntry.sources_pushAll (e : AppEntry) (sources : List String) :
    (e.pushAll sources).sources = e.sources ++ sources := rfl

@[simp] theorem AppEntry.identity_push (e : AppEntry) (source : String) :
    (e.push source).identity S = e.identity S := rfl

@[simp] theorem AppEntry.pushAll_nil (e : AppEntry) : e.pushAll [] = e := by
  simp [AppEntry.pushAll]

theorem AppEntry.pushAll_push (e : AppEntry) (source : String) (sources : List String) :
    (e.push source).pushAll sources = e.pushAll (source :: sources) := by
  simp [AppEntry.push, AppEntry.pushAll]

/-- What two entries of an executable become is an entry of it. -/
theorem identity_absorb (o e : AppEntry) (h : o.identity S = e.identity S) :
    (absorb o e).identity S = e.identity S := by
  unfold absorb
  split_ifs <;> simp [h]

theorem absorb_of_startMenu (h : o.source = "start-menu") : absorb o e = o.push e.source :=
  if_pos h

theorem absorb_of_other (h : e.source ≠ "start-menu") : absorb o e = o.push e.source := by
  unfold absorb
  rw [if_neg h, ite_self]

theorem absorb_of_replaced (ho : o.source ≠ "start-menu") (he : e.source = "start-menu") :
    absorb o e = e.push o.source := by
  rw [absorb, if_neg ho, if_pos he]

/-- An entry stays if it is of the start menu, or none that comes is, and takes the sources. -/
theorem foldl_absorb_stays (h : o.source = "start-menu" ∨ ∀ e ∈ rest, e.source ≠ "start-menu") :
    rest.foldl absorb o = o.pushAll (rest.map AppEntry.source) := by
  induction rest generalizing o with
  | nil => exact o.pushAll_nil.symm
  | cons e rest ih =>
      have hpush : absorb o e = o.push e.source :=
        h.elim absorb_of_startMenu fun hnone => absorb_of_other (hnone e List.mem_cons_self)
      have hrest : (o.push e.source).source = "start-menu" ∨
          ∀ e' ∈ rest, e'.source ≠ "start-menu" :=
        h.imp_right fun hnone e' he' => hnone e' (List.mem_cons_of_mem e he')
      rw [List.foldl_cons, hpush, ih hrest, AppEntry.pushAll_push, List.map_cons]

/-- The first record of the start menu replaces an entry that is not, and takes its own source. -/
theorem foldl_absorb_lead {before after : List AppEntry} {lead : AppEntry}
    (hfirst : first.source ≠ "start-menu") (hbefore : ∀ e ∈ before, e.source ≠ "start-menu")
    (hlead : lead.source = "start-menu") :
    (before ++ lead :: after).foldl absorb first =
      lead.pushAll (first.source :: after.map AppEntry.source) := by
  have hlast : absorb (first.pushAll (before.map AppEntry.source)) lead =
      lead.push first.source := absorb_of_replaced hfirst hlead
  rw [List.foldl_append, List.foldl_cons, foldl_absorb_stays (.inr hbefore), hlast,
    foldl_absorb_stays (o := lead.push first.source) (.inl hlead), AppEntry.pushAll_push]

end absorb

/-! ## The sources that are recorded -/

/-- Whether an entry is not of the start menu. -/
def isWeaker (e : AppEntry) : Bool := e.source != "start-menu"

/-- The sources that the entry of an executable has: those of the first record of the start menu,
the own source of the first record of all, and the own sources of the records that come later. -/
def recorded (first : AppEntry) (rest : List AppEntry) : List String :=
  match (first :: rest).dropWhile isWeaker with
  | [] => first.sources ++ rest.map AppEntry.source
  | lead :: after => lead.sources ++ first.source :: after.map AppEntry.source

/-- The sources that are not taken over: those of the records before the first of the start menu,
and what the records after it had merged. -/
def lost (first : AppEntry) (rest : List AppEntry) : List String :=
  match (first :: rest).dropWhile isWeaker with
  | [] => rest.flatMap AppEntry.mergedSources
  | _ :: after => ((first :: rest).takeWhile isWeaker).flatMap AppEntry.sources ++
      after.flatMap AppEntry.mergedSources

section recorded

variable {first : AppEntry} {rest : List AppEntry} {s : String}

/-- No record is of the start menu, or there is a first one that is. -/
theorem weaker_or_lead (l : List AppEntry) :
    (∀ e ∈ l, e.source ≠ "start-menu") ∧ l.dropWhile isWeaker = [] ∨
      ∃ lead after, lead.source = "start-menu" ∧ l.dropWhile isWeaker = lead :: after ∧
        l = l.takeWhile isWeaker ++ lead :: after := by
  cases hdrop : l.dropWhile isWeaker with
  | nil =>
      refine .inl ⟨fun e he => ?_, rfl⟩
      have hweaker := List.dropWhile_eq_nil_iff.mp hdrop e he
      simpa [isWeaker] using hweaker
  | cons lead after =>
      refine .inr ⟨lead, after, ?_, rfl, ?_⟩
      · have hlead : isWeaker ((l.dropWhile isWeaker).head (by simp [hdrop])) = false :=
          List.head_dropWhile_not isWeaker _
        simpa [hdrop, isWeaker] using hlead
      · rw [← hdrop, List.takeWhile_append_dropWhile]

theorem source_ne_of_mem_takeWhile {l : List AppEntry} {e : AppEntry}
    (h : e ∈ l.takeWhile isWeaker) : e.source ≠ "start-menu" := by
  simpa [isWeaker] using List.mem_takeWhile_imp h

/-- **What the records of an executable become**: an entry with the sources that are recorded, which
is of the start menu if one of the records is. -/
theorem foldl_absorb_spec (first : AppEntry) (rest : List AppEntry) :
    (∀ s, s ∈ (rest.foldl absorb first).sources ↔ s ∈ recorded first rest) ∧
      ((rest.foldl absorb first).source = "start-menu" ↔
        ∃ e ∈ first :: rest, e.source = "start-menu") := by
  unfold recorded
  rcases weaker_or_lead (first :: rest) with ⟨hnone, hdrop⟩ | ⟨lead, after, hlead, hdrop, hl⟩
  · rw [hdrop, foldl_absorb_stays (.inr fun e he => hnone e (List.mem_cons_of_mem _ he))]
    refine ⟨fun s => by simp, iff_of_false (hnone first List.mem_cons_self) ?_⟩
    rintro ⟨e, he, hsource⟩
    exact hnone e he hsource
  · have hhas : ∃ e ∈ first :: rest, e.source = "start-menu" :=
      ⟨lead, hl ▸ List.mem_append_right _ List.mem_cons_self, hlead⟩
    rw [hdrop]
    cases hbefore : (first :: rest).takeWhile isWeaker with
    | nil =>
        -- the first record is the lead
        rw [hbefore, List.nil_append] at hl
        obtain ⟨rfl, rfl⟩ := List.cons.inj hl
        rw [foldl_absorb_stays (.inl hlead)]
        refine ⟨fun s => ?_, iff_of_true hlead hhas⟩
        simp only [AppEntry.sources_pushAll, List.mem_append, List.mem_cons]
        refine or_congr_right' fun hs => (or_iff_right ?_).symm
        rintro rfl
        exact hs List.mem_cons_self
    | cons first' before =>
        have hweaker : ∀ e ∈ first' :: before, e.source ≠ "start-menu" :=
          fun e he => source_ne_of_mem_takeWhile (hbefore ▸ he)
        rw [hbefore, List.cons_append] at hl
        obtain ⟨rfl, rfl⟩ := List.cons.inj hl
        rw [List.forall_mem_cons] at hweaker
        rw [foldl_absorb_lead hweaker.1 hweaker.2 hlead]
        exact ⟨fun s => by simp, iff_of_true hlead hhas⟩

/-- The sources of some records: their own, and what they had merged. -/
theorem exists_mem_sources_iff (l : List AppEntry) (s : String) :
    (∃ e ∈ l, s ∈ e.sources) ↔
      s ∈ l.map AppEntry.source ∨ s ∈ l.flatMap AppEntry.mergedSources := by
  simp only [AppEntry.sources, List.mem_cons, List.mem_map, List.mem_flatMap, and_or_left,
    exists_or, eq_comm]

/-- A source of the records is recorded or lost. -/
theorem mem_recorded_or_lost (first : AppEntry) (rest : List AppEntry) (s : String) :
    s ∈ recorded first rest ∨ s ∈ lost first rest ↔ ∃ e ∈ first :: rest, s ∈ e.sources := by
  unfold recorded lost
  rcases weaker_or_lead (first :: rest) with ⟨-, hdrop⟩ | ⟨lead, after, -, hdrop, hl⟩
  · simp only [hdrop, List.mem_append]
    rw [List.exists_mem_cons_iff, exists_mem_sources_iff, or_assoc]
  · have hall : (∃ e ∈ first :: rest, s ∈ e.sources) ↔
        s ∈ ((first :: rest).takeWhile isWeaker).flatMap AppEntry.sources ∨ s ∈ lead.sources ∨
          s ∈ after.map AppEntry.source ∨ s ∈ after.flatMap AppEntry.mergedSources := by
      conv_lhs => rw [hl]
      rw [← exists_mem_sources_iff, List.mem_flatMap]
      simp only [List.mem_append, List.mem_cons, or_and_right, exists_or, exists_eq_left]
    have hfirst : s = first.source → ∃ e ∈ first :: rest, s ∈ e.sources := by
      rintro rfl
      exact ⟨first, List.mem_cons_self, List.mem_cons_self⟩
    rw [hall] at hfirst ⊢
    simp only [hdrop, List.mem_append, List.mem_cons]
    constructor
    · rintro ((h | h | h) | (h | h))
      exacts [.inr (.inl h), hfirst h, .inr (.inr (.inl h)), .inl h, .inr (.inr (.inr h))]
    · rintro (h | h | h | h)
      exacts [.inr (.inl h), .inl (.inl h), .inl (.inr (.inr h)), .inr (.inr h)]

end recorded

/-! ## The sources are kept -/

/-- Every executable has at most one entry, which is of the start menu if a record of it is, and has
the sources of all its records. -/
structure KeepsSources (entries out : List AppEntry) : Prop where
  one : ∀ id, (withKey (AppEntry.identity S) id out).length ≤ 1
  startMenu : ∀ id, (∃ e ∈ withKey (AppEntry.identity S) id entries, e.source = "start-menu") →
    ∃ o ∈ withKey (AppEntry.identity S) id out, o.source = "start-menu"
  sources : ∀ id, withKey (AppEntry.identity S) id entries ≠ [] →
    ∃ o ∈ withKey (AppEntry.identity S) id out,
      ∀ s, s ∈ o.sources ↔ ∃ e ∈ withKey (AppEntry.identity S) id entries, s ∈ e.sources

/-- What the records of an executable have besides those that are no duplicates: a record of the
start menu only if these have one, and no source that is not recorded of these. What is lost of
these is recorded too. -/
structure Recoverable (records : List AppEntry) (first : AppEntry) (rest : List AppEntry) :
    Prop where
  startMenu : (∃ e ∈ records, e.source = "start-menu") →
    ∃ e ∈ first :: rest, e.source = "start-menu"
  lost : ∀ s ∈ lost first rest, s ∈ recorded first rest
  duplicates : ∀ e ∈ records, e ∉ first :: rest → ∀ s ∈ e.sources, s ∈ recorded first rest

/-- Every executable with a record has one that is no duplicate, and nothing of the others is needed
beside it. -/
def NothingLost (entries : List AppEntry) : Prop :=
  ∀ id, withKey (AppEntry.identity S) id entries ≠ [] →
    ∃ first rest, withKey (AppEntry.identity S) id (dedup S entries) = first :: rest ∧
      Recoverable (withKey (AppEntry.identity S) id entries) first rest

section keeps

variable {S} {entries : List AppEntry} {id : String}

/-- What the provider has of an executable, if the cap cuts nothing off. -/
theorem withKey_fromEntries (hmax : entries.length ≤ maxApps) (id : String) :
    withKey (AppEntry.identity S) id (fromEntries S entries).entries =
      absorbAll absorb (withKey (AppEntry.identity S) id (dedup S entries)) := by
  have hlength : (mergeByExecutable S (dedup S entries)).length ≤ maxApps := calc
    _ ≤ (dedup S entries).length := length_mergeBy_le _
    _ ≤ entries.length := (firstsBy_sublist entries).length_le
    _ ≤ maxApps := hmax
  rw [fromEntries, List.take_of_length_le hlength]
  exact withKey_mergeBy (identity_absorb S) id (dedup S entries)

/-- A record that is no duplicate is a record. -/
theorem mem_withKey_of_dedup {e : AppEntry}
    (h : e ∈ withKey (AppEntry.identity S) id (dedup S entries)) :
    e ∈ withKey (AppEntry.identity S) id entries := by
  rw [mem_withKey] at h ⊢
  exact ⟨mem_of_mem_firstsBy h.1, h.2⟩

/-- The sources of all records: those recorded, those lost and those of the duplicates. -/
theorem recoverable_iff {first : AppEntry} {rest : List AppEntry}
    (hsurvive : withKey (AppEntry.identity S) id (dedup S entries) = first :: rest) :
    Recoverable (withKey (AppEntry.identity S) id entries) first rest ↔
      ((∃ e ∈ withKey (AppEntry.identity S) id entries, e.source = "start-menu") →
          (rest.foldl absorb first).source = "start-menu") ∧
        ∀ s, s ∈ (rest.foldl absorb first).sources ↔
          ∃ e ∈ withKey (AppEntry.identity S) id entries, s ∈ e.sources := by
  obtain ⟨hsources, hsource⟩ := foldl_absorb_spec first rest
  have hsub : ∀ e ∈ first :: rest, e ∈ withKey (AppEntry.identity S) id entries :=
    fun e he => mem_withKey_of_dedup (hsurvive ▸ he)
  rw [hsource]
  constructor
  · intro h
    refine ⟨h.startMenu, fun s => ?_⟩
    rw [hsources]
    constructor
    · intro hs
      obtain ⟨e, he, hs⟩ := (mem_recorded_or_lost first rest s).mp (.inl hs)
      exact ⟨e, hsub e he, hs⟩
    · rintro ⟨e, he, hs⟩
      by_cases hmem : e ∈ first :: rest
      · exact ((mem_recorded_or_lost first rest s).mpr ⟨e, hmem, hs⟩).elim (fun hs => hs) (h.lost s)
      · exact h.duplicates e he hmem s hs
  · rintro ⟨hstart, hall⟩
    refine ⟨hstart, fun s hs => ?_, fun e he _ s hs => ?_⟩
    · obtain ⟨e, he, hs⟩ := (mem_recorded_or_lost first rest s).mp (.inr hs)
      exact (hsources s).mp ((hall s).mpr ⟨e, hsub e he, hs⟩)
    · exact (hsources s).mp ((hall s).mpr ⟨e, he, hs⟩)

end keeps

/-- The shortcut of the browser. -/
def chromeShortcut : AppEntry :=
  ⟨"Google Chrome", "C:\\lnks\\Chrome.lnk", some "C:\\x\\chrome.exe", [], "start-menu"⟩

/-- The browser as the registry has it, with sources that it had merged. -/
def chromeUninstall (mergedSources : List String) : AppEntry :=
  ⟨"Chrome", "C:\\x\\chrome.exe", some "C:\\X\\chrome.exe", mergedSources, "uninstall"⟩

end AuraLauncher.Providers
