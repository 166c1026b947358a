import Mathlib.Data.List.Sort

/-!
# The recent files

`launcher-providers/src/recent_files.rs`: the shortcuts in the folder of recent files. The listing
is read until there are as many entries as the list may have, and these are sorted. What comes later
in the listing is not looked at, however recent it is.

* `RecentEnv`, `RecentEntry` — what the scan asks of the files, and what it makes of one.
* `collectRecent`, `scanRecent` — the loop, and the scan.
* `MostRecent` — what is asked of the result.
* `collectRecent_eq` — the loop takes the first entries.
* `scanRecent_mostRecent_iff` — the listings of which the scan takes the most recent files.
* `not_mostRecent_late` — a listing with its most recent file at the end.

The paths are of any type. A time is the number of milliseconds that the scan makes of it.
-/

namespace AuraLauncher.Providers

/-- Source: `recent_files.rs`, `MAX_RECENT`. -/
def MAX_RECENT : ℕ := 500

universe u

/-- What the scan asks of a file. -/
structure RecentEnv (P : Type u) where
  /-- `Path::extension`. -/
  extension : P → Option String
  /-- `Path::file_stem`, when it is text. -/
  fileStem : P → Option String
  /-- Source: `recent_files.rs`, `resolve_lnk_target`. -/
  resolveLnkTarget : P → Option P
  /-- The time of the last change, if there is one that is not before 1970. -/
  modifiedMs : P → Option UInt64

/-- Source: `recent_files.rs`, `RecentEntry`. -/
structure RecentEntry (P : Type u) where
  name : String
  target : P
  recencyMs : UInt64

variable {P : Type u} (env : RecentEnv P)

/-- The entry of a file, if it is a shortcut with a name. Source: `recent_files.rs`,
`RecentFilesProvider::scan` (the body of the loop). -/
def recentEntry (path : P) : Option (RecentEntry P) :=
  if (env.extension path).any fun e => e.toLower == "lnk" then
    (env.fileStem path).map fun name =>
      ⟨name, (env.resolveLnkTarget path).getD path, (env.modifiedMs path).getD 0⟩
  else none

/-- The entries of a listing, after those that there are, until there are as many as there may be; a
`none` is a file that could not be read. Source: `recent_files.rs`, `RecentFilesProvider::scan` (the
loop). -/
def collectRecent (out : List (RecentEntry P)) : List (Option P) → List (RecentEntry P)
  | [] => out
  | file :: listing =>
      match file.bind (recentEntry env) with
      | none => collectRecent out listing
      | some e =>
          if MAX_RECENT ≤ (out ++ [e]).length then out ++ [e]
          else collectRecent (out ++ [e]) listing

/-- The order of the entries: the more recent one first. -/
def IsRecentBefore (e e' : RecentEntry P) : Prop := e'.recencyMs ≤ e.recencyMs

instance : DecidableRel (IsRecentBefore (P := P)) := fun e e' =>
  inferInstanceAs (Decidable (e'.recencyMs ≤ e.recencyMs))

/-- The scan of a folder, which gives a listing or cannot be read. Source: `recent_files.rs`,
`RecentFilesProvider::scan`. -/
def scanRecent (folder : Option (List (Option P))) : Option (List (RecentEntry P)) :=
  folder.map fun listing => (collectRecent env [] listing).insertionSort IsRecentBefore

/-- The entries of all files of a listing. -/
def validEntries (listing : List (Option P)) : List (RecentEntry P) :=
  listing.filterMap fun file => file.bind (recentEntry env)

/-- No more entries than there may be, in order, and those that are left out, if there are too many,
are not more recent than any of them. -/
structure MostRecent (valid result : List (RecentEntry P)) : Prop where
  length_le : result.length ≤ MAX_RECENT
  sorted : result.Pairwise IsRecentBefore
  leftOut : ∃ rest, (result ++ rest).Perm valid ∧ (rest = [] ∨ result.length = MAX_RECENT) ∧
    ∀ e ∈ rest, ∀ e' ∈ result, e.recencyMs ≤ e'.recencyMs

section scan

variable {env}

/-- **The loop** takes the first entries of the listing. -/
theorem collectRecent_eq {out : List (RecentEntry P)} (hout : out.length < MAX_RECENT)
    (listing : List (Option P)) :
    collectRecent env out listing = (out ++ validEntries env listing).take MAX_RECENT := by
  induction listing generalizing out with
  | nil =>
      rw [collectRecent, validEntries, List.filterMap_nil, List.append_nil]
      exact (List.take_of_length_le hout.le).symm
  | cons file listing ih =>
      unfold collectRecent validEntries
      rw [List.filterMap_cons]
      cases hentry : file.bind (recentEntry env) with
      | none => exact ih hout
      | some e =>
          have hlength : (out ++ [e]).length = out.length + 1 := by simp
          have hassoc : out ++ e :: validEntries env listing =
              out ++ [e] ++ validEntries env listing := by simp
          dsimp only
          split_ifs with hfull
          · -- the entry is the last for which there is room
            have hlast : (out ++ [e]).length = MAX_RECENT := by omega
            exact (hassoc ▸ List.take_left' hlast).symm
          · rw [ih (by omega)]
            exact hassoc ▸ rfl

theorem collectRecent_nil (listing : List (Option P)) :
    collectRecent env [] listing = (validEntries env listing).take MAX_RECENT := by
  have hroom : ([] : List (RecentEntry P)).length < MAX_RECENT := by
    rw [List.length_nil, MAX_RECENT]
    omega
  exact collectRecent_eq hroom listing

theorem isRecentBefore_trans : IsTrans (RecentEntry P) IsRecentBefore :=
  ⟨fun _ _ _ h h' => UInt64.le_trans h' h⟩

theorem isRecentBefore_total : Std.Total (IsRecentBefore (P := P)) :=
  ⟨fun e e' => UInt64.le_total e'.recencyMs e.recencyMs⟩

/-- The first entries of a list, sorted, are the most recent ones exactly when no later one is more
recent. -/
theorem mostRecent_take_iff (valid : List (RecentEntry P)) :
    MostRecent valid ((valid.take MAX_RECENT).insertionSort IsRecentBefore) ↔
      ∀ e ∈ valid.drop MAX_RECENT, ∀ e' ∈ valid.take MAX_RECENT, e.recencyMs ≤ e'.recencyMs := by
  have := isRecentBefore_trans (P := P)
  have := isRecentBefore_total (P := P)
  have hperm := (valid.take MAX_RECENT).perm_insertionSort IsRecentBefore
  constructor
  · rintro ⟨-, -, rest, hrest, -, hle⟩ e he e' he'
    have hsame : rest.Perm (valid.drop MAX_RECENT) := by
      refine (List.perm_append_left_iff (valid.take MAX_RECENT)).mp ?_
      rw [List.take_append_drop]
      exact (hperm.symm.append_right rest).trans hrest
    exact hle e (hsame.symm.subset he) e' (hperm.symm.subset he')
  · intro hle
    refine ⟨?_, List.pairwise_insertionSort _ _, valid.drop MAX_RECENT, ?_, ?_, ?_⟩
    · rw [hperm.length_eq, List.length_take]
      exact min_le_left _ _
    · have happend := hperm.append_right (valid.drop MAX_RECENT)
      rwa [List.take_append_drop] at happend
    · by_cases hfull : MAX_RECENT ≤ valid.length
      · exact .inr (by rw [hperm.length_eq, List.length_take, min_eq_left hfull])
      · exact .inl (List.drop_of_length_le (by omega))
    · exact fun e he e' he' => hle e he e' (hperm.subset he')

end scan

/-- **The most recent files** are what a scan takes exactly when no shortcut that is listed after as
many others as there may be is more recent than one of these. -/
theorem scanRecent_mostRecent_iff (listing : List (Option P)) :
    (∃ result, scanRecent env (some listing) = some result ∧
        MostRecent (validEntries env listing) result) ↔
      ∀ e ∈ (validEntries env listing).drop MAX_RECENT,
        ∀ e' ∈ (validEntries env listing).take MAX_RECENT, e.recencyMs ≤ e'.recencyMs := by
  rw [← mostRecent_take_iff, scanRecent, Option.map_some, collectRecent_nil]
  simp

/-- Shortcuts whose time is that of their number. -/
def numberedEnv : RecentEnv ℕ where
  extension _ := some "lnk"
  fileStem n := some (toString n)
  resolveLnkTarget _ := none
  modifiedMs n := some n.toUInt64

theorem validEntries_numbered (ns : List ℕ) :
    validEntries numberedEnv (ns.map some) = ns.map fun n => ⟨toString n, n, n.toUInt64⟩ := by
  have hshortcut : ("lnk".toLower == "lnk") = true := by decide +kernel
  have hentry : ∀ n, recentEntry numberedEnv n = some ⟨toString n, n, n.toUInt64⟩ :=
    fun n => if_pos hshortcut
  unfold validEntries
  induction ns with
  | nil => rfl
  | cons n ns ih =>
      rw [List.map_cons, List.filterMap_cons, Option.bind_some, hentry, List.map_cons, ih]

/-- The most recent shortcut is listed after as many others as there may be. -/
theorem not_mostRecent_late :
    ¬ ∃ result, scanRecent numberedEnv (some ((List.replicate 500 0 ++ [1]).map some)) =
        some result ∧
      MostRecent (validEntries numberedEnv ((List.replicate 500 0 ++ [1]).map some)) result := by
  rintro ⟨result, hresult, hrecent⟩
  rw [scanRecent, Option.map_some, collectRecent_nil] at hresult
  rw [← Option.some.inj hresult, mostRecent_take_iff, validEntries_numbered, List.map_append,
    List.map_replicate, MAX_RECENT, List.take_left' List.length_replicate,
    List.drop_left' List.length_replicate] at hrecent
  have hle := hrecent _ (List.mem_singleton_self _) _
    (List.mem_replicate.mpr ⟨by decide, rfl⟩)
  exact absurd hle (by decide)

end AuraLauncher.Providers
