import AuraLauncher.Lib.Machine
import AuraLauncher.Search.Cache
import AuraLauncher.Search.Favorites

/-!
# The core and its search

`launcher-core/src/lib.rs`: the state of the launcher that a search reads, the operations that
change it, and the search itself. A search first looks for its query, under the current
generations, in the cache; only when it finds nothing there does it ask the providers, rank what
they answer and store the ranked list.

* `Core` — the state; `Core.environment` — the generations of the cache key.
* `searchInputs`, `ranked` — everything a ranking reads, and the list it makes of it.
* `search` — the caching entry point; `search_hit`, `search_miss` say what it answers.
* `Op`, `core` — the operations, and the launcher as a machine.

Parameters (`Services`): the providers, the index behind `history`, the lexical score and the
Unicode tables. Both clocks are part of the state and move by an operation of their own. Recorded:
the time a search takes is not modelled, so its two looks at the clock see the same instant.
-/

namespace AuraLauncher.Search

open AuraLauncher.Lib AuraLauncher.Domain

/-- Source: `launcher-indexer/src/lib.rs`, `UsageEntry`. -/
structure UsageEntry where
  commandId : String
  providerId : String
  uses : ℕ
  lastUsedMs : ℤ
  deriving DecidableEq

/-- What the core calls: the providers `ρ`, the index `η` behind `history`, and the pure functions
that are not modelled. -/
structure Services (ρ η : Type) where
  std : RustStd
  /-- `str::to_lowercase`. -/
  toLowercase : String → String
  /-- `launcher_search::score`. -/
  score : SearchCommand → QueryContext → ℚ
  /-- `Provider::id`. -/
  providerId : ρ → String
  /-- `Provider::query`: the answer, and the provider after it. -/
  query : ρ → QueryContext → List SearchCommand × ρ
  /-- `Provider::take_last_error`. -/
  takeLastError : ρ → Option String × ρ
  /-- `Indexer::generation().ok()`. -/
  generation : η → Option UInt64
  /-- `Indexer::usage_map().ok()`. -/
  usageMap : η → Option (List UsageEntry)
  /-- The index after `Indexer::record_use_titled`. -/
  recordUseTitled : η → String → String → String → ℕ → η
  /-- A recorded use is written to `history`, not to the metadata of the index. -/
  generation_recordUseTitled : ∀ h commandId providerId title now,
    generation (recordUseTitled h commandId providerId title now) = generation h

/-- The state of the launcher that a search reads or changes. Source: `lib.rs`, `Core`. -/
structure Core (ρ η : Type) where
  providers : List ρ
  history : Option η
  favorites : Option FavoriteService
  favoriteSnapshot : FavoriteSnapshot
  userStateGeneration : UInt64
  searchCache : SearchCache
  searchContext : Option ContextSnapshot
  contextGeneration : UInt64
  applicationGeneration : UInt64
  rankingGeneration : UInt64
  /-- The context at its last semantic change: foreground and folder. -/
  lastContextState : Option (Option String × Option String)
  /-- The monotonic clock. -/
  instant : ℕ
  /-- The wall clock, in milliseconds since the epoch. -/
  wallMs : ℕ

/-- Source: `lib.rs`, `MAX_RESULTS`. -/
def MAX_RESULTS : ℕ := 50

/-- The cache of a new core. -/
def newCache : SearchCache := SearchCache.new 256 (16 * 1024 * 1024)

/-- Source: `lib.rs`, `Core::new`. -/
def Core.new (ρ η : Type) : Core ρ η where
  providers := []
  history := none
  favorites := none
  favoriteSnapshot := ⟨[], []⟩
  userStateGeneration := 0
  searchCache := newCache
  searchContext := none
  contextGeneration := 0
  applicationGeneration := 0
  rankingGeneration := 0
  lastContextState := none
  instant := 0
  wallMs := 0

/-- The same core with an empty cache. -/
def Core.clearCache {ρ η : Type} (s : Core ρ η) : Core ρ η := { s with searchCache := newCache }

variable {ρ η : Type} (sv : Services ρ η)

/-! ## What a ranking reads -/

/-- The generations of the cache key. Source: `lib.rs`, `search` (`env`). -/
def Core.environment (s : Core ρ η) : SearchCacheEnvironment where
  fileGeneration := (s.history.bind sv.generation).getD 0
  applicationGeneration := s.applicationGeneration
  userStateGeneration := s.userStateGeneration
  contextGeneration := s.contextGeneration
  rankingGeneration := s.rankingGeneration

/-- Source: `lib.rs`, `usage_snapshot`. -/
def Core.usageSnapshot (s : Core ρ η) : List UsageEntry := (s.history.bind sv.usageMap).getD []

/-- Frequency, capped, and recency of the last use; of several rows for one command the last
counts. Source: `lib.rs`, `usage_boost`. -/
def usageBoost (usage : List UsageEntry) (now : ℕ) (c : SearchCommand) : ℚ :=
  match usage.reverse.find? fun e => e.providerId == c.providerId && e.commandId == c.id with
  | none => 0
  | some e =>
      let age := (now : ℤ) - e.lastUsedMs
      let recency : ℚ :=
        if age < 24 * 3600 * 1000 then 12 else if age < 7 * 24 * 3600 * 1000 then 6 else 0
      3 * (min e.uses 10 : ℕ) + recency

/-- What favourites add to the score of a command. -/
def favoriteBoost (snapshot : FavoriteSnapshot) (key : String) : ℚ :=
  if snapshot.isPinned key then 20 else if snapshot.isFavorite key then 10 else 0

/-- What is added to the score of a command that matched. Source: `lib.rs`, `search`
(`favorite_and_context_boost`). -/
def Core.boost (s : Core ρ η) (c : SearchCommand) : ℚ :=
  usageBoost (s.usageSnapshot sv) s.wallMs c +
    favoriteBoost s.favoriteSnapshot (searchIdentityKey sv.std c) +
    ((s.searchContext.map fun ctx => contextScore sv.std c ctx).getD 0)

/-- All providers asked in their order: the commands, the errors, and the providers after it.
Source: `lib.rs`, the loop of `search`. -/
def askProviders (q : QueryContext) : List ρ → List SearchCommand × List String × List ρ
  | [] => ([], [], [])
  | p :: ps =>
      let answer := sv.query p q
      let error := sv.takeLastError answer.2
      let rest := askProviders q ps
      (answer.1 ++ rest.1,
        (error.1.map fun e => sv.providerId error.2 ++ ": " ++ e).toList ++ rest.2.1,
        error.2 :: rest.2.2)

/-- The query of a search: at most 512 characters are read. -/
def parseQuery (raw : String) : QueryContext :=
  QueryContext.parse sv.toLowercase (String.ofList (raw.toList.take 512))

/-- Everything that the ranked list of a search depends on. -/
structure SearchInputs where
  query : QueryContext
  limit : ℕ
  commands : List SearchCommand
  boost : SearchCommand → ℚ

/-- What a search reads when it does not find its query in the cache. -/
def searchInputs (s : Core ρ η) (raw : String) (limit : ℕ) : SearchInputs where
  query := parseQuery sv raw
  limit := min limit MAX_RESULTS
  commands := (askProviders sv (parseQuery sv raw) s.providers).1
  boost := s.boost sv

/-- The ranked list of what was read. -/
def ranked (i : SearchInputs) : List SearchCommand :=
  rankWithBoost sv.std sv.score i.commands i.query i.limit i.boost

/-- The cache key of a query in a state. Source: `lib.rs`, `search` (`cache_key`). -/
def Core.cacheKey (s : Core ρ η) (raw : String) : SearchCacheKey :=
  SearchCacheKey.new sv.toLowercase (parseQuery sv raw).normalized (s.environment sv)

/-! ## The search -/

/-- Source: `lib.rs`, `SearchResult`, less the time it took. -/
structure SearchResult where
  commands : List SearchCommand
  errors : List String

/-- The caching entry point. Source: `lib.rs`, `search`. -/
def search (s : Core ρ η) (raw : String) (limit : ℕ) : SearchResult × Core ρ η :=
  let key := s.cacheKey sv raw
  let looked := s.searchCache.get s.instant key
  match looked.1 with
  | some cached => (⟨cached, []⟩, { s with searchCache := looked.2 })
  | none =>
      let answers := askProviders sv (parseQuery sv raw) s.providers
      let commands := ranked sv (searchInputs sv s raw limit)
      let ttl := if commands.isEmpty then CacheTtl.negative else CacheTtl.complete
      (⟨commands, answers.2.1⟩,
        { s with
          providers := answers.2.2
          searchCache := (looked.2.put s.instant key commands ttl).2 })

/-- The entry that a search would find in the cache. -/
def Core.hit (s : Core ρ η) (raw : String) : Option Entry :=
  s.searchCache.live s.instant (s.cacheKey sv raw)

/-- A search that finds an entry answers with it. -/
theorem search_hit {s : Core ρ η} {raw : String} {e : Entry} (limit : ℕ)
    (h : s.hit sv raw = some e) :
    (search sv s raw limit).1 = ⟨e.results, []⟩ ∧
      (search sv s raw limit).2 =
        { s with searchCache := (s.searchCache.get s.instant (s.cacheKey sv raw)).2 } := by
  have hget : (s.searchCache.get s.instant (s.cacheKey sv raw)).1 = some e.results := by
    rw [SearchCache.get_results]
    exact congrArg _ h
  simp [search, hget]

/-- A search that finds nothing ranks what it reads and stores the list. -/
theorem search_miss {s : Core ρ η} {raw : String} (limit : ℕ) (h : s.hit sv raw = none) :
    (search sv s raw limit).1.commands = ranked sv (searchInputs sv s raw limit) ∧
      ∃ ttl, (search sv s raw limit).2.searchCache =
        ((s.searchCache.get s.instant (s.cacheKey sv raw)).2.put s.instant (s.cacheKey sv raw)
          (ranked sv (searchInputs sv s raw limit)) ttl).2 := by
  have hget : (s.searchCache.get s.instant (s.cacheKey sv raw)).1 = none := by
    rw [SearchCache.get_results]
    exact congrArg (Option.map Entry.results) h
  simp only [search, hget]
  exact ⟨trivial, _, rfl⟩

/-- With an empty cache a search ranks what it reads. -/
theorem search_clearCache (s : Core ρ η) (raw : String) (limit : ℕ) :
    (search sv s.clearCache raw limit).1.commands = ranked sv (searchInputs sv s raw limit) :=
  (search_miss sv (s := s.clearCache) limit rfl).1

/-! ## The operations -/

/-- The semantic part of a context. -/
def semanticContext (ctx : Option ContextSnapshot) : Option (Option String × Option String) :=
  ctx.map fun c =>
    (c.foregroundApp, c.currentFolder.map (normalizePathIdentity sv.std))

/-- Source: `lib.rs`, `refresh_favorite_snapshot`; `read` is whether the store could be read. -/
def Core.refreshFavoriteSnapshot (s : Core ρ η) (read : Bool) : Core ρ η :=
  match s.favorites with
  | some svc => if read then { s with favoriteSnapshot := svc.snapshot } else s
  | none => s

/-- Source: `lib.rs`, `toggle_favorite`; `written` and `read` are whether the store could be written
and read. -/
def Core.toggleFavorite (s : Core ρ η) (c : SearchCommand) (written read : Bool) :
    Option Bool × Core ρ η :=
  let key := searchIdentityKey sv.std c
  match s.favorites with
  | none => (none, s)
  | some svc =>
      if written then
        let favorite := s.favoriteSnapshot.isFavorite key
        let svc' := if favorite then svc.remove key else (svc.add key s.wallMs).2
        (some !favorite,
          Core.refreshFavoriteSnapshot
            { s with
              favorites := some svc'
              userStateGeneration := s.userStateGeneration + 1 }
            read)
      else (none, s)

/-- Source: `lib.rs`, `set_search_context`. -/
def Core.setSearchContext (s : Core ρ η) (ctx : Option ContextSnapshot) : Core ρ η :=
  if s.lastContextState = semanticContext sv ctx then { s with searchContext := ctx }
  else
    { s with
      lastContextState := semanticContext sv ctx
      contextGeneration := s.contextGeneration + 1
      searchContext := ctx }

/-- Source: `lib.rs`, `record_use_with_title`. -/
def Core.recordUse (s : Core ρ η) (commandId providerId title : String) : Core ρ η :=
  { s with
    userStateGeneration := s.userStateGeneration + 1
    history := s.history.map fun h => sv.recordUseTitled h commandId providerId title s.wallMs }

/-- What can happen to the launcher. -/
inductive Op (ρ η : Type) where
  | search (raw : String) (limit : ℕ)
  | recordUse (commandId providerId title : String)
  | setHistory (h : η)
  | setFavorites (svc : FavoriteService) (read : Bool)
  | refreshFavoriteSnapshot (read : Bool)
  | toggleFavorite (c : SearchCommand) (written read : Bool)
  | setSearchContext (ctx : Option ContextSnapshot)
  | bumpApplicationGeneration
  | setApplicationGeneration (gen : UInt64)
  | register (p : ρ)
  /-- Whatever is done to the providers through `providers_mut` or by the other queries of the
  core. -/
  | providersMut (f : List ρ → List ρ)
  /-- Another connection commits to the database of the index. -/
  | indexChanged (f : η → η)
  /-- Time passes; the wall clock may be set. -/
  | tick (nanos wallMs : ℕ)

/-- The state after an operation. Source: `lib.rs`, the methods of `Core`. -/
def stepCore (s : Core ρ η) : Op ρ η → Core ρ η
  | .search raw limit => (search sv s raw limit).2
  | .recordUse commandId providerId title => s.recordUse sv commandId providerId title
  | .setHistory h => { s with history := some h }
  -- the snapshot is reloaded before the new store is attached
  | .setFavorites svc read => { s.refreshFavoriteSnapshot read with favorites := some svc }
  | .refreshFavoriteSnapshot read => s.refreshFavoriteSnapshot read
  | .toggleFavorite c written read => (s.toggleFavorite sv c written read).2
  | .setSearchContext ctx => s.setSearchContext sv ctx
  | .bumpApplicationGeneration => { s with applicationGeneration := s.applicationGeneration + 1 }
  | .setApplicationGeneration gen => { s with applicationGeneration := gen }
  | .register p => { s with providers := s.providers ++ [p] }
  | .providersMut f => { s with providers := f s.providers }
  | .indexChanged f => { s with history := s.history.map f }
  | .tick nanos wallMs => { s with instant := s.instant + nanos, wallMs := wallMs }

/-- The launcher: every operation is possible in every state. -/
def core : Machine (Core ρ η) (Op ρ η) where
  step s op := some (stepCore sv s op)

/-- A reload of the favourites changes nothing but their snapshot. -/
theorem refreshFavoriteSnapshot_eq (s : Core ρ η) (read : Bool) :
    ∃ snapshot, s.refreshFavoriteSnapshot read = { s with favoriteSnapshot := snapshot } := by
  obtain ⟨_, _, favorites, snapshot, _, _, _, _, _, _, _, _, _⟩ := s
  cases favorites with
  | none => exact ⟨snapshot, rfl⟩
  | some svc =>
      cases read with
      | false => exact ⟨snapshot, rfl⟩
      | true => exact ⟨svc.snapshot, rfl⟩

/-- Only a search changes the cache. -/
theorem stepCore_searchCache (s : Core ρ η) {op : Op ρ η}
    (h : ∀ raw limit, op ≠ .search raw limit) :
    (stepCore sv s op).searchCache = s.searchCache := by
  have hrefresh : ∀ (s : Core ρ η) read,
      (s.refreshFavoriteSnapshot read).searchCache = s.searchCache := by
    intro s read
    obtain ⟨snapshot, heq⟩ := refreshFavoriteSnapshot_eq s read
    rw [heq]
  cases op with
  | search raw limit => exact absurd rfl (h raw limit)
  | setFavorites svc read => exact hrefresh s read
  | refreshFavoriteSnapshot read => exact hrefresh s read
  | toggleFavorite c written read =>
      simp only [stepCore, Core.toggleFavorite]
      cases s.favorites with
      | none => rfl
      | some svc =>
          cases written with
          | false => rfl
          | true => exact hrefresh _ read
  | setSearchContext ctx =>
      simp only [stepCore, Core.setSearchContext]
      split_ifs <;> rfl
  | _ => rfl

end AuraLauncher.Search
