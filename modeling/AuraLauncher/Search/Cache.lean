import AuraLauncher.Lib.Table
import AuraLauncher.Search.Rank

/-!
# The search cache

`launcher-search/src/cache.rs`: final ranked lists under the query and the generations they were
made in. Entries age out after a fixed time, the oldest entries leave when a new one does not fit,
and a list that is too large is not stored.

* `SearchCacheEnvironment`, `SearchCacheKey` — what an entry is stored under.
* `SearchCache.get`, `SearchCache.remove`, `SearchCache.put` — the operations.
* `SearchCache.live` — the entry that a `get` would answer with.
* `get_results`, `find?_get`, `find?_put` — what the operations answer and which entries they
  leave.

Instants are counted in nanoseconds.
-/

namespace AuraLauncher.Search

open AuraLauncher.Lib

/-- The generations that make a key unique. Source: `cache.rs`, `SearchCacheEnvironment`. -/
structure SearchCacheEnvironment where
  fileGeneration : UInt64
  applicationGeneration : UInt64
  userStateGeneration : UInt64
  contextGeneration : UInt64
  rankingGeneration : UInt64
  deriving DecidableEq

/-- Source: `cache.rs`, `SearchCacheKey`. -/
structure SearchCacheKey extends SearchCacheEnvironment where
  normalizedQuery : String
  deriving DecidableEq

/-- Source: `cache.rs`, `SearchCacheKey::new`; `lower` is `str::to_lowercase`. -/
def SearchCacheKey.new (lower : String → String) (normalizedQuery : String)
    (env : SearchCacheEnvironment) : SearchCacheKey :=
  { env with normalizedQuery := lower normalizedQuery }

@[simp] theorem SearchCacheKey.env_new (lower : String → String) (query : String)
    (env : SearchCacheEnvironment) :
    (SearchCacheKey.new lower query env).toSearchCacheEnvironment = env := rfl

/-- Source: `cache.rs`, `CacheTtl`. -/
inductive CacheTtl where
  | complete | negative
  deriving DecidableEq

/-- Source: `cache.rs`, `CacheTtl::duration`. -/
def CacheTtl.duration : CacheTtl → ℕ
  | .complete => 60 * 1000000000
  | .negative => 5 * 1000000000

/-- Source: `cache.rs`, `Entry`. -/
structure Entry where
  results : List SearchCommand
  insertedAt : ℕ
  ttl : ℕ
  bytes : ℕ

/-- Whether an entry has reached its age. -/
def Entry.expired (e : Entry) (now : ℕ) : Bool := now - e.insertedAt ≥ e.ttl

/-- Source: `cache.rs`, `estimate_bytes`; a `Vec` takes 24 bytes. -/
def estimateBytes (results : List SearchCommand) : ℕ :=
  results.foldl
    (fun bytes c =>
      bytes + (c.title.utf8ByteSize + (c.subtitle.map String.utf8ByteSize).getD 0 + 64))
    24

/-- Source: `cache.rs`, `SearchCache`. -/
structure SearchCache where
  maxEntries : ℕ
  maxBytes : ℕ
  entries : Table fun p : SearchCacheKey × Entry => p.1
  /-- The keys, oldest first. -/
  order : List SearchCacheKey
  usedBytes : ℕ
  hits : ℕ
  misses : ℕ
  staleRejections : ℕ
  evictions : ℕ

namespace SearchCache

/-- Source: `cache.rs`, `SearchCache::new`. -/
def new (maxEntries maxBytes : ℕ) : SearchCache where
  maxEntries := max maxEntries 1
  maxBytes := max maxBytes 1
  entries := Table.empty
  order := []
  usedBytes := 0
  hits := 0
  misses := 0
  staleRejections := 0
  evictions := 0

/-- The entry of a key. -/
def find? (c : SearchCache) (key : SearchCacheKey) : Option Entry :=
  (c.entries.find? key).map Prod.snd

/-- Source: `cache.rs`, `SearchCache::remove`. -/
def remove (c : SearchCache) (key : SearchCacheKey) : SearchCache :=
  match c.find? key with
  | some e =>
      { c with
        entries := c.entries.deleteWhere fun p => p.1 == key
        usedBytes := c.usedBytes - e.bytes
        order := c.order.filter fun k => k != key }
  | none => c

/-- Source: `cache.rs`, `SearchCache::get`. -/
def get (c : SearchCache) (now : ℕ) (key : SearchCacheKey) :
    Option (List SearchCommand) × SearchCache :=
  if (c.find? key).any fun e => e.expired now then
    (none, { c.remove key with staleRejections := c.staleRejections + 1 })
  else
    match c.find? key with
    | some e => (some e.results, { c with hits := c.hits + 1 })
    | none => (none, { c with misses := c.misses + 1 })

/-- Whether an entry of `bytes` does not fit. -/
def full (c : SearchCache) (bytes : ℕ) : Bool :=
  c.usedBytes + bytes > c.maxBytes || c.entries.rows.length ≥ c.maxEntries

/-- One round of the eviction loop, for the first key of the order. -/
def evictOldest (c : SearchCache) (oldest : SearchCacheKey) (rest : List SearchCacheKey) :
    SearchCache :=
  match c.find? oldest with
  | some e =>
      { c with
        entries := c.entries.deleteWhere fun p => p.1 == oldest
        usedBytes := c.usedBytes - e.bytes
        evictions := c.evictions + 1
        order := rest }
  | none => { c with order := rest }

/-- The eviction loop, along the order. Source: `cache.rs`, the `while` in `SearchCache::put`. -/
def evict (bytes : ℕ) : List SearchCacheKey → SearchCache → SearchCache
  | [], c => c
  | oldest :: rest, c =>
      if c.full bytes then evict bytes rest (c.evictOldest oldest rest) else c

/-- Source: `cache.rs`, `SearchCache::put`. -/
def put (c : SearchCache) (now : ℕ) (key : SearchCacheKey) (results : List SearchCommand)
    (ttl : CacheTtl) : Bool × SearchCache :=
  let bytes := estimateBytes results
  if bytes > c.maxBytes / 4 then (false, c)
  else
    let c := c.remove key
    let c := evict bytes c.order c
    (true,
      { c with
        usedBytes := c.usedBytes + bytes
        order := c.order ++ [key]
        entries := c.entries.upsert (key, ⟨results, now, ttl.duration, bytes⟩) })

/-! ## Which entries the operations leave -/

/-- The entry that a `get` of a key answers with. -/
def live (c : SearchCache) (now : ℕ) (key : SearchCacheKey) : Option Entry :=
  (c.find? key).filter fun e => !e.expired now

@[simp] theorem find?_new (maxEntries maxBytes : ℕ) (key : SearchCacheKey) :
    (new maxEntries maxBytes).find? key = none := rfl

theorem find?_deleteWhere (c : SearchCache) (key k : SearchCacheKey) :
    ((c.entries.deleteWhere fun p => p.1 == key).find? k).map Prod.snd =
      if k = key then none else c.find? k := by
  unfold find?
  rw [Table.find?_deleteWhere]
  cases h : c.entries.find? k with
  | none => simp
  | some p =>
      have hkey : p.1 = k := (Table.find?_eq_some_iff.mp h).2
      by_cases hk : k = key <;> simp [Option.filter, hkey, hk]

theorem find?_remove (c : SearchCache) (key k : SearchCacheKey) :
    (c.remove key).find? k = if k = key then none else c.find? k := by
  unfold remove
  cases h : c.find? key with
  | some e => exact c.find?_deleteWhere key k
  | none =>
      by_cases hk : k = key
      · simp [hk, h]
      · simp [hk]

/-- The answer of a `get`. -/
theorem get_results (c : SearchCache) (now : ℕ) (key : SearchCacheKey) :
    (c.get now key).1 = (c.live now key).map Entry.results := by
  unfold get live
  cases h : c.find? key with
  | none => rfl
  | some e => cases hexp : e.expired now <;> simp [Option.filter, hexp]

/-- What is found under a key is decided by the entries. -/
theorem find?_congr {c d : SearchCache} (h : c.entries = d.entries) (k : SearchCacheKey) :
    c.find? k = d.find? k := by
  unfold find?
  rw [h]

/-- The entries after a `get`: those before, without the one asked for if it has reached its
age. -/
theorem get_entries (c : SearchCache) (now : ℕ) (key : SearchCacheKey) :
    (c.get now key).2.entries =
      if (c.find? key).any fun e => e.expired now then (c.remove key).entries else c.entries := by
  unfold get
  split_ifs
  · rfl
  · cases c.find? key <;> rfl

/-- A `get` removes an entry that has reached its age and touches no other. -/
theorem find?_get (c : SearchCache) (now : ℕ) (key k : SearchCacheKey) :
    (c.get now key).2.find? k = if k = key then c.live now key else c.find? k := by
  have hentries := c.get_entries now key
  unfold live
  split_ifs at hentries with hexp
  · rw [find?_congr hentries, find?_remove]
    obtain ⟨e, hfind, he⟩ : ∃ e, c.find? key = some e ∧ e.expired now = true :=
      (Option.any_eq_true _ _).mp hexp
    simp [hfind, Option.filter, he]
  · rw [find?_congr hentries]
    split_ifs with hk
    · subst hk
      cases h : c.find? k with
      | none => rfl
      | some e =>
          have he : e.expired now = false := by simpa [h] using hexp
          simp [Option.filter, he]
    · rfl

theorem find?_evictOldest (c : SearchCache) (oldest : SearchCacheKey) (rest : List SearchCacheKey)
    {k : SearchCacheKey} {e : Entry} (h : (c.evictOldest oldest rest).find? k = some e) :
    c.find? k = some e := by
  unfold evictOldest at h
  cases hold : c.find? oldest with
  | none =>
      rw [hold] at h
      exact h
  | some e' =>
      rw [hold] at h
      have hdelete : (if k = oldest then none else c.find? k) = some e :=
        (c.find?_deleteWhere oldest k).symm.trans h
      split_ifs at hdelete
      exact hdelete

/-- An eviction makes no entries. -/
theorem find?_evict (bytes : ℕ) (order : List SearchCacheKey) (c : SearchCache)
    {k : SearchCacheKey} {e : Entry} (h : (evict bytes order c).find? k = some e) :
    c.find? k = some e := by
  induction order generalizing c with
  | nil => exact h
  | cons oldest rest ih =>
      unfold evict at h
      split_ifs at h
      · exact c.find?_evictOldest oldest rest (ih (c.evictOldest oldest rest) h)
      · exact h

/-- An entry after a `put` is the one just stored or was there before. -/
theorem find?_put (c : SearchCache) (now : ℕ) (key : SearchCacheKey) (results : List SearchCommand)
    (ttl : CacheTtl) {k : SearchCacheKey} {e : Entry}
    (h : (c.put now key results ttl).2.find? k = some e) :
    (k = key ∧ e.results = results) ∨ c.find? k = some e := by
  unfold put at h
  simp only at h
  split_ifs at h with hlarge
  · exact .inr h
  · by_cases hk : k = key
    · subst hk
      refine .inl ⟨rfl, ?_⟩
      unfold find? at h
      simp only at h
      rw [Table.find?_upsert_self] at h
      rw [← Option.some.inj h]
    · unfold find? at h
      simp only at h
      rw [Table.find?_upsert_of_ne hk] at h
      have hremoved := find?_evict _ _ _ h
      rw [find?_remove, if_neg hk] at hremoved
      exact .inr hremoved

end SearchCache

end AuraLauncher.Search
