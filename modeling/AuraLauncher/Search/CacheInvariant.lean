import AuraLauncher.Lib.Machine
import AuraLauncher.Search.Cache

/-!
# What the search cache keeps

The cache accounts for its entries three times: in the map, in the order of the keys and in the
number of used bytes. Every operation changes the three apart from each other, and every operation
leaves them in agreement.

* `CacheOp`, `cacheMachine` — the operations, as the steps of a machine. An operation carries the
  instant that its clock reads; nothing relates the instants of two operations.
* `SearchCache.subtractions` — the subtractions from the used bytes that an operation makes.
* `SearchCache.Accounted` — the agreement, within the two limits.
* `SearchCache.visits_accounted` — every run from an empty cache keeps it, and no subtraction of a
  run takes more than there is.
-/

namespace AuraLauncher.Search

open AuraLauncher.Lib

/-- An operation on the cache. -/
inductive CacheOp where
  | put (now : ℕ) (key : SearchCacheKey) (results : List SearchCommand) (ttl : CacheTtl)
  | get (now : ℕ) (key : SearchCacheKey)
  | remove (key : SearchCacheKey)

namespace SearchCache

/-- The cache after an operation. -/
def apply (c : SearchCache) : CacheOp → SearchCache
  | .put now key results ttl => (c.put now key results ttl).2
  | .get now key => (c.get now key).2
  | .remove key => c.remove key

/-! ## Subtractions -/

/-- What is subtracted from the used bytes, and from how many, when the entry of a key goes. -/
def removal (c : SearchCache) (key : SearchCacheKey) : List (ℕ × ℕ) :=
  ((c.find? key).map fun e => (c.usedBytes, e.bytes)).toList

/-- The subtractions of the eviction loop. -/
def evictionRemovals (bytes : ℕ) : List SearchCacheKey → SearchCache → List (ℕ × ℕ)
  | [], _ => []
  | oldest :: rest, c =>
      if c.full bytes then
        c.removal oldest ++ evictionRemovals bytes rest (c.evictOldest oldest rest)
      else []

/-- The subtractions from the used bytes that an operation makes, in their order: each as what
there is and what is taken. -/
def subtractions (c : SearchCache) : CacheOp → List (ℕ × ℕ)
  | .put _ key results _ =>
      if estimateBytes results > c.maxBytes / 4 then []
      else
        c.removal key ++
          evictionRemovals (estimateBytes results) (c.remove key).order (c.remove key)
  | .get now key => if (c.find? key).any fun e => e.expired now then c.removal key else []
  | .remove key => c.removal key

/-! ## The agreement -/

/-- The order lists the keys of the map, each once; the used bytes are those of the entries; and
both limits are kept. -/
structure Accounted (c : SearchCache) : Prop where
  order_perm : c.order.Perm (c.entries.rows.map Prod.fst)
  order_nodup : c.order.Nodup
  usedBytes_eq : c.usedBytes = c.entries.total fun p => p.2.bytes
  usedBytes_le : c.usedBytes ≤ c.maxBytes
  count_le : c.entries.rows.length ≤ c.maxEntries
  maxEntries_pos : 0 < c.maxEntries

theorem accounted_new (maxEntries maxBytes : ℕ) : (new maxEntries maxBytes).Accounted where
  order_perm := List.Perm.refl []
  order_nodup := List.nodup_nil
  usedBytes_eq := rfl
  usedBytes_le := Nat.zero_le _
  count_le := Nat.zero_le _
  maxEntries_pos := Nat.lt_of_lt_of_le Nat.zero_lt_one (Nat.le_max_right maxEntries 1)

theorem find?_eq_some_iff {c : SearchCache} {key : SearchCacheKey} {e : Entry} :
    c.find? key = some e ↔ c.entries.find? key = some (key, e) := by
  unfold find?
  rw [Option.map_eq_some_iff]
  constructor
  · rintro ⟨⟨k, e'⟩, hfind, rfl⟩
    obtain rfl : k = key := (Table.find?_eq_some_iff.mp hfind).2
    exact hfind
  · intro h
    exact ⟨_, h, rfl⟩

theorem find?_eq_none_iff {c : SearchCache} {key : SearchCacheKey} :
    c.find? key = none ↔ ∀ p ∈ c.entries.rows, p.1 ≠ key := by
  unfold find?
  rw [Option.map_eq_none_iff]
  exact Table.find?_eq_none_iff

/-- The limits of a cache. -/
def limits (c : SearchCache) : ℕ × ℕ := (c.maxEntries, c.maxBytes)

theorem limits_remove (c : SearchCache) (key : SearchCacheKey) :
    (c.remove key).limits = c.limits := by
  unfold remove
  cases c.find? key <;> rfl

theorem limits_evictOldest (c : SearchCache) (oldest : SearchCacheKey)
    (rest : List SearchCacheKey) : (c.evictOldest oldest rest).limits = c.limits := by
  unfold evictOldest
  cases c.find? oldest <;> rfl

theorem limits_evict (bytes : ℕ) (order : List SearchCacheKey) (c : SearchCache) :
    (evict bytes order c).limits = c.limits := by
  induction order generalizing c with
  | nil => rfl
  | cons oldest rest ih =>
      unfold evict
      split_ifs
      · rw [ih, limits_evictOldest]
      · rfl

/-- No operation changes the limits. -/
theorem limits_apply (c : SearchCache) (op : CacheOp) : (c.apply op).limits = c.limits := by
  cases op with
  | put now key results ttl =>
      simp only [apply, put]
      split_ifs
      · rfl
      · exact (limits_evict _ _ _).trans (c.limits_remove key)
  | get now key =>
      simp only [apply, get]
      split_ifs
      · exact c.limits_remove key
      · cases c.find? key <;> rfl
  | remove key => exact c.limits_remove key

namespace Accounted

variable {c : SearchCache}

/-- An entry is part of the used bytes. -/
theorem bytes_le (h : c.Accounted) {key : SearchCacheKey} {e : Entry} (he : c.find? key = some e) :
    e.bytes ≤ c.usedBytes := by
  rw [h.usedBytes_eq]
  exact Table.le_total (f := fun p => p.2.bytes) (find?_eq_some_iff.mp he)

/-- No entry is larger than the used bytes that it is subtracted from. -/
theorem removal_le (h : c.Accounted) (key : SearchCacheKey) : ∀ p ∈ c.removal key, p.2 ≤ p.1 := by
  intro p hp
  obtain ⟨e, he, rfl⟩ := Option.map_eq_some_iff.mp (Option.mem_toList.mp hp)
  exact h.bytes_le he

/-- The cache without one of its entries, whatever is counted beside. -/
theorem delete (h : c.Accounted) {key : SearchCacheKey} {e : Entry} (he : c.find? key = some e)
    {d : SearchCache} (hentries : d.entries = c.entries.deleteWhere fun p => p.1 == key)
    (horder : d.order = c.order.filter fun k => k != key)
    (hused : d.usedBytes = c.usedBytes - e.bytes) (hmaxEntries : d.maxEntries = c.maxEntries)
    (hmaxBytes : d.maxBytes = c.maxBytes) :
    d.Accounted where
  order_perm := by
    have hkeys : d.entries.rows.map Prod.fst =
        (c.entries.rows.map Prod.fst).filter fun k => k != key := by
      rw [hentries, List.filter_map]
      rfl
    rw [horder, hkeys]
    exact h.order_perm.filter _
  order_nodup := by
    rw [horder]
    exact h.order_nodup.filter _
  usedBytes_eq := by
    have htotal := Table.total_deleteWhere_key (t := c.entries) (f := fun p => p.2.bytes) (k := key)
    rw [find?_eq_some_iff.mp he, Option.elim_some] at htotal
    rw [hused, hentries, h.usedBytes_eq]
    exact Nat.sub_eq_of_eq_add htotal.symm
  usedBytes_le := by
    rw [hused, hmaxBytes]
    exact (Nat.sub_le _ _).trans h.usedBytes_le
  count_le := by
    rw [hentries, hmaxEntries]
    exact (List.length_filter_le _ _).trans h.count_le
  maxEntries_pos := hmaxEntries ▸ h.maxEntries_pos

theorem remove (h : c.Accounted) (key : SearchCacheKey) : (c.remove key).Accounted := by
  unfold SearchCache.remove
  cases he : c.find? key with
  | none => exact h
  | some e => exact h.delete he rfl rfl rfl rfl rfl

/-- The counters of answers are not part of the agreement. -/
theorem get (h : c.Accounted) (now : ℕ) (key : SearchCacheKey) : (c.get now key).2.Accounted := by
  unfold SearchCache.get
  split_ifs
  · exact { h.remove key with }
  · cases c.find? key with
    | none => exact { h with }
    | some e => exact { h with }

/-! ### The eviction loop -/

/-- The oldest key is in the map. -/
theorem exists_oldest (h : c.Accounted) {oldest : SearchCacheKey} {rest : List SearchCacheKey}
    (horder : c.order = oldest :: rest) : ∃ e, c.find? oldest = some e := by
  cases he : c.find? oldest with
  | some e => exact ⟨e, rfl⟩
  | none =>
      have hmem : oldest ∈ c.entries.rows.map Prod.fst :=
        h.order_perm.subset (horder ▸ List.mem_cons_self)
      obtain ⟨p, hp, hkey⟩ := List.mem_map.mp hmem
      exact absurd hkey (find?_eq_none_iff.mp he p hp)

theorem evictOldest (h : c.Accounted) {oldest : SearchCacheKey} {rest : List SearchCacheKey}
    (horder : c.order = oldest :: rest) :
    (c.evictOldest oldest rest).Accounted ∧ (c.evictOldest oldest rest).order = rest := by
  obtain ⟨e, he⟩ := h.exists_oldest horder
  have hnodup := h.order_nodup
  rw [horder, List.nodup_cons] at hnodup
  -- The key is gone from the order with its first place, because it has no other.
  have hrest : rest = c.order.filter fun k => k != oldest := by
    rw [horder, List.filter_cons_of_neg (by simp)]
    refine (List.filter_eq_self.mpr fun k hk => ?_).symm
    simpa using fun heq : k = oldest => hnodup.1 (heq ▸ hk)
  unfold SearchCache.evictOldest
  rw [he]
  exact ⟨h.delete he rfl hrest rfl rfl rfl, rfl⟩

/-- The loop ends with room for an entry that the whole cache has room for. -/
theorem evict (h : c.Accounted) {bytes : ℕ} (hbytes : bytes ≤ c.maxBytes)
    {order : List SearchCacheKey} (horder : c.order = order) :
    (evict bytes order c).Accounted ∧ (SearchCache.evict bytes order c).full bytes = false := by
  induction order generalizing c with
  | nil =>
      have hrows : c.entries.rows = [] := by
        have hperm := h.order_perm
        rw [horder] at hperm
        exact List.map_eq_nil_iff.mp hperm.nil_eq.symm
      have hused : c.usedBytes = 0 := by
        rw [h.usedBytes_eq, Table.total, hrows]
        rfl
      refine ⟨h, ?_⟩
      have hpos := h.maxEntries_pos
      simp [SearchCache.evict, full, hrows, hused]
      omega
  | cons oldest rest ih =>
      unfold SearchCache.evict
      split_ifs with hfull
      · have hevict := h.evictOldest horder
        have hlimit := congrArg Prod.snd (c.limits_evictOldest oldest rest)
        exact ih hevict.1 (hbytes.trans_eq hlimit.symm) hevict.2
      · exact ⟨h, by simpa using hfull⟩

theorem evictionRemovals_le (h : c.Accounted) (bytes : ℕ) {order : List SearchCacheKey}
    (horder : c.order = order) : ∀ p ∈ evictionRemovals bytes order c, p.2 ≤ p.1 := by
  induction order generalizing c with
  | nil => simp [evictionRemovals]
  | cons oldest rest ih =>
      intro p hp
      unfold evictionRemovals at hp
      split_ifs at hp
      · rcases List.mem_append.mp hp with hp | hp
        · exact h.removal_le oldest p hp
        · have hevict := h.evictOldest horder
          exact ih hevict.1 hevict.2 p hp
      · exact absurd hp List.not_mem_nil

/-! ### Storing an entry -/

/-- An entry under a new key, where there is room for it. -/
theorem insert (h : c.Accounted) {key : SearchCacheKey} (hfree : c.find? key = none) (e : Entry)
    (hroom : c.full e.bytes = false) :
    SearchCache.Accounted
      { c with
        usedBytes := c.usedBytes + e.bytes
        order := c.order ++ [key]
        entries := c.entries.upsert (key, e) } := by
  have hkeys : ∀ p ∈ c.entries.rows, p.1 ≠ key := find?_eq_none_iff.mp hfree
  have hinsert : c.entries.upsert (key, e) = c.entries.insertOrIgnore (key, e) :=
    Table.upsert_of_free hkeys
  have hrows : (c.entries.insertOrIgnore (key, e)).rows = c.entries.rows ++ [(key, e)] :=
    Table.rows_insertOrIgnore_of_free hkeys
  have hnew : key ∉ c.order := by
    intro hmem
    obtain ⟨p, hp, hkey⟩ := List.mem_map.mp (h.order_perm.subset hmem)
    exact hkeys p hp hkey
  simp only [full, Bool.or_eq_false_iff, decide_eq_false_iff_not, not_lt, ge_iff_le,
    not_le] at hroom
  rw [hinsert]
  constructor
  · dsimp only
    rw [hrows, List.map_append]
    exact h.order_perm.append (List.Perm.refl [key])
  · exact List.nodup_append.mpr ⟨h.order_nodup, List.nodup_singleton key, by
      rintro a ha b hb rfl
      exact hnew (List.mem_singleton.mp hb ▸ ha)⟩
  · dsimp only
    rw [Table.total_insertOrIgnore_of_free hkeys, h.usedBytes_eq]
  · exact hroom.1
  · dsimp only
    rw [hrows, List.length_append]
    exact hroom.2
  · exact h.maxEntries_pos

theorem put (h : c.Accounted) (now : ℕ) (key : SearchCacheKey) (results : List SearchCommand)
    (ttl : CacheTtl) : (c.put now key results ttl).2.Accounted := by
  unfold SearchCache.put
  dsimp only
  split_ifs with hlarge
  · exact h
  · have hlimit : (c.remove key).maxBytes = c.maxBytes := congrArg Prod.snd (c.limits_remove key)
    have hbytes : estimateBytes results ≤ (c.remove key).maxBytes := by omega
    obtain ⟨hkept, hroom⟩ := (h.remove key).evict hbytes rfl
    -- The old entry of the key went first, and an eviction brings nothing back.
    have hfree : (SearchCache.evict (estimateBytes results) (c.remove key).order
        (c.remove key)).find? key = none := by
      refine Option.eq_none_iff_forall_ne_some.mpr fun e he => ?_
      have hremoved := find?_evict _ _ _ he
      rw [find?_remove, if_pos rfl] at hremoved
      exact absurd hremoved (by simp)
    exact hkept.insert hfree ⟨results, now, ttl.duration, estimateBytes results⟩ hroom

/-- One operation keeps the agreement. -/
theorem apply (h : c.Accounted) (op : CacheOp) : (c.apply op).Accounted := by
  cases op with
  | put now key results ttl => exact h.put now key results ttl
  | get now key => exact h.get now key
  | remove key => exact h.remove key

/-- No subtraction of an operation takes more than there is. -/
theorem subtractions_le (h : c.Accounted) (op : CacheOp) : ∀ p ∈ c.subtractions op, p.2 ≤ p.1 := by
  intro p hp
  cases op with
  | put now key results ttl =>
      simp only [subtractions] at hp
      split_ifs at hp
      · exact absurd hp List.not_mem_nil
      · rcases List.mem_append.mp hp with hp | hp
        · exact h.removal_le key p hp
        · exact (h.remove key).evictionRemovals_le _ rfl p hp
  | get now key =>
      simp only [subtractions] at hp
      split_ifs at hp
      · exact h.removal_le key p hp
      · exact absurd hp List.not_mem_nil
  | remove key => exact h.removal_le key p hp

end Accounted

end SearchCache

/-! ## Runs -/

/-- The cache as a machine: every operation is possible in every state. -/
def cacheMachine : Machine SearchCache CacheOp where
  step c op := some (c.apply op)

namespace SearchCache

/-- **Accounting.** In every state that a run of operations from an empty cache meets, the order is
the keys of the map without repetition, the used bytes are the sum of the entries' sizes and within
their limit, the entries are within theirs, and the next operation, whichever it is, never
subtracts more from the used bytes than there is. -/
theorem visits_accounted (maxEntries maxBytes : ℕ) (ops : List CacheOp) (c : SearchCache)
    (hvisit : cacheMachine.Visits (new maxEntries maxBytes) ops c) :
    c.order.Perm (c.entries.rows.map Prod.fst) ∧ c.order.Nodup ∧
      (c.usedBytes = c.entries.total fun p => p.2.bytes) ∧
      (∀ op, ∀ p ∈ c.subtractions op, p.2 ≤ p.1) ∧
      c.usedBytes ≤ max maxBytes 1 ∧ c.entries.rows.length ≤ max maxEntries 1 := by
  obtain ⟨done, -, hrun⟩ := hvisit
  obtain ⟨h, hlimits⟩ : c.Accounted ∧ c.limits = (new maxEntries maxBytes).limits :=
    cacheMachine.run_inv_of_step
      (I := fun s => s.Accounted ∧ s.limits = (new maxEntries maxBytes).limits)
      (fun s op s' hs hstep => by
        obtain rfl : s.apply op = s' := Option.some.inj hstep
        exact ⟨hs.1.apply op, (s.limits_apply op).trans hs.2⟩)
      ⟨accounted_new maxEntries maxBytes, rfl⟩ hrun
  have hbytes : c.maxBytes = max maxBytes 1 := congrArg Prod.snd hlimits
  have hentries : c.maxEntries = max maxEntries 1 := congrArg Prod.fst hlimits
  exact ⟨h.order_perm, h.order_nodup, h.usedBytes_eq, h.subtractions_le, hbytes ▸ h.usedBytes_le,
    hentries ▸ h.count_le⟩

/-- Two keys put into a cache with room for one. -/
def twoPuts : List CacheOp :=
  [.put 0 ⟨⟨0, 0, 0, 0, 0⟩, "a"⟩ [] .complete, .put 1 ⟨⟨0, 0, 0, 0, 0⟩, "b"⟩ [] .negative]

/-- The first key is evicted, and its bytes with it. -/
theorem visits_accounted_twoPuts :
    let c := twoPuts.foldl apply (new 1 1000)
    c.order = [⟨⟨0, 0, 0, 0, 0⟩, "b"⟩] ∧ c.evictions = 1 ∧
      (c.usedBytes = c.entries.total fun p => p.2.bytes) ∧ c.usedBytes ≤ 1000 := by
  intro c
  obtain ⟨-, -, hbytes, -, hlimit, -⟩ := visits_accounted 1 1000 twoPuts c (.of_run rfl)
  exact ⟨by decide, by decide, hbytes, hlimit⟩

end SearchCache

end AuraLauncher.Search
