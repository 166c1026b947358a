import AuraLauncher.Search.CacheInvariant

/-!
# Which entries the search cache evicts

`launcher-search/src/cache.rs` calls the cache an LRU. A `put` moves its key to the end of the
order, and an eviction takes the first key of the order; a `get` that finds an entry counts a hit
and leaves the order as it is. So what is evicted is the entry that was stored first, and that is
the least recently used one only as long as no older entry is asked for.

* `used`, `lastUse` — the key that an operation uses, and when a key was last used; the answers of
  `get` count as uses or do not.
* `evictions` — the keys that an operation evicts, each with the keys that were stored then.
* `EvictsOldest` — what is evicted was used last before everything else that was stored.
* `AsksForNewest` — a `get` that finds an entry finds the one that was stored last.
* `oldestFirst_iff_along` — the order is the order of use exactly in the runs whose steps meet this.
* `evicts_leastRecentlyUsed`, `evicts_firstStored` — what is evicted in these runs, and in all.
* `not_evicts_leastRecentlyUsed` — an entry that was just asked for is evicted.

A `put` that is rejected stores nothing and is no use of its key.
-/

namespace AuraLauncher.Search

open AuraLauncher.Lib

/-- What happened before: the states and the operations, newest first. -/
abbrev CachePast := List (SearchCache × CacheOp)

namespace SearchCache

/-! ## Use -/

/-- The key that an operation uses: the one it stores or, if answers count, the one it finds. -/
def used (answers : Bool) (c : SearchCache) : CacheOp → Option SearchCacheKey
  | .put _ key results _ => if estimateBytes results > c.maxBytes / 4 then none else some key
  | .get now key => if answers && (c.live now key).isSome then some key else none
  | .remove _ => none

/-- When a key was last used, counted in operations. -/
def lastUse (answers : Bool) : CachePast → SearchCacheKey → ℕ
  | [], _ => 0
  | (c, op) :: past, key =>
      if c.used answers op = some key then past.length + 1 else lastUse answers past key

theorem lastUse_le (answers : Bool) (past : CachePast) (key : SearchCacheKey) :
    lastUse answers past key ≤ past.length := by
  induction past with
  | nil => exact Nat.le_refl 0
  | cons p past ih =>
      rw [lastUse]
      split_ifs
      · exact Nat.le_refl _
      · exact ih.trans (Nat.le_succ _)

theorem lastUse_cons_of_used {answers : Bool} {c : SearchCache} {op : CacheOp}
    {key : SearchCacheKey} (h : c.used answers op = some key) (past : CachePast) :
    lastUse answers ((c, op) :: past) key = past.length + 1 := if_pos h

theorem lastUse_cons_of_ne {answers : Bool} {c : SearchCache} {op : CacheOp} {key : SearchCacheKey}
    (h : c.used answers op ≠ some key) (past : CachePast) :
    lastUse answers ((c, op) :: past) key = lastUse answers past key := if_neg h

/-! ## Evictions -/

/-- The keys that are stored. -/
def keys (c : SearchCache) : List SearchCacheKey := c.entries.rows.map Prod.fst

/-- The keys that the eviction loop takes out, each with the keys that are stored then. -/
def evictedKeys (bytes : ℕ) : List SearchCacheKey → SearchCache →
    List (SearchCacheKey × List SearchCacheKey)
  | [], _ => []
  | oldest :: rest, c =>
      if c.full bytes then
        ((c.find? oldest).map fun _ => (oldest, c.keys)).toList ++
          evictedKeys bytes rest (c.evictOldest oldest rest)
      else []

/-- The keys that an operation evicts. -/
def evictedBy (c : SearchCache) : CacheOp → List (SearchCacheKey × List SearchCacheKey)
  | .put _ key results _ =>
      if estimateBytes results > c.maxBytes / 4 then []
      else evictedKeys (estimateBytes results) (c.remove key).order (c.remove key)
  | _ => []

/-- Whatever the operation evicts was used last before everything else that was stored then. -/
def EvictsOldest (answers : Bool) (p : SearchCache × CachePast) (op : CacheOp) : Prop :=
  ∀ e ∈ p.1.evictedBy op, ∀ k ∈ e.2, k ≠ e.1 → lastUse answers p.2 e.1 < lastUse answers p.2 k

/-- If the operation finds an entry, and answers count, it is the one that was stored last. -/
def AsksForNewest (answers : Bool) (c : SearchCache) : CacheOp → Prop
  | .get now key => answers = true → (c.live now key).isSome = true → c.order.getLast? = some key
  | _ => True

instance (answers : Bool) (c : SearchCache) :
    (op : CacheOp) → Decidable (AsksForNewest answers c op)
  | .get _ _ => inferInstanceAs (Decidable (_ → _ → _))
  | .put _ _ _ _ => .isTrue trivial
  | .remove _ => .isTrue trivial

/-! ## The order -/

theorem order_remove_sublist (c : SearchCache) (key : SearchCacheKey) :
    List.Sublist (c.remove key).order c.order := by
  unfold remove
  cases c.find? key with
  | none => exact List.Sublist.refl _
  | some e => exact List.filter_sublist

theorem order_evictOldest (c : SearchCache) (oldest : SearchCacheKey) (rest : List SearchCacheKey) :
    (c.evictOldest oldest rest).order = rest := by
  unfold evictOldest
  cases c.find? oldest <;> rfl

theorem order_evict_suffix (bytes : ℕ) {order : List SearchCacheKey} {c : SearchCache}
    (h : c.order = order) : (evict bytes order c).order <:+ order := by
  induction order generalizing c with
  | nil =>
      rw [evict, h]
  | cons oldest rest ih =>
      rw [evict]
      split_ifs
      · exact (ih (c.order_evictOldest oldest rest)).trans (List.suffix_cons oldest rest)
      · rw [h]

/-- The key of an operation that stores or finds nothing is in the order only if it was there. -/
theorem Accounted.not_mem_order {c : SearchCache} (h : c.Accounted) {key : SearchCacheKey}
    (hfind : c.find? key = none) : key ∉ c.order := by
  intro hmem
  obtain ⟨p, hp, hkey⟩ := List.mem_map.mp (h.order_perm.subset hmem)
  exact find?_eq_none_iff.mp hfind p hp hkey

theorem Accounted.mem_order {c : SearchCache} (h : c.Accounted) {key : SearchCacheKey} {e : Entry}
    (hfind : c.find? key = some e) : key ∈ c.order := by
  have hrow := (Table.find?_eq_some_iff.mp (find?_eq_some_iff.mp hfind)).1
  exact h.order_perm.mem_iff.mpr (List.mem_map.mpr ⟨_, hrow, rfl⟩)

/-- A `get` at most takes the key out of the order. -/
theorem order_get_sublist (c : SearchCache) (now : ℕ) (key : SearchCacheKey) :
    List.Sublist (c.get now key).2.order c.order := by
  unfold get
  split_ifs
  · exact c.order_remove_sublist key
  · cases c.find? key <;> exact List.Sublist.refl _

/-- A `get` that finds an entry leaves the order as it is. -/
theorem order_get_of_live {c : SearchCache} {now : ℕ} {key : SearchCacheKey} {e : Entry}
    (h : c.live now key = some e) : (c.get now key).2.order = c.order := by
  obtain ⟨hfind, hlive⟩ := Option.filter_eq_some_iff.mp h
  have hexpired : ¬ (c.find? key).any (fun e => e.expired now) = true := by
    simpa [hfind] using hlive
  rw [get, if_neg hexpired, hfind]

/-- The order after a `put` that stores: what an eviction leaves of the other keys, and the key. -/
theorem exists_order_put {c : SearchCache} (h : c.Accounted) (now : ℕ) (key : SearchCacheKey)
    {results : List SearchCommand} (ttl : CacheTtl)
    (hfits : ¬ estimateBytes results > c.maxBytes / 4) :
    ∃ order, List.Sublist order c.order ∧ key ∉ order ∧
      (c.put now key results ttl).2.order = order ++ [key] := by
  have hsuffix := order_evict_suffix (estimateBytes results) (c := c.remove key) rfl
  have hgone : key ∉ (c.remove key).order :=
    (h.remove key).not_mem_order (by rw [find?_remove, if_pos rfl])
  refine ⟨_, hsuffix.sublist.trans (c.order_remove_sublist key),
    fun hmem => hgone (hsuffix.subset hmem), ?_⟩
  simp only [put, if_neg hfits]

/-! ## The order of use -/

/-- The keys are accounted for and stand in the order in which they were used last. -/
def OldestFirst (answers : Bool) (p : SearchCache × CachePast) : Prop :=
  p.1.Accounted ∧
    p.1.order.Pairwise fun k k' => lastUse answers p.2 k < lastUse answers p.2 k'

section step

variable {answers : Bool} {c : SearchCache} {past : CachePast}

/-- What uses nothing and adds nothing to the order keeps it. -/
theorem pairwise_of_unused {op : CacheOp} {order : List SearchCacheKey}
    (h : c.order.Pairwise fun k k' => lastUse answers past k < lastUse answers past k')
    (hused : c.used answers op = none) (hsub : List.Sublist order c.order) :
    order.Pairwise fun k k' =>
      lastUse answers ((c, op) :: past) k < lastUse answers ((c, op) :: past) k' := by
  have hsame : ∀ k, lastUse answers ((c, op) :: past) k = lastUse answers past k :=
    fun k => lastUse_cons_of_ne (by simp [hused]) past
  simpa only [hsame] using h.sublist hsub

/-- The key that is used goes last. -/
theorem pairwise_of_used {op : CacheOp} {order : List SearchCacheKey} {key : SearchCacheKey}
    (h : c.order.Pairwise fun k k' => lastUse answers past k < lastUse answers past k')
    (hused : c.used answers op = some key) (hsub : List.Sublist order c.order)
    (hkey : key ∉ order) :
    (order ++ [key]).Pairwise fun k k' =>
      lastUse answers ((c, op) :: past) k < lastUse answers ((c, op) :: past) k' := by
  have hsame : ∀ k ∈ order, lastUse answers ((c, op) :: past) k = lastUse answers past k := by
    intro k hk
    refine lastUse_cons_of_ne (fun hk' => hkey ?_) past
    rwa [Option.some.inj (hused.symm.trans hk')]
  refine List.pairwise_append.mpr ⟨?_, List.pairwise_singleton _ _, fun k hk k' hk' => ?_⟩
  · refine (h.sublist hsub).imp_of_mem fun {k k'} hk hk' hlt => ?_
    rwa [hsame k hk, hsame k' hk']
  · obtain rfl := List.mem_singleton.mp hk'
    rw [hsame k hk, lastUse_cons_of_used hused]
    exact Nat.lt_succ_of_le (lastUse_le answers past k)

/-- An order that stays as it is while one of its keys is used: that key must be the last. -/
theorem pairwise_same_iff {op : CacheOp} {key : SearchCacheKey}
    (h : c.order.Pairwise fun k k' => lastUse answers past k < lastUse answers past k')
    (hnodup : c.order.Nodup) (hused : c.used answers op = some key) (hmem : key ∈ c.order) :
    (c.order.Pairwise fun k k' =>
        lastUse answers ((c, op) :: past) k < lastUse answers ((c, op) :: past) k') ↔
      c.order.getLast? = some key := by
  constructor
  · intro hpairwise
    obtain ⟨before, after, hsplit⟩ := List.append_of_mem hmem
    -- A key after it would have been used later than now.
    cases after with
    | nil => rw [hsplit, List.getLast?_append, List.getLast?_singleton, Option.some_or]
    | cons k after =>
        rw [hsplit] at hpairwise
        have hlt := List.rel_of_pairwise_cons (List.pairwise_append.mp hpairwise).2.1
          List.mem_cons_self
        have hle := lastUse_le answers ((c, op) :: past) k
        rw [lastUse_cons_of_used hused] at hlt
        exact absurd hlt (Nat.not_lt.mpr hle)
  · intro hlast
    obtain ⟨order, hsplit⟩ := List.getLast?_eq_some_iff.mp hlast
    rw [hsplit] at hnodup ⊢
    have hkey : key ∉ order := fun hmem =>
      (List.nodup_append.mp hnodup).2.2 key hmem key List.mem_cons_self rfl
    exact pairwise_of_used h hused (hsplit ▸ List.sublist_append_left order [key]) hkey

/-- **One operation.** The order stays the order of use exactly when the operation does not find an
entry that is not the newest. -/
theorem oldestFirst_apply_iff (h : OldestFirst answers (c, past)) (op : CacheOp) :
    OldestFirst answers (c.apply op, (c, op) :: past) ↔ AsksForNewest answers c op := by
  obtain ⟨hc, hsorted⟩ := h
  refine (and_iff_right (hc.apply op)).trans ?_
  cases op with
  | put now key results ttl =>
      refine iff_of_true ?_ trivial
      by_cases hlarge : estimateBytes results > c.maxBytes / 4
      · have horder : (c.apply (.put now key results ttl)).order = c.order := by
          simp only [apply, put, if_pos hlarge]
        exact horder ▸ pairwise_of_unused hsorted (if_pos hlarge) (List.Sublist.refl _)
      · obtain ⟨order, hsub, hkey, horder⟩ := exists_order_put hc now key ttl hlarge
        have horder : (c.apply (.put now key results ttl)).order = order ++ [key] := horder
        exact horder ▸ pairwise_of_used hsorted (if_neg hlarge) hsub hkey
  | get now key =>
      by_cases hlive : answers = true ∧ (c.live now key).isSome = true
      · have hused : c.used answers (.get now key) = some key := by simp [used, hlive]
        obtain ⟨e, he⟩ := Option.isSome_iff_exists.mp hlive.2
        have horder : (c.apply (.get now key)).order = c.order := order_get_of_live he
        have hasks : AsksForNewest answers c (.get now key) ↔ c.order.getLast? = some key :=
          ⟨fun h => h hlive.1 hlive.2, fun h _ _ => h⟩
        have hmem : key ∈ c.order := hc.mem_order (Option.filter_eq_some_iff.mp he).1
        rw [horder, hasks]
        exact pairwise_same_iff hsorted hc.order_nodup hused hmem
      · have hused : c.used answers (.get now key) = none := by
          rw [used, if_neg]
          simpa using hlive
        refine iff_of_true (pairwise_of_unused hsorted hused (c.order_get_sublist now key)) ?_
        exact fun hanswers hfound => absurd ⟨hanswers, hfound⟩ hlive
  | remove key =>
      exact iff_of_true (pairwise_of_unused hsorted rfl (c.order_remove_sublist key)) trivial

end step

/-! ## What is evicted -/

/-- The loop takes out the first key of the order, which was used last before all others. -/
theorem lastUse_lt_of_evictedKeys {answers : Bool} {past : CachePast} (bytes : ℕ)
    {order : List SearchCacheKey} {c : SearchCache} (horder : c.order = order)
    (h : OldestFirst answers (c, past)) : ∀ e ∈ evictedKeys bytes order c, ∀ k ∈ e.2, k ≠ e.1 →
      lastUse answers past e.1 < lastUse answers past k := by
  induction order generalizing c with
  | nil => exact fun e he => absurd he List.not_mem_nil
  | cons oldest rest ih =>
      obtain ⟨hc, hsorted⟩ := h
      intro e he k hk hne
      rw [horder] at hsorted
      obtain ⟨holdest, hrest⟩ := List.pairwise_cons.mp hsorted
      rw [evictedKeys] at he
      split_ifs at he
      · rcases List.mem_append.mp he with he | he
        · obtain ⟨-, -, rfl⟩ := Option.map_eq_some_iff.mp (Option.mem_toList.mp he)
          have hmem : k ∈ oldest :: rest := horder ▸ hc.order_perm.mem_iff.mpr hk
          exact holdest k ((List.mem_cons.mp hmem).resolve_left hne)
        · obtain ⟨hevicted, hnext⟩ := hc.evictOldest horder
          refine ih hnext ⟨hevicted, ?_⟩ e he k hk hne
          rwa [hnext]
      · exact absurd he List.not_mem_nil

theorem evictsOldest_of_oldestFirst {answers : Bool} {p : SearchCache × CachePast}
    (h : OldestFirst answers p) (op : CacheOp) : EvictsOldest answers p op := by
  intro e he
  cases op with
  | put now key results ttl =>
      simp only [evictedBy] at he
      split_ifs at he
      · exact absurd he List.not_mem_nil
      · have hremoved : OldestFirst answers (p.1.remove key, p.2) :=
          ⟨h.1.remove key, h.2.sublist (p.1.order_remove_sublist key)⟩
        exact lastUse_lt_of_evictedKeys _ rfl hremoved e he
  | get now key => exact absurd he List.not_mem_nil
  | remove key => exact absurd he List.not_mem_nil

/-! ## Runs -/

section runs

variable (maxEntries maxBytes : ℕ) (ops : List CacheOp)

/-- **The order is the order of use** in every state of a run exactly when no step of the run finds
an entry that is not the newest. -/
theorem oldestFirst_iff_along (answers : Bool) :
    (∀ p, cacheMachine.withHistory.Visits (new maxEntries maxBytes, []) ops p →
      OldestFirst answers p) ↔
      cacheMachine.Along (AsksForNewest answers) (new maxEntries maxBytes) ops := by
  rw [← cacheMachine.along_withHistory (new maxEntries maxBytes, []) ops]
  refine Machine.forall_visits_iff_along _ (fun p op _ => ⟨_, rfl⟩) (fun p op p' h hstep => ?_)
    ⟨accounted_new maxEntries maxBytes, List.Pairwise.nil⟩
  obtain rfl : (p.1.apply op, (p.1, op) :: p.2) = p' := Option.some.inj hstep
  exact oldestFirst_apply_iff h op

/-- **What is evicted, when nothing but the newest entry is asked for**: in every state of such a
run, whatever the next operation is, it evicts the least recently used of the entries stored. -/
theorem evicts_leastRecentlyUsed
    (h : cacheMachine.Along (AsksForNewest true) (new maxEntries maxBytes) ops)
    (p : SearchCache × CachePast)
    (hvisit : cacheMachine.withHistory.Visits (new maxEntries maxBytes, []) ops p) (op : CacheOp) :
    EvictsOldest true p op :=
  evictsOldest_of_oldestFirst ((oldestFirst_iff_along maxEntries maxBytes ops true).mpr h p hvisit)
    op

/-- **What is evicted in any run**: the entry that was stored first. -/
theorem evicts_firstStored (p : SearchCache × CachePast)
    (hvisit : cacheMachine.withHistory.Visits (new maxEntries maxBytes, []) ops p) (op : CacheOp) :
    EvictsOldest false p op := by
  have halong : cacheMachine.Along (AsksForNewest false) (new maxEntries maxBytes) ops := by
    refine Machine.Along.mono (G := fun _ _ => True) (fun c op _ => ?_)
      (cacheMachine.along_of_forall fun _ _ => trivial)
    cases op with
    | get now key => exact fun hfalse => absurd hfalse Bool.false_ne_true
    | _ => trivial
  exact evictsOldest_of_oldestFirst
    ((oldestFirst_iff_along maxEntries maxBytes ops false).mpr halong p hvisit) op

end runs

/-- The key of a query before any change. -/
def plainKey (query : String) : SearchCacheKey := ⟨⟨0, 0, 0, 0, 0⟩, query⟩

/-- Two keys are stored in a cache with room for two, and one of them is asked for. -/
def storedAndAsked (asked : String) : List CacheOp :=
  [.put 0 (plainKey "a") [] .complete, .put 1 (plainKey "b") [] .complete,
    .get 2 (plainKey asked)]

/-- The cache then, with its past. -/
def askedCache (asked : String) : SearchCache × CachePast :=
  let empty := new 2 1000
  let one := empty.apply (.put 0 (plainKey "a") [] .complete)
  let two := one.apply (.put 1 (plainKey "b") [] .complete)
  (two.apply (.get 2 (plainKey asked)), [(two, .get 2 (plainKey asked)),
    (one, .put 1 (plainKey "b") [] .complete), (empty, .put 0 (plainKey "a") [] .complete)])

/-- When it is the newer one, a third key takes the place of the older. -/
theorem evicts_leastRecentlyUsed_askedNewest :
    let op : CacheOp := .put 3 (plainKey "c") [] .complete
    (askedCache "b").1.evictedBy op = [(plainKey "a", [plainKey "a", plainKey "b"])] ∧
      EvictsOldest true (askedCache "b") op := by
  intro op
  refine ⟨by decide +kernel, ?_⟩
  exact evicts_leastRecentlyUsed 2 1000 (storedAndAsked "b") (by decide +kernel) (askedCache "b")
    (.of_run rfl) op

/-- When it is the older one, it is evicted all the same. -/
theorem not_evicts_leastRecentlyUsed :
    ¬ ∀ (maxEntries maxBytes : ℕ) (ops : List CacheOp) (p : SearchCache × CachePast),
      cacheMachine.withHistory.Visits (new maxEntries maxBytes, []) ops p →
      ∀ op, EvictsOldest true p op := by
  intro h
  have hevicts := h 2 1000 (storedAndAsked "a") (askedCache "a") (.of_run rfl)
    (.put 3 (plainKey "c") [] .complete) (plainKey "a", [plainKey "a", plainKey "b"])
    (by decide +kernel) (plainKey "b") (by decide) (by decide)
  exact absurd hevicts (by decide +kernel)

end SearchCache

end AuraLauncher.Search
