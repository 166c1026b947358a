import AuraLauncher.Lib.Machine
import AuraLauncher.Providers.Icons

/-!
# What the memory cache of icons keeps

The cache counts its bytes apart from the entries and orders the entries by stamps. Both counts are
right modulo the machine word whatever is put; they are right as numbers as long as the entries of
the cache together with the bitmap that is put fit a word.

* `IconOp`, `iconMachine` — the operations, as the steps of a machine.
* `usesOf`, `Older` — the hits and the accepted puts of a past, and which entry was used longer ago.
* `IconMemoryCache.StepSound`, `CacheSound` — what the cache promises of one operation and of a run.
* `IconMemoryCache.Counted`, `IconMemoryCache.Stamped` — what every operation keeps, without any
  condition.
* `IconMemoryCache.Fits` — the bytes of the entries and of the bitmap fit a word.
* `cacheSound_iff` — the promise is kept along exactly those runs whose steps all fit.
* `not_cacheSound_of_halfWords` — a run that does not fit.
* `along_fits_of_small` — with a budget below half the words and bitmaps below a word every run
  does.
-/

namespace AuraLauncher.Providers

open AuraLauncher.Lib

/-! ## Runs -/

/-- An operation on the cache. -/
inductive IconOp where
  | get (key : IconKey)
  | put (key : IconKey) (bitmap : IconBitmap)

namespace IconOp

/-- The key of an operation. -/
def key : IconOp → IconKey
  | .get key => key
  | .put key _ => key

/-- The operation is a use of its key: a hit, or a put that is not refused. -/
def isUse (c : IconMemoryCache) : IconOp → Bool
  | .get key => (c.entries.find? key.cacheKey).isSome
  | .put _ bitmap => decide (bitmap.byteLen ≤ c.budgetBytes)

end IconOp

namespace IconMemoryCache

/-- The entries that an operation evicts, and the cache after it. -/
def apply (c : IconMemoryCache) : IconOp → List CacheEntry × IconMemoryCache
  | .get key => ([], (c.get key).2)
  | .put key bitmap => c.put key bitmap

/-- The bytes of the bitmaps that are stored. -/
def stored (c : IconMemoryCache) : ℕ := c.entries.total fun e => e.bitmap.size

/-- The subtractions that a list of evictions makes, each as what there is and what is taken. -/
def evictionSubtractions (used : UInt64) : List CacheEntry → List (UInt64 × UInt64)
  | [] => []
  | e :: rest =>
      (used, e.bitmap.byteLen) :: evictionSubtractions (used - e.bitmap.byteLen) rest

/-- The subtractions from the used bytes that an operation makes, in their order. -/
def subtractions (c : IconMemoryCache) : IconOp → List (UInt64 × UInt64)
  | .get _ => []
  | .put key bitmap =>
      ((c.entries.find? key.cacheKey).map fun e => (c.usedBytes, e.bitmap.byteLen)).toList ++
        evictionSubtractions ((c.remove key.cacheKey).insert key.cacheKey bitmap).usedBytes
          (c.put key bitmap).1

end IconMemoryCache

/-- The cache under its operations. -/
def iconMachine : Machine IconMemoryCache IconOp where
  step c op := some (c.apply op).2

/-- The operations so far, newest first, each with the cache it met. -/
abbrev IconPast := List (IconMemoryCache × IconOp)

/-- The keys of the hits and the accepted puts of a past, newest first. -/
def usesOf (past : IconPast) : List String :=
  past.filterMap fun p => if p.2.isUse p.1 then some p.2.key.cacheKey else none

/-- The last use of `e` is further back than that of `e'`. -/
def Older (uses : List String) (e e' : CacheEntry) : Prop :=
  uses.idxOf e'.key < uses.idxOf e.key

namespace IconMemoryCache

/-- What the cache promises of an operation, with the budget it was made with: the used bytes are
those of the stored bitmaps and within the budget, no subtraction takes more than there is, a
bitmap that was just put is stored if it fits the budget and none larger than the budget is, and
every evicted entry was the one whose last use was the oldest. -/
structure StepSound (budget : UInt64) (p : IconMemoryCache × IconPast) (op : IconOp) : Prop where
  used_eq : (p.1.apply op).2.usedBytes.toNat = (p.1.apply op).2.stored
  used_le : (p.1.apply op).2.usedBytes ≤ budget
  no_underflow : ∀ s ∈ p.1.subtractions op, s.2 ≤ s.1
  put_stored : ∀ key bitmap, op = .put key bitmap → bitmap.size ≤ budget.toNat →
    ∃ e ∈ (p.1.apply op).2.entries.rows, e.key = key.cacheKey ∧ e.bitmap = bitmap
  size_le : ∀ e ∈ (p.1.apply op).2.entries.rows, e.bitmap.size ≤ budget.toNat
  evicted_ordered : (p.1.apply op).1.Pairwise (Older (usesOf ((p.1, op) :: p.2)))
  evicted_older : ∀ e ∈ (p.1.apply op).1, ∀ e' ∈ (p.1.apply op).2.entries.rows,
    Older (usesOf ((p.1, op) :: p.2)) e e'

end IconMemoryCache

/-- Every operation of a run on a new cache keeps what the cache promises. -/
def CacheSound (budget : UInt64) (ops : List IconOp) : Prop :=
  iconMachine.withHistory.Along (IconMemoryCache.StepSound budget) (.new budget, []) ops

namespace IconMemoryCache

variable {c : IconMemoryCache} {uses : List String}

/-! ## The count of the bytes -/

/-- The used bytes are those of the stored bitmaps, modulo the word. -/
def Counted (c : IconMemoryCache) : Prop := c.usedBytes = UInt64.ofNat c.stored

theorem Counted.toNat (h : c.Counted) (hlt : c.stored < 2 ^ 64) :
    c.usedBytes.toNat = c.stored := by
  rw [h, UInt64.toNat_ofNat', Nat.mod_eq_of_lt hlt]

/-- The bytes under a key are what its removal gives back. -/
theorem stored_remove (c : IconMemoryCache) (k : String) :
    (c.remove k).stored + (c.entries.find? k).elim 0 (fun e => e.bitmap.size) = c.stored := by
  unfold stored
  rw [entries_remove]
  exact Table.total_deleteWhere_key

theorem size_le_stored {e : CacheEntry} (he : e ∈ c.entries.rows) : e.bitmap.size ≤ c.stored := by
  have hsplit := c.stored_remove e.key
  rw [Table.find?_eq_some_iff.mpr ⟨he, rfl⟩, Option.elim_some] at hsplit
  omega

theorem stored_remove_le (c : IconMemoryCache) (k : String) : (c.remove k).stored ≤ c.stored := by
  have hsplit := c.stored_remove k
  omega

/-- A removal keeps the count. -/
theorem Counted.remove (h : c.Counted) (k : String) : (c.remove k).Counted := by
  have hsplit := c.stored_remove k
  cases hfind : c.entries.find? k with
  | none =>
      have hsame : c.remove k = c := by rw [IconMemoryCache.remove, hfind]
      rwa [hsame]
  | some e =>
      rw [hfind, Option.elim_some] at hsplit
      have hused : (c.remove k).usedBytes = c.usedBytes - e.bitmap.byteLen := by
        rw [IconMemoryCache.remove, hfind]
      have hle : e.bitmap.size ≤ c.stored := by omega
      have hrest : (c.remove k).stored = c.stored - e.bitmap.size := by omega
      rw [Counted, hused, hrest, h, e.bitmap.byteLen_eq, UInt64.ofNat_sub hle]

/-- After a removal its key is free. -/
theorem free_remove (c : IconMemoryCache) (k : String) :
    ∀ e ∈ (c.remove k).entries.rows, e.key ≠ k := by
  intro e he
  rw [entries_remove, Table.mem_deleteWhere] at he
  simpa using he.2

theorem rows_insert {k : String} (hfree : ∀ e ∈ c.entries.rows, e.key ≠ k) (b : IconBitmap) :
    (c.insert k b).entries.rows =
      c.entries.rows ++ [{ key := k, bitmap := b, stamp := c.clock + 1 }] := by
  dsimp only [insert]
  rw [Table.upsert_of_free hfree, Table.rows_insertOrIgnore_of_free hfree]

theorem stored_insert {k : String} (hfree : ∀ e ∈ c.entries.rows, e.key ≠ k) (b : IconBitmap) :
    (c.insert k b).stored = c.stored + b.size := by
  dsimp only [stored, insert]
  rw [Table.upsert_of_free hfree, Table.total_insertOrIgnore_of_free hfree]

/-- An insertion under a free key keeps the count. -/
theorem Counted.insert (h : c.Counted) {k : String} (hfree : ∀ e ∈ c.entries.rows, e.key ≠ k)
    (b : IconBitmap) : (c.insert k b).Counted := by
  have hused : (c.insert k b).usedBytes = c.usedBytes + b.byteLen := rfl
  rw [Counted, hused, stored_insert hfree, h, b.byteLen_eq, UInt64.ofNat_add]

theorem Counted.evict (h : c.Counted) (e : CacheEntry) : (c.evict e).Counted := h.remove e.key

/-- A hit changes no bitmap. -/
theorem stored_get (c : IconMemoryCache) (key : IconKey) : (c.get key).2.stored = c.stored := by
  unfold get
  cases c.entries.find? key.cacheKey with
  | none => rfl
  | some entry => exact Table.total_updateWhere (CacheEntry.key_stamped _) fun _ => rfl

theorem usedBytes_get (c : IconMemoryCache) (key : IconKey) :
    (c.get key).2.usedBytes = c.usedBytes := by
  unfold get
  cases c.entries.find? key.cacheKey <;> rfl

theorem budgetBytes_get (c : IconMemoryCache) (key : IconKey) :
    (c.get key).2.budgetBytes = c.budgetBytes := by
  unfold get
  cases c.entries.find? key.cacheKey <;> rfl

/-! ## The order of the stamps -/

/-- The clock counts the uses, and the stamp of an entry is the clock at its last use. -/
structure Stamped (c : IconMemoryCache) (uses : List String) : Prop where
  clock_eq : c.clock = uses.length
  mem_uses : ∀ e ∈ c.entries.rows, e.key ∈ uses
  stamp_eq : ∀ e ∈ c.entries.rows, e.stamp + uses.idxOf e.key = uses.length

/-- The entry with the smaller stamp was used longer ago. -/
theorem Stamped.older_iff (h : c.Stamped uses) {e e' : CacheEntry} (he : e ∈ c.entries.rows)
    (he' : e' ∈ c.entries.rows) : Older uses e e' ↔ e.stamp < e'.stamp := by
  have hstamp := h.stamp_eq e he
  have hstamp' := h.stamp_eq e' he'
  unfold Older
  omega

/-- Two entries with the same stamp are the same entry. -/
theorem Stamped.eq_of_stamp_eq (h : c.Stamped uses) {e e' : CacheEntry}
    (he : e ∈ c.entries.rows) (he' : e' ∈ c.entries.rows) (hstamp : e.stamp = e'.stamp) :
    e = e' := by
  have hidx : uses.idxOf e.key = uses.idxOf e'.key := by
    have h₁ := h.stamp_eq e he
    have h₂ := h.stamp_eq e' he'
    omega
  exact c.entries.eq_of_key_eq he he' ((List.idxOf_inj (h.mem_uses e he)).mp hidx)

/-- The order is kept by whatever only removes entries. -/
theorem Stamped.of_subset (h : c.Stamped uses) {c' : IconMemoryCache} (hclock : c'.clock = c.clock)
    (hrows : ∀ e ∈ c'.entries.rows, e ∈ c.entries.rows) : c'.Stamped uses where
  clock_eq := hclock.trans h.clock_eq
  mem_uses e he := h.mem_uses e (hrows e he)
  stamp_eq e he := h.stamp_eq e (hrows e he)

theorem mem_of_mem_remove {k : String} {e : CacheEntry} (he : e ∈ (c.remove k).entries.rows) :
    e ∈ c.entries.rows := by
  rw [entries_remove] at he
  exact (Table.mem_deleteWhere.mp he).1

theorem clock_remove (c : IconMemoryCache) (k : String) : (c.remove k).clock = c.clock := by
  unfold remove
  cases c.entries.find? k <;> rfl

theorem budgetBytes_remove (c : IconMemoryCache) (k : String) :
    (c.remove k).budgetBytes = c.budgetBytes := by
  unfold remove
  cases c.entries.find? k <;> rfl

theorem Stamped.remove (h : c.Stamped uses) (k : String) : (c.remove k).Stamped uses :=
  h.of_subset (c.clock_remove k) fun _ => mem_of_mem_remove

theorem Stamped.evict (h : c.Stamped uses) (e : CacheEntry) : (c.evict e).Stamped uses :=
  (h.remove e.key).of_subset rfl fun _ he => he

/-- A use of a new key enters its entry under the next stamp. -/
theorem Stamped.insert (h : c.Stamped uses) {k : String}
    (hfree : ∀ e ∈ c.entries.rows, e.key ≠ k) (b : IconBitmap) :
    (c.insert k b).Stamped (k :: uses) := by
  have hrows := rows_insert hfree b
  refine ⟨congrArg (· + 1) h.clock_eq, ?_, ?_⟩
  · intro e he
    rw [hrows, List.mem_append, List.mem_singleton] at he
    rcases he with he | rfl
    · exact List.mem_cons_of_mem k (h.mem_uses e he)
    · exact List.mem_cons_self
  · intro e he
    rw [hrows, List.mem_append, List.mem_singleton] at he
    rcases he with he | rfl
    · rw [List.idxOf_cons_ne uses (hfree e he).symm, List.length_cons, ← h.stamp_eq e he]
      rfl
    · rw [List.idxOf_cons_self, Nat.add_zero, List.length_cons, h.clock_eq]

/-- A hit gives the entry the next stamp. -/
theorem Stamped.hit (h : c.Stamped uses) (k : String) : (c.hit k).Stamped (k :: uses) := by
  have hrow : ∀ e ∈ (c.hit k).entries.rows, ∃ e₀ ∈ c.entries.rows,
      (if e₀.key == k then e₀.stamped (c.clock + 1) else e₀) = e :=
    fun e he => (Table.mem_updateWhere (CacheEntry.key_stamped _)).mp he
  refine ⟨congrArg (· + 1) h.clock_eq, ?_, ?_⟩
  · intro e he
    obtain ⟨e₀, he₀, rfl⟩ := hrow e he
    by_cases hk : e₀.key = k
    · simp [hk]
    · simp [hk, h.mem_uses e₀ he₀]
  · intro e he
    obtain ⟨e₀, he₀, rfl⟩ := hrow e he
    by_cases hk : e₀.key = k
    · simp [hk, h.clock_eq]
    · have hstamp := h.stamp_eq e₀ he₀
      simp only [hk, beq_iff_eq, if_false, List.length_cons]
      rw [List.idxOf_cons_ne uses (Ne.symm hk)]
      omega

theorem Stamped.get (h : c.Stamped uses) (key : IconKey) :
    (c.get key).2.Stamped
      (if (c.entries.find? key.cacheKey).isSome then key.cacheKey :: uses else uses) := by
  unfold IconMemoryCache.get
  cases c.entries.find? key.cacheKey with
  | none => exact h.of_subset rfl fun _ he => he
  | some entry => exact h.hit key.cacheKey

/-! ## The eviction loop -/

/-- Where the loop stops the budget is kept: the second bound of its condition is never above the
first, wrapped or not. -/
theorem usedBytes_le_of_not_overBudget (h : ¬ c.overBudget) : c.usedBytes ≤ c.budgetBytes := by
  by_contra hlt
  rw [UInt64.le_iff_toNat_le, not_le] at hlt
  refine h ⟨UInt64.lt_iff_toNat_lt.mpr hlt, UInt64.lt_iff_toNat_lt.mpr ?_⟩
  have htarget : (c.budgetBytes * evictTargetPct / 100).toNat ≤ c.budgetBytes.toNat := by
    simp only [evictTargetPct, UInt64.toNat_div, UInt64.toNat_mul, UInt64.reduceToNat]
    have hmod := Nat.mod_le (c.budgetBytes.toNat * 80) (2 ^ 64)
    generalize c.budgetBytes.toNat * 80 % 2 ^ 64 = wrapped at hmod ⊢
    omega
  omega

/-- The loop stops within the budget or without entries. -/
theorem evictBody_eq_inr {s r : List CacheEntry × IconMemoryCache} (h : evictBody s = .inr r) :
    r = s ∧ (¬ s.2.overBudget ∨ s.2.entries.rows = []) := by
  unfold evictBody at h
  split_ifs at h with hover
  · cases hmin : s.2.entries.rows.argmin CacheEntry.stamp with
    | none =>
        rw [hmin] at h
        exact ⟨(Sum.inr.inj h).symm, .inr (List.argmin_eq_none.mp hmin)⟩
    | some oldest =>
        rw [hmin] at h
        cases h
  · exact ⟨(Sum.inr.inj h).symm, .inl hover⟩

/-- What the eviction loop keeps after the entry `n` was entered, which made `start`. -/
structure Evicting (start : IconMemoryCache) (uses : List String) (n : CacheEntry)
    (s : List CacheEntry × IconMemoryCache) : Prop where
  counted : s.2.Counted
  stamped : s.2.Stamped uses
  budget_eq : s.2.budgetBytes = start.budgetBytes
  newest : n ∈ s.2.entries.rows
  split : (s.1.map fun e => e.bitmap.size).sum + s.2.stored = start.stored
  ordered : s.1.Pairwise (Older uses)
  older : ∀ e ∈ s.1, ∀ e' ∈ s.2.entries.rows, Older uses e e'

/-- The entry of the last use is never the oldest while the cache is over its budget: it would be
the only one, and it fits. -/
theorem ne_newest_of_argmin (hcounted : c.Counted) (hstamped : c.Stamped uses) {n : CacheEntry}
    (hn : n ∈ c.entries.rows) (hlast : uses.idxOf n.key = 0)
    (hfits : n.bitmap.byteLen ≤ c.budgetBytes) (hover : c.overBudget) {oldest : CacheEntry}
    (hmin : oldest ∈ c.entries.rows.argmin CacheEntry.stamp) : oldest ≠ n := by
  rintro rfl
  have honly : ∀ e ∈ c.entries.rows, e = oldest := by
    intro e he
    have hle : oldest.stamp ≤ e.stamp := List.le_of_mem_argmin he hmin
    have hnewest := hstamped.stamp_eq oldest hn
    have hstamp := hstamped.stamp_eq e he
    exact hstamped.eq_of_stamp_eq he hn (by omega)
  have hrest : (c.remove oldest.key).stored = 0 := by
    have hempty : (c.remove oldest.key).entries.rows = [] := by
      refine List.eq_nil_iff_forall_not_mem.mpr fun e he => ?_
      have hkey := congrArg CacheEntry.key (honly e (mem_of_mem_remove he))
      exact c.free_remove oldest.key e he hkey
    rw [stored, Table.total, hempty]
    rfl
  have hsplit := c.stored_remove oldest.key
  rw [Table.find?_eq_some_iff.mpr ⟨hn, rfl⟩, Option.elim_some, hrest, Nat.zero_add] at hsplit
  have hused : c.usedBytes = oldest.bitmap.byteLen := by
    rw [hcounted, ← hsplit, ← oldest.bitmap.byteLen_eq]
  rw [← hused] at hfits
  exact absurd hover.1 (UInt64.not_lt.mpr hfits)

/-- One pass of the eviction loop. -/
theorem Evicting.step {start : IconMemoryCache} {n : CacheEntry}
    (hlast : uses.idxOf n.key = 0) (hfits : n.bitmap.byteLen ≤ start.budgetBytes)
    {s s' : List CacheEntry × IconMemoryCache} (h : Evicting start uses n s)
    (hbody : evictBody s = .inl s') : Evicting start uses n s' := by
  obtain ⟨hover, oldest, hmin, rfl⟩ := evictBody_eq_inl.mp hbody
  have hmem : oldest ∈ s.2.entries.rows := List.argmin_mem hmin
  have hne : oldest ≠ n :=
    ne_newest_of_argmin h.counted h.stamped h.newest hlast (h.budget_eq ▸ hfits) hover hmin
  have hrest : ∀ e, e ∈ (s.2.evict oldest).entries.rows → e ∈ s.2.entries.rows ∧ e ≠ oldest := by
    intro e he
    refine ⟨mem_of_mem_remove he, ?_⟩
    rintro rfl
    exact s.2.free_remove e.key e he rfl
  have holdest : ∀ e ∈ (s.2.evict oldest).entries.rows, Older uses oldest e := by
    intro e he
    obtain ⟨hrow, hother⟩ := hrest e he
    have hle : oldest.stamp ≤ e.stamp := List.le_of_mem_argmin hrow hmin
    rw [h.stamped.older_iff hmem hrow]
    exact lt_of_le_of_ne hle fun heq => hother (h.stamped.eq_of_stamp_eq hrow hmem heq.symm)
  have hsplit := s.2.stored_remove oldest.key
  rw [Table.find?_eq_some_iff.mpr ⟨hmem, rfl⟩, Option.elim_some] at hsplit
  exact
    { counted := h.counted.evict oldest
      stamped := h.stamped.evict oldest
      budget_eq := (s.2.budgetBytes_remove oldest.key).trans h.budget_eq
      newest := by
        dsimp only [IconMemoryCache.evict]
        rw [entries_remove, Table.mem_deleteWhere]
        refine ⟨h.newest, beq_eq_false_iff_ne.mpr fun hkey => hne ?_⟩
        exact s.2.entries.eq_of_key_eq hmem h.newest hkey.symm
      split := by
        have hall := h.split
        have hevict : (s.2.evict oldest).stored = (s.2.remove oldest.key).stored := rfl
        rw [List.map_append, List.sum_append, List.map_singleton, List.sum_singleton, hevict]
        omega
      ordered := by
        refine List.pairwise_append.mpr ⟨h.ordered, List.pairwise_singleton _ _, ?_⟩
        intro e he e' he'
        rw [List.mem_singleton.mp he']
        exact h.older e he oldest hmem
      older := by
        intro e he e' he'
        rcases List.mem_append.mp he with he | he
        · exact h.older e he e' (hrest e' he').1
        · rw [List.mem_singleton.mp he]
          exact holdest e' he' }

/-- **The eviction loop**: it drives the used bytes within the budget by evicting the oldest
entries in their order, and the entry of the last use stays. -/
theorem evictLoop_spec {start : IconMemoryCache} {n : CacheEntry} (hcounted : start.Counted)
    (hstamped : start.Stamped uses) (hn : n ∈ start.entries.rows) (hlast : uses.idxOf n.key = 0)
    (hfits : n.bitmap.byteLen ≤ start.budgetBytes) :
    Evicting start uses n (evictLoop.run ([], start)) ∧
      (evictLoop.run ([], start)).2.usedBytes ≤ start.budgetBytes := by
  refine evictLoop.run_induct (I := Evicting start uses n)
    (P := fun r => Evicting start uses n r ∧ r.2.usedBytes ≤ start.budgetBytes)
    (fun s s' h hbody => h.step hlast hfits hbody) ?_ ([], start) ?_
  · intro s r h hbody
    obtain ⟨rfl, hstop⟩ := evictBody_eq_inr hbody
    refine ⟨h, h.budget_eq ▸ usedBytes_le_of_not_overBudget (hstop.resolve_right ?_)⟩
    exact List.ne_nil_of_mem h.newest
  · exact
      { counted := hcounted
        stamped := hstamped
        budget_eq := rfl
        newest := hn
        split := Nat.zero_add _
        ordered := List.Pairwise.nil
        older := fun e he => absurd he List.not_mem_nil }

/-! ## One operation -/

theorem put_of_refused {key : IconKey} {b : IconBitmap} (h : c.budgetBytes < b.byteLen) :
    c.put key b = ([], c.remove key.cacheKey) := by
  have hbudget := c.budgetBytes_remove key.cacheKey
  exact if_pos (hbudget ▸ h)

theorem put_of_accepted {key : IconKey} {b : IconBitmap} (h : b.byteLen ≤ c.budgetBytes) :
    c.put key b =
      evictLoop.run ([], (c.remove key.cacheKey).insert key.cacheKey b) := by
  have hbudget := c.budgetBytes_remove key.cacheKey
  exact if_neg (hbudget ▸ UInt64.not_lt.mpr h)

theorem usesOf_cons (past : IconPast) (op : IconOp) :
    usesOf ((c, op) :: past) =
      if op.isUse c then op.key.cacheKey :: usesOf past else usesOf past := by
  unfold usesOf
  rw [List.filterMap_cons]
  by_cases h : op.isUse c = true <;> simp [h]

/-- An accepted put, in whatever state the count and the order are kept. -/
theorem Counted.put_spec (hcounted : c.Counted) {past : IconPast}
    (hstamped : c.Stamped (usesOf past)) (key : IconKey) {b : IconBitmap}
    (h : b.byteLen ≤ c.budgetBytes) :
    Evicting ((c.remove key.cacheKey).insert key.cacheKey b) (usesOf ((c, .put key b) :: past))
        { key := key.cacheKey, bitmap := b, stamp := c.clock + 1 } (c.put key b) ∧
      (c.put key b).2.usedBytes ≤ c.budgetBytes := by
  have huses : usesOf ((c, .put key b) :: past) = key.cacheKey :: usesOf past := by
    rw [usesOf_cons]
    exact if_pos (decide_eq_true h)
  have hfree := c.free_remove key.cacheKey
  have hbudget : ((c.remove key.cacheKey).insert key.cacheKey b).budgetBytes = c.budgetBytes :=
    c.budgetBytes_remove key.cacheKey
  rw [huses, put_of_accepted h, ← hbudget]
  apply evictLoop_spec ((hcounted.remove _).insert hfree b) ((hstamped.remove _).insert hfree b)
  · rw [rows_insert hfree b, clock_remove]
    exact List.mem_append_right _ (List.mem_singleton_self _)
  · exact List.idxOf_cons_self
  · exact hbudget ▸ h

/-- Every operation keeps the count modulo the word. -/
theorem Counted.apply (h : c.Counted) {past : IconPast} (hstamped : c.Stamped (usesOf past))
    (op : IconOp) : (c.apply op).2.Counted := by
  cases op with
  | get key => exact (c.usedBytes_get key).trans (h.trans (congrArg _ (c.stored_get key).symm))
  | put key b =>
      by_cases hb : b.byteLen ≤ c.budgetBytes
      · exact (h.put_spec hstamped key hb).1.counted
      · rw [IconMemoryCache.apply, put_of_refused (UInt64.not_le.mp hb)]
        exact h.remove _

/-- Every operation keeps the order of the stamps. -/
theorem Stamped.apply (hcounted : c.Counted) {past : IconPast} (h : c.Stamped (usesOf past))
    (op : IconOp) : (c.apply op).2.Stamped (usesOf ((c, op) :: past)) := by
  cases op with
  | get key =>
      rw [usesOf_cons]
      exact h.get key
  | put key b =>
      by_cases hb : b.byteLen ≤ c.budgetBytes
      · exact (hcounted.put_spec h key hb).1.stamped
      · have hrefused : usesOf ((c, .put key b) :: past) = usesOf past := by
          rw [usesOf_cons]
          exact if_neg fun hlt => hb (of_decide_eq_true hlt)
        rw [hrefused, IconMemoryCache.apply, put_of_refused (UInt64.not_le.mp hb)]
        exact h.remove _

theorem budgetBytes_apply (hcounted : c.Counted) {past : IconPast}
    (h : c.Stamped (usesOf past)) (op : IconOp) :
    (c.apply op).2.budgetBytes = c.budgetBytes := by
  cases op with
  | get key => exact c.budgetBytes_get key
  | put key b =>
      by_cases hb : b.byteLen ≤ c.budgetBytes
      · exact (hcounted.put_spec h key hb).1.budget_eq.trans (c.budgetBytes_remove _)
      · rw [IconMemoryCache.apply, put_of_refused (UInt64.not_le.mp hb)]
        exact c.budgetBytes_remove _

/-- Evictions of no more than there is take no more than there is, one by one. -/
theorem evictionSubtractions_le {used : UInt64} {es : List CacheEntry}
    (h : (es.map fun e => e.bitmap.size).sum ≤ used.toNat) :
    ∀ s ∈ evictionSubtractions used es, s.2 ≤ s.1 := by
  induction es generalizing used with
  | nil => exact fun s hs => absurd hs List.not_mem_nil
  | cons e rest ih =>
      rw [List.map_cons, List.sum_cons] at h
      have hlt := used.toNat_lt
      have hlen : e.bitmap.byteLen.toNat = e.bitmap.size := by
        rw [e.bitmap.toNat_byteLen, Nat.mod_eq_of_lt (by omega)]
      have hle : e.bitmap.byteLen ≤ used := UInt64.le_iff_toNat_le.mpr (by omega)
      intro s hs
      rcases List.mem_cons.mp hs with rfl | hs
      · exact hle
      · refine ih ?_ s hs
        rw [UInt64.toNat_sub_of_le _ _ hle]
        omega

theorem four_dvd_stored (c : IconMemoryCache) : 4 ∣ c.stored :=
  Table.dvd_total fun e => e.bitmap.four_dvd_size

theorem toNat_max_one (budget : UInt64) : (max budget 1).toNat = max budget.toNat 1 := by
  have hone : (1 : UInt64).toNat = 1 := rfl
  have hmax : max budget 1 = if budget ≤ 1 then 1 else budget := rfl
  rw [hmax]
  split_ifs with hle <;> rw [UInt64.le_iff_toNat_le] at hle <;> omega

/-- The one byte that the budget of a cache is raised to makes room for no bitmap. -/
theorem le_budget_of_le_max {budget : UInt64} {n : ℕ} (hn : 4 ∣ n)
    (h : n ≤ (max budget 1).toNat) : n ≤ budget.toNat := by
  rw [toNat_max_one] at h
  omega

/-- What is kept between the operations as long as they are sound. -/
structure Kept (budget : UInt64) (p : IconMemoryCache × IconPast) : Prop where
  counted : p.1.Counted
  stamped : p.1.Stamped (usesOf p.2)
  budget_eq : p.1.budgetBytes = max budget 1
  stored_le : p.1.stored ≤ p.1.budgetBytes.toNat

theorem kept_new (budget : UInt64) : Kept budget (new budget, []) where
  counted := rfl
  stamped := ⟨rfl, fun _ he => absurd he List.not_mem_nil, fun _ he => absurd he List.not_mem_nil⟩
  budget_eq := rfl
  stored_le := Nat.zero_le _

/-- A sound operation keeps it. -/
theorem Kept.step {budget : UInt64} {p : IconMemoryCache × IconPast} {op : IconOp}
    (h : Kept budget p) (hsound : StepSound budget p op) :
    Kept budget ((p.1.apply op).2, (p.1, op) :: p.2) where
  counted := h.counted.apply h.stamped op
  stamped := h.stamped.apply h.counted op
  budget_eq := (budgetBytes_apply h.counted h.stamped op).trans h.budget_eq
  stored_le := by
    have hle := UInt64.le_iff_toNat_le.mp hsound.used_le
    rw [budgetBytes_apply h.counted h.stamped op, h.budget_eq, ← hsound.used_eq, toNat_max_one]
    omega

/-! ## When an operation is sound -/

/-- The bytes of the entries under other keys and of the bitmap that is put fit a word; or the put
is refused. -/
def Fits (c : IconMemoryCache) : IconOp → Prop
  | .get _ => True
  | .put key bitmap => c.budgetBytes < bitmap.byteLen ∨
      ((c.entries.deleteWhere fun e => e.key == key.cacheKey).total fun e => e.bitmap.size) +
        bitmap.size < 2 ^ 64

instance (c : IconMemoryCache) : ∀ op, Decidable (c.Fits op)
  | .get _ => .isTrue trivial
  | .put _ _ => inferInstanceAs (Decidable (_ ∨ _))

theorem fits_put {key : IconKey} {b : IconBitmap} :
    c.Fits (.put key b) ↔
      c.budgetBytes < b.byteLen ∨ (c.remove key.cacheKey).stored + b.size < 2 ^ 64 := by
  unfold stored
  rw [entries_remove]
  exact Iff.rfl

variable {budget : UInt64} {past : IconPast} {key : IconKey} {b : IconBitmap}

/-- The subtraction for the entry that is replaced. -/
theorem replaced_le (hcounted : c.Counted) (hlt : c.stored < 2 ^ 64) (k : String) :
    ∀ s ∈ ((c.entries.find? k).map fun e => (c.usedBytes, e.bitmap.byteLen)).toList,
      s.2 ≤ s.1 := by
  intro s hs
  obtain ⟨e, hfind, rfl⟩ := Option.map_eq_some_iff.mp (Option.mem_toList.mp hs)
  have hle := size_le_stored (Table.find?_eq_some_iff.mp hfind).1
  rw [UInt64.le_iff_toNat_le, hcounted.toNat hlt, e.bitmap.toNat_byteLen]
  exact (Nat.mod_le _ _).trans hle

/-- What the count within the budget says in the terms of the promise. -/
theorem Counted.within (h : c.Counted) (hle : c.stored ≤ (max budget 1).toNat) :
    c.usedBytes.toNat = c.stored ∧ c.usedBytes ≤ budget ∧
      ∀ e ∈ c.entries.rows, e.bitmap.size ≤ budget.toNat := by
  have hword := (max budget 1).toNat_lt
  have hused : c.usedBytes.toNat = c.stored := h.toNat (by omega)
  have hbudget : c.stored ≤ budget.toNat := le_budget_of_le_max c.four_dvd_stored hle
  refine ⟨hused, UInt64.le_iff_toNat_le.mpr (hused ▸ hbudget), fun e he => ?_⟩
  exact (size_le_stored he).trans hbudget

/-- A hit or a miss is sound. -/
theorem Kept.stepSound_get (h : Kept budget (c, past)) (key : IconKey) :
    StepSound budget (c, past) (.get key) := by
  have hle : (c.apply (.get key)).2.stored ≤ (max budget 1).toNat := by
    rw [← h.budget_eq]
    exact (c.stored_get key).trans_le h.stored_le
  obtain ⟨hused, hbudget, hsize⟩ := (h.counted.apply h.stamped (.get key)).within hle
  exact
    { used_eq := hused
      used_le := hbudget
      no_underflow := fun s hs => absurd hs List.not_mem_nil
      put_stored := fun key' b hop => by cases hop
      size_le := hsize
      evicted_ordered := List.Pairwise.nil
      evicted_older := fun e he => absurd he List.not_mem_nil }

/-- A put that is refused is sound. -/
theorem Kept.stepSound_of_refused (h : Kept budget (c, past)) (hb : c.budgetBytes < b.byteLen) :
    StepSound budget (c, past) (.put key b) := by
  have hput : c.apply (.put key b) = ([], c.remove key.cacheKey) := put_of_refused hb
  have hword := c.budgetBytes.toNat_lt
  have hle : (c.remove key.cacheKey).stored ≤ (max budget 1).toNat := by
    rw [← h.budget_eq]
    exact (c.stored_remove_le _).trans h.stored_le
  obtain ⟨hused, hbudget, hsize⟩ := (h.counted.remove key.cacheKey).within hle
  constructor
  · rw [hput]; exact hused
  · rw [hput]; exact hbudget
  · intro s hs
    have hnone : (c.put key b).1 = [] := congrArg Prod.fst hput
    rw [subtractions, hnone, evictionSubtractions, List.append_nil] at hs
    exact replaced_le h.counted (h.stored_le.trans_lt hword) _ s hs
  · -- a bitmap that is refused does not fit
    intro key' b' hop hfits
    obtain ⟨-, rfl⟩ := IconOp.put.inj hop
    have hlen := b.toNat_byteLen
    have hmod := Nat.mod_le b.size (2 ^ 64)
    rw [h.budget_eq, UInt64.lt_iff_toNat_lt, toNat_max_one] at hb
    omega
  · rw [hput]; exact hsize
  · rw [hput]; exact List.Pairwise.nil
  · rw [hput]; exact fun e he => absurd he List.not_mem_nil

/-- An accepted put whose bytes fit a word is sound. -/
theorem Kept.stepSound_of_accepted (h : Kept budget (c, past)) (hb : b.byteLen ≤ c.budgetBytes)
    (hfits : (c.remove key.cacheKey).stored + b.size < 2 ^ 64) :
    StepSound budget (c, past) (.put key b) := by
  have hcounted : c.Counted := h.counted
  obtain ⟨hevicting, hused⟩ := hcounted.put_spec h.stamped key hb
  have hword := c.budgetBytes.toNat_lt
  have hfree := c.free_remove key.cacheKey
  have hstart := stored_insert hfree b
  have hsplit := hevicting.split
  have hexact : (c.put key b).2.usedBytes.toNat = (c.put key b).2.stored :=
    hevicting.counted.toNat (by omega)
  have hle : (c.put key b).2.stored ≤ (max budget 1).toNat := by
    rw [← h.budget_eq, ← hexact]
    exact UInt64.le_iff_toNat_le.mp hused
  obtain ⟨-, hbudget, hsize⟩ := hevicting.counted.within hle
  constructor
  · exact hexact
  · exact hbudget
  · intro s hs
    rcases List.mem_append.mp hs with hs | hs
    · exact replaced_le h.counted (h.stored_le.trans_lt hword) _ s hs
    · have hcount : ((c.remove key.cacheKey).insert key.cacheKey b).usedBytes.toNat =
          (c.remove key.cacheKey).stored + b.size := by
        rw [((hcounted.remove _).insert hfree b).toNat (by omega), hstart]
      have hsum : ((c.put key b).1.map fun e => e.bitmap.size).sum ≤
          ((c.remove key.cacheKey).insert key.cacheKey b).usedBytes.toNat := by omega
      exact evictionSubtractions_le hsum s hs
  · intro key' b' hop _
    obtain ⟨rfl, rfl⟩ := IconOp.put.inj hop
    exact ⟨_, hevicting.newest, rfl, rfl⟩
  · exact hsize
  · exact hevicting.ordered
  · exact hevicting.older

/-- An accepted put whose bytes do not fit a word is not sound: the bitmap is stored in any case,
and the used bytes are a word. -/
theorem Kept.not_stepSound (h : Kept budget (c, past)) (hb : b.byteLen ≤ c.budgetBytes)
    (hover : 2 ^ 64 ≤ (c.remove key.cacheKey).stored + b.size) :
    ¬ StepSound budget (c, past) (.put key b) := by
  intro hsound
  have hcounted : c.Counted := h.counted
  obtain ⟨hevicting, -⟩ := hcounted.put_spec h.stamped key hb
  have hused : (c.put key b).2.usedBytes.toNat = (c.put key b).2.stored := hsound.used_eq
  have hword := (c.put key b).2.usedBytes.toNat_lt
  have hrest := c.stored_remove_le key.cacheKey
  have hstored := h.stored_le
  have hbudget := c.budgetBytes.toNat_lt
  have hlen := b.toNat_byteLen
  rw [UInt64.le_iff_toNat_le] at hb
  dsimp only at hstored
  rcases lt_or_ge b.size (2 ^ 64) with hsize | hsize
  · -- the used bytes wrap to less than the bitmap has, and nothing is evicted
    have hfree := c.free_remove key.cacheKey
    have hstart := stored_insert hfree b
    have hcount : ((c.remove key.cacheKey).insert key.cacheKey b).usedBytes.toNat =
        ((c.remove key.cacheKey).stored + b.size) % 2 ^ 64 := by
      rw [(hcounted.remove _).insert hfree b, UInt64.toNat_ofNat', hstart]
    have hsmall : ¬ ((c.remove key.cacheKey).insert key.cacheKey b).overBudget := by
      intro hlt
      have hlt' := UInt64.lt_iff_toNat_lt.mp hlt.1
      have hsame : ((c.remove key.cacheKey).insert key.cacheKey b).budgetBytes = c.budgetBytes :=
        c.budgetBytes_remove _
      rw [hsame, hcount] at hlt'
      omega
    have hput : c.put key b = ([], (c.remove key.cacheKey).insert key.cacheKey b) := by
      rw [put_of_accepted (UInt64.le_iff_toNat_le.mpr hb)]
      exact evictLoop.run_of_inr (if_neg hsmall)
    rw [hput] at hused hword
    dsimp only at hused hword
    omega
  · have hle : b.size ≤ (c.put key b).2.stored := size_le_stored hevicting.newest
    omega

/-- **One operation** is sound exactly if it fits. -/
theorem Kept.stepSound_iff {p : IconMemoryCache × IconPast} (h : Kept budget p) (op : IconOp) :
    StepSound budget p op ↔ p.1.Fits op := by
  obtain ⟨c, past⟩ := p
  cases op with
  | get key => exact iff_of_true (h.stepSound_get key) trivial
  | put key b =>
      rw [fits_put]
      by_cases hb : c.budgetBytes < b.byteLen
      · exact iff_of_true (h.stepSound_of_refused hb) (.inl hb)
      · have haccepted := UInt64.not_lt.mp hb
        constructor
        · intro hsound
          by_contra hnot
          rw [not_or, not_lt] at hnot
          exact h.not_stepSound haccepted hnot.2 hsound
        · intro hfits
          exact h.stepSound_of_accepted haccepted (hfits.resolve_left hb)

end IconMemoryCache

open IconMemoryCache

/-! ## Runs that fit -/

/-- **The icon cache is sound exactly on the runs that fit**: with any budget, the promise is kept
by every operation of a run when, and only when, every put of the run is refused or has its bytes
and those of the other entries fit a word. -/
theorem cacheSound_iff (budget : UInt64) (ops : List IconOp) :
    CacheSound budget ops ↔ iconMachine.Along Fits (new budget) ops := by
  have hnext : ∀ p op p', iconMachine.withHistory.step p op = some p' →
      p' = ((p.1.apply op).2, (p.1, op) :: p.2) :=
    fun p op p' hstep => (Option.some.inj hstep).symm
  rw [← iconMachine.along_withHistory (new budget, []) ops]
  constructor
  · intro hsound
    refine hsound.imp_inv (I := Kept budget) ?_ (kept_new budget)
      fun p op hkept hstep => (hkept.stepSound_iff op).mp hstep
    intro p op p' hkept hstep hp'
    exact hnext p op p' hp' ▸ hkept.step hstep
  · intro hfits
    refine hfits.imp_inv (I := Kept budget) ?_ (kept_new budget)
      fun p op hkept hstep => (hkept.stepSound_iff op).mpr hstep
    intro p op p' hkept hstep hp'
    exact hnext p op p' hp' ▸ hkept.step ((hkept.stepSound_iff op).mpr hstep)

/-- A bitmap of half the words. -/
def halfWords : IconBitmap where
  width := 0x80000000
  height := 0x40000000
  rgba := []

/-- The key of an application's icon. -/
def iconKeyOf (application : String) : IconKey where
  application := application
  variant := .normal
  sourceRevision := 0
  extractorVersion := 1

/-- Two bitmaps of half the words each fit a budget of half the words: both stay, and no byte
counts as used. -/
theorem not_cacheSound_of_halfWords :
    ¬ CacheSound 0x8000000000000000
      [.put (iconKeyOf "win32:a.exe") halfWords, .put (iconKeyOf "win32:b.exe") halfWords] := by
  intro hsound
  have hused := (hsound.2 _ rfl).1.used_eq
  revert hused
  decide +kernel

/-- With a budget below half the words, bitmaps below a word always fit. -/
theorem along_fits_of_small {budget : UInt64} (hbudget : budget.toNat < 2 ^ 63)
    {ops : List IconOp} (hops : ∀ key b, .put key b ∈ ops → b.size < 2 ^ 64) :
    iconMachine.Along Fits (new budget) ops := by
  have hsmall : iconMachine.withHistory.Along
      (fun _ op => ∀ key b, op = .put key b → b.size < 2 ^ 64) (new budget, []) ops :=
    iconMachine.withHistory.along_of_forall fun op hop key b hput => hops key b (hput ▸ hop)
  have hfits : ∀ p op, Kept budget p → (∀ key b, op = .put key b → b.size < 2 ^ 64) →
      p.1.Fits op := by
    intro p op hkept hsize
    cases op with
    | get key => trivial
    | put key b =>
        rw [fits_put]
        by_cases hge : b.byteLen ≤ p.1.budgetBytes
        swap
        · exact .inl (UInt64.not_le.mp hge)
        · have hrest := p.1.stored_remove_le key.cacheKey
          have hstored := hkept.stored_le
          have hlen := b.toNat_byteLen
          rw [Nat.mod_eq_of_lt (hsize key b rfl)] at hlen
          rw [UInt64.le_iff_toNat_le] at hge
          rw [hkept.budget_eq, toNat_max_one] at hge hstored
          exact .inr (by omega)
  rw [← iconMachine.along_withHistory (new budget, []) ops]
  refine hsmall.imp_inv (I := Kept budget) ?_ (kept_new budget) hfits
  intro p op p' hkept hsize hp'
  obtain rfl := Option.some.inj hp'
  exact hkept.step ((hkept.stepSound_iff op).mpr (hfits p op hkept hsize))

end AuraLauncher.Providers
