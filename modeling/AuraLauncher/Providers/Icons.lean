import AuraLauncher.Lib.Table
import AuraLauncher.Lib.While
import Mathlib.Algebra.GroupWithZero.Nat
import Mathlib.Data.List.MinMax

/-!
# The memory cache of icons

`crates/launcher-providers/src/icons.rs`, `IconMemoryCache`, with the key of
`crates/launcher-domain/src/icon.rs`: decoded icons under a byte budget, the least recently used
evicted first.

Lengths in bytes are machine words (`usize` of the 64-bit target), and their arithmetic wraps, as
it does in the release build. The clock and the three counters count operations and are natural
numbers. The hash map is a table keyed by the text of the icon key: its order is read only by the
search for the smallest stamp, and no two entries have the same stamp. `put` also returns the
entries it evicted, in their order, which the source drops.

* `IconBitmap.byteLen`, `IconBitmap.size` — the length as computed, and without a word's limit.
* `IconMemoryCache.get`, `IconMemoryCache.put` — the two operations.
* `IconMemoryCache.evictLoop` — the eviction loop of `put`.

The disk cache and the extraction of icons are left out.
-/

namespace AuraLauncher.Providers

open AuraLauncher.Lib

/-! ## Keys and bitmaps -/

/-- Source: `icon.rs`, `IconVariant`. -/
inductive IconVariant where
  | small
  | normal
  | large
deriving DecidableEq, Repr

/-- The `{:?}` text of a variant. -/
def IconVariant.debug : IconVariant → String
  | .small => "Small"
  | .normal => "Normal"
  | .large => "Large"

/-- Source: `icon.rs`, `IconKey`. -/
structure IconKey where
  application : String
  variant : IconVariant
  sourceRevision : UInt64
  extractorVersion : UInt32
deriving DecidableEq, Repr

/-- Source: `icon.rs`, `IconKey::cache_key`. -/
def IconKey.cacheKey (key : IconKey) : String :=
  key.application ++ "|" ++ key.variant.debug ++ "|v" ++ toString key.sourceRevision ++ "|e" ++
    toString key.extractorVersion

/-- Source: `icons.rs`, `IconBitmap`. Nothing ties the pixels to the two dimensions. -/
structure IconBitmap where
  width : UInt32
  height : UInt32
  rgba : List UInt8
deriving DecidableEq, Repr

namespace IconBitmap

/-- Source: `icons.rs`, `IconBitmap::byte_len`. -/
def byteLen (b : IconBitmap) : UInt64 := b.width.toUInt64 * b.height.toUInt64 * 4

/-- The bytes of a bitmap of these dimensions: four for each pixel. -/
def size (b : IconBitmap) : ℕ := b.width.toNat * b.height.toNat * 4

/-- The computed length is the size modulo the word. -/
theorem byteLen_eq (b : IconBitmap) : b.byteLen = UInt64.ofNat b.size := by
  apply UInt64.toNat.inj
  simp [byteLen, size, Nat.mul_mod]

theorem toNat_byteLen (b : IconBitmap) : b.byteLen.toNat = b.size % 2 ^ 64 := by
  rw [byteLen_eq, UInt64.toNat_ofNat']

theorem four_dvd_size (b : IconBitmap) : 4 ∣ b.size := Nat.dvd_mul_left 4 _

end IconBitmap

/-! ## The cache -/

/-- An entry of the map: the bitmap and the stamp of its last use. -/
structure CacheEntry where
  key : String
  bitmap : IconBitmap
  stamp : ℕ
deriving DecidableEq, Repr

/-- The entry with another stamp. -/
def CacheEntry.stamped (stamp : ℕ) (e : CacheEntry) : CacheEntry := { e with stamp }

@[simp] theorem CacheEntry.key_stamped (stamp : ℕ) (e : CacheEntry) :
    (e.stamped stamp).key = e.key := rfl

@[simp] theorem CacheEntry.bitmap_stamped (stamp : ℕ) (e : CacheEntry) :
    (e.stamped stamp).bitmap = e.bitmap := rfl

@[simp] theorem CacheEntry.stamp_stamped (stamp : ℕ) (e : CacheEntry) :
    (e.stamped stamp).stamp = stamp := rfl

/-- Source: `icons.rs`, `IconMemoryCache`. -/
structure IconMemoryCache where
  budgetBytes : UInt64
  entries : Table CacheEntry.key
  clock : ℕ
  hits : ℕ
  misses : ℕ
  evictions : ℕ
  usedBytes : UInt64

namespace IconMemoryCache

/-- Source: `icons.rs`, `EVICT_TARGET_PCT`. -/
def evictTargetPct : UInt64 := 80

/-- Source: `icons.rs`, `IconMemoryCache::new`. -/
def new (budgetBytes : UInt64) : IconMemoryCache where
  budgetBytes := max budgetBytes 1
  entries := .empty
  clock := 0
  hits := 0
  misses := 0
  evictions := 0
  usedBytes := 0

/-- The entry that was found is stamped anew. -/
def hit (c : IconMemoryCache) (k : String) : IconMemoryCache :=
  { c with
    clock := c.clock + 1
    entries := c.entries.updateWhere (fun e => e.key == k) (CacheEntry.stamped (c.clock + 1))
      (CacheEntry.key_stamped _)
    hits := c.hits + 1 }

/-- Source: `icons.rs`, `IconMemoryCache::get`. -/
def get (c : IconMemoryCache) (key : IconKey) : Option IconBitmap × IconMemoryCache :=
  match c.entries.find? key.cacheKey with
  | some entry => (some entry.bitmap, c.hit key.cacheKey)
  | none => (none, { c with misses := c.misses + 1 })

/-- `self.entries.remove(k)` together with the bytes it gives back. -/
def remove (c : IconMemoryCache) (k : String) : IconMemoryCache :=
  match c.entries.find? k with
  | some existing =>
      { c with
        entries := c.entries.deleteWhere fun e => e.key == k
        usedBytes := c.usedBytes - existing.bitmap.byteLen }
  | none => c

/-- The entry of `put` is entered under the next stamp. -/
def insert (c : IconMemoryCache) (k : String) (bitmap : IconBitmap) : IconMemoryCache :=
  { c with
    clock := c.clock + 1
    usedBytes := c.usedBytes + bitmap.byteLen
    entries := c.entries.upsert { key := k, bitmap, stamp := c.clock + 1 } }

/-- The condition of the eviction loop. -/
def overBudget (c : IconMemoryCache) : Prop :=
  c.budgetBytes < c.usedBytes ∧ c.budgetBytes * evictTargetPct / 100 < c.usedBytes

instance (c : IconMemoryCache) : Decidable c.overBudget := inferInstanceAs (Decidable (_ ∧ _))

/-- One entry is evicted. -/
def evict (c : IconMemoryCache) (oldest : CacheEntry) : IconMemoryCache :=
  { c.remove oldest.key with evictions := c.evictions + 1 }

/-- One pass of the eviction loop, over the entries evicted so far and the cache. -/
def evictBody (s : List CacheEntry × IconMemoryCache) :
    List CacheEntry × IconMemoryCache ⊕ List CacheEntry × IconMemoryCache :=
  if s.2.overBudget then
    match s.2.entries.rows.argmin CacheEntry.stamp with
    | none => .inr s
    | some oldest => .inl (s.1 ++ [oldest], s.2.evict oldest)
  else .inr s

theorem entries_remove (c : IconMemoryCache) (k : String) :
    (c.remove k).entries = c.entries.deleteWhere fun e => e.key == k := by
  unfold remove
  cases h : c.entries.find? k with
  | some e => rfl
  | none =>
      have hfree := Table.find?_eq_none_iff.mp h
      obtain ⟨budget, ⟨rows, nodup⟩, clock, hits, misses, evictions, used⟩ := c
      have hrows : (rows.filter fun e => !(e.key == k)) = rows :=
        List.filter_eq_self.mpr fun e he => by simpa using hfree e he
      simp only [Table.deleteWhere, hrows]

/-- A pass that goes on takes the entry with the smallest stamp. -/
theorem evictBody_eq_inl {s s' : List CacheEntry × IconMemoryCache} :
    evictBody s = .inl s' ↔ s.2.overBudget ∧ ∃ oldest,
      oldest ∈ s.2.entries.rows.argmin CacheEntry.stamp ∧
        s' = (s.1 ++ [oldest], s.2.evict oldest) := by
  unfold evictBody
  split_ifs with hover
  · cases s.2.entries.rows.argmin CacheEntry.stamp with
    | none => simp
    | some oldest => simp [hover, eq_comm]
  · simp [hover]

/-- Source: `icons.rs`, the `while` loop of `IconMemoryCache::put`. -/
def evictLoop : While (List CacheEntry × IconMemoryCache) (List CacheEntry × IconMemoryCache) where
  body := evictBody
  bound s := s.2.entries.rows.length
  decreases := by
    rintro ⟨evicted, c⟩ s' h
    obtain ⟨-, oldest, hmin, rfl⟩ := evictBody_eq_inl.mp h
    have hmem : oldest ∈ c.entries.rows := List.argmin_mem hmin
    have hfind : c.entries.find? oldest.key = some oldest :=
      Table.find?_eq_some_iff.mpr ⟨hmem, rfl⟩
    have hlen := Table.length_deleteWhere_key (t := c.entries) (k := oldest.key)
    rw [hfind] at hlen
    dsimp only [evict]
    rw [entries_remove, ← hlen]
    exact Nat.lt_succ_self _

/-- Source: `icons.rs`, `IconMemoryCache::put`. -/
def put (c : IconMemoryCache) (key : IconKey) (bitmap : IconBitmap) :
    List CacheEntry × IconMemoryCache :=
  let c := c.remove key.cacheKey
  -- a single bitmap bigger than the whole budget is never cached
  if c.budgetBytes < bitmap.byteLen then ([], c)
  else evictLoop.run ([], c.insert key.cacheKey bitmap)

end IconMemoryCache

end AuraLauncher.Providers
