import AuraLauncher.Lib.Machine
import AuraLauncher.Search.FavoriteOrder

/-!
# The order of the pins over the life of the store

`launcher-core/src/favorites.rs`: three operations number the pins. `pin` gives the number after
the greatest one, also to a key that is pinned; `reorder` numbers all pins anew from zero; `unpin`
and `remove` leave gaps. Each is one step here, with no other thread between its two locks.

* `StoreWrite`, `favoriteStore` — the operations of the store, in any order.
* `FavoriteService.DistinctOrder` — no two pins have one number.
* `FavoriteService.pinnedRows` — the pins in display order, with their numbers.
* `FavoriteService.OrderLaw` — what an operation may do to the display order.
* `pinnedRows_reorder` — the rows that a reordering leaves.
* `RepinsLast`, `orderLaw_along_iff` — the runs that keep the law.
* `not_orderLaw_repin` — pinning a pinned key again moves it behind the others.
-/

namespace AuraLauncher.Search

open AuraLauncher.Lib

/-- An operation of the store that changes it; `now` is the clock. -/
inductive StoreWrite where
  | add (key : String) (now : ℕ)
  | remove (key : String)
  | pin (key : String) (now : ℕ)
  | unpin (key : String)
  | reorder (key : String) (newOrder : ℕ)

namespace FavoriteService

/-- The store of a new database. Source: `favorites.rs`, `FavoriteService::init_schema`. -/
def empty : FavoriteService := ⟨Table.empty, Table.empty⟩

/-- The store after an operation. -/
def write (svc : FavoriteService) : StoreWrite → FavoriteService
  | .add key now => (svc.add key now).2
  | .remove key => svc.remove key
  | .pin key now => svc.pin key now
  | .unpin key => svc.unpin key
  | .reorder key newOrder => svc.reorder key newOrder

end FavoriteService

/-- The store under its operations: each is possible in every state. -/
def favoriteStore : Machine FavoriteService StoreWrite where
  step svc op := some (svc.write op)

namespace FavoriteService

/-- No two pins have the same number. -/
def DistinctOrder (svc : FavoriteService) : Prop := (svc.pins.rows.map PinRow.orderIndex).Nodup

/-- The pins in display order. -/
def pinnedRows (svc : FavoriteService) : List PinRow :=
  svc.pins.rows.insertionSort fun a b => a.orderIndex ≤ b.orderIndex

/-- Keys numbered by their places. -/
def numbered (keys : List String) : List PinRow := keys.zipIdx.map fun p => ⟨p.1, p.2⟩

/-- The law of the display order. A key that is pinned anew comes last, unless the limit refuses
it; a pinned key stays where it is when it is pinned again; a pinned key is moved to the given
place or to the end, and the others keep their order; a key that is not pinned is not moved. -/
def OrderLaw (svc : FavoriteService) : StoreWrite → Prop
  | .pin key now =>
      if key ∈ svc.pinnedKeys then (svc.pin key now).pinnedKeys = svc.pinnedKeys
      else if svc.mayPin key then (svc.pin key now).pinnedKeys = svc.pinnedKeys ++ [key]
      else svc.pin key now = svc
  | .reorder key newOrder =>
      if key ∈ svc.pinnedKeys then
        let rest := svc.pinnedKeys.erase key
        (svc.reorder key newOrder).pinnedRows =
            numbered (rest.insertIdx (min newOrder rest.length) key) ∧
          (svc.reorder key newOrder).pinnedKeys.erase key = rest
      else svc.reorder key newOrder = svc
  | _ => True

/-- A key that is pinned again is the last of the pins. -/
def RepinsLast (svc : FavoriteService) : StoreWrite → Prop
  | .pin key _ => key ∈ svc.pinnedKeys → svc.pinnedKeys.getLast? = some key
  | _ => True

variable (svc : FavoriteService)

/-! ## The numbers -/

theorem mem_pinnedKeys {key : String} :
    key ∈ svc.pinnedKeys ↔ key ∈ svc.pins.rows.map PinRow.identityKey :=
  ((List.perm_insertionSort _ _).map _).mem_iff

/-- The numbers of the pins that a deletion leaves are numbers of pins. -/
theorem distinctOrder_deleteWhere (h : svc.DistinctOrder) (p : PinRow → Bool) :
    ((svc.pins.deleteWhere p).rows.map PinRow.orderIndex).Nodup :=
  h.sublist (List.filter_sublist.map PinRow.orderIndex)

/-- The number of a new pin exceeds all others. -/
theorem distinctOrder_insertPin (h : svc.DistinctOrder) (key : String) (now : ℕ) :
    (svc.insertPin key now).DistinctOrder := by
  obtain ⟨n, hrows, hlt⟩ := svc.exists_rows_insertPin key now
  unfold DistinctOrder
  rw [hrows, List.map_append, List.map_singleton, ← List.concat_eq_append]
  refine (svc.distinctOrder_deleteWhere h _).concat fun hmem => ?_
  obtain ⟨r, hr, hnumber⟩ := List.mem_map.mp hmem
  exact (hlt r (Table.mem_deleteWhere.mp hr).1).ne hnumber

/-- The rows of a numbering of the pinned keys. -/
theorem rows_renumber {keys : List String} (h : keys.Perm svc.pinnedKeys) :
    (svc.renumber keys).pins.rows =
      svc.pins.rows.map fun r => { r with orderIndex := (keys.idxOf r.identityKey : ℕ) } := by
  have hnodup : keys.Nodup := h.nodup_iff.mpr svc.nodup_pinnedKeys
  refine (rows_foldl_zipIdx hnodup 0 svc).trans (List.map_congr_left fun r hr => ?_)
  have hmem : r.identityKey ∈ keys :=
    h.mem_iff.mpr (svc.mem_pinnedKeys.mpr (List.mem_map_of_mem hr))
  rw [if_pos hmem, Nat.zero_add]

theorem distinctOrder_renumber {keys : List String} (h : keys.Perm svc.pinnedKeys) :
    (svc.renumber keys).DistinctOrder := by
  unfold DistinctOrder
  rw [svc.rows_renumber h, List.map_map]
  have hkeys : ∀ r ∈ svc.pins.rows, r.identityKey ∈ keys := fun r hr =>
    h.mem_iff.mpr (svc.mem_pinnedKeys.mpr (List.mem_map_of_mem hr))
  refine List.Nodup.map_on (fun r hr r' hr' heq => ?_) (List.Nodup.of_map _ svc.pins.nodup)
  have hidx : keys.idxOf r.identityKey = keys.idxOf r'.identityKey := Int.ofNat_inj.mp heq
  exact svc.pins.eq_of_key_eq hr hr' ((List.idxOf_inj (hkeys r hr)).mp hidx)

/-- Every operation keeps the numbers apart. -/
theorem distinctOrder_write (h : svc.DistinctOrder) (op : StoreWrite) :
    (svc.write op).DistinctOrder := by
  cases op with
  | add key now =>
      simp only [write, add]
      split_ifs
      · exact h
      · exact h
  | remove key => exact svc.distinctOrder_deleteWhere h _
  | pin key now =>
      simp only [write, pin]
      split_ifs
      · exact svc.distinctOrder_insertPin h key now
      · exact h
  | unpin key => exact svc.distinctOrder_deleteWhere h _
  | reorder key newOrder =>
      simp only [write, reorder]
      cases hmove : moveKey svc.pinnedKeys key newOrder with
      | none => exact h
      | some keys => exact svc.distinctOrder_renumber (perm_of_moveKey hmove)

/-- In every state that a run of the store meets, no two pins have the same number. -/
theorem distinctOrder_of_visits {ops : List StoreWrite}
    (h : favoriteStore.Visits empty ops svc) : svc.DistinctOrder := by
  obtain ⟨done, -, hrun⟩ := h
  refine favoriteStore.run_inv_of_step (I := DistinctOrder) (fun s op s' hs hstep => ?_)
    (show DistinctOrder empty from List.nodup_nil) hrun
  obtain rfl : s.write op = s' := Option.some.inj hstep
  exact s.distinctOrder_write hs op

/-! ## The law of one operation -/

/-- The keys of a numbering, in display order, with their places. -/
theorem pinnedRows_renumber {keys : List String} (h : keys.Perm svc.pinnedKeys) :
    (svc.renumber keys).pinnedRows = numbered keys := by
  have hkeys : (svc.renumber keys).pinnedRows.map PinRow.identityKey = keys :=
    svc.pinnedKeys_renumber h
  have hnodup : keys.Nodup := h.nodup_iff.mpr svc.nodup_pinnedKeys
  have hnumber : ∀ r ∈ (svc.renumber keys).pinnedRows,
      r.orderIndex = (keys.idxOf r.identityKey : ℕ) := by
    intro r hr
    have hrow : r ∈ (svc.renumber keys).pins.rows := (List.perm_insertionSort _ _).mem_iff.mp hr
    rw [svc.rows_renumber h] at hrow
    obtain ⟨r', -, rfl⟩ := List.mem_map.mp hrow
    rfl
  have hlength : (svc.renumber keys).pinnedRows.length = keys.length := by
    rw [← List.length_map PinRow.identityKey, hkeys]
  refine List.ext_getElem ?_ fun i hi hi' => ?_
  · rw [hlength, numbered, List.length_map, List.length_zipIdx]
  · have hplace : i < keys.length := hlength ▸ hi
    have hkey : (svc.renumber keys).pinnedRows[i].identityKey = keys[i] := by
      rw [← List.getElem_map PinRow.identityKey (h := by rwa [List.length_map])]
      exact List.getElem_of_eq hkeys _
    have hidx := hnumber _ (List.getElem_mem hi)
    rw [hkey, hnodup.idxOf_getElem i hplace] at hidx
    simp only [numbered, List.getElem_map, List.getElem_zipIdx, Nat.zero_add]
    rw [← hkey, ← hidx]

theorem moveKey_of_mem {pinned : List String} {key : String} (h : key ∈ pinned) (newOrder : ℕ) :
    moveKey pinned key newOrder =
      some ((pinned.erase key).insertIdx (min newOrder (pinned.erase key).length) key) := by
  unfold moveKey
  rw [if_pos (List.contains_iff_mem.mpr h)]

/-- A pinned key is moved to the given place, or to the end if there are fewer pins. -/
theorem pinnedRows_reorder {key : String} (h : key ∈ svc.pinnedKeys) (newOrder : ℕ) :
    (svc.reorder key newOrder).pinnedRows =
      numbered ((svc.pinnedKeys.erase key).insertIdx
        (min newOrder (svc.pinnedKeys.erase key).length) key) := by
  have hmove := moveKey_of_mem h newOrder
  unfold reorder
  rw [hmove]
  exact svc.pinnedRows_renumber (perm_of_moveKey hmove)

/-- What is inserted once into a list without it is erased from where it was put. -/
theorem erase_insertIdx_of_not_mem {keys : List String} {key : String} (h : key ∉ keys) {n : ℕ}
    (hn : n ≤ keys.length) : (keys.insertIdx n key).erase key = keys := by
  induction keys generalizing n with
  | nil =>
      obtain rfl : n = 0 := Nat.le_zero.mp hn
      simp
  | cons k keys ih =>
      cases n with
      | zero => simp
      | succ n =>
          obtain ⟨hne, hkeys⟩ := not_or.mp (mt List.mem_cons.mpr h)
          rw [List.insertIdx_succ_cons, List.erase_cons_tail (by simpa using Ne.symm hne),
            ih hkeys (Nat.le_of_succ_le_succ hn)]

/-- The keys that are not moved keep their order. -/
theorem erase_pinnedKeys_reorder {key : String} (h : key ∈ svc.pinnedKeys) (newOrder : ℕ) :
    (svc.reorder key newOrder).pinnedKeys.erase key = svc.pinnedKeys.erase key := by
  have hmove := moveKey_of_mem h newOrder
  unfold reorder
  rw [hmove]
  dsimp only
  rw [svc.pinnedKeys_renumber (perm_of_moveKey hmove)]
  exact erase_insertIdx_of_not_mem svc.nodup_pinnedKeys.not_mem_erase (Nat.min_le_right _ _)

theorem mayPin_of_mem {key : String} (h : key ∈ svc.pinnedKeys) : svc.mayPin key = true := by
  obtain ⟨r, hr, hkey⟩ := List.mem_map.mp (svc.mem_pinnedKeys.mp h)
  unfold mayPin
  rw [Table.find?_eq_some_iff.mpr ⟨hr, hkey⟩, Option.isSome_some, Bool.true_or]

/-- Pinning a pinned key again keeps the order when, and only when, the key is the last pin. -/
theorem pinnedKeys_pin_again_iff {key : String} (h : key ∈ svc.pinnedKeys) (now : ℕ) :
    (svc.pin key now).pinnedKeys = svc.pinnedKeys ↔ svc.pinnedKeys.getLast? = some key := by
  unfold pin
  rw [if_pos (svc.mayPin_of_mem h), pinnedKeys_insertPin, eq_comm]
  exact eq_filter_concat_iff svc.nodup_pinnedKeys key

/-- A new pin that the limit lets through comes last. -/
theorem pinnedKeys_pin_new {key : String} (h : key ∉ svc.pinnedKeys)
    (hmay : svc.mayPin key = true) (now : ℕ) :
    (svc.pin key now).pinnedKeys = svc.pinnedKeys ++ [key] := by
  unfold pin
  rw [if_pos hmay, pinnedKeys_insertPin]
  congr 1
  refine List.filter_eq_self.mpr fun k hk => decide_eq_true ?_
  rintro rfl
  exact h hk

/-- An operation keeps the law when, and only when, it does not pin a pinned key that has other
pins behind it. -/
theorem orderLaw_iff (op : StoreWrite) : svc.OrderLaw op ↔ svc.RepinsLast op := by
  cases op with
  | pin key now =>
      simp only [OrderLaw, RepinsLast]
      by_cases hmem : key ∈ svc.pinnedKeys
      · rw [if_pos hmem, svc.pinnedKeys_pin_again_iff hmem, forall_prop_of_true hmem]
      · rw [if_neg hmem]
        refine iff_of_true ?_ fun h => absurd h hmem
        split_ifs with hmay
        · exact svc.pinnedKeys_pin_new hmem hmay now
        · exact if_neg hmay
  | reorder key newOrder =>
      refine iff_of_true ?_ trivial
      simp only [OrderLaw]
      split_ifs with hmem
      · exact ⟨svc.pinnedRows_reorder hmem newOrder, svc.erase_pinnedKeys_reorder hmem newOrder⟩
      · unfold reorder moveKey
        rw [if_neg fun h => hmem (List.contains_iff_mem.mp h)]
  | _ => exact Iff.rfl

/-! ## Runs -/

/-- **The law of the order of the pins.** Over any operations of a new store the numbers of the
pins stay apart and every operation keeps the law when, and only when, no key is pinned again
while another pin is behind it. -/
theorem orderLaw_along_iff (ops : List StoreWrite) :
    ((∀ svc, favoriteStore.Visits empty ops svc → svc.DistinctOrder) ∧
        favoriteStore.Along OrderLaw empty ops) ↔
      favoriteStore.Along RepinsLast empty ops := by
  constructor
  · rintro ⟨-, halong⟩
    exact halong.mono fun svc op => (svc.orderLaw_iff op).mp
  · intro halong
    exact ⟨fun svc hsvc => svc.distinctOrder_of_visits hsvc,
      halong.mono fun svc op => (svc.orderLaw_iff op).mpr⟩

/-- Two pins, and the first of them once more: it comes last. -/
theorem not_orderLaw_repin :
    ¬ ∀ ops, (∀ svc, favoriteStore.Visits empty ops svc → svc.DistinctOrder) ∧
        favoriteStore.Along OrderLaw empty ops := by
  intro hall
  obtain ⟨-, halong⟩ := hall [.pin "app:a" 0, .pin "app:b" 1, .pin "app:a" 2]
  have hlaw := (orderLaw_iff _ _).mp ((halong.2 _ rfl).2 _ rfl).1
  have hlast := hlaw (by decide)
  revert hlast
  decide

end FavoriteService

end AuraLauncher.Search
