import AuraLauncher.Lib.OrderBy
import AuraLauncher.Search.Favorites
import Mathlib.Data.List.InsertIdx

/-!
# What the operations of the favourites do to their snapshot

`launcher-core/src/favorites.rs`: `pin`, `unpin` and `reorder`, each as one step, and what they and
the writes behind `toggle_favorite` change of the favourites and of the display order of the pins.

* `FavoriteService.pin`, `FavoriteService.reorder` — the parts of `Search.Favorites` put together.
* `StoreOp`, `FavoriteService.after` — the operations that change pins.
* `pinnedKeys_pin`, `pinnedKeys_unpin`, `pinnedKeys_reorder` — the display order afterwards.
* `FavoriteSnapshot.Same` — snapshots with the same favourites and the same order of pins.
* `Idle`, `same_after_iff` — the operations that leave the contents as they are.
* `same_add_iff`, `not_same_remove` — what an addition and a removal leave.
-/

namespace AuraLauncher.Search

open AuraLauncher.Lib

/-! ## The operations -/

namespace FavoriteService

/-- Source: `favorites.rs`, `FavoriteService::pin`, with no other thread between its two locks. -/
def pin (svc : FavoriteService) (key : String) (now : ℕ) : FavoriteService :=
  if svc.mayPin key then svc.insertPin key now else svc

/-- Source: `favorites.rs`, `FavoriteService::reorder`, with no other thread between its two
locks. -/
def reorder (svc : FavoriteService) (key : String) (newOrder : ℕ) : FavoriteService :=
  match moveKey svc.pinnedKeys key newOrder with
  | some keys => svc.renumber keys
  | none => svc

end FavoriteService

/-- An operation of the store on the pins. -/
inductive StoreOp where
  | pin (key : String)
  | unpin (key : String)
  | reorder (key : String) (newOrder : ℕ)

/-- The store after an operation that the database answers. -/
def FavoriteService.after (svc : FavoriteService) (now : ℕ) : StoreOp → FavoriteService
  | .pin key => svc.pin key now
  | .unpin key => svc.unpin key
  | .reorder key newOrder => svc.reorder key newOrder

namespace FavoriteService

variable (svc : FavoriteService)

/-! ## The favourites -/

theorem isFavorite_snapshot (key : String) :
    svc.snapshot.isFavorite key = (svc.favorites.find? key).isSome := by
  rw [Bool.eq_iff_iff, Option.isSome_iff_exists]
  simp only [snapshot, FavoriteSnapshot.isFavorite, List.contains_iff_mem, List.mem_map,
    Table.find?_eq_some_iff]

theorem isFavorite_insertPin (key : String) (now : ℕ) (k : String) :
    (svc.insertPin key now).snapshot.isFavorite k =
      (svc.snapshot.isFavorite k || decide (key = k)) := by
  rw [isFavorite_snapshot, isFavorite_snapshot]
  unfold insertPin
  rw [Table.find?_insertOrIgnore, Option.isSome_or]
  by_cases hk : key = k <;> simp [hk]

/-- A favourite that is removed is none afterwards. -/
theorem isFavorite_remove_self (key : String) :
    (svc.remove key).snapshot.isFavorite key = false := by
  rw [isFavorite_snapshot]
  unfold remove
  rw [Table.find?_deleteWhere]
  cases hfind : svc.favorites.find? key with
  | none => rfl
  | some r =>
      have hkey : r.identityKey = key := (Table.find?_eq_some_iff.mp hfind).2
      simp [Option.filter, hkey]

/-- A key is a favourite after its addition unless the store was full without it. -/
theorem isFavorite_add_self (key : String) (now : ℕ) :
    (svc.add key now).2.snapshot.isFavorite key = true ↔
      (svc.favorites.find? key).isSome = true ∨ svc.favorites.rows.length < MAX_FAVORITES := by
  rw [isFavorite_snapshot]
  unfold add
  split_ifs with hfull
  · rw [Bool.or_eq_true, decide_eq_true_eq, ge_iff_le, ← not_lt] at hfull
    tauto
  · rw [Bool.or_eq_true, not_or, decide_eq_true_eq, ge_iff_le, not_le] at hfull
    simp [Table.find?_insertOrIgnore, hfull.2]

/-! ## The pins -/

theorem nodup_pinnedKeys : svc.pinnedKeys.Nodup := by
  have hperm : svc.pinnedKeys.Perm (svc.pins.rows.map PinRow.identityKey) :=
    (List.perm_insertionSort _ _).map _
  exact hperm.nodup_iff.mpr svc.pins.nodup

/-- The order of the pins that a deletion leaves. -/
theorem map_insertionSort_filter (rows : List PinRow) (key : String) :
    ((rows.filter fun r => !(r.identityKey == key)).insertionSort fun a b =>
        a.orderIndex ≤ b.orderIndex).map PinRow.identityKey =
      ((rows.insertionSort fun a b => a.orderIndex ≤ b.orderIndex).map
        PinRow.identityKey).filter (· ≠ key) := by
  have htrans : IsTrans PinRow fun a b => a.orderIndex ≤ b.orderIndex :=
    ⟨fun _ _ _ => le_trans⟩
  have htotal : Std.Total fun a b : PinRow => a.orderIndex ≤ b.orderIndex :=
    ⟨fun _ _ => le_total _ _⟩
  rw [← filter_insertionSort, List.filter_map]
  congr 1
  refine List.filter_congr fun r _ => ?_
  rw [Function.comp_apply, Bool.eq_iff_iff]
  simp

theorem pinnedKeys_unpin (key : String) :
    (svc.unpin key).pinnedKeys = svc.pinnedKeys.filter (· ≠ key) :=
  map_insertionSort_filter svc.pins.rows key

/-- A new pin follows the other pins, with a number that exceeds theirs. -/
theorem exists_rows_insertPin (key : String) (now : ℕ) : ∃ n,
    (svc.insertPin key now).pins.rows =
        (svc.pins.deleteWhere fun r => r.identityKey == key).rows ++ [⟨key, n⟩] ∧
      ∀ r ∈ svc.pins.rows, r.orderIndex < n := by
  have hfree : ∀ r ∈ (svc.pins.deleteWhere fun r => r.identityKey == key).rows,
      r.identityKey ≠ key := by
    intro r hr
    simpa using (Table.mem_deleteWhere.mp hr).2
  refine ⟨_, Table.rows_insertOrIgnore_of_free hfree, fun r hr => ?_⟩
  have hmem : r.orderIndex ∈ svc.pins.rows.map PinRow.orderIndex := List.mem_map_of_mem hr
  obtain ⟨last, hlast⟩ := Option.isSome_iff_exists.mp (List.isSome_max?_of_mem hmem)
  have hle := (List.max?_eq_some_iff.mp hlast).2 _ hmem
  rw [hlast, Option.getD_some]
  omega

/-- A pin is put at the end of the display order. -/
theorem pinnedKeys_insertPin (key : String) (now : ℕ) :
    (svc.insertPin key now).pinnedKeys = svc.pinnedKeys.filter (· ≠ key) ++ [key] := by
  obtain ⟨n, hrows, hlt⟩ := svc.exists_rows_insertPin key now
  unfold pinnedKeys
  rw [hrows, insertionSort_concat, List.map_append]
  · exact congrArg (· ++ [key]) (map_insertionSort_filter svc.pins.rows key)
  · exact fun r hr => (hlt r (Table.mem_deleteWhere.mp hr).1).le

/-- Every key in the list gets its place as its number; other pins keep theirs. -/
theorem rows_foldl_zipIdx {keys : List String} (hkeys : keys.Nodup) (n : ℕ)
    (svc : FavoriteService) :
    ((keys.zipIdx n).foldl
      (fun svc p =>
        { svc with
          pins := svc.pins.updateWhere (fun r => r.identityKey == p.1)
            (fun r => { r with orderIndex := p.2 }) fun _ => rfl }) svc).pins.rows =
      svc.pins.rows.map fun r =>
        if r.identityKey ∈ keys then
          { r with orderIndex := (n + keys.idxOf r.identityKey : ℕ) }
        else r := by
  induction keys generalizing n svc with
  | nil => simp
  | cons key keys ih =>
      obtain ⟨hkey, hkeys⟩ := List.nodup_cons.mp hkeys
      rw [List.zipIdx_cons, List.foldl_cons, ih hkeys]
      simp only [Table.updateWhere, List.map_map]
      refine List.map_congr_left fun r _ => ?_
      by_cases hr : r.identityKey = key
      · simp [hr, hkey]
      · have hne : key ≠ r.identityKey := Ne.symm hr
        simp only [Function.comp_apply, beq_iff_eq, hr, if_false, List.mem_cons, false_or,
          List.idxOf_cons_ne keys hne]
        split_ifs
        · rw [Nat.add_right_comm n 1, Nat.add_assoc]
        · rfl

/-- A numbering of the pinned keys is their display order afterwards. -/
theorem pinnedKeys_renumber {keys : List String} (h : keys.Perm svc.pinnedKeys) :
    (svc.renumber keys).pinnedKeys = keys := by
  have hperm : svc.pinnedKeys.Perm (svc.pins.rows.map PinRow.identityKey) :=
    (List.perm_insertionSort _ _).map _
  have hnodup : keys.Nodup := h.nodup_iff.mpr svc.nodup_pinnedKeys
  have hrows : (svc.renumber keys).pins.rows = svc.pins.rows.map fun r =>
      if r.identityKey ∈ keys then { r with orderIndex := (0 + keys.idxOf r.identityKey : ℕ) }
      else r := rows_foldl_zipIdx hnodup 0 svc
  have hkeys : (svc.renumber keys).pins.rows.map PinRow.identityKey =
      svc.pins.rows.map PinRow.identityKey := by
    rw [hrows, List.map_map]
    refine List.map_congr_left fun r _ => ?_
    rw [Function.comp_apply]
    split_ifs <;> rfl
  refine map_insertionSort_idxOf (hkeys ▸ h.trans hperm) hnodup fun r' hr' => ?_
  rw [hrows] at hr'
  obtain ⟨r, hr, rfl⟩ := List.mem_map.mp hr'
  have hmem : r.identityKey ∈ keys :=
    (h.trans hperm).mem_iff.mpr (List.mem_map_of_mem hr)
  rw [if_pos hmem, Nat.zero_add]

/-! ## Moving a pin -/

/-- The keys with one of them moved are the same keys. -/
theorem perm_of_moveKey {pinned keys : List String} {key : String} {newOrder : ℕ}
    (h : moveKey pinned key newOrder = some keys) : keys.Perm pinned := by
  unfold moveKey at h
  split_ifs at h with hmem
  obtain rfl := Option.some.inj h
  have hle : min newOrder (pinned.erase key).length ≤ (pinned.erase key).length :=
    Nat.min_le_right _ _
  exact (List.perm_insertIdx key _ hle).trans
    (List.perm_cons_erase (List.contains_iff_mem.mp hmem)).symm

/-- A key that is moved to its own place leaves the order as it is, and no other does. -/
theorem moveKey_eq_self_iff {pinned : List String} (hnodup : pinned.Nodup) {key : String}
    (hmem : key ∈ pinned) (newOrder : ℕ) :
    moveKey pinned key newOrder = some pinned ↔
      pinned[min newOrder (pinned.length - 1)]? = some key := by
  have hlength : (pinned.erase key).length = pinned.length - 1 := List.length_erase_of_mem hmem
  unfold moveKey
  rw [if_pos (List.contains_iff_mem.mpr hmem), Option.some_inj, hlength]
  set place := min newOrder (pinned.length - 1)
  have hplace : place ≤ pinned.length - 1 := Nat.min_le_right _ _
  constructor
  · intro heq
    have hget : ((pinned.erase key).insertIdx place key)[place]? = some key := by
      rw [List.getElem?_insertIdx_self, if_pos (hlength ▸ hplace)]
    rwa [heq] at hget
  · intro hget
    obtain ⟨hlt, rfl⟩ := List.getElem?_eq_some_iff.mp hget
    rw [hnodup.erase_getElem, List.insertIdx_eraseIdx_getElem hlt]

end FavoriteService

/-! ## The same contents -/

/-- The same favourites, and the same pins in the same order. -/
def FavoriteSnapshot.Same (a b : FavoriteSnapshot) : Prop :=
  (∀ key, a.isFavorite key = b.isFavorite key) ∧ a.pinned = b.pinned

namespace FavoriteSnapshot

variable {a b c : FavoriteSnapshot}

instance : Decidable (a.Same b) :=
  decidable_of_iff
    ((∀ key ∈ a.favorites, key ∈ b.favorites) ∧ (∀ key ∈ b.favorites, key ∈ a.favorites) ∧
      a.pinned = b.pinned) <| by
    rw [← and_assoc]
    refine and_congr_left fun _ => ?_
    have hkey : ∀ key, a.isFavorite key = b.isFavorite key ↔
        (key ∈ a.favorites ↔ key ∈ b.favorites) := by
      intro key
      rw [Bool.eq_iff_iff, isFavorite, isFavorite, List.contains_iff_mem, List.contains_iff_mem]
    simp only [hkey, iff_def, forall_and]

@[refl] theorem Same.refl (a : FavoriteSnapshot) : a.Same a := ⟨fun _ => rfl, rfl⟩

theorem Same.symm (h : a.Same b) : b.Same a := ⟨fun key => (h.1 key).symm, h.2.symm⟩

theorem Same.trans (h : a.Same b) (h' : b.Same c) : a.Same c :=
  ⟨fun key => (h.1 key).trans (h'.1 key), h.2.trans h'.2⟩

/-- Snapshots of the same contents differ from the same snapshots. -/
theorem Same.congr_left (h : a.Same b) : a.Same c ↔ b.Same c :=
  ⟨fun h' => h.symm.trans h', fun h' => h.trans h'⟩

end FavoriteSnapshot

namespace FavoriteService

variable (svc : FavoriteService)

/-- The operation changes neither the favourites nor the order of the pins: there is no room for
the pin, or it is the last one of a favourite; there is no pin to remove or to move; the pin is
moved to its own place. -/
def Idle : StoreOp → Prop
  | .pin key =>
      svc.mayPin key = false ∨
        (svc.favorites.find? key).isSome = true ∧ svc.pinnedKeys.getLast? = some key
  | .unpin key => key ∉ svc.pinnedKeys
  | .reorder key newOrder =>
      key ∉ svc.pinnedKeys ∨
        svc.pinnedKeys[min newOrder (svc.pinnedKeys.length - 1)]? = some key

instance : (op : StoreOp) → Decidable (svc.Idle op)
  | .pin _ => inferInstanceAs (Decidable (_ ∨ _))
  | .unpin _ => inferInstanceAs (Decidable (_ ∉ _))
  | .reorder _ _ => inferInstanceAs (Decidable (_ ∨ _))

/-- Moving a key to the end leaves the list as it is when it is the last. -/
theorem eq_filter_concat_iff {keys : List String} (h : keys.Nodup) (key : String) :
    keys = keys.filter (· ≠ key) ++ [key] ↔ keys.getLast? = some key := by
  constructor
  · intro heq
    rw [heq, List.getLast?_concat]
  · intro hlast
    obtain ⟨front, rfl⟩ := List.getLast?_eq_some_iff.mp hlast
    have hfront : ∀ k ∈ front, decide (k ≠ key) = true := by
      intro k hk
      rw [decide_eq_true_eq]
      rintro rfl
      exact (List.disjoint_of_nodup_append h) hk List.mem_cons_self
    rw [List.filter_append, List.filter_eq_self.mpr hfront]
    simp

theorem same_insertPin_iff (key : String) (now : ℕ) :
    svc.snapshot.Same (svc.insertPin key now).snapshot ↔
      (svc.favorites.find? key).isSome = true ∧ svc.pinnedKeys.getLast? = some key := by
  have hpinned : svc.snapshot.pinned = (svc.insertPin key now).snapshot.pinned ↔
      svc.pinnedKeys.getLast? = some key := by
    rw [← eq_filter_concat_iff svc.nodup_pinnedKeys, ← svc.pinnedKeys_insertPin key now]
    rfl
  refine and_congr ?_ hpinned
  rw [← svc.isFavorite_snapshot key]
  constructor
  · intro h
    rw [h key, svc.isFavorite_insertPin key now, decide_eq_true rfl, Bool.or_true]
  · intro h k
    rw [svc.isFavorite_insertPin key now]
    by_cases hk : key = k
    · rw [← hk, h, Bool.true_or]
    · rw [decide_eq_false hk, Bool.or_false]

/-- An operation that leaves the favourites alone is idle when it leaves the display order. -/
theorem same_iff_pinnedKeys {svc' : FavoriteService} (h : svc'.favorites = svc.favorites) :
    svc.snapshot.Same svc'.snapshot ↔ svc.pinnedKeys = svc'.pinnedKeys := by
  refine and_iff_right fun key => ?_
  rw [isFavorite_snapshot, isFavorite_snapshot, h]

theorem favorites_renumber (keys : List String) :
    (svc.renumber keys).favorites = svc.favorites := by
  unfold renumber
  exact List.foldlRecOn
    (motive := fun svc' : FavoriteService => svc'.favorites = svc.favorites) _ _ rfl
    fun _ h _ _ => h

/-- **The operations that leave the contents as they are.** -/
theorem same_after_iff (now : ℕ) (op : StoreOp) :
    svc.snapshot.Same (svc.after now op).snapshot ↔ svc.Idle op := by
  cases op with
  | pin key =>
      simp only [after, pin, Idle]
      cases hmay : svc.mayPin key with
      | false => simp [FavoriteSnapshot.Same.refl]
      | true => simpa using svc.same_insertPin_iff key now
  | unpin key =>
      have hfavorites : (svc.unpin key).favorites = svc.favorites := rfl
      simp only [after, Idle]
      rw [svc.same_iff_pinnedKeys hfavorites, pinnedKeys_unpin, eq_comm, List.filter_eq_self]
      constructor
      · intro h hmem
        simpa using h key hmem
      · rintro h k hk
        rw [decide_eq_true_eq]
        rintro rfl
        exact h hk
  | reorder key newOrder =>
      simp only [after, reorder, Idle]
      by_cases hmem : key ∈ svc.pinnedKeys
      · rw [← moveKey_eq_self_iff svc.nodup_pinnedKeys hmem]
        cases hmove : moveKey svc.pinnedKeys key newOrder with
        | none =>
            rw [moveKey, if_pos (List.contains_iff_mem.mpr hmem)] at hmove
            cases hmove
        | some keys =>
            dsimp only
            rw [svc.same_iff_pinnedKeys (svc.favorites_renumber keys),
              svc.pinnedKeys_renumber (perm_of_moveKey hmove)]
            simp [hmem, eq_comm]
      · have hnone : moveKey svc.pinnedKeys key newOrder = none := by
          rw [moveKey, if_neg fun h => hmem (List.contains_iff_mem.mp h)]
        simp [hnone, hmem, FavoriteSnapshot.Same.refl]

/-! ## The writes of a toggle -/

/-- A removed favourite is missed. -/
theorem not_same_remove {key : String} (h : svc.snapshot.isFavorite key = true) :
    ¬ svc.snapshot.Same (svc.remove key).snapshot := by
  intro hsame
  have hgone := (hsame.1 key).symm.trans h
  rw [isFavorite_remove_self] at hgone
  exact absurd hgone Bool.false_ne_true

/-- The addition of a key that is no favourite leaves the contents only when the store is full. -/
theorem same_add_iff {key : String} (h : svc.snapshot.isFavorite key = false) (now : ℕ) :
    svc.snapshot.Same (svc.add key now).2.snapshot ↔
      MAX_FAVORITES ≤ svc.favorites.rows.length := by
  have hfind : (svc.favorites.find? key).isSome = false := svc.isFavorite_snapshot key ▸ h
  constructor
  · intro hsame
    by_contra hroom
    have hadded := (svc.isFavorite_add_self key now).mpr (.inr (not_le.mp hroom))
    rw [← hsame.1 key, h] at hadded
    exact absurd hadded Bool.false_ne_true
  · intro hfull
    have heq : (svc.add key now).2 = svc := by
      unfold add
      rw [if_pos (by simp [hfull])]
    rw [heq]

end FavoriteService

end AuraLauncher.Search
