import AuraLauncher.Lib.Table
import Mathlib.Data.List.Sort

/-!
# Favourites

`launcher-core/src/favorites.rs`: the store of favourites and pins, each a table with the semantic
identity of a command as its key, and the snapshot of it that the ranking reads.

* `FavoriteService` — the two tables.
* `FavoriteService.add`, `FavoriteService.remove` — the writes behind `toggle_favorite`.
* `FavoriteService.mayPin`, `FavoriteService.insertPin`, `FavoriteService.pinnedKeys`,
  `FavoriteService.renumber` — the parts of `pin` and `reorder`, each under one lock of the store.
* `FavoriteService.snapshot`, `FavoriteSnapshot` — what the ranking reads.
-/

namespace AuraLauncher.Search

open AuraLauncher.Lib

/-- Source: `favorites.rs`, `MAX_FAVORITES`. -/
def MAX_FAVORITES : ℕ := 256

/-- Source: `favorites.rs`, `MAX_PINS`. -/
def MAX_PINS : ℕ := 32

/-- A row of `favorites`. -/
structure FavoriteRow where
  identityKey : String
  createdAt : ℕ
  deriving DecidableEq

/-- A row of `pins`. -/
structure PinRow where
  identityKey : String
  orderIndex : ℤ
  deriving DecidableEq

/-- The store of favourites. Source: `favorites.rs`, `FavoriteService`. -/
structure FavoriteService where
  favorites : Table FavoriteRow.identityKey
  pins : Table PinRow.identityKey

/-- What the ranking reads of the favourites. Source: `favorites.rs`, `FavoriteSnapshot`. -/
structure FavoriteSnapshot where
  favorites : List String
  /-- The pinned keys in display order. -/
  pinned : List String
  deriving DecidableEq

/-- Source: `favorites.rs`, `FavoriteSnapshot::is_favorite`. -/
def FavoriteSnapshot.isFavorite (s : FavoriteSnapshot) (key : String) : Bool :=
  s.favorites.contains key

/-- Source: `favorites.rs`, `FavoriteSnapshot::is_pinned`. -/
def FavoriteSnapshot.isPinned (s : FavoriteSnapshot) (key : String) : Bool := s.pinned.contains key

namespace FavoriteService

/-- A favourite is added unless it is there or the store is full; the answer is whether it was.
Source: `favorites.rs`, `FavoriteService::add`. -/
def add (svc : FavoriteService) (key : String) (now : ℕ) : Bool × FavoriteService :=
  if (svc.favorites.find? key).isSome || svc.favorites.rows.length ≥ MAX_FAVORITES then (false, svc)
  else (true, { svc with favorites := svc.favorites.insertOrIgnore ⟨key, now⟩ })

/-- A favourite is removed with its pin. Source: `favorites.rs`, `FavoriteService::remove`. -/
def remove (svc : FavoriteService) (key : String) : FavoriteService where
  favorites := svc.favorites.deleteWhere fun r => r.identityKey == key
  pins := svc.pins.deleteWhere fun r => r.identityKey == key

/-- Source: `favorites.rs`, `FavoriteService::snapshot`. -/
def snapshot (svc : FavoriteService) : FavoriteSnapshot where
  favorites := svc.favorites.rows.map FavoriteRow.identityKey
  pinned :=
    (svc.pins.rows.insertionSort fun a b => a.orderIndex ≤ b.orderIndex).map PinRow.identityKey

/-- Whether a pin is let through. Source: `favorites.rs`, the first lock in
`FavoriteService::pin`. -/
def mayPin (svc : FavoriteService) (key : String) : Bool :=
  (svc.pins.find? key).isSome || svc.pins.rows.length < MAX_PINS

/-- The favourite is added unless it is there, and the pin goes to the end of the order. Source:
`favorites.rs`, the transaction in `FavoriteService::pin`. -/
def insertPin (svc : FavoriteService) (key : String) (now : ℕ) : FavoriteService where
  favorites := svc.favorites.insertOrIgnore ⟨key, now⟩
  pins :=
    let last := (svc.pins.rows.map PinRow.orderIndex).max?.getD (-1)
    (svc.pins.deleteWhere fun r => r.identityKey == key).insertOrIgnore ⟨key, last + 1⟩

/-- Source: `favorites.rs`, `FavoriteService::unpin`. -/
def unpin (svc : FavoriteService) (key : String) : FavoriteService :=
  { svc with pins := svc.pins.deleteWhere fun r => r.identityKey == key }

/-- The pinned keys in display order. Source: `favorites.rs`, the first lock in
`FavoriteService::reorder`. -/
def pinnedKeys (svc : FavoriteService) : List String :=
  (svc.pins.rows.insertionSort fun a b => a.orderIndex ≤ b.orderIndex).map PinRow.identityKey

/-- The keys with one of them at another place, if it is there. Source: `favorites.rs`, between the
locks in `FavoriteService::reorder`. -/
def moveKey (pinned : List String) (key : String) (newOrder : ℕ) : Option (List String) :=
  if pinned.contains key then
    let rest := pinned.erase key
    some (rest.insertIdx (min newOrder rest.length) key)
  else none

/-- Every key gets its place as its number. Source: `favorites.rs`, the transaction in
`FavoriteService::reorder`. -/
def renumber (svc : FavoriteService) (keys : List String) : FavoriteService :=
  keys.zipIdx.foldl
    (fun svc p =>
      { svc with
        pins := svc.pins.updateWhere (fun r => r.identityKey == p.1)
          (fun r => { r with orderIndex := p.2 }) fun _ => rfl })
    svc

end FavoriteService

end AuraLauncher.Search
