import AuraLauncher.Lib.Machine
import AuraLauncher.Search.Favorites

/-!
# The bounds of the favourites

`launcher-core/src/favorites.rs` takes the lock of its connection anew for every part of an
operation, so the parts of operations of different threads may come in any order. `pin` checks the
number of pins under one lock and inserts under another, and never counts the favourites.

* `Section`, `favoriteMachine` — what a thread does under one lock; threads call operations and run
  their sections in any order.
* `FavoriteService.Bounded` — every pin is a favourite, and both tables keep their limits.
* `bounded_insertPin_iff` — what the insertion of a pin needs to keep the bounds.
* `visits_bounded_iff` — the runs that keep the bounds.
* `exists_unbounded_run` — the pin of a key beside 256 favourites.
-/

namespace AuraLauncher.Search

open AuraLauncher.Lib

/-- An operation of the store, and `toggle_favorite` of the core. -/
inductive FavoriteCall where
  | add (key : String)
  | remove (key : String)
  | toggle (key : String)
  | pin (key : String)
  | unpin (key : String)
  | reorder (key : String) (newOrder : ℕ)

/-- What a thread does when it next holds the lock. -/
inductive Section where
  /-- `toggled` is whether the snapshot of the core is reloaded afterwards. -/
  | add (key : String) (toggled : Bool)
  | remove (key : String) (toggled : Bool)
  | checkPin (key : String)
  | insertPin (key : String)
  | unpin (key : String)
  | readPins (key : String) (newOrder : ℕ)
  | renumber (keys : List String)
  | snapshotFavorites
  | snapshotPins (favorites : List String)

/-- The store, the snapshot of the core, and what the threads are about to do. -/
structure FavoriteState where
  svc : FavoriteService
  snapshot : FavoriteSnapshot
  pending : ℕ → Option Section

/-- An event: a thread calls an operation, a thread takes the lock for its next section, the
launcher starts anew. -/
inductive FavoriteEvent where
  | call (thread : ℕ) (op : FavoriteCall)
  /-- `now` is the clock, `ok` whether the database answered. -/
  | lock (thread : ℕ) (now : ℕ) (ok : Bool)
  | restart

/-- The first section of an operation. The side that a toggle takes is decided by the snapshot. -/
def FavoriteCall.start (snapshot : FavoriteSnapshot) : FavoriteCall → Section
  | .add key => .add key false
  | .remove key => .remove key false
  | .toggle key => if snapshot.isFavorite key then .remove key true else .add key true
  | .pin key => .checkPin key
  | .unpin key => .unpin key
  | .reorder key newOrder => .readPins key newOrder

/-- The store after a section that the database answers. -/
def Section.write (svc : FavoriteService) (now : ℕ) : Section → FavoriteService
  | .add key _ => (svc.add key now).2
  | .remove key _ => svc.remove key
  | .insertPin key => svc.insertPin key now
  | .unpin key => svc.unpin key
  | .renumber keys => svc.renumber keys
  | .checkPin _ => svc
  | .readPins _ _ => svc
  | .snapshotFavorites => svc
  | .snapshotPins _ => svc

/-- What the thread does next, after a section that the database answers. -/
def Section.next (svc : FavoriteService) : Section → Option Section
  | .add _ toggled => if toggled then some .snapshotFavorites else none
  | .remove _ toggled => if toggled then some .snapshotFavorites else none
  | .checkPin key => if svc.mayPin key then some (.insertPin key) else none
  | .readPins key newOrder =>
      (FavoriteService.moveKey svc.pinnedKeys key newOrder).map Section.renumber
  | .snapshotFavorites =>
      some (.snapshotPins (svc.favorites.rows.map FavoriteRow.identityKey))
  | .insertPin _ => none
  | .unpin _ => none
  | .renumber _ => none
  | .snapshotPins _ => none

/-- The snapshot of the core after a section that the database answers. -/
def Section.reload (svc : FavoriteService) (snapshot : FavoriteSnapshot) :
    Section → FavoriteSnapshot
  | .snapshotPins favorites => ⟨favorites, svc.pinnedKeys⟩
  | _ => snapshot

/-- One event. A thread that the database does not answer gives its operation up, and no part of the
section has been written. -/
def stepFavorites (s : FavoriteState) : FavoriteEvent → FavoriteState
  | .call thread op =>
      if (s.pending thread).isNone then
        { s with pending := Function.update s.pending thread (some (op.start s.snapshot)) }
      else s
  | .lock thread now ok =>
      match s.pending thread with
      | none => s
      | some sec =>
          if ok then
            { svc := sec.write s.svc now
              snapshot := sec.reload s.svc s.snapshot
              pending := Function.update s.pending thread (sec.next s.svc) }
          else { s with pending := Function.update s.pending thread none }
  -- the store is attached after the snapshot was loaded, so the snapshot is that of no store
  | .restart => { s with snapshot := ⟨[], []⟩, pending := fun _ => none }

/-- The threads of the launcher: every event is possible in every state. -/
def favoriteMachine : Machine FavoriteState FavoriteEvent where
  step s e := some (stepFavorites s e)

/-- A launcher that starts with an empty store. -/
def FavoriteState.empty : FavoriteState where
  svc := ⟨Table.empty, Table.empty⟩
  snapshot := ⟨[], []⟩
  pending _ := none

/-! ## What a section keeps -/

/-- The bounds: every pinned key is a favourite, and both tables keep their limits. -/
structure FavoriteService.Bounded (svc : FavoriteService) : Prop where
  pins_subset : ∀ r ∈ svc.pins.rows, (svc.favorites.find? r.identityKey).isSome = true
  favorites_le : svc.favorites.rows.length ≤ MAX_FAVORITES
  pins_le : svc.pins.rows.length ≤ MAX_PINS

/-- What the insertion of a pin needs: the key is a favourite or there is room for one, and it is
pinned or there is room for a pin. -/
def FavoriteService.HasRoom (svc : FavoriteService) (key : String) : Prop :=
  ((svc.favorites.find? key).isSome = true ∨ svc.favorites.rows.length < MAX_FAVORITES) ∧
    ((svc.pins.find? key).isSome = true ∨ svc.pins.rows.length < MAX_PINS)

instance (svc : FavoriteService) (key : String) : Decidable (svc.HasRoom key) :=
  inferInstanceAs (Decidable (_ ∧ _))

namespace FavoriteService

variable {svc : FavoriteService}

/-- The bounds speak of the pinned keys only. -/
theorem Bounded.congr (h : svc.Bounded) {svc' : FavoriteService}
    (hfavorites : svc'.favorites = svc.favorites)
    (hpins : svc'.pins.rows.map PinRow.identityKey = svc.pins.rows.map PinRow.identityKey) :
    svc'.Bounded where
  pins_subset := by
    intro r hr
    have hkey : r.identityKey ∈ svc.pins.rows.map PinRow.identityKey :=
      hpins ▸ List.mem_map_of_mem hr
    obtain ⟨r', hr', heq⟩ := List.mem_map.mp hkey
    rw [hfavorites, ← heq]
    exact h.pins_subset r' hr'
  favorites_le := hfavorites ▸ h.favorites_le
  pins_le := by
    have hlength := congrArg List.length hpins
    rw [List.length_map, List.length_map] at hlength
    rw [hlength]
    exact h.pins_le

theorem Bounded.add (h : svc.Bounded) (key : String) (now : ℕ) : (svc.add key now).2.Bounded := by
  unfold FavoriteService.add
  split_ifs with hfull
  · exact h
  · rw [Bool.or_eq_true, not_or, decide_eq_true_eq] at hfull
    refine ⟨fun r hr => ?_, ?_, h.pins_le⟩
    · dsimp only
      rw [Table.find?_insertOrIgnore, Option.isSome_or, h.pins_subset r hr, Bool.true_or]
    · dsimp only
      rw [Table.length_insertOrIgnore]
      split_ifs <;> omega

theorem Bounded.remove (h : svc.Bounded) (key : String) : (svc.remove key).Bounded where
  pins_subset := by
    intro r hr
    obtain ⟨hr, hkey⟩ := Table.mem_deleteWhere.mp hr
    obtain ⟨f, hf⟩ := Option.isSome_iff_exists.mp (h.pins_subset r hr)
    have hfkey : f.identityKey = r.identityKey := (Table.find?_eq_some_iff.mp hf).2
    have hne : ¬ r.identityKey = key := by simpa using hkey
    unfold FavoriteService.remove
    rw [Table.find?_deleteWhere, hf]
    simp [Option.filter, hfkey, hne]
  favorites_le := (List.length_filter_le _ _).trans h.favorites_le
  pins_le := (List.length_filter_le _ _).trans h.pins_le

theorem Bounded.unpin (h : svc.Bounded) (key : String) : (svc.unpin key).Bounded where
  pins_subset := fun r hr => h.pins_subset r (Table.mem_deleteWhere.mp hr).1
  favorites_le := h.favorites_le
  pins_le := (List.length_filter_le _ _).trans h.pins_le

theorem Bounded.renumber (h : svc.Bounded) (keys : List String) : (svc.renumber keys).Bounded := by
  unfold FavoriteService.renumber
  refine List.foldlRecOn (motive := FavoriteService.Bounded) _ _ h fun svc hsvc p _ => ?_
  refine hsvc.congr rfl ?_
  exact Table.keys_updateWhere (f := fun r : PinRow => { r with orderIndex := p.2 }) fun _ => rfl

variable (svc) in
/-- The insertion of a pin adds the favourite of its key, unless it is there. -/
theorem length_favorites_insertPin (key : String) (now : ℕ) :
    (svc.insertPin key now).favorites.rows.length =
      svc.favorites.rows.length + if (svc.favorites.find? key).isSome then 0 else 1 :=
  Table.length_insertOrIgnore

variable (svc) in
/-- The pin of the key is replaced, if it has one. -/
theorem length_pins_insertPin (key : String) (now : ℕ) :
    (svc.insertPin key now).pins.rows.length + (if (svc.pins.find? key).isSome then 1 else 0) =
      svc.pins.rows.length + 1 := by
  have hdelete := Table.length_deleteWhere_key (t := svc.pins) (k := key)
  have hinsert : (svc.insertPin key now).pins.rows.length =
      (svc.pins.deleteWhere fun r => r.identityKey == key).rows.length + 1 := by
    unfold FavoriteService.insertPin
    rw [Table.length_insertOrIgnore, Table.find?_deleteWhere]
    cases hfind : svc.pins.find? key with
    | none => rfl
    | some r =>
        have hkey : r.identityKey = key := (Table.find?_eq_some_iff.mp hfind).2
        simp [Option.filter, hkey]
  omega

/-- The insertion of a pin keeps every pin a favourite. -/
theorem Bounded.pins_subset_insertPin (h : svc.Bounded) (key : String) (now : ℕ) :
    ∀ r ∈ (svc.insertPin key now).pins.rows,
      ((svc.insertPin key now).favorites.find? r.identityKey).isSome = true := by
  intro r hr
  unfold FavoriteService.insertPin
  rw [Table.find?_insertOrIgnore, Option.isSome_or]
  rcases Table.mem_of_mem_insertOrIgnore hr with hr | rfl
  · rw [h.pins_subset r (Table.mem_deleteWhere.mp hr).1, Bool.true_or]
  · simp

/-- **What the insertion of a pin needs** to keep the bounds. -/
theorem bounded_insertPin_iff (h : svc.Bounded) (key : String) (now : ℕ) :
    (svc.insertPin key now).Bounded ↔ svc.HasRoom key := by
  have hfavorites := svc.length_favorites_insertPin key now
  have hpins := svc.length_pins_insertPin key now
  have hle := h.favorites_le
  have hle' := h.pins_le
  constructor
  · intro h'
    have hnew := h'.favorites_le
    have hnew' := h'.pins_le
    constructor
    · by_cases hfind : (svc.favorites.find? key).isSome = true
      · exact .inl hfind
      · rw [if_neg hfind] at hfavorites
        exact .inr (by omega)
    · by_cases hfind : (svc.pins.find? key).isSome = true
      · exact .inl hfind
      · rw [if_neg hfind] at hpins
        exact .inr (by omega)
  · rintro ⟨hroom, hroom'⟩
    refine ⟨h.pins_subset_insertPin key now, ?_, ?_⟩
    · rw [hfavorites]
      split_ifs with hfind
      · exact hle
      · have hlt := hroom.resolve_left hfind
        omega
    · split_ifs at hpins with hfind
      · omega
      · have hlt := hroom'.resolve_left hfind
        omega

end FavoriteService

/-! ## Runs -/

/-- The condition of an event: a thread that inserts a pin finds room for it. -/
def PinHasRoom (s : FavoriteState) : FavoriteEvent → Prop
  | .lock thread _ true => ∀ key, s.pending thread = some (.insertPin key) → s.svc.HasRoom key
  | _ => True

/-- A section that is not the insertion of a pin keeps the bounds. -/
theorem bounded_write {svc : FavoriteService} (h : svc.Bounded) (now : ℕ) {sec : Section}
    (hsec : ∀ key, sec ≠ .insertPin key) : (sec.write svc now).Bounded := by
  cases sec with
  | add key toggled => exact h.add key now
  | remove key toggled => exact h.remove key
  | insertPin key => exact absurd rfl (hsec key)
  | unpin key => exact h.unpin key
  | renumber keys => exact h.renumber keys
  | checkPin key => exact h
  | readPins key newOrder => exact h
  | snapshotFavorites => exact h
  | snapshotPins favorites => exact h

theorem bounded_step_iff {s : FavoriteState} (h : s.svc.Bounded) (e : FavoriteEvent) :
    (stepFavorites s e).svc.Bounded ↔ PinHasRoom s e := by
  cases e with
  | call thread op =>
      unfold stepFavorites
      dsimp only
      split_ifs <;> simp [PinHasRoom, h]
  | restart => simp [stepFavorites, PinHasRoom, h]
  | lock thread now ok =>
      cases ok with
      | false => cases hsec : s.pending thread <;> simp [stepFavorites, PinHasRoom, hsec, h]
      | true =>
          cases hsec : s.pending thread with
          | none => simp [stepFavorites, PinHasRoom, hsec, h]
          | some sec =>
              by_cases hpin : ∃ key, sec = .insertPin key
              · obtain ⟨key, rfl⟩ := hpin
                simp only [stepFavorites, PinHasRoom, hsec, if_true, Section.write]
                rw [FavoriteService.bounded_insertPin_iff h]
                simp
              · have hwrite := bounded_write h now fun key hkey => hpin ⟨key, hkey⟩
                simp only [stepFavorites, PinHasRoom, hsec, if_true, hwrite, true_iff]
                rintro key ⟨⟩
                exact absurd ⟨key, rfl⟩ hpin

theorem bounded_empty : FavoriteState.empty.svc.Bounded where
  pins_subset := fun _ hr => absurd hr List.not_mem_nil
  favorites_le := Nat.zero_le _
  pins_le := Nat.zero_le _

/-- **The bounds of the favourites.** In every state that a run from an empty store meets, every pin
is a favourite and both limits are kept, exactly when every insertion of a pin in the run finds room
for it. -/
theorem visits_bounded_iff (es : List FavoriteEvent) :
    (∀ s, favoriteMachine.Visits .empty es s →
      (∀ r ∈ s.svc.pins.rows, (s.svc.favorites.find? r.identityKey).isSome = true) ∧
        s.svc.favorites.rows.length ≤ MAX_FAVORITES ∧ s.svc.pins.rows.length ≤ MAX_PINS) ↔
    favoriteMachine.Along PinHasRoom .empty es := by
  rw [← favoriteMachine.forall_visits_iff_along (I := fun s => s.svc.Bounded)
    (fun s e _ => ⟨stepFavorites s e, rfl⟩)
    (fun s e s' h hs => Option.some.inj hs ▸ bounded_step_iff h e) bounded_empty]
  refine forall₂_congr fun s _ => ?_
  exact ⟨fun h => ⟨h.1, h.2.1, h.2.2⟩, fun h => ⟨h.pins_subset, h.favorites_le, h.pins_le⟩⟩

/-- One thread pins a key and has done so before the next event. -/
def pinAlone (key : String) : List FavoriteEvent :=
  [.call 0 (.pin key), .lock 0 0 true, .lock 0 0 true]

/-- Beside 31 pins, two threads check their keys before either inserts its own. -/
def pinTogether : List FavoriteEvent :=
  ((List.range 31).flatMap fun n => pinAlone (Nat.repr n)) ++
    [.call 1 (.pin "a"), .call 2 (.pin "b"), .lock 1 0 true, .lock 2 0 true, .lock 1 0 true,
      .lock 2 0 true]

/-- Both keys are pinned, which makes 33 pins. -/
theorem pinTogether_unbounded :
    ¬ ∀ (es : List FavoriteEvent) (s : FavoriteState), favoriteMachine.Visits .empty es s →
      (∀ r ∈ s.svc.pins.rows, (s.svc.favorites.find? r.identityKey).isSome = true) ∧
        s.svc.favorites.rows.length ≤ MAX_FAVORITES ∧ s.svc.pins.rows.length ≤ MAX_PINS := by
  intro h
  have hrun : favoriteMachine.run .empty pinTogether =
      some (pinTogether.foldl stepFavorites .empty) :=
    favoriteMachine.run_eq_foldl (fun _ _ => rfl) _ _
  have hlength : (pinTogether.foldl stepFavorites .empty).svc.pins.rows.length = 33 := by
    decide +kernel
  have hle := (h pinTogether _ (.of_run hrun)).2.2
  rw [hlength] at hle
  exact absurd hle (by decide)

end AuraLauncher.Search
