import AuraLauncher.Search.Agreement
import AuraLauncher.Search.FavoriteOrder

/-!
# The snapshot of the favourites in the core

`launcher-core/src/lib.rs`: the core ranks by a snapshot of the favourites. `toggle_favorite`
reloads it after its write; `set_favorites` reloads it before the new store is attached, so what
it loads is the store that is being replaced. The pins have no operation of the core: they change
in the attached store, and nothing reloads the snapshot.

* `FavoriteOp`, `favoriteCore` — the operations of the core and those of its store, in any order.
* `Core.favoriteContents` — what the snapshot should hold.
* `KeepsSnapshot` — what a step needs to leave the snapshot with the contents of the store.
* `visits_same_iff` — the runs in which it always has them.
* `not_same_setFavorites` — a store with one favourite is attached to a new core.
* `toggleFavorite_reports_iff` — when the answer of a toggle is what the store then says.
* `not_reports_fullStore` — the 257th favourite is reported and not added.
-/

namespace AuraLauncher.Search

open AuraLauncher.Lib AuraLauncher.Domain

variable {ρ η : Type} (sv : Services ρ η)

/-- An operation of the core, or one of the store that is attached to it. -/
inductive FavoriteOp (ρ η : Type) where
  | core (op : Op ρ η)
  /-- `written` is whether the database answers. -/
  | store (op : StoreOp) (written : Bool)

/-- The core after an operation. -/
def stepFavoriteOp (s : Core ρ η) : FavoriteOp ρ η → Core ρ η
  | .core op => stepCore sv s op
  | .store op written =>
      if written then
        { s with favorites := s.favorites.map fun svc => svc.after s.wallMs op }
      else s

/-- The launcher with its store: every operation is possible in every state. -/
def favoriteCore : Machine (Core ρ η) (FavoriteOp ρ η) where
  step s op := some (stepFavoriteOp sv s op)

/-- The contents of the attached store; without a store there are none. -/
def Core.favoriteContents (s : Core ρ η) : FavoriteSnapshot :=
  match s.favorites with
  | some svc => svc.snapshot
  | none => ⟨[], []⟩

theorem Core.favoriteContents_of_some {s : Core ρ η} {svc : FavoriteService}
    (h : s.favorites = some svc) : s.favoriteContents = svc.snapshot := by
  unfold Core.favoriteContents
  rw [h]

theorem Core.favoriteContents_congr {s t : Core ρ η} (h : s.favorites = t.favorites) :
    s.favoriteContents = t.favoriteContents := by
  unfold Core.favoriteContents
  rw [h]

/-- What a step needs to leave the snapshot with the contents of the store: a store that is
attached has the contents of the one that it replaces; a toggle reloads the snapshot, unless the
store is full and refuses the key; an operation of the store changes nothing. -/
def KeepsSnapshot (s : Core ρ η) : FavoriteOp ρ η → Prop
  | .core (.setFavorites svc _) => s.favoriteContents.Same svc.snapshot
  | .core (.toggleFavorite c true false) =>
      ∀ svc, s.favorites = some svc →
        svc.favorites.find? (searchIdentityKey sv.std c) = none ∧
          MAX_FAVORITES ≤ svc.favorites.rows.length
  | .store op true => ∀ svc, s.favorites = some svc → svc.Idle op
  | _ => True

/-! ## One step -/

/-- The operations of the core that concern the store or its snapshot. -/
def Op.onFavorites : Op ρ η → Bool
  | .setFavorites _ _ => true
  | .refreshFavoriteSnapshot _ => true
  | .toggleFavorite _ _ _ => true
  | _ => false

theorem stepCore_favorites (s : Core ρ η) (op : Op ρ η) (h : op.onFavorites = false) :
    (stepCore sv s op).favorites = s.favorites ∧
      (stepCore sv s op).favoriteSnapshot = s.favoriteSnapshot := by
  cases op with
  | setFavorites svc read => cases h
  | refreshFavoriteSnapshot read => cases h
  | toggleFavorite c written read => cases h
  | search raw limit =>
      simp only [stepCore, search]
      split <;> exact ⟨rfl, rfl⟩
  | setSearchContext ctx =>
      simp only [stepCore, Core.setSearchContext]
      split_ifs <;> exact ⟨rfl, rfl⟩
  | _ => exact ⟨rfl, rfl⟩

/-- A reload leaves the snapshot as it is or takes the contents of the store. -/
theorem favoriteSnapshot_refresh (s : Core ρ η) (read : Bool) :
    (s.refreshFavoriteSnapshot read).favoriteSnapshot =
      if s.favorites.isSome && read then s.favoriteContents else s.favoriteSnapshot := by
  unfold Core.refreshFavoriteSnapshot Core.favoriteContents
  cases s.favorites <;> cases read <;> rfl

theorem favorites_refresh (s : Core ρ η) (read : Bool) :
    (s.refreshFavoriteSnapshot read).favorites = s.favorites := by
  obtain ⟨snapshot, heq⟩ := refreshFavoriteSnapshot_eq s read
  rw [heq]

/-- A reload keeps the contents. -/
theorem same_refresh {s : Core ρ η} (h : s.favoriteSnapshot.Same s.favoriteContents) (read : Bool) :
    (s.refreshFavoriteSnapshot read).favoriteSnapshot.Same s.favoriteContents := by
  rw [favoriteSnapshot_refresh]
  split_ifs
  · exact FavoriteSnapshot.Same.refl _
  · exact h

/-- The store after the write of a toggle: the side is taken by the snapshot. -/
def Core.toggled (s : Core ρ η) (svc : FavoriteService) (key : String) : FavoriteService :=
  if s.favoriteSnapshot.isFavorite key then svc.remove key else (svc.add key s.wallMs).2

/-- What a toggle does when the store takes the write. -/
theorem toggleFavorite_written {s : Core ρ η} {svc : FavoriteService} (h : s.favorites = some svc)
    (c : SearchCommand) (read : Bool) :
    (s.toggleFavorite sv c true read).1 =
        some !s.favoriteSnapshot.isFavorite (searchIdentityKey sv.std c) ∧
      (s.toggleFavorite sv c true read).2.favorites =
        some (s.toggled svc (searchIdentityKey sv.std c)) ∧
      (s.toggleFavorite sv c true read).2.favoriteSnapshot =
        if read then (s.toggled svc (searchIdentityKey sv.std c)).snapshot
        else s.favoriteSnapshot := by
  unfold Core.toggleFavorite
  rw [h]
  dsimp only
  rw [if_pos rfl, favorites_refresh, favoriteSnapshot_refresh]
  exact ⟨rfl, rfl, rfl⟩

/-- Without the write a toggle does nothing. -/
theorem toggleFavorite_unwritten {s : Core ρ η} {written : Bool}
    (h : s.favorites = none ∨ written = false) (c : SearchCommand) (read : Bool) :
    s.toggleFavorite sv c written read = (none, s) := by
  unfold Core.toggleFavorite
  cases hfavorites : s.favorites with
  | none => rfl
  | some svc =>
      have hunwritten : written = false := h.resolve_left (hfavorites ▸ Option.some_ne_none svc)
      rw [hunwritten]
      rfl

/-- The write of a toggle leaves the contents only when a full store refuses the key. -/
theorem same_toggled_iff {s : Core ρ η} {svc : FavoriteService}
    (h : s.favoriteSnapshot.Same svc.snapshot) (key : String) :
    svc.snapshot.Same (s.toggled svc key).snapshot ↔
      svc.favorites.find? key = none ∧ MAX_FAVORITES ≤ svc.favorites.rows.length := by
  have hfind := svc.isFavorite_snapshot key
  unfold Core.toggled
  rw [h.1 key]
  cases hfavorite : svc.snapshot.isFavorite key with
  | true =>
      rw [hfavorite] at hfind
      have hne : svc.favorites.find? key ≠ none := Option.isSome_iff_ne_none.mp hfind.symm
      simp [svc.not_same_remove hfavorite, hne]
  | false =>
      rw [hfavorite, eq_comm, Option.isSome_eq_false_iff, Option.isNone_iff_eq_none] at hfind
      simpa [hfind] using svc.same_add_iff hfavorite s.wallMs

/-- A toggle leaves the snapshot with the contents when it writes nothing, when it reloads, and
when a full store refuses the key. -/
theorem same_toggleFavorite_iff {s : Core ρ η} (h : s.favoriteSnapshot.Same s.favoriteContents)
    (c : SearchCommand) (written read : Bool) :
    (s.toggleFavorite sv c written read).2.favoriteSnapshot.Same
        (s.toggleFavorite sv c written read).2.favoriteContents ↔
      KeepsSnapshot sv s (.core (.toggleFavorite c written read)) := by
  by_cases hwritten : s.favorites = none ∨ written = false
  · rw [toggleFavorite_unwritten sv hwritten]
    refine iff_of_true h ?_
    rcases hwritten with hnone | rfl
    · cases written <;> cases read <;> simp [KeepsSnapshot, hnone]
    · exact trivial
  · obtain ⟨hsome, rfl⟩ : s.favorites ≠ none ∧ written = true := by simpa using hwritten
    obtain ⟨svc, hsvc⟩ := Option.ne_none_iff_exists'.mp hsome
    obtain ⟨-, hfavorites, hsnapshot⟩ := toggleFavorite_written sv hsvc c read
    have hcontents := Core.favoriteContents_of_some hfavorites
    rw [hcontents, hsnapshot]
    cases read with
    | true => exact iff_of_true (FavoriteSnapshot.Same.refl _) trivial
    | false =>
        rw [Core.favoriteContents_of_some hsvc] at h
        simp only [KeepsSnapshot, hsvc, Option.some_inj, forall_eq', Bool.false_eq_true, if_false]
        exact h.congr_left.trans (same_toggled_iff h _)

/-- **One step**: from a snapshot with the contents of the store, what the step needs. -/
theorem same_step_iff {s : Core ρ η} (h : s.favoriteSnapshot.Same s.favoriteContents)
    (op : FavoriteOp ρ η) :
    (stepFavoriteOp sv s op).favoriteSnapshot.Same (stepFavoriteOp sv s op).favoriteContents ↔
      KeepsSnapshot sv s op := by
  cases op with
  | store op written =>
      cases written with
      | false => exact iff_of_true h trivial
      | true =>
          simp only [stepFavoriteOp, KeepsSnapshot, Core.favoriteContents, if_true]
          simp only [Core.favoriteContents] at h
          cases hfavorites : s.favorites with
          | none =>
              rw [hfavorites] at h
              simpa using h
          | some svc =>
              rw [hfavorites] at h
              simpa using h.congr_left.trans (svc.same_after_iff s.wallMs op)
  | core op =>
      cases htouch : op.onFavorites with
      | false =>
          obtain ⟨hfavorites, hsnapshot⟩ := stepCore_favorites sv s op htouch
          refine iff_of_true ?_ ?_
          · exact (Core.favoriteContents_congr hfavorites).symm ▸ hsnapshot.symm ▸ h
          · cases op <;> trivial
      | true =>
          cases op with
          | setFavorites svc read => exact (same_refresh h read).congr_left
          | refreshFavoriteSnapshot read =>
              have hcontents := Core.favoriteContents_congr (favorites_refresh s read)
              exact iff_of_true (hcontents.symm ▸ same_refresh h read) trivial
          | toggleFavorite c written read => exact same_toggleFavorite_iff sv h c written read
          | _ => cases htouch

/-! ## Runs -/

/-- A store stays attached, and without one the snapshot is left alone. -/
theorem favoriteSnapshot_step_of_none {s : Core ρ η} {op : FavoriteOp ρ η}
    (h : (stepFavoriteOp sv s op).favorites = none) :
    s.favorites = none ∧ (stepFavoriteOp sv s op).favoriteSnapshot = s.favoriteSnapshot := by
  cases op with
  | store op written =>
      cases written with
      | false => exact ⟨h, rfl⟩
      | true => exact ⟨Option.map_eq_none_iff.mp h, rfl⟩
  | core op =>
      cases htouch : op.onFavorites with
      | false =>
          obtain ⟨hfavorites, hsnapshot⟩ := stepCore_favorites sv s op htouch
          exact ⟨hfavorites.symm.trans h, hsnapshot⟩
      | true =>
          cases op with
          | setFavorites svc read => cases h
          | refreshFavoriteSnapshot read =>
              have hnone : s.favorites = none := (favorites_refresh s read).symm.trans h
              refine ⟨hnone, (favoriteSnapshot_refresh s read).trans ?_⟩
              rw [hnone]
              rfl
          | toggleFavorite c written read =>
              by_cases hwritten : s.favorites = none ∨ written = false
              · rw [stepFavoriteOp, stepCore, toggleFavorite_unwritten sv hwritten] at h ⊢
                exact ⟨h, rfl⟩
              · obtain ⟨hsome, rfl⟩ : s.favorites ≠ none ∧ written = true := by
                  simpa using hwritten
                obtain ⟨svc, hsvc⟩ := Option.ne_none_iff_exists'.mp hsome
                have hfavorites := (toggleFavorite_written sv hsvc c read).2.1
                exact absurd (hfavorites.symm.trans h) (Option.some_ne_none _)
          | _ => cases htouch

/-- Until a store is attached the snapshot stays empty. -/
theorem favoriteSnapshot_of_none {ops : List (FavoriteOp ρ η)} {s : Core ρ η}
    (h : (favoriteCore sv).run (Core.new ρ η) ops = some s) (hnone : s.favorites = none) :
    s.favoriteSnapshot = ⟨[], []⟩ := by
  refine (favoriteCore sv).run_inv_of_step
    (I := fun s => s.favorites = none → s.favoriteSnapshot = ⟨[], []⟩)
    (fun s op s' hs hstep hnone => ?_) (fun _ => rfl) h hnone
  obtain rfl : stepFavoriteOp sv s op = s' := Option.some.inj hstep
  obtain ⟨hbefore, hsame⟩ := favoriteSnapshot_step_of_none sv hnone
  exact hsame.trans (hs hbefore)

/-- **The coherence of the snapshot.** In a run from a new core the snapshot has the contents of
the attached store in every state exactly when every step meets its condition. -/
theorem visits_same_iff (ops : List (FavoriteOp ρ η)) :
    (∀ s, (favoriteCore sv).Visits (Core.new ρ η) ops s →
      ∀ svc, s.favorites = some svc → s.favoriteSnapshot.Same svc.snapshot) ↔
    (favoriteCore sv).Along (KeepsSnapshot sv) (Core.new ρ η) ops := by
  rw [← (favoriteCore sv).forall_visits_iff_along
    (I := fun s => s.favoriteSnapshot.Same s.favoriteContents)
    (fun s op _ => ⟨stepFavoriteOp sv s op, rfl⟩)
    (fun s op s' h hs => Option.some.inj hs ▸ same_step_iff sv h op)
    (FavoriteSnapshot.Same.refl _)]
  refine forall₂_congr fun s hs => ?_
  cases hfavorites : s.favorites with
  | some svc => simp [Core.favoriteContents_of_some hfavorites]
  | none =>
      obtain ⟨past, -, hrun⟩ := hs
      have hempty := favoriteSnapshot_of_none sv hrun hfavorites
      simp [Core.favoriteContents, hfavorites, hempty, FavoriteSnapshot.Same.refl]

/-- A store with one favourite. -/
def oneFavorite : FavoriteService where
  favorites := ⟨[⟨"application:chrome", 0⟩], by decide⟩
  pins := Table.empty

/-- **A store is attached and its favourite is not in the snapshot.** -/
theorem not_same_setFavorites :
    ¬ ∀ (ops : List (FavoriteOp (List SearchCommand) Unit))
      (s : Core (List SearchCommand) Unit),
      (favoriteCore heldServices).Visits (Core.new _ _) ops s →
        ∀ svc, s.favorites = some svc → s.favoriteSnapshot.Same svc.snapshot := by
  intro h
  have hsame := h [.core (.setFavorites oneFavorite true)]
    { Core.new _ _ with favorites := some oneFavorite } (.of_run rfl) oneFavorite rfl
  exact absurd hsame (by decide)

/-! ## What a toggle reports -/

/-- The key is a favourite of the attached store. -/
def Core.HasFavorite (s : Core ρ η) (key : String) : Prop :=
  ∃ svc, s.favorites = some svc ∧ (svc.favorites.find? key).isSome = true

theorem hasFavorite_iff {s : Core ρ η} {svc : FavoriteService} (h : s.favorites = some svc)
    (key : String) : s.HasFavorite key ↔ svc.snapshot.isFavorite key = true := by
  unfold Core.HasFavorite
  rw [svc.isFavorite_snapshot, h]
  simp

/-- After the write of a toggle the key is a favourite when the side was that of an addition, and
the store had the key or room for it. -/
theorem isFavorite_toggled (s : Core ρ η) (svc : FavoriteService) (key : String) :
    (s.toggled svc key).snapshot.isFavorite key = true ↔
      s.favoriteSnapshot.isFavorite key = false ∧
        ((svc.favorites.find? key).isSome = true ∨ svc.favorites.rows.length < MAX_FAVORITES) := by
  unfold Core.toggled
  cases s.favoriteSnapshot.isFavorite key with
  | true => simp [svc.isFavorite_remove_self]
  | false => simpa using svc.isFavorite_add_self key s.wallMs

/-- **When the answer of a toggle is what the store then says**: the snapshot has the key, or the
store has it or has room for it. -/
theorem toggleFavorite_reports_iff (s : Core ρ η) (c : SearchCommand) (written read : Bool) :
    (∀ b, (s.toggleFavorite sv c written read).1 = some b →
      ((s.toggleFavorite sv c written read).2.HasFavorite (searchIdentityKey sv.std c) ↔
        b = true)) ↔
    (∀ svc, s.favorites = some svc → written = true →
      s.favoriteSnapshot.isFavorite (searchIdentityKey sv.std c) = true ∨
        (svc.favorites.find? (searchIdentityKey sv.std c)).isSome = true ∨
        svc.favorites.rows.length < MAX_FAVORITES) := by
  by_cases hwritten : s.favorites = none ∨ written = false
  · rw [toggleFavorite_unwritten sv hwritten]
    refine iff_of_true (fun b hb => by cases hb) fun svc hsvc htrue => ?_
    rcases hwritten with hnone | hfalse
    · exact absurd (hnone.symm.trans hsvc) (Option.some_ne_none svc).symm
    · exact absurd (hfalse.symm.trans htrue) Bool.false_ne_true
  · obtain ⟨hsome, rfl⟩ : s.favorites ≠ none ∧ written = true := by simpa using hwritten
    obtain ⟨svc, hsvc⟩ := Option.ne_none_iff_exists'.mp hsome
    obtain ⟨hanswer, hfavorites, -⟩ := toggleFavorite_written sv hsvc c read
    rw [hanswer, hasFavorite_iff hfavorites, isFavorite_toggled, hsvc]
    simp only [Option.some_inj, forall_eq', forall_const]
    cases s.favoriteSnapshot.isFavorite (searchIdentityKey sv.std c) <;> simp

/-- A store with 256 favourites. -/
def fullStore : FavoriteService where
  favorites :=
    { rows := (List.range MAX_FAVORITES).map fun n => ⟨String.ofList (List.replicate n 'a'), 0⟩
      nodup := by
        rw [List.map_map]
        refine List.nodup_range.map fun m n h => ?_
        simpa using congrArg List.length (String.ofList_injective h) }
  pins := Table.empty

/-- A new core with the full store, whose snapshot has been reloaded. -/
def fullCore : Core (List SearchCommand) Unit :=
  [Op.setFavorites fullStore true, .refreshFavoriteSnapshot true].foldl (stepCore heldServices)
    (Core.new _ _)

/-- **The 257th favourite is reported and not added.** -/
theorem not_reports_fullStore :
    ¬ ∀ (s : Core (List SearchCommand) Unit) (c : SearchCommand) (written read b : Bool),
      (s.toggleFavorite heldServices c written read).1 = some b →
        ((s.toggleFavorite heldServices c written read).2.HasFavorite
            (searchIdentityKey heldServices.std c) ↔ b = true) := by
  intro h
  have hanswer : (fullCore.toggleFavorite heldServices (namedCommand "id" "title") true true).1 =
      some true := by decide +kernel
  have hgone :
      ((fullCore.toggleFavorite heldServices (namedCommand "id" "title") true true).2.favorites.map
        fun svc => (svc.favorites.find?
          (searchIdentityKey heldServices.std (namedCommand "id" "title"))).isSome) =
      some false := by decide +kernel
  obtain ⟨svc, hsvc, hkey⟩ := (h _ _ _ _ _ hanswer).mpr rfl
  rw [hsvc, Option.map_some, hkey] at hgone
  exact absurd hgone (by decide)

end AuraLauncher.Search
