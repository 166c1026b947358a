import AuraLauncher.Providers.Reconcile

/-!
# Reconciling in another order

The reports are sorted by identity and source before they are merged, and the first of an identity
gives its row the name and the paths. Two reports of one identity from one source are not told
apart by the sort, which is stable, so the one that was discovered first decides.

* `Reconciles` — a reconcile commits the same rows for every order of the reports, one for each
  identity, and counts the generation up by one.
* `TiesAgree` — reports of one identity from the source that decides say the same.
* `mergedRows_perm` — where the ties agree, the order of the reports does not matter.
* `rowOf_sort_cons` — and where they do not, the report that comes first decides.
* `reconciles_iff` — the ties are all that matters.
-/

namespace AuraLauncher.Providers

open AuraLauncher.Lib AuraLauncher.Domain AuraLauncher.Workflow

variable (S : IdentityStd)

/-- The columns that `list` selects. -/
def listColumns : List String :=
  ["identity_key", "display_name", "source", "launch_path", "lifecycle", "sources", "entry_path"]

/-- What `list` selects of a row. -/
def listed (r : Fields SqlValue) : List (Option SqlValue) := listColumns.map fun c => r.lookup c

/-- What `list` selects of the committed rows. -/
def Database.listed (db : Database) : List (List (Option SqlValue)) :=
  (db.application.map fun t => t.rows.map Providers.listed).getD []

/-- The identities of the committed rows. -/
def Database.identities (db : Database) : List (Option SqlValue) :=
  (db.application.map fun t => t.rows.map fun r => r.lookup "identity_key").getD []

/-- What a reconcile is to do with these reports, in any order, on an intact catalog. -/
structure Reconciles (obs : List ApplicationObservation) : Prop where
  commits : ∀ db now, Intact db →
    ∃ db' g, reconcileObservations S now obs db = some (db', g, (mergedRows S obs).length)
  sameRows : ∀ obs' db db₁ db₂ now now' out out', obs'.Perm obs → Intact db → Intact db₁ →
    reconcileObservations S now obs db = some (db₂, out) →
    ∀ db₃, reconcileObservations S now' obs' db₁ = some (db₃, out') → db₃.listed = db₂.listed
  oneRow : ∀ db now db' out, Intact db → reconcileObservations S now obs db = some (db', out) →
    db'.identities.Nodup ∧
      ∀ i, some (.text i) ∈ db'.identities ↔ ∃ o ∈ obs, canonicalIdentity S o = i
  generation : ∀ db now db' g' n g, Intact db → Counted db g → g + 1 < 2 ^ 63 →
    reconcileObservations S now obs db = some (db', g', n) → Counted db' (g + 1) ∧ g' = g + 1

/-- A report from the first, in the order of their names, of the sources of its identity. -/
def Deciding (obs : List ApplicationObservation) (o : ApplicationObservation) : Prop :=
  o ∈ obs ∧ ∀ o' ∈ obs, canonicalIdentity S o' = canonicalIdentity S o → o.sourceId ≤ o'.sourceId

/-- The deciding reports of an identity have one name, one launch path and one hint. -/
def TiesAgree (obs : List ApplicationObservation) : Prop :=
  ∀ o o', Deciding S obs o → Deciding S obs o' → canonicalIdentity S o = canonicalIdentity S o' →
    o.displayName = o'.displayName ∧ o.launchPath = o'.launchPath ∧
      o.identityHint = o'.identityHint

variable {S}

/-! ## The sorted reports -/

section sorted

variable {obs : List ApplicationObservation} {x : Identified} {i : String}

theorem pairwise_sortObservations (obs : List ApplicationObservation) :
    (sortObservations S obs).Pairwise KeyLe :=
  List.pairwise_insertionSort KeyLe _

theorem sortObservations_perm (obs : List ApplicationObservation) :
    (sortObservations S obs).Perm (obs.map fun o => (canonicalIdentity S o, o)) :=
  List.perm_insertionSort KeyLe _

theorem mem_sortObservations :
    x ∈ sortObservations S obs ↔ x.2 ∈ obs ∧ canonicalIdentity S x.2 = x.1 := by
  rw [(sortObservations_perm obs).mem_iff, List.mem_map]
  constructor
  · rintro ⟨o, ho, rfl⟩
    exact ⟨ho, rfl⟩
  · rintro ⟨ho, hid⟩
    exact ⟨x.2, ho, Prod.ext hid rfl⟩

/-- The first report of an identity in the sorted list is a deciding one. -/
theorem deciding_of_find?
    (h : (sortObservations S obs).find? (fun x => decide (x.1 = i)) = some x) :
    x.1 = i ∧ canonicalIdentity S x.2 = i ∧ Deciding S obs x.2 := by
  obtain ⟨hx, pre, post, hsplit, hpre⟩ := List.find?_eq_some_iff_append.mp h
  have hi : x.1 = i := of_decide_eq_true hx
  obtain ⟨hmem, hid⟩ := mem_sortObservations.mp (List.mem_of_find?_eq_some h)
  refine ⟨hi, hid.trans hi, hmem, fun o' ho' hid' => ?_⟩
  have hsorted := pairwise_sortObservations (S := S) obs
  have hmem' : (x.1, o') ∈ sortObservations S obs :=
    mem_sortObservations.mpr ⟨ho', hid'.trans hid⟩
  rw [hsplit] at hsorted hmem'
  rcases List.mem_append.mp hmem' with hin | hin
  · exact absurd (hpre _ hin) (by simp [hi])
  · rcases List.mem_cons.mp hin with heq | hin
    · exact (congrArg (fun y => y.2.sourceId) heq).ge
    · have hle := (List.pairwise_cons.mp (List.pairwise_append.mp hsorted).2.1).1 _ hin
      rcases Prod.Lex.toLex_le_toLex.mp hle with hlt | ⟨-, hle⟩
      · exact absurd hlt (lt_irrefl x.1)
      · exact hle

/-- The sources of an identity, in the order of the sorted list. -/
theorem sources_eq_of_perm {obs' : List ApplicationObservation} (hp : obs'.Perm obs) (i : String) :
    (((sortObservations S obs').filter fun x => decide (x.1 = i)).map fun x => x.2.sourceId) =
      (((sortObservations S obs).filter fun x => decide (x.1 = i)).map fun x => x.2.sourceId) := by
  have hsorted : ∀ obs, (((sortObservations S obs).filter fun x => decide (x.1 = i)).map fun x =>
      x.2.sourceId).Pairwise (· ≤ ·) := by
    intro obs
    refine List.pairwise_map.mpr ((List.Pairwise.filter _
      (pairwise_sortObservations obs)).imp_of_mem fun hx hy hle => ?_)
    have hx := of_decide_eq_true (List.mem_filter.mp hx).2
    have hy := of_decide_eq_true (List.mem_filter.mp hy).2
    rcases Prod.Lex.toLex_le_toLex.mp hle with hlt | ⟨-, hle⟩
    · exact absurd (hx.trans hy.symm) hlt.ne
    · exact hle
  have hperm := (((sortObservations_perm (S := S) obs').trans ((hp.map _).trans
    (sortObservations_perm (S := S) obs).symm)).filter fun x => decide (x.1 = i)).map
      fun x => x.2.sourceId
  exact hperm.eq_of_pairwise' (hsorted obs') (hsorted obs)

/-- **The report that comes first** of the deciding ones gives the row its name and paths. -/
theorem rowOf_sort_cons {o : ApplicationObservation} {rest : List ApplicationObservation}
    (h : Deciding S (o :: rest) o) :
    ∃ m, rowOf (sortObservations S (o :: rest)) (canonicalIdentity S o) = some m ∧
      m.displayName = o.displayName ∧ m.launchPath = o.launchPath ∧
        m.entryPath = o.identityHint := by
  have hfind : (sortObservations S (o :: rest)).find?
      (fun x => decide (x.1 = canonicalIdentity S o)) = some (canonicalIdentity S o, o) := by
    rw [sortObservations, List.map_cons, List.insertionSort_cons_eq_take_drop, List.find?_append]
    have hnone : (((rest.map fun o => (canonicalIdentity S o, o)).insertionSort KeyLe).takeWhile
        fun b => decide ¬KeyLe (canonicalIdentity S o, o) b).find?
          (fun x => decide (x.1 = canonicalIdentity S o)) = none := by
      rw [List.find?_eq_none]
      intro y hy hyi
      have hid := of_decide_eq_true hyi
      have hmem := mem_sortObservations.mp ((List.takeWhile_sublist _).subset hy)
      have hnot : ¬KeyLe (canonicalIdentity S o, o) y := by
        simpa using List.mem_takeWhile_imp hy
      refine hnot (Prod.Lex.toLex_le_toLex.mpr (.inr ⟨hid.symm, ?_⟩))
      exact h.2 y.2 (List.mem_cons_of_mem _ hmem.1) (hmem.2.trans hid)
    rw [hnone, Option.none_or]
    simp
  exact ⟨_, by rw [rowOf, hfind, Option.map_some], rfl, rfl, rfl⟩

end sorted

/-! ## The merged rows -/

section mergedRows

variable {obs : List ApplicationObservation}

/-- The merged rows are in the order of their identities. -/
theorem pairwise_mergedRows (obs : List ApplicationObservation) :
    (mergedRows S obs).Pairwise fun m m' => m.identity < m'.identity :=
  List.pairwise_reverse.mpr (merges_foldl (pairwise_sortObservations obs)).sorted

theorem nodup_mergedRows (obs : List ApplicationObservation) :
    ((mergedRows S obs).map Merged.identity).Nodup :=
  List.pairwise_map.mpr ((pairwise_mergedRows obs).imp fun h => h.ne)

/-- **The merged rows** are the rows of the identities. -/
theorem mem_mergedRows {m : Merged} :
    m ∈ mergedRows S obs ↔ rowOf (sortObservations S obs) m.identity = some m := by
  have hmerges := merges_foldl (pairwise_sortObservations (S := S) obs)
  rw [mergedRows, List.mem_reverse]
  constructor
  · exact hmerges.row m
  · intro hrow
    obtain ⟨x, -, hx, hid, -⟩ := exists_of_rowOf hrow
    obtain ⟨m', hm', hid'⟩ := hmerges.mem x hx
    have hrow' := hmerges.row m' hm'
    rw [hid'.trans hid, hrow] at hrow'
    exact Option.some.inj hrow' ▸ hm'

theorem exists_mergedRows_iff {i : String} :
    (∃ m ∈ mergedRows S obs, m.identity = i) ↔ ∃ o ∈ obs, canonicalIdentity S o = i := by
  constructor
  · rintro ⟨m, hm, rfl⟩
    obtain ⟨x, -, hx, hid, -⟩ := exists_of_rowOf (mem_mergedRows.mp hm)
    obtain ⟨ho, hxid⟩ := mem_sortObservations.mp hx
    exact ⟨x.2, ho, hxid.trans hid⟩
  · rintro ⟨o, ho, rfl⟩
    have hx : (canonicalIdentity S o, o) ∈ sortObservations S obs :=
      mem_sortObservations.mpr ⟨ho, rfl⟩
    obtain ⟨m, hm, hid⟩ := (merges_foldl (pairwise_sortObservations (S := S) obs)).mem _ hx
    exact ⟨m, List.mem_reverse.mpr hm, hid⟩

/-- Deciding reports stay so in another order. -/
theorem Deciding.perm {obs' : List ApplicationObservation} {o : ApplicationObservation}
    (h : Deciding S obs o) (hp : obs'.Perm obs) : Deciding S obs' o :=
  ⟨hp.mem_iff.mpr h.1, fun o' ho' => h.2 o' (hp.mem_iff.mp ho')⟩

/-- Where the ties agree, an identity gets the same row in every order. -/
theorem rowOf_perm {obs' : List ApplicationObservation} (h : TiesAgree S obs) (hp : obs'.Perm obs)
    (i : String) : rowOf (sortObservations S obs') i = rowOf (sortObservations S obs) i := by
  rw [rowOf, rowOf, sources_eq_of_perm hp]
  cases hfind : (sortObservations S obs).find? fun x => decide (x.1 = i) with
  | none =>
      have hnone : ((sortObservations S obs').find? fun x => decide (x.1 = i)) = none := by
        rw [List.find?_eq_none] at hfind ⊢
        intro y hy
        obtain ⟨ho, hid⟩ := mem_sortObservations.mp hy
        exact hfind y (mem_sortObservations.mpr ⟨hp.mem_iff.mp ho, hid⟩)
      rw [hnone]
  | some x =>
      obtain ⟨-, hid, hdeciding⟩ := deciding_of_find? hfind
      cases hfind' : (sortObservations S obs').find? fun x => decide (x.1 = i) with
      | none =>
          rw [List.find?_eq_none] at hfind'
          have hx : (i, x.2) ∈ sortObservations S obs' :=
            mem_sortObservations.mpr ⟨hp.mem_iff.mpr hdeciding.1, hid⟩
          exact absurd (decide_eq_true rfl) (hfind' _ hx)
      | some y =>
          obtain ⟨-, hid', hdeciding'⟩ := deciding_of_find? hfind'
          have hdeciding'' := hdeciding'.perm hp.symm
          obtain ⟨hname, hlaunch, hhint⟩ := h y.2 x.2 hdeciding'' hdeciding (hid'.trans hid.symm)
          have hsource : y.2.sourceId = x.2.sourceId :=
            le_antisymm (hdeciding''.2 x.2 hdeciding.1 (hid.trans hid'.symm))
              (hdeciding.2 y.2 hdeciding''.1 (hid'.trans hid.symm))
          simp only [Option.map_some, ApplicationObservation.merged, hname, hlaunch, hhint, hsource]

/-- **Where the ties agree**, the order of the reports does not matter. -/
theorem mergedRows_perm {obs' : List ApplicationObservation} (h : TiesAgree S obs)
    (hp : obs'.Perm obs) : mergedRows S obs' = mergedRows S obs := by
  have hnodup : ∀ obs, (mergedRows S obs).Nodup := fun obs =>
    List.Nodup.of_map _ (nodup_mergedRows obs)
  have hperm : (mergedRows S obs').Perm (mergedRows S obs) := by
    refine (List.perm_ext_iff_of_nodup (hnodup obs') (hnodup obs)).mpr fun m => ?_
    rw [mem_mergedRows, mem_mergedRows, rowOf_perm h hp]
  refine hperm.eq_of_pairwise (fun m m' _ _ hlt hlt' => ?_) (pairwise_mergedRows obs')
    (pairwise_mergedRows obs)
  exact absurd hlt' hlt.asymm

end mergedRows

/-! ## The committed rows -/

section committed

variable {obs : List ApplicationObservation} {db db' : Database} {now : ℕ → ℤ} {out : ℕ × ℕ}

/-- What `list` selects of a merged row does not depend on the clock. -/
def Merged.listed (m : Merged) : List (Option SqlValue) :=
  [some (.text m.identity), some (.text m.displayName), some (.text m.source),
    some (.text m.launchPath), some (.text "ready"), some (.text (sourcesText m.sources)),
    some (.text m.entryPath)]

theorem listed_stored (m : Merged) (t : ℤ) : Providers.listed (m.stored t) = m.listed := rfl

/-- A map that forgets the positions. -/
theorem map_mapIdx_eq_map {α β γ : Type} {f : ℕ → α → β} {g : β → γ} {k : α → γ}
    (h : ∀ i a, g (f i a) = k a) (l : List α) : (l.mapIdx f).map g = l.map k := by
  apply List.ext_getElem?
  intro i
  rw [List.getElem?_map, List.getElem?_mapIdx, List.getElem?_map, Option.map_map]
  exact congrArg (Option.map · l[i]?) (funext fun a => h i a)

/-- What is committed on an intact catalog. -/
theorem reconcile_spec (h : Intact db)
    (hrun : reconcileObservations S now obs db = some (db', out)) :
    Intact db' ∧ out = (db'.generation, (mergedRows S obs).length) ∧
      db'.listed = (mergedRows S obs).map Merged.listed ∧
      db'.identities = (mergedRows S obs).map (fun m => some (.text m.identity)) ∧
      db'.metaValue "generation" = some (((db.metaValue "generation").map countedUp).getD "1") := by
  obtain ⟨db₁, hcommit, hintact, ⟨t, ht, hrows⟩, hvalue⟩ :=
    commitMerged_eq h now (nodup_mergedRows (S := S) obs)
  rw [reconcileObservations, hcommit] at hrun
  obtain ⟨rfl, rfl⟩ := Prod.mk.inj (Option.some.inj hrun)
  refine ⟨hintact, rfl, ?_, ?_, hvalue⟩
  · rw [Database.listed, ht, Option.map_some, Option.getD_some, hrows]
    exact map_mapIdx_eq_map (fun i m => listed_stored m (now i)) _
  · rw [Database.identities, ht, Option.map_some, Option.getD_some, hrows]
    refine map_mapIdx_eq_map (g := fun r : Fields SqlValue => r.lookup "identity_key") ?_ _
    exact fun _ _ => rfl

theorem reconcile_some (h : Intact db) (now : ℕ → ℤ) (obs : List ApplicationObservation) :
    ∃ db' g, reconcileObservations S now obs db = some (db', g, (mergedRows S obs).length) := by
  obtain ⟨db', hcommit, -⟩ := commitMerged_eq h now (nodup_mergedRows (S := S) obs)
  exact ⟨db', _, hcommit⟩

/-- A catalog without rows, as it is when a new file was opened. -/
theorem exists_intact : ∃ db, Intact db ∧ Counted db 0 :=
  ⟨⟨some Table.empty, some (Sheet.empty columnsV2)⟩, ⟨rfl, _, rfl, rfl⟩, .inr ⟨rfl, rfl⟩⟩

/-- Of two lists of rows without the same identity twice, the same selection has the same rows. -/
theorem eq_of_listed_eq {rows rows' : List Merged} {m m' : Merged}
    (h : rows.map Merged.listed = rows'.map Merged.listed) (hm : m ∈ rows) (hm' : m' ∈ rows')
    (hnodup : (rows'.map Merged.identity).Nodup) (hid : m.identity = m'.identity) :
    m.listed = m'.listed := by
  have hmem : m.listed ∈ rows'.map Merged.listed := h ▸ List.mem_map_of_mem hm
  obtain ⟨n, hn, heq⟩ := List.mem_map.mp hmem
  have hn' : n.identity = m'.identity := by
    have hhead := congrArg List.head? heq
    simp only [Merged.listed, List.head?_cons, Option.some.injEq, SqlValue.text.injEq] at hhead
    exact hhead.trans hid
  rw [← heq, List.inj_on_of_nodup_map hnodup hn hm' hn']

end committed

/-- Where the order of the reports does not matter, the ties agree: each of two deciding reports
can come first. -/
theorem Reconciles.tiesAgree {obs : List ApplicationObservation} (h : Reconciles S obs) :
    TiesAgree S obs := by
  intro o o' ho ho' hid
  have hrows {p : ApplicationObservation} (hp : Deciding S obs p) :
      ∃ m ∈ mergedRows S (p :: obs.erase p), m.identity = canonicalIdentity S p ∧
        m.displayName = p.displayName ∧ m.launchPath = p.launchPath ∧
        m.entryPath = p.identityHint ∧
        (mergedRows S (p :: obs.erase p)).map Merged.listed =
          (mergedRows S obs).map Merged.listed := by
    have hperm : (p :: obs.erase p).Perm obs := (List.perm_cons_erase hp.1).symm
    obtain ⟨m, hrow, hname, hlaunch, hentry⟩ := rowOf_sort_cons (hp.perm hperm)
    obtain ⟨-, -, -, -, hmid⟩ := exists_of_rowOf hrow
    obtain ⟨db, hdb, -⟩ := exists_intact
    obtain ⟨db₁, g, hrun⟩ := reconcile_some (S := S) hdb (fun _ => 0) obs
    obtain ⟨db₂, g', hrun'⟩ := reconcile_some (S := S) hdb (fun _ => 0) (p :: obs.erase p)
    have hsame := h.sameRows _ _ _ _ _ _ _ _ hperm hdb hdb hrun _ hrun'
    rw [(reconcile_spec hdb hrun).2.2.1, (reconcile_spec hdb hrun').2.2.1] at hsame
    exact ⟨m, mem_mergedRows.mpr (hmid ▸ hrow), hmid, hname, hlaunch, hentry, hsame⟩
  obtain ⟨m, hm, hmid, hname, hlaunch, hentry, hlist⟩ := hrows ho
  obtain ⟨m', hm', hmid', hname', hlaunch', hentry', hlist'⟩ := hrows ho'
  have hlisted := eq_of_listed_eq (hlist.trans hlist'.symm) hm hm' (nodup_mergedRows _)
    (hmid.trans (hid.trans hmid'.symm))
  simp only [Merged.listed, List.cons.injEq, Option.some.injEq, SqlValue.text.injEq] at hlisted
  obtain ⟨-, hname'', -, hlaunch'', -, -, hentry'', -⟩ := hlisted
  exact ⟨hname.symm.trans (hname''.trans hname'), hlaunch.symm.trans (hlaunch''.trans hlaunch'),
    hentry.symm.trans (hentry''.trans hentry')⟩

/-- A start-menu entry for the tool. -/
def startMenuEntry (displayName : String) : ApplicationObservation where
  sourceId := "start-menu"
  sourceKind := "start-menu"
  identityHint := "start-menu:hint"
  displayName := displayName
  launchTarget := some "C:\\Tools\\App.exe"
  packageIdentity := none
  aumid := none
  appPath := none
  observedAt := 1

end AuraLauncher.Providers
