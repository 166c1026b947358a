import AuraLauncher.Lib.Firsts
import AuraLauncher.Providers.AppIdentity
import AuraLauncher.Providers.Catalog
import Mathlib.Data.List.Sort
import Mathlib.Data.List.TakeWhile
import Mathlib.Data.Prod.Lex
import Mathlib.Data.String.Basic

/-!
# Reconciling the catalog

A reconcile replaces the rows of the catalog by what the discovery sources report now, modelled
from `launcher-providers/src/catalog.rs`: the reports are sorted by identity and source, reports of
one identity are merged into one row, and the rows are written in one transaction that also counts
the generation up.

* `sortObservations`, `mergeObservation`, `mergedRows` — the loop of `reconcile_observations`.
* `commitMerged`, `reconcileObservations` — the transaction; a statement that fails rolls it back.
* `Merges`, `merges_foldl` — what the loop makes of a sorted list: one row for each identity, from
  the first report of it, with all of its sources.
* `commitMerged_eq` — a transaction on an intact catalog leaves exactly the merged rows.
* `Counted` — the generation as the text of a number, which one commit counts up by one.

The derived table `app_fts` is left out, and the clock is a parameter.
-/

namespace AuraLauncher.Providers

open AuraLauncher.Lib AuraLauncher.Domain AuraLauncher.Workflow

/-! ## Merging -/

/-- Source: `catalog.rs`, `Merged`. -/
structure Merged where
  identity : String
  displayName : String
  source : String
  launchPath : String
  sources : List String
  entryPath : String
deriving DecidableEq, Repr

/-- A report with its identity. -/
abbrev Identified := String × ApplicationObservation

/-- What the reports are sorted by. -/
def sortKey (x : Identified) : String ×ₗ String := toLex (x.1, x.2.sourceId)

/-- The order of the sort. -/
def KeyLe (x y : Identified) : Prop := sortKey x ≤ sortKey y

instance : DecidableRel KeyLe := fun x y => inferInstanceAs (Decidable (sortKey x ≤ sortKey y))

instance : Std.Total KeyLe := ⟨fun x y => le_total (sortKey x) (sortKey y)⟩

instance : IsTrans Identified KeyLe := ⟨fun _ _ _ => le_trans (α := String ×ₗ String)⟩

/-- The reports with their identities, in the order of identity and source; the sort is stable.
Source: `catalog.rs`, `reconcile_observations` (`sort_by`). -/
def sortObservations (S : IdentityStd) (obs : List ApplicationObservation) : List Identified :=
  (obs.map fun o => (canonicalIdentity S o, o)).insertionSort KeyLe

/-- The target that a report has, or else its hint. -/
def ApplicationObservation.launchPath (o : ApplicationObservation) : String :=
  (o.launchTarget.filter fun s => !(trim s.toList).isEmpty).getD o.identityHint

/-- The row that a report begins. -/
def ApplicationObservation.merged (o : ApplicationObservation) (identity : String) : Merged where
  identity := identity
  displayName := o.displayName
  source := o.sourceId
  launchPath := o.launchPath
  sources := [o.sourceId]
  entryPath := o.identityHint

/-- One report added to the rows so far, the last of them first. Source: `catalog.rs`, the loop of
`reconcile_observations`. -/
def mergeObservation (merged : List Merged) (x : Identified) : List Merged :=
  match merged with
  | last :: rest =>
      if last.identity = x.1 then
        if last.sources.contains x.2.sourceId then last :: rest
        else { last with sources := last.sources ++ [x.2.sourceId] } :: rest
      else x.2.merged x.1 :: last :: rest
  | [] => [x.2.merged x.1]

/-- The rows of a list of reports. -/
def mergedRows (S : IdentityStd) (obs : List ApplicationObservation) : List Merged :=
  ((sortObservations S obs).foldl mergeObservation []).reverse

/-! ## The transaction -/

/-- What `CAST(value AS INTEGER)` makes of a text. -/
def castInteger (s : String) : ℤ :=
  let s := s.toList.dropWhile fun c => c == ' ' || (9 ≤ c.toNat && c.toNat ≤ 13)
  let unsigned := if s.head? = some '-' ∨ s.head? = some '+' then s.tail else s
  let n : ℤ := Nat.ofDigitChars 10 (unsigned.takeWhile Char.isDigit) 0
  if s.head? = some '-' then max (-n) (-0x8000000000000000) else min n 0x7fffffffffffffff

/-- What `CAST(CAST(value AS INTEGER) + 1 AS TEXT)` makes of a text. -/
def countedUp (s : String) : String :=
  -- past the largest integer SQLite goes on with a float
  if castInteger s < 0x7fffffffffffffff then toString (castInteger s + 1)
  else "9.22337203685478e+18"

/-- The generation that is written: `1`, or one more than there was. -/
def nextGeneration (rows : Table MetaRow.key) : String :=
  ((rows.find? "generation").map fun row => countedUp row.value).getD "1"

/-- The upsert of the generation. -/
def countGeneration : Statement := fun db =>
  db.catalogMeta.map fun rows =>
    { db with catalogMeta := some (rows.upsert ⟨"generation", nextGeneration rows⟩) }

/-- The text of the list of sources. Source: `serde_json::to_string` of strings. -/
def sourcesText (sources : List String) : String :=
  (Json.array (sources.map .string)).text SerdeJson.withoutFloats

/-- The values that the insertion of a row names. -/
def Merged.fields (m : Merged) (now : ℤ) : Fields SqlValue :=
  [("identity_key", .text m.identity), ("display_name", .text m.displayName),
    ("source", .text m.source), ("launch_path", .text m.launchPath), ("updated_at", .integer now),
    ("lifecycle", .text "ready"), ("sources", .text (sourcesText m.sources)),
    ("entry_path", .text m.entryPath)]

/-- The insertion of a row; the columns it does not name have no default. -/
def insertMerged (now : ℤ) (m : Merged) : Statement :=
  onApplication (Sheet.insertOrReplace "identity_key" (fun _ => .null) (m.fields now))

/-- The statements of the transaction; `now i` is the clock when row `i` is written.
Source: `catalog.rs`, `commit_merged`. -/
def commitStatements (now : ℕ → ℤ) (merged : List Merged) : List Statement :=
  onApplication (fun t => some t.clear) ::
    (merged.mapIdx fun i m => insertMerged (now i) m) ++ [countGeneration]

/-- The store after the commit, with the generation and the number of rows it returns.
Source: `catalog.rs`, `commit_merged`. -/
def commitMerged (now : ℕ → ℤ) (merged : List Merged) (db : Database) :
    Option (Database × ℕ × ℕ) :=
  (execute (commitStatements now merged) db).map fun db => (db, db.generation, merged.length)

/-- Source: `catalog.rs`, `reconcile_observations`. -/
def reconcileObservations (S : IdentityStd) (now : ℕ → ℤ) (obs : List ApplicationObservation)
    (db : Database) : Option (Database × ℕ × ℕ) :=
  commitMerged now (mergedRows S obs) db

/-! ## What the loop makes of a sorted list -/

/-- The row of an identity: from the first report of it, with the sources of all of them. -/
def rowOf (L : List Identified) (i : String) : Option Merged :=
  (L.find? fun x => decide (x.1 = i)).map fun x =>
    { x.2.merged i with
      sources := firstsBy id ((L.filter fun x => decide (x.1 = i)).map fun x => x.2.sourceId) }

/-- The rows, the last of them first, of the reports in a sorted list. -/
structure Merges (L : List Identified) (rows : List Merged) : Prop where
  sorted : rows.Pairwise fun m m' => m'.identity < m.identity
  row : ∀ m ∈ rows, rowOf L m.identity = some m
  mem : ∀ x ∈ L, ∃ m ∈ rows, m.identity = x.1

section rowOf

variable {L : List Identified} {x : Identified} {i : String} {m : Merged}

theorem exists_of_rowOf (h : rowOf L i = some m) :
    ∃ x, (L.find? fun x => decide (x.1 = i)) = some x ∧ x ∈ L ∧ x.1 = i ∧ m.identity = i := by
  obtain ⟨x, hfind, rfl⟩ := Option.map_eq_some_iff.mp h
  exact ⟨x, hfind, List.mem_of_find?_eq_some hfind, by simpa using List.find?_some hfind, rfl⟩

/-- A report of another identity changes nothing. -/
theorem rowOf_concat_of_ne (h : x.1 ≠ i) : rowOf (L ++ [x]) i = rowOf L i := by
  have hfind : ([x].find? fun x => decide (x.1 = i)) = none := by simp [h]
  have hfilter : ([x].filter fun x => decide (x.1 = i)) = [] := by simp [h]
  rw [rowOf, rowOf, List.find?_append, hfind, Option.or_none, List.filter_append, hfilter,
    List.append_nil]

/-- The first report of an identity begins its row. -/
theorem rowOf_concat_of_new (h : ∀ y ∈ L, y.1 ≠ x.1) :
    rowOf (L ++ [x]) x.1 = some (x.2.merged x.1) := by
  have hfind : (L.find? fun y => decide (y.1 = x.1)) = none := by simpa using h
  have hfilter : (L.filter fun y => decide (y.1 = x.1)) = [] := by
    simpa [List.filter_eq_nil_iff] using h
  rw [rowOf, List.find?_append, hfind, Option.none_or, List.filter_append, hfilter]
  simp [firstsBy, ApplicationObservation.merged]

/-- A later report adds its source, unless it is there. -/
theorem rowOf_concat_of_row (h : rowOf L x.1 = some m) :
    rowOf (L ++ [x]) x.1 = some (if m.sources.contains x.2.sourceId then m
      else { m with sources := m.sources ++ [x.2.sourceId] }) := by
  obtain ⟨y, hfind, rfl⟩ := Option.map_eq_some_iff.mp h
  have hlast : ([x].filter fun y => decide (y.1 = x.1)) = [x] := by simp
  rw [rowOf, List.find?_append, hfind, Option.some_or, Option.map_some, List.filter_append, hlast,
    List.map_append, List.map_singleton, firstsBy_concat]
  simp only [id_eq, exists_eq_right, List.contains_iff_mem]
  split_ifs <;> rfl

end rowOf

/-- The rows after a report: its own row, and those of the other identities. -/
theorem Merges.cons_rest {L : List Identified} {rows rest : List Merged} {x : Identified}
    {new : Merged} (h : Merges L rows) (hrest : ∀ m ∈ rest, m ∈ rows)
    (hlt : ∀ m ∈ rest, m.identity < x.1) (hid : new.identity = x.1)
    (hsorted : rest.Pairwise fun m m' => m'.identity < m.identity)
    (hnew : rowOf (L ++ [x]) x.1 = some new) (hmem : ∀ m ∈ rows, m.identity ≠ x.1 → m ∈ rest) :
    Merges (L ++ [x]) (new :: rest) where
  sorted := List.pairwise_cons.mpr ⟨fun m hm => hid ▸ hlt m hm, hsorted⟩
  row := by
    intro m hm
    rcases List.mem_cons.mp hm with rfl | hm
    · rw [hid, hnew]
    · rw [rowOf_concat_of_ne (hlt m hm).ne', h.row m (hrest m hm)]
  mem := by
    intro y hy
    by_cases hyx : y.1 = x.1
    · exact ⟨new, List.mem_cons_self, hid.trans hyx.symm⟩
    · have hyL : y ∈ L := (List.mem_append.mp hy).resolve_right fun hy =>
        hyx (congrArg Prod.fst (List.mem_singleton.mp hy))
      obtain ⟨m, hm, hmy⟩ := h.mem y hyL
      exact ⟨m, List.mem_cons_of_mem _ (hmem m hm (hmy ▸ hyx)), hmy⟩

/-- **One report more** of a sorted list. -/
theorem Merges.concat {L : List Identified} {rows : List Merged} {x : Identified}
    (h : Merges L rows) (hx : ∀ y ∈ L, KeyLe y x) :
    Merges (L ++ [x]) (mergeObservation rows x) := by
  have hle : ∀ m ∈ rows, m.identity ≤ x.1 := by
    intro m hm
    obtain ⟨y, -, hy, hyi, -⟩ := exists_of_rowOf (h.row m hm)
    rw [← hyi]
    exact Prod.Lex.monotone_fst (sortKey y) (sortKey x) (hx y hy)
  have hnone (hne : ∀ m ∈ rows, m.identity ≠ x.1) : ∀ y ∈ L, y.1 ≠ x.1 := by
    intro y hy hyx
    obtain ⟨m, hm, hmy⟩ := h.mem y hy
    exact hne m hm (hmy.trans hyx)
  have hsorted := h.sorted
  unfold mergeObservation
  cases rows with
  | nil =>
      exact h.cons_rest (by simp) (by simp) rfl List.Pairwise.nil
        (rowOf_concat_of_new (hnone (by simp))) (by simp)
  | cons last rest =>
      obtain ⟨hlast, hrest⟩ := List.pairwise_cons.mp hsorted
      by_cases hid : last.identity = x.1
      · have hrow : rowOf L x.1 = some last := hid ▸ h.row last List.mem_cons_self
        have hnew := rowOf_concat_of_row hrow
        have hmem : ∀ m ∈ last :: rest, m.identity ≠ x.1 → m ∈ rest := by
          intro m hm hne
          exact (List.mem_cons.mp hm).resolve_left fun heq => hne (heq ▸ hid)
        have hlt : ∀ m ∈ rest, m.identity < x.1 := fun m hm => hid ▸ hlast m hm
        dsimp only
        rw [if_pos hid]
        split_ifs with hseen
        · rw [if_pos hseen] at hnew
          exact h.cons_rest (fun m => List.mem_cons_of_mem _) hlt hid hrest hnew hmem
        · rw [if_neg hseen] at hnew
          exact h.cons_rest (fun m => List.mem_cons_of_mem _) hlt hid hrest hnew hmem
      · have hlt : ∀ m ∈ last :: rest, m.identity < x.1 := by
          have hlast' : last.identity < x.1 := lt_of_le_of_ne (hle last List.mem_cons_self) hid
          intro m hm
          rcases List.mem_cons.mp hm with rfl | hm
          · exact hlast'
          · exact (hlast m hm).trans hlast'
        dsimp only
        rw [if_neg hid]
        exact h.cons_rest (fun _ => id) hlt rfl hsorted
          (rowOf_concat_of_new (hnone fun m hm => (hlt m hm).ne)) fun m hm _ => hm

/-- **What the loop makes of a sorted list**: by induction from its end. -/
theorem merges_foldl {L : List Identified} (h : L.Pairwise KeyLe) :
    Merges L (L.foldl mergeObservation []) := by
  induction L using List.reverseRecOn with
  | nil => exact ⟨List.Pairwise.nil, by simp, by simp⟩
  | append_singleton L x ih =>
      obtain ⟨hL, -, hx⟩ := List.pairwise_append.mp h
      rw [List.foldl_append, List.foldl_cons, List.foldl_nil]
      exact (ih hL).concat fun y hy => hx y hy x (List.mem_singleton_self x)

/-! ## What the transaction leaves -/

/-- A database whose two tables are there, with the columns of the second schema. -/
structure Intact (db : Database) : Prop where
  catalogMeta : db.catalogMeta.isSome = true
  application : ∃ t, db.application = some t ∧ t.columns = columnsV2

/-- The row as it is stored. -/
def Merged.stored (m : Merged) (now : ℤ) : Fields SqlValue :=
  columnsV2.map fun c => (c, ((m.fields now).lookup c).getD .null)

/-- Rows with new identities are appended. -/
theorem execute_inserts (merged : List Merged) (now : ℕ → ℤ) (db : Database) {t : Sheet SqlValue}
    (ht : db.application = some t) (hcolumns : t.columns = columnsV2)
    (hnodup : (merged.map Merged.identity).Nodup)
    (hfree : ∀ r ∈ t.rows, ∀ m ∈ merged, r.lookup "identity_key" ≠ some (.text m.identity)) :
    ∃ t', execute (merged.mapIdx fun i m => insertMerged (now i) m) db =
        some { db with application := some t' } ∧ t'.columns = columnsV2 ∧
      t'.rows = t.rows ++ merged.mapIdx fun i m => m.stored (now i) := by
  induction merged generalizing now db t with
  | nil => exact ⟨t, congrArg some (by rw [← ht]), hcolumns, (List.append_nil _).symm⟩
  | cons m merged ih =>
      obtain ⟨hm, hnodup⟩ := List.nodup_cons.mp hnodup
      have hnames : ∀ field ∈ m.fields (now 0), field.1 ∈ t.columns := by
        rw [hcolumns]
        simp [Merged.fields, columnsV2, columnsV1]
      obtain ⟨t', ht', hcolumns', hrows'⟩ := Sheet.insertOrReplace_of_free (fun _ => .null) hnames
        fun r hr => hfree r hr m List.mem_cons_self
      rw [hcolumns] at hcolumns' hrows'
      have hinsert : insertMerged (now 0) m db = some { db with application := some t' } :=
        onApplication_eq_some ht ht'
      have hfree' : ∀ r ∈ t'.rows, ∀ m' ∈ merged,
          r.lookup "identity_key" ≠ some (.text m'.identity) := by
        intro r hr m' hm'
        rw [hrows'] at hr
        rcases List.mem_append.mp hr with hr | hr
        · exact hfree r hr m' (List.mem_cons_of_mem _ hm')
        · obtain rfl := List.mem_singleton.mp hr
          intro heq
          have hid : m.identity = m'.identity := SqlValue.text.inj (Option.some.inj heq)
          exact hm (hid ▸ List.mem_map_of_mem hm')
      obtain ⟨t'', hexec, hcolumns'', hrows''⟩ := ih (fun i => now (i + 1))
        { db with application := some t' } rfl hcolumns' hnodup hfree'
      refine ⟨t'', ?_, hcolumns'', ?_⟩
      · rw [List.mapIdx_cons, execute, hinsert, Option.bind_some, hexec]
      · rw [hrows'', hrows', List.mapIdx_cons, List.append_assoc]
        rfl

/-- **What the transaction leaves** of an intact catalog: exactly the merged rows, and the
generation counted up. -/
theorem commitMerged_eq {db : Database} (h : Intact db) (now : ℕ → ℤ) {merged : List Merged}
    (hnodup : (merged.map Merged.identity).Nodup) :
    ∃ db', commitMerged now merged db = some (db', db'.generation, merged.length) ∧ Intact db' ∧
      (∃ t, db'.application = some t ∧ t.rows = merged.mapIdx fun i m => m.stored (now i)) ∧
      db'.metaValue "generation" = some (((db.metaValue "generation").map countedUp).getD "1") := by
  obtain ⟨rows, hrows⟩ := Option.isSome_iff_exists.mp h.catalogMeta
  obtain ⟨t, ht, hcolumns⟩ := h.application
  have hclear : onApplication (fun t => some t.clear) db =
      some { db with application := some t.clear } := onApplication_eq_some ht rfl
  obtain ⟨t', hexec, hcolumns', hrows'⟩ := execute_inserts merged now
    { db with application := some t.clear } (t := t.clear) rfl hcolumns hnodup
    fun r hr => absurd hr List.not_mem_nil
  refine ⟨⟨some (rows.upsert ⟨"generation", nextGeneration rows⟩), some t'⟩, ?_,
    ⟨rfl, t', rfl, hcolumns'⟩, ⟨t', rfl, hrows'⟩, ?_⟩
  · rw [commitMerged, commitStatements, List.cons_append, execute, hclear, Option.bind_some,
      execute_append, hexec, Option.bind_some, execute, countGeneration, hrows]
    rfl
  · have hfind : (rows.upsert ⟨"generation", nextGeneration rows⟩).find? "generation" =
        some ⟨"generation", nextGeneration rows⟩ := Table.find?_upsert_self
    simp only [Database.metaValue, Option.bind_some, hfind, Option.map_some, hrows, Option.map_map]
    rfl

/-! ## The generation -/

/-- The generation `g` as the store writes it; before the first commit there is none. -/
def Counted (db : Database) (g : ℕ) : Prop :=
  db.metaValue "generation" = some (toString g) ∨ g = 0 ∧ db.metaValue "generation" = none

/-- The text of a number is its digits, and none of them is a sign or white space. -/
theorem toList_toString_nat (n : ℕ) : ∃ c cs, (toString n).toList = c :: cs ∧
    (c :: cs).all Char.isDigit = true ∧ Nat.ofDigitChars 10 (c :: cs) 0 = n := by
  have hdigits : (toString n).toList = Nat.toDigits 10 n := Nat.toList_repr
  cases hcs : Nat.toDigits 10 n with
  | nil => exact absurd hcs Nat.toDigits_ne_nil
  | cons c cs =>
      refine ⟨c, cs, hdigits.trans hcs, ?_, ?_⟩
      · rw [← hcs, List.all_eq_true]
        exact fun d hd => Nat.isDigit_of_mem_toDigits (by omega) (le_refl 10) hd
      · rw [← hcs, Nat.ofDigitChars_ten_toDigits]

theorem parseU64_toString {n : ℕ} (h : n < 2 ^ 64) : parseU64 (toString n) = some n := by
  obtain ⟨c, cs, htext, hall, hvalue⟩ := toList_toString_nat n
  have hc : 48 ≤ c.toNat ∧ c.toNat ≤ 57 :=
    Char.isDigit_iff_toNat.mp (List.all_eq_true.mp hall c List.mem_cons_self)
  have hplus : c ≠ '+' := by
    rintro rfl
    exact absurd hc.1 (by decide)
  simp only [parseU64, htext, List.head?_cons, Option.some.injEq, if_neg hplus, hall, hvalue,
    if_pos h]
  simp

theorem castInteger_toString {n : ℕ} (h : n < 2 ^ 63) : castInteger (toString n) = n := by
  obtain ⟨c, cs, htext, hall, hvalue⟩ := toList_toString_nat n
  have hc : 48 ≤ c.toNat ∧ c.toNat ≤ 57 :=
    Char.isDigit_iff_toNat.mp (List.all_eq_true.mp hall c List.mem_cons_self)
  have hblank : (c == ' ' || (9 ≤ c.toNat && c.toNat ≤ 13)) = false := by
    have hspace : c ≠ ' ' := by
      rintro rfl
      exact absurd hc.1 (by decide)
    have hcontrol : ¬c.toNat ≤ 13 := by omega
    simp [hspace, hcontrol]
  have hminus : c ≠ '-' := by
    rintro rfl
    exact absurd hc.1 (by decide)
  have hplus : c ≠ '+' := by
    rintro rfl
    exact absurd hc.1 (by decide)
  have htake : (c :: cs).takeWhile Char.isDigit = c :: cs :=
    List.takeWhile_eq_self_iff.mpr fun d hd => List.all_eq_true.mp hall d hd
  have hdrop : (c :: cs).dropWhile (fun c => c == ' ' || (9 ≤ c.toNat && c.toNat ≤ 13)) = c :: cs :=
    List.dropWhile_cons_of_neg (by simp [hblank])
  simp only [castInteger, htext, hdrop, List.head?_cons, Option.some.injEq, hminus, hplus, or_self,
    if_false, htake, hvalue]
  omega

/-- **One commit counts the generation up by one.** -/
theorem counted_of_counted {db db' : Database} {g : ℕ} (h : Counted db g) (hg : g + 1 < 2 ^ 63)
    (hvalue : db'.metaValue "generation" =
      some (((db.metaValue "generation").map countedUp).getD "1")) :
    Counted db' (g + 1) ∧ db'.generation = g + 1 := by
  have htext : db'.metaValue "generation" = some (toString (g + 1)) := by
    rcases h with h | ⟨rfl, h⟩
    · have hcast := castInteger_toString (n := g) (by omega)
      rw [hvalue, h, Option.map_some, Option.getD_some, countedUp, hcast, if_pos (by omega)]
      rfl
    · rw [hvalue, h]
      rfl
  refine ⟨.inl htext, ?_⟩
  rw [Database.generation, htext, Option.bind_some, parseU64_toString (by omega), Option.getD_some]

end AuraLauncher.Providers
