import AuraLauncher.Providers.Catalog
import Mathlib.Data.List.Forall2
import Mathlib.Tactic.IntervalCases

/-!
# A migration that is cut off

`migrate` recognizes a catalog of the first schema by the absence of one column, which the first
statement of its batch adds. Each statement of the batch is committed on its own, so a process that
dies between two of them leaves a file that the next `open` takes for a catalog of the second
schema, and whatever the batch had not done stays undone.

* `CatalogV1` — a catalog of the first schema; `crashed`, `reopened` — what the process leaves
  behind when it dies after some statements, and what the next `open` makes of that.
* `Migrated` — every row with its five values, its `sources` and its `entry_path`, under the ten
  columns of the second schema, and the generation there was.
* `stage`, `execute_take` — the file after each statement of the batch.
* `reopened_eq` — an open after a crash finishes the batch only if none of it was done.
* `migrated_reopened_iff` — the points of the batch at which the process may die.
-/

namespace AuraLauncher.Providers

open AuraLauncher.Lib AuraLauncher.Workflow

/-! ## Catalogs of the first schema -/

/-- A row of the table in the first schema. -/
structure RowV1 where
  identityKey : String
  displayName : String
  source : String
  launchPath : String
  updatedAt : ℤ
deriving DecidableEq, Repr

/-- The row by the names of its columns. -/
def RowV1.fields (r : RowV1) : Fields SqlValue :=
  [("identity_key", .text r.identityKey), ("display_name", .text r.displayName),
    ("source", .text r.source), ("launch_path", .text r.launchPath),
    ("updated_at", .integer r.updatedAt)]

/-- A catalog as the first schema had it. -/
structure CatalogV1 where
  catalogMeta : Table MetaRow.key
  application : Table RowV1.identityKey

/-- The rows of the application table. -/
def CatalogV1.rows (c : CatalogV1) : List RowV1 := c.application.rows

/-- The file that holds the catalog. -/
def CatalogV1.database (c : CatalogV1) : Database where
  catalogMeta := some c.catalogMeta
  application := some
    { columns := columnsV1
      rows := c.rows.map RowV1.fields
      named := by
        intro f hf
        obtain ⟨r, -, rfl⟩ := List.mem_map.mp hf
        rfl }

/-- What a process leaves behind that dies when it has executed `k` statements of `migrate`. -/
def crashed (k : ℕ) (db : Database) : Option Database :=
  (execute [createMeta, createApplication] db).bind fun db =>
    execute ((migrateStatements db).take k) db

/-- What the next `open` makes of that. -/
def reopened (k : ℕ) (db : Database) : Option Database := (crashed k db).bind openCatalog

/-- A row of the second schema that has what a row of the first had, and its own values in the two
columns that are filled in. -/
structure Filled (r : RowV1) (f : Fields SqlValue) : Prop where
  kept : ∀ field ∈ r.fields, f.lookup field.1 = some field.2
  sources : f.lookup "sources" = some (jsonArray (.text r.source))
  entryPath : f.lookup "entry_path" = some (.text r.launchPath)

/-- A file of the second schema that has all of a catalog of the first. -/
structure Migrated (c : CatalogV1) (db : Database) : Prop where
  application : ∃ t, db.application = some t ∧ t.columns = columnsV2 ∧
    List.Forall₂ Filled c.rows t.rows
  generation : db.generation = c.database.generation

/-- Wherever the process dies, the next open finishes the migration. -/
def CrashSafe (c : CatalogV1) : Prop := ∀ k, ∃ db, reopened k c.database = some db ∧ Migrated c db

/-! ## The file after each statement -/

/-- The columns of the second schema with their defaults. -/
def newColumns : Fields SqlValue :=
  [("lifecycle", .text "ready"), ("sources", .text "[]"), ("aumid", .null),
    ("package_identity", .null), ("entry_path", .text "")]

/-- What `k` statements of the batch have added to a row. -/
def added (k : ℕ) (r : RowV1) : Fields SqlValue :=
  let fields := newColumns.take k
  let fields := if 6 ≤ k then setField "sources" (jsonArray (.text r.source)) fields else fields
  if 7 ≤ k then setField "entry_path" (.text r.launchPath) fields else fields

theorem map_fst_added (k : ℕ) (r : RowV1) :
    (added k r).map Prod.fst = (newColumns.take k).map Prod.fst := by
  unfold added
  split_ifs <;> simp only [map_fst_setField]

/-- The table after `k` statements of the batch. -/
def stageTable (c : CatalogV1) (k : ℕ) : Sheet SqlValue where
  columns := columnsV1 ++ (newColumns.take k).map Prod.fst
  rows := c.rows.map fun r => r.fields ++ added k r
  named := by
    intro f hf
    obtain ⟨r, -, rfl⟩ := List.mem_map.mp hf
    rw [List.map_append, map_fst_added]
    rfl

/-- The file after `k` statements of the batch. -/
def stage (c : CatalogV1) (k : ℕ) : Database := ⟨some c.catalogMeta, some (stageTable c k)⟩

theorem stage_zero (c : CatalogV1) : stage c 0 = c.database := by
  refine congrArg (Database.mk _) (congrArg some (Sheet.ext rfl ?_))
  exact List.map_congr_left fun r _ => List.append_nil _

/-- One statement leads from a stage to the next. -/
theorem migration_step (c : CatalogV1) {k : ℕ} (h : k < migration.length) :
    migration[k] (stage c k) = some (stage c (k + 1)) := by
  have hcolumn {name : String} {d : SqlValue} (hnew : name ∉ (stageTable c k).columns)
      (hnext : ∀ r : RowV1, added (k + 1) r = added k r ++ [(name, d)])
      (hnames : (stageTable c (k + 1)).columns = (stageTable c k).columns ++ [name]) :
      onApplication (Sheet.addColumn name d) (stage c k) = some (stage c (k + 1)) := by
    refine onApplication_eq_some rfl (Sheet.addColumn_eq_some.mpr ⟨hnew, hnames, ?_⟩)
    simp only [stageTable, List.map_map]
    refine List.map_congr_left fun r _ => ?_
    rw [Function.comp_apply, hnext, List.append_assoc]
  have hfill {name : String} {reads : List String} {set : Fields SqlValue → Option SqlValue}
      (hreads : ∀ read ∈ name :: reads, read ∈ (stageTable c k).columns)
      (hnames : (stageTable c (k + 1)).columns = (stageTable c k).columns)
      (hnext : ∀ r : RowV1, r.fields ++ added (k + 1) r =
        ((set (r.fields ++ added k r)).map fun v => setField name v (r.fields ++ added k r)).getD
          (r.fields ++ added k r)) :
      onApplication (Sheet.update name reads set) (stage c k) = some (stage c (k + 1)) := by
    refine onApplication_eq_some rfl (Sheet.update_eq_some.mpr ⟨hreads, hnames, ?_⟩)
    simp only [stageTable, List.map_map]
    exact List.map_congr_left fun r _ => hnext r
  simp only [migration, List.length_cons, List.length_nil] at h
  interval_cases k
  · exact hcolumn (by simp [stageTable, columnsV1]) (fun r => rfl) rfl
  · exact hcolumn (by simp [stageTable, columnsV1, newColumns]) (fun r => rfl) rfl
  · exact hcolumn (by simp [stageTable, columnsV1, newColumns]) (fun r => rfl) rfl
  · exact hcolumn (by simp [stageTable, columnsV1, newColumns]) (fun r => rfl) rfl
  · exact hcolumn (by simp [stageTable, columnsV1, newColumns]) (fun r => rfl) rfl
  · change fillSources (stage c 5) = some (stage c 6)
    rw [fillSources]
    exact hfill (by simp [stageTable, columnsV1, newColumns]) rfl fun r => rfl
  · change fillEntryPath (stage c 6) = some (stage c 7)
    rw [fillEntryPath]
    exact hfill (by simp [stageTable, columnsV1, newColumns]) rfl fun r => rfl

/-- The first statements of the batch lead to the stage of their number. -/
theorem execute_take (c : CatalogV1) {k : ℕ} (h : k ≤ migration.length) :
    execute (migration.take k) c.database = some (stage c k) := by
  induction k with
  | zero => exact congrArg some (stage_zero c).symm
  | succ k ih =>
      rw [List.take_succ_eq_append_getElem h, execute_append, ih (Nat.le_of_succ_le h),
        Option.bind_some, execute, migration_step c h]
      rfl

/-! ## After a crash -/

/-- The file after `k` statements of the batch and the upsert of the version. -/
def versioned (c : CatalogV1) (k : ℕ) : Database where
  catalogMeta := some (c.catalogMeta.upsert ⟨"schema_version", "2"⟩)
  application := some (stageTable c k)

theorem recordVersion_stage (c : CatalogV1) (k : ℕ) :
    recordVersion (stage c k) = some (versioned c k) := rfl

theorem recordVersion_versioned (c : CatalogV1) (k : ℕ) :
    recordVersion (versioned c k) = some (versioned c k) := by
  have hupsert : (c.catalogMeta.upsert ⟨"schema_version", "2"⟩).upsert ⟨"schema_version", "2"⟩ =
      c.catalogMeta.upsert ⟨"schema_version", "2"⟩ := Table.upsert_upsert rfl
  rw [recordVersion, versioned, Option.map_some, hupsert]

/-- A file with both tables is opened by `migrate` alone. -/
theorem openConn_of_tables {db : Database} (hmeta : db.catalogMeta.isSome = true)
    (hrows : db.application.isSome = true) : openConn db = migrate db := by
  obtain ⟨rows, hrows'⟩ := Option.isSome_iff_exists.mp hmeta
  obtain ⟨t, ht⟩ := Option.isSome_iff_exists.mp hrows
  obtain ⟨m, a⟩ := db
  obtain rfl : m = some rows := hrows'
  obtain rfl : a = some t := ht
  rfl

/-- The first statement of the batch is what `migrate` looks for. -/
theorem hasLifecycle_iff {c : CatalogV1} {k : ℕ} {db : Database}
    (hdb : db.application = some (stageTable c k)) : hasLifecycle db = true ↔ 0 < k := by
  rw [hasLifecycle, hdb, Option.any_some, decide_eq_true_eq]
  cases k with
  | zero => simp [stageTable, columnsV1]
  | succ k => simp [stageTable, newColumns]

/-- A file that the batch has begun to change gets no more than its version. -/
theorem openCatalog_of_pos {c : CatalogV1} {k : ℕ} {db : Database}
    (hmeta : db.catalogMeta.isSome = true) (hdb : db.application = some (stageTable c k))
    (hk : 0 < k) (hversion : recordVersion db = some (versioned c k)) :
    openCatalog db = some (versioned c k) := by
  have hconn : openConn db = some (versioned c k) := by
    rw [openConn_of_tables hmeta (hdb ▸ rfl), migrate, migrateStatements,
      if_pos ((hasLifecycle_iff hdb).mpr hk), List.nil_append, execute, hversion]
    rfl
  rw [openCatalog, hconn, Option.some_or]

/-- **An open after a crash** finishes the batch if none of its statements was executed, and else
leaves it where it was. -/
theorem reopened_eq (c : CatalogV1) (k : ℕ) :
    reopened k c.database = some (versioned c (if k = 0 then 7 else min k 7)) := by
  have hold : hasLifecycle c.database = false := by
    rw [← stage_zero, Bool.eq_false_iff, ne_eq, hasLifecycle_iff rfl]
    exact lt_irrefl 0
  have hstatements : migrateStatements c.database = migration ++ [recordVersion] := by
    rw [migrateStatements, hold]
    rfl
  have hcrashed : crashed k c.database =
      execute ((migration ++ [recordVersion]).take k) c.database := by
    rw [← hstatements]
    rfl
  have hall : execute (migration ++ [recordVersion]) c.database = some (versioned c 7) := by
    rw [execute_append, show migration = migration.take 7 from rfl, execute_take c (le_refl 7)]
    rfl
  rw [reopened, hcrashed]
  rcases Nat.eq_zero_or_pos k with rfl | hk
  · have hconn : openConn c.database = some (versioned c 7) := by
      rw [openConn_of_tables rfl rfl, migrate, hstatements, hall]
    rw [if_pos rfl, List.take_zero, execute, Option.bind_some, openCatalog, hconn,
      Option.some_or]
  · rw [if_neg hk.ne']
    rcases Nat.lt_or_ge 7 k with hlt | hle
    · rw [List.take_of_length_le hlt, hall, Option.bind_some, min_eq_right hlt.le]
      exact openCatalog_of_pos rfl rfl (by omega) (recordVersion_versioned c 7)
    · rw [List.take_append_of_le_length hle, execute_take c hle, Option.bind_some,
        min_eq_left hle]
      exact openCatalog_of_pos rfl rfl hk (recordVersion_stage c k)

/-! ## What the next open has -/

/-- The version does not touch the generation. -/
theorem generation_versioned (c : CatalogV1) (k : ℕ) :
    (versioned c k).generation = c.database.generation := by
  have hfind : (c.catalogMeta.upsert ⟨"schema_version", "2"⟩).find? "generation" =
      c.catalogMeta.find? "generation" := Table.find?_upsert_of_ne (by decide)
  simp only [Database.generation, Database.metaValue, versioned, CatalogV1.database,
    Option.bind_some, hfind]

/-- A row is filled once both updates are executed, or once the first is if its path is empty. -/
theorem filled_iff {k : ℕ} (hk : 5 ≤ k) (hk' : k ≤ 7) (r : RowV1) :
    Filled r (r.fields ++ added k r) ↔ k = 7 ∨ k = 6 ∧ r.launchPath = "" := by
  have hkept : ∀ field ∈ r.fields, (r.fields ++ added k r).lookup field.1 = some field.2 := by
    intro field hfield
    simp only [RowV1.fields, List.mem_cons, List.not_mem_nil, or_false] at hfield
    rcases hfield with rfl | rfl | rfl | rfl | rfl <;> rfl
  have hsources : (SqlValue.text "[]") ≠ jsonArray (.text r.source) := by
    intro heq
    have hlength := congrArg String.length (SqlValue.text.inj heq)
    rw [String.length_append, String.length_append, quote, String.length_append,
      String.length_append, show "[]".length = 2 from rfl, show "[".length = 1 from rfl,
      show "]".length = 1 from rfl, show "\"".length = 1 from rfl] at hlength
    omega
  interval_cases k
  · refine iff_of_false (fun h => hsources (Option.some.inj h.sources)) (by simp)
  · have hentry : (r.fields ++ added 6 r).lookup "entry_path" = some (.text "") := rfl
    constructor
    · intro h
      have heq := Option.some.inj (hentry.symm.trans h.entryPath)
      exact .inr ⟨rfl, (SqlValue.text.inj heq).symm⟩
    · rintro (h | ⟨-, h⟩)
      · exact absurd h (by decide)
      · exact ⟨hkept, rfl, by rw [hentry, h]⟩
  · exact iff_of_true ⟨hkept, rfl, rfl⟩ (.inl rfl)

theorem migrated_versioned_iff (c : CatalogV1) {k : ℕ} (hk : k ≤ 7) :
    Migrated c (versioned c k) ↔
      k = 7 ∨ k = 5 ∧ c.rows = [] ∨ k = 6 ∧ ∀ r ∈ c.rows, r.launchPath = "" := by
  have hrows (hk5 : 5 ≤ k) : Migrated c (versioned c k) ↔
      ∀ r ∈ c.rows, k = 7 ∨ k = 6 ∧ r.launchPath = "" := by
    have hcolumns : (stageTable c k).columns = columnsV2 := by
      interval_cases k <;> rfl
    have hall : List.Forall₂ Filled c.rows (stageTable c k).rows ↔
        ∀ r ∈ c.rows, k = 7 ∨ k = 6 ∧ r.launchPath = "" := by
      simp only [stageTable, List.forall₂_map_right_iff, List.forall₂_same, filled_iff hk5 hk]
    rw [← hall]
    constructor
    · rintro ⟨⟨t, ht, -, hfilled⟩, -⟩
      obtain rfl := Option.some.inj ht
      exact hfilled
    · intro hfilled
      exact ⟨⟨_, rfl, hcolumns, hfilled⟩, generation_versioned c k⟩
  rcases Nat.lt_or_ge k 5 with hlt | hge
  · refine iff_of_false ?_ (by omega)
    rintro ⟨⟨t, ht, hcolumns, -⟩, -⟩
    obtain rfl := Option.some.inj ht
    have hlength := congrArg List.length hcolumns
    interval_cases k <;> simp [stageTable, newColumns, columnsV1, columnsV2] at hlength
  · rw [hrows hge]
    interval_cases k
    · simp [List.eq_nil_iff_forall_not_mem]
    · simp
    · simp

/-- **The points at which the process may die**: before the batch, after it, and between its
statements only where the rows have nothing left to fill in. -/
theorem migrated_reopened_iff (c : CatalogV1) (k : ℕ) :
    (∃ db, reopened k c.database = some db ∧ Migrated c db) ↔
      k = 0 ∨ 7 ≤ k ∨ k = 5 ∧ c.rows = [] ∨ k = 6 ∧ ∀ r ∈ c.rows, r.launchPath = "" := by
  have hstage : (∃ db, reopened k c.database = some db ∧ Migrated c db) ↔
      Migrated c (versioned c (if k = 0 then 7 else min k 7)) := by
    rw [reopened_eq]
    constructor
    · rintro ⟨db, hdb, hmigrated⟩
      obtain rfl := Option.some.inj hdb
      exact hmigrated
    · intro hmigrated
      exact ⟨_, rfl, hmigrated⟩
  rw [hstage, migrated_versioned_iff c (by split_ifs <;> omega)]
  rcases Nat.eq_zero_or_pos k with rfl | hk
  · simp
  · rw [if_neg hk.ne']
    rcases Nat.lt_or_ge k 7 with hlt | hge
    · rw [min_eq_left hlt.le]
      simp [hk.ne', hlt.ne, hlt.not_ge]
    · rw [min_eq_right hge]
      simp [hge]

/-- The catalog of one application, at generation 7. -/
def oneApplication : CatalogV1 where
  catalogMeta := ⟨[⟨"generation", "7"⟩], by decide⟩
  application := ⟨[⟨"win32:c:/a.exe", "A", "start-menu", "c:/a.exe", 1⟩], by decide⟩

/-- Dead after the first statement, the catalog never gets its other columns. -/
theorem not_crashSafe_oneApplication : ¬CrashSafe oneApplication := by
  intro hsafe
  obtain ⟨db, hdb, hmigrated⟩ := hsafe 1
  rw [reopened_eq] at hdb
  obtain rfl := Option.some.inj hdb
  have hdone := (migrated_versioned_iff oneApplication (by decide)).mp hmigrated
  revert hdone
  decide

end AuraLauncher.Providers
