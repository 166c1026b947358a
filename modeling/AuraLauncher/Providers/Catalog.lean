import AuraLauncher.Lib.Sheet
import AuraLauncher.Lib.Table
import AuraLauncher.Workflow.Json

/-!
# The catalog database

The store of the application catalog, modelled from `launcher-providers/src/catalog.rs`: what its
SQLite file holds, and the statements by which `open_conn` and `migrate` bring it to the second
schema. A statement works on the database as SQLite does: one that names a missing table or column
fails and changes nothing, and one that succeeds is there for every later connection.

* `Database` — the two tables, each absent in a new file.
* `openStatements` — what a connection executes on its way up, in the order of the source; the
  seven statements of `migrate` are `migration`.
* `openConn`, `openCatalog` — `open_conn`, and `open` with its deletion of a file that cannot be
  opened.
* `Database.generation` — `generation`.

Left out are the reading of the first sixteen bytes, by which `open` deletes a file that is no
SQLite database, the directory and journal settings, and the full-text table `app_fts`, which is
derived from the others and whose errors are ignored.
-/

namespace AuraLauncher.Providers

open AuraLauncher.Lib AuraLauncher.Workflow

/-! ## The database -/

/-- A value of SQLite, of the kinds that the catalog stores. -/
inductive SqlValue
  | null
  | integer (n : ℤ)
  | text (s : String)
deriving DecidableEq, Repr

/-- A row of `catalog_meta`. -/
structure MetaRow where
  key : String
  value : String
deriving DecidableEq, Repr

/-- What a catalog file holds; a table that was not created yet is absent. -/
structure Database where
  catalogMeta : Option (Table MetaRow.key)
  application : Option (Sheet SqlValue)

/-- A file that was just created. -/
def Database.new : Database := ⟨none, none⟩

/-- The value of a key of `catalog_meta`. -/
def Database.metaValue (db : Database) (key : String) : Option String :=
  db.catalogMeta.bind fun rows => (rows.find? key).map MetaRow.value

/-- Source: `str::parse::<u64>`. -/
def parseU64 (s : String) : Option ℕ :=
  let digits := if s.toList.head? = some '+' then s.toList.tail else s.toList
  if digits.isEmpty || !digits.all Char.isDigit then none
  else if Nat.ofDigitChars 10 digits 0 < 2 ^ 64 then some (Nat.ofDigitChars 10 digits 0) else none

/-- The committed generation. Source: `catalog.rs`, `generation`. -/
def Database.generation (db : Database) : ℕ :=
  ((db.metaValue "generation").bind parseU64).getD 0

/-! ## Statements -/

/-- A statement of SQL: `none` if it fails. -/
abbrev Statement := Database → Option Database

/-- One statement after the other, up to the first that fails. -/
def execute : List Statement → Statement
  | [], db => some db
  | s :: ss, db => (s db).bind (execute ss)

/-- The columns of the table in the first schema. -/
def columnsV1 : List String :=
  ["identity_key", "display_name", "source", "launch_path", "updated_at"]

/-- The columns of the table in the second schema. Source: `catalog.rs`, `open_conn`. -/
def columnsV2 : List String :=
  columnsV1 ++ ["lifecycle", "sources", "aumid", "package_identity", "entry_path"]

/-- `CREATE TABLE IF NOT EXISTS catalog_meta`. -/
def createMeta : Statement := fun db =>
  some { db with catalogMeta := some (db.catalogMeta.getD Table.empty) }

/-- `CREATE TABLE IF NOT EXISTS application`: a table of that name stays as it is. -/
def createApplication : Statement := fun db =>
  some { db with application := some (db.application.getD (Sheet.empty columnsV2)) }

/-- A statement on the table `application`. -/
def onApplication (f : Sheet SqlValue → Option (Sheet SqlValue)) : Statement := fun db =>
  db.application.bind fun t => (f t).map fun t => { db with application := some t }

/-- `JSON_ARRAY` of one value. -/
def jsonArray : SqlValue → SqlValue
  | .null => .text "[null]"
  | .integer n => .text ("[" ++ toString n ++ "]")
  | .text s => .text ("[" ++ quote s ++ "]")

/-- `UPDATE application SET sources = JSON_ARRAY(source) WHERE sources = '[]'`. -/
def fillSources : Statement :=
  onApplication (Sheet.update "sources" ["source"] fun r =>
    if r.lookup "sources" = some (.text "[]") then (r.lookup "source").map jsonArray else none)

/-- `UPDATE application SET entry_path = launch_path WHERE entry_path = ''`. -/
def fillEntryPath : Statement :=
  onApplication (Sheet.update "entry_path" ["launch_path"] fun r =>
    if r.lookup "entry_path" = some (.text "") then r.lookup "launch_path" else none)

/-- The batch that adds the columns of the second schema. Source: `catalog.rs`, `migrate`. -/
def migration : List Statement :=
  [onApplication (Sheet.addColumn "lifecycle" (.text "ready")),
    onApplication (Sheet.addColumn "sources" (.text "[]")),
    onApplication (Sheet.addColumn "aumid" .null),
    onApplication (Sheet.addColumn "package_identity" .null),
    onApplication (Sheet.addColumn "entry_path" (.text "")),
    fillSources,
    fillEntryPath]

/-- The upsert of `schema_version`, whose value is `CURRENT_SCHEMA_VERSION`. -/
def recordVersion : Statement := fun db =>
  db.catalogMeta.map fun rows =>
    { db with catalogMeta := some (rows.upsert ⟨"schema_version", "2"⟩) }

/-- Whether `PRAGMA table_info(application)` lists the column `lifecycle`. -/
def hasLifecycle (db : Database) : Bool :=
  db.application.any fun t => decide ("lifecycle" ∈ t.columns)

/-- What `migrate` executes on a database. Source: `catalog.rs`, `migrate`. -/
def migrateStatements (db : Database) : List Statement :=
  (if hasLifecycle db then [] else migration) ++ [recordVersion]

/-- Source: `catalog.rs`, `migrate`. -/
def migrate : Statement := fun db => execute (migrateStatements db) db

/-- Source: `catalog.rs`, `open_conn`. -/
def openConn : Statement := fun db => (execute [createMeta, createApplication] db).bind migrate

/-- A file that fails to open is deleted and created again. Source: `catalog.rs`, `open`. -/
def openCatalog (db : Database) : Option Database := (openConn db).or (openConn Database.new)

theorem execute_append (ss ss' : List Statement) (db : Database) :
    execute (ss ++ ss') db = (execute ss db).bind (execute ss') := by
  induction ss generalizing db with
  | nil => rfl
  | cons s ss ih =>
      rw [List.cons_append, execute, execute, Option.bind_assoc]
      exact congrArg _ (funext ih)

/-- A statement on the table changes nothing else. -/
theorem onApplication_eq_some {f : Sheet SqlValue → Option (Sheet SqlValue)} {db : Database}
    {t t' : Sheet SqlValue} (hdb : db.application = some t) (ht : f t = some t') :
    onApplication f db = some { db with application := some t' } := by
  rw [onApplication, hdb, Option.bind_some, ht, Option.map_some]

/-- A new file opens with the second schema and no rows. -/
theorem openConn_new : ∃ db, openConn Database.new = some db ∧
    db.application = some (Sheet.empty columnsV2) ∧ db.generation = 0 :=
  ⟨_, rfl, rfl, rfl⟩

end AuraLauncher.Providers
