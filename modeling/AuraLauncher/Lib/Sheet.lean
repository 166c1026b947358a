import Mathlib.Data.List.Basic
import Mathlib.Tactic.Common

/-!
# Tables whose columns can grow

A `Sheet V` is a table of SQL whose columns are not fixed: the names of its columns, and rows that
have one value for each of them, with that agreement as a field, so that a row which lacks a value
cannot be built. A statement that names a column which the table does not have fails, as it does
in SQL, and a failed statement changes nothing.

* `Sheet.addColumn` — `ALTER TABLE … ADD COLUMN c … DEFAULT d`.
* `Sheet.update` — `UPDATE … SET c = … WHERE …`, with the columns its expressions name.
* `Sheet.clear`, `Sheet.insertOrReplace` — `DELETE FROM …`, and `INSERT OR REPLACE` by the value
  of one column.
* `Sheet.addColumn_eq_some`, `Sheet.update_eq_some` — when a statement succeeds, and with what.
-/

namespace AuraLauncher.Lib

universe u

/-- A row: its values by the names of their columns. -/
abbrev Fields (V : Type u) := List (String × V)

/-- A table with named columns. -/
structure Sheet (V : Type u) where
  /-- The names of the columns, in their order. -/
  columns : List String
  /-- The rows, oldest first. -/
  rows : List (Fields V)
  /-- A row has one value for each column. -/
  named : ∀ r ∈ rows, r.map Prod.fst = columns

/-- The row with another value in one column. -/
def setField {V : Type u} (c : String) (v : V) (r : Fields V) : Fields V :=
  r.map fun field => if field.1 = c then (c, v) else field

/-- Setting a field moves no name. -/
theorem map_fst_setField {V : Type u} (c : String) (v : V) (r : Fields V) :
    (setField c v r).map Prod.fst = r.map Prod.fst := by
  unfold setField
  rw [List.map_map]
  refine List.map_congr_left fun field _ => ?_
  by_cases hc : field.1 = c
  · simp [hc]
  · simp [hc]

namespace Sheet

variable {V : Type u}

/-- `CREATE TABLE` with these columns. -/
def empty (columns : List String) : Sheet V := ⟨columns, [], by simp⟩

/-- `ALTER TABLE … ADD COLUMN c … DEFAULT d`: every row gets the default. A column of that name
makes the statement fail. -/
def addColumn (c : String) (d : V) (t : Sheet V) : Option (Sheet V) :=
  if c ∈ t.columns then none
  else some
    { columns := t.columns ++ [c]
      rows := t.rows.map fun r => r ++ [(c, d)]
      named := by
        intro r hr
        obtain ⟨r₀, hr₀, rfl⟩ := List.mem_map.mp hr
        rw [List.map_append, t.named r₀ hr₀, List.map_singleton] }

/-- `UPDATE … SET c = e WHERE p`: `set` gives the new value of a row with `p` and `none` for the
others, and `reads` are the columns that `e` and `p` name. A column that is not there makes the
statement fail. -/
def update (c : String) (reads : List String) (set : Fields V → Option V) (t : Sheet V) :
    Option (Sheet V) :=
  if ∀ name ∈ c :: reads, name ∈ t.columns then
    some
      { columns := t.columns
        rows := t.rows.map fun r => ((set r).map fun v => setField c v r).getD r
        named := by
          intro r hr
          obtain ⟨r₀, hr₀, rfl⟩ := List.mem_map.mp hr
          rcases set r₀ with _ | v
          · exact t.named r₀ hr₀
          · exact (map_fst_setField c v r₀).trans (t.named r₀ hr₀) }
  else none

/-- `DELETE FROM …` without a condition. -/
def clear (t : Sheet V) : Sheet V := ⟨t.columns, [], by simp⟩

/-- `INSERT OR REPLACE INTO … (names) VALUES (values)`: the rows with the same value in the column
`key` go, and the columns that are not named get their defaults. A column that is not there makes
the statement fail. -/
def insertOrReplace [DecidableEq V] (key : String) (dflt : String → V) (given : Fields V)
    (t : Sheet V) : Option (Sheet V) :=
  if ∀ field ∈ given, field.1 ∈ t.columns then
    some
      { columns := t.columns
        rows := (t.rows.filter fun r => decide (r.lookup key ≠ given.lookup key)) ++
          [t.columns.map fun c => (c, (given.lookup c).getD (dflt c))]
        named := by
          intro r hr
          rcases List.mem_append.mp hr with hr | hr
          · exact t.named r (List.mem_of_mem_filter hr)
          · obtain rfl := List.mem_singleton.mp hr
            rw [List.map_map]
            exact List.map_id _ }
  else none

/-- Two tables are the same if their columns and their rows are. -/
theorem ext {t t' : Sheet V} (hcolumns : t.columns = t'.columns) (hrows : t.rows = t'.rows) :
    t = t' := by
  obtain ⟨columns, rows, named⟩ := t
  obtain ⟨columns', rows', named'⟩ := t'
  subst hcolumns hrows
  rfl

/-- A column is added exactly where there is none of its name, and what is there then. -/
theorem addColumn_eq_some {c : String} {d : V} {t t' : Sheet V} :
    t.addColumn c d = some t' ↔
      c ∉ t.columns ∧ t'.columns = t.columns ++ [c] ∧
        t'.rows = t.rows.map fun r => r ++ [(c, d)] := by
  unfold addColumn
  split_ifs with hc
  · simp [hc]
  · constructor
    · intro h
      rw [← Option.some.inj h]
      exact ⟨hc, rfl, rfl⟩
    · rintro ⟨-, hcolumns, hrows⟩
      exact congrArg some (ext hcolumns.symm hrows.symm)

/-- An update succeeds exactly where its columns are there, and what is there then. -/
theorem update_eq_some {c : String} {reads : List String} {set : Fields V → Option V}
    {t t' : Sheet V} :
    t.update c reads set = some t' ↔
      (∀ name ∈ c :: reads, name ∈ t.columns) ∧ t'.columns = t.columns ∧
        t'.rows = t.rows.map fun r => ((set r).map fun v => setField c v r).getD r := by
  unfold update
  split_ifs with hc
  · constructor
    · intro h
      rw [← Option.some.inj h]
      exact ⟨hc, rfl, rfl⟩
    · rintro ⟨-, hcolumns, hrows⟩
      exact congrArg some (ext hcolumns.symm hrows.symm)
  · exact iff_of_false (by simp) fun h => hc h.1

/-- Where no row has the value, the new row is appended. -/
theorem insertOrReplace_of_free [DecidableEq V] {key : String} (dflt : String → V)
    {given : Fields V} {t : Sheet V} (hnames : ∀ field ∈ given, field.1 ∈ t.columns)
    (hfree : ∀ r ∈ t.rows, r.lookup key ≠ given.lookup key) :
    ∃ t', t.insertOrReplace key dflt given = some t' ∧ t'.columns = t.columns ∧
      t'.rows = t.rows ++ [t.columns.map fun c => (c, (given.lookup c).getD (dflt c))] := by
  refine ⟨_, if_pos hnames, rfl, ?_⟩
  exact congrArg (· ++ _) (List.filter_eq_self.mpr fun r hr => decide_eq_true (hfree r hr))

end Sheet

end AuraLauncher.Lib
