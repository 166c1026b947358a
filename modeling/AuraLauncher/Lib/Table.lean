import Mathlib.Data.List.Nodup
import Mathlib.Tactic.Common

/-!
# Tables with a primary key

A `Table key` is the list of the rows of a table in insertion order, with the uniqueness of the
primary key `key` as a field, so a table with two rows of one key cannot be built. The operations
are the statements of SQL on one table:

* `Table.find?` — `SELECT … WHERE key = k`; `Table.first?` — the first row a scan meets.
* `Table.insertOrIgnore` — `INSERT OR IGNORE`.
* `Table.upsert` — `INSERT … ON CONFLICT(key) DO UPDATE` of the whole row.
* `Table.updateWhere` — `UPDATE … WHERE p`, with `Table.count` for the number of rows it reports.
* `Table.deleteWhere` — `DELETE … WHERE p`.
* `Table.total` — `SELECT SUM(f)`, with what deleting and inserting one row does to it.

Each has the lemmas that say which rows it leaves, so that users of a table need not unfold it.
-/

namespace AuraLauncher.Lib

universe u v

/-- The rows of a table in insertion order, no two of them with the same key. -/
structure Table {ρ : Type u} {κ : Type v} (key : ρ → κ) where
  /-- The rows, oldest first. -/
  rows : List ρ
  /-- The primary key is unique. -/
  nodup : (rows.map key).Nodup

namespace Table

variable {ρ : Type u} {κ : Type v} {key : ρ → κ}

/-- The table without rows. -/
def empty : Table key := ⟨[], List.nodup_nil⟩

/-- Two rows of a table with the same key are the same row. -/
theorem eq_of_key_eq (t : Table key) {r r' : ρ} (hr : r ∈ t.rows) (hr' : r' ∈ t.rows)
    (h : key r = key r') : r = r' :=
  List.inj_on_of_nodup_map t.nodup hr hr' h

/-- The first row that a scan of the table finds with `p`. -/
def first? (t : Table key) (p : ρ → Bool) : Option ρ := t.rows.find? p

/-- The number of rows with `p`. -/
def count (t : Table key) (p : ρ → Bool) : ℕ := t.rows.countP p

theorem count_pos_iff {t : Table key} {p : ρ → Bool} :
    0 < t.count p ↔ ∃ r ∈ t.rows, p r = true := List.countP_pos_iff

/-! ## Changing rows -/

/-- `UPDATE … WHERE p`: every row with `p` is replaced by `f` of it; the key is not updated. -/
def updateWhere (t : Table key) (p : ρ → Bool) (f : ρ → ρ) (hf : ∀ r, key (f r) = key r) :
    Table key where
  rows := t.rows.map fun r => if p r then f r else r
  nodup := by
    have hkeys : (t.rows.map fun r => if p r then f r else r).map key = t.rows.map key := by
      rw [List.map_map]
      refine List.map_congr_left fun r _ => ?_
      by_cases hp : p r <;> simp [hp, hf]
    rw [hkeys]
    exact t.nodup

section updateWhere

variable {t : Table key} {p : ρ → Bool} {f : ρ → ρ} (hf : ∀ r, key (f r) = key r)

/-- An update changes no key. -/
theorem keys_updateWhere : (t.updateWhere p f hf).rows.map key = t.rows.map key := by
  unfold updateWhere
  rw [List.map_map]
  refine List.map_congr_left fun r _ => ?_
  by_cases hp : p r <;> simp [hp, hf]

theorem mem_updateWhere {r : ρ} :
    r ∈ (t.updateWhere p f hf).rows ↔ ∃ r₀ ∈ t.rows, (if p r₀ then f r₀ else r₀) = r :=
  List.mem_map

theorem mem_updateWhere_of_mem {r : ρ} (h : r ∈ t.rows) :
    (if p r then f r else r) ∈ (t.updateWhere p f hf).rows :=
  (mem_updateWhere hf).mpr ⟨r, h, rfl⟩

/-- Rows without `p` are left as they are. -/
theorem mem_updateWhere_of_not {r : ρ} (h : r ∈ t.rows) (hp : p r = false) :
    r ∈ (t.updateWhere p f hf).rows := by
  have hmem : (if p r then f r else r) ∈ (t.updateWhere p f hf).rows :=
    mem_updateWhere_of_mem hf h
  simpa [hp] using hmem

/-- A scan that the update does not disturb finds the updated row of the row it found before. -/
theorem first?_updateWhere {q : ρ → Bool} (hq : ∀ r, q (f r) = q r) :
    (t.updateWhere p f hf).first? q = (t.first? q).map fun r => if p r then f r else r := by
  unfold first? updateWhere
  have hcomp : (q ∘ fun r => if p r then f r else r) = q := by
    funext r
    by_cases hp : p r <;> simp [hp, hq]
  rw [List.find?_map, hcomp]

end updateWhere

/-- `DELETE … WHERE p`. -/
def deleteWhere (t : Table key) (p : ρ → Bool) : Table key where
  rows := t.rows.filter fun r => !p r
  nodup := t.nodup.sublist (List.filter_sublist.map key)

theorem mem_deleteWhere {t : Table key} {p : ρ → Bool} {r : ρ} :
    r ∈ (t.deleteWhere p).rows ↔ r ∈ t.rows ∧ p r = false := by
  simp [deleteWhere]

/-- `SELECT SUM(f)`: what the rows add up to under `f`. -/
def total (t : Table key) (f : ρ → ℕ) : ℕ := t.rows.foldr (fun r n => f r + n) 0

/-- The number of rows as a sum. -/
theorem length_rows (t : Table key) : t.rows.length = t.total fun _ => 1 := by
  unfold total
  induction t.rows with
  | nil => rfl
  | cons r rows ih => rw [List.length_cons, List.foldr_cons, ih, Nat.add_comm]

/-- An update that leaves the summands alone leaves their sum. -/
theorem total_updateWhere {t : Table key} {p : ρ → Bool} {f : ρ → ρ} {g : ρ → ℕ}
    (hf : ∀ r, key (f r) = key r) (hg : ∀ r, g (f r) = g r) :
    (t.updateWhere p f hf).total g = t.total g := by
  unfold total updateWhere
  dsimp only
  induction t.rows with
  | nil => rfl
  | cons r rows ih =>
      rw [List.map_cons, List.foldr_cons, List.foldr_cons, ih]
      by_cases hp : p r <;> simp [hp, hg]

/-- What divides the summands divides their sum. -/
theorem dvd_total {t : Table key} {f : ρ → ℕ} {d : ℕ} (h : ∀ r, d ∣ f r) : d ∣ t.total f := by
  unfold total
  induction t.rows with
  | nil => exact Nat.dvd_zero d
  | cons r rows ih => exact Nat.dvd_add (h r) ih

/-! ## The primary key -/

variable [DecidableEq κ]

/-- The row with key `k`. -/
def find? (t : Table key) (k : κ) : Option ρ := t.first? fun r => decide (key r = k)

theorem find?_eq_some_iff {t : Table key} {k : κ} {r : ρ} :
    t.find? k = some r ↔ r ∈ t.rows ∧ key r = k := by
  constructor
  · intro h
    exact ⟨List.mem_of_find?_eq_some h, by simpa using List.find?_some h⟩
  · rintro ⟨hr, rfl⟩
    cases h : t.find? (key r) with
    | none =>
        have hnone := List.find?_eq_none.mp h r hr
        simp at hnone
    | some r' =>
        have hr' : r' ∈ t.rows := List.mem_of_find?_eq_some h
        have hk : key r' = key r := by simpa using List.find?_some h
        rw [t.eq_of_key_eq hr' hr hk]

theorem find?_eq_none_iff {t : Table key} {k : κ} :
    t.find? k = none ↔ ∀ r ∈ t.rows, key r ≠ k := by
  simp [find?, first?]

/-- The rows with a key are the one row that is found under it. -/
theorem filter_key_eq (t : Table key) (k : κ) :
    (t.rows.filter fun r => decide (key r = k)) = (t.find? k).toList := by
  have hnodup : (t.rows.filter fun r => decide (key r = k)).Nodup :=
    (List.Nodup.of_map key t.nodup).filter _
  cases h : t.find? k with
  | none =>
      exact List.filter_eq_nil_iff.mpr fun r hr => by simpa using find?_eq_none_iff.mp h r hr
  | some r =>
      obtain ⟨hr, hk⟩ := find?_eq_some_iff.mp h
      refine List.perm_singleton.mp
        ((List.perm_ext_iff_of_nodup hnodup (List.nodup_singleton r)).mpr fun r' => ?_)
      rw [List.mem_filter, List.mem_singleton, decide_eq_true_eq]
      constructor
      · rintro ⟨hr', hk'⟩
        exact t.eq_of_key_eq hr' hr (hk'.trans hk.symm)
      · rintro rfl
        exact ⟨hr, hk⟩

/-- The row that a deletion leaves under a key. -/
theorem find?_deleteWhere {t : Table key} {p : ρ → Bool} {k : κ} :
    (t.deleteWhere p).find? k = (t.find? k).filter fun r => !p r := by
  apply Option.ext
  intro r
  rw [find?_eq_some_iff, mem_deleteWhere, Option.filter_eq_some_iff, find?_eq_some_iff]
  simp only [Bool.not_eq_true']
  tauto

/-- `INSERT OR IGNORE`: the row is appended unless its key is taken. -/
def insertOrIgnore (t : Table key) (r : ρ) : Table key :=
  if h : key r ∈ t.rows.map key then t
  else
    { rows := t.rows ++ [r]
      nodup := by
        rw [List.map_append, List.map_singleton]
        exact List.nodup_append.mpr ⟨t.nodup, List.nodup_singleton _, by
          rintro a ha b hb rfl
          exact h (List.mem_singleton.mp hb ▸ ha)⟩ }

/-- `INSERT … ON CONFLICT(key) DO UPDATE`: the row takes the place of the row with its key, or is
appended. -/
def upsert (t : Table key) (r : ρ) : Table key :=
  if key r ∈ t.rows.map key then
    { rows := t.rows.map fun r' => if key r' = key r then r else r'
      nodup := by
        have hkeys : (t.rows.map fun r' => if key r' = key r then r else r').map key =
            t.rows.map key := by
          rw [List.map_map]
          refine List.map_congr_left fun r' _ => ?_
          by_cases hk : key r' = key r <;> simp [hk]
        rw [hkeys]
        exact t.nodup }
  else t.insertOrIgnore r

section insertOrIgnore

variable {t : Table key} {r : ρ}

theorem insertOrIgnore_of_taken (h : ∃ r' ∈ t.rows, key r' = key r) : t.insertOrIgnore r = t := by
  unfold insertOrIgnore
  rw [dif_pos (by simpa using h)]

theorem rows_insertOrIgnore_of_free (h : ∀ r' ∈ t.rows, key r' ≠ key r) :
    (t.insertOrIgnore r).rows = t.rows ++ [r] := by
  unfold insertOrIgnore
  rw [dif_neg (by simpa using h)]

/-- Rows are never removed by an insertion. -/
theorem mem_insertOrIgnore_of_mem {r' : ρ} (h : r' ∈ t.rows) : r' ∈ (t.insertOrIgnore r).rows := by
  by_cases hk : ∃ r' ∈ t.rows, key r' = key r
  · rwa [insertOrIgnore_of_taken hk]
  · rw [rows_insertOrIgnore_of_free fun r' hr' hr => hk ⟨r', hr', hr⟩]
    exact List.mem_append_left _ h

theorem mem_of_mem_insertOrIgnore {r' : ρ} (h : r' ∈ (t.insertOrIgnore r).rows) :
    r' ∈ t.rows ∨ r' = r := by
  by_cases hk : ∃ r' ∈ t.rows, key r' = key r
  · rw [insertOrIgnore_of_taken hk] at h
    exact .inl h
  · rw [rows_insertOrIgnore_of_free fun r' hr' hr => hk ⟨r', hr', hr⟩] at h
    simpa using h

/-- An insertion gives its key to the row, unless a row has it. -/
theorem find?_insertOrIgnore {k : κ} :
    (t.insertOrIgnore r).find? k = (t.find? k).or (if key r = k then some r else none) := by
  by_cases hk : ∃ r' ∈ t.rows, key r' = key r
  · rw [insertOrIgnore_of_taken hk]
    obtain ⟨r', hr', hkey⟩ := hk
    by_cases hrk : key r = k
    · have hfind : t.find? k = some r' := find?_eq_some_iff.mpr ⟨hr', hkey.trans hrk⟩
      simp [hfind]
    · simp [hrk]
  · unfold find? first?
    rw [rows_insertOrIgnore_of_free fun r' hr' hr => hk ⟨r', hr', hr⟩, List.find?_append]
    by_cases hrk : key r = k <;> simp [hrk]

/-- An insertion does not disturb a scan that finds a row already. -/
theorem first?_insertOrIgnore_of_some {q : ρ → Bool} {r' : ρ} (h : t.first? q = some r') :
    (t.insertOrIgnore r).first? q = some r' := by
  by_cases hk : ∃ r' ∈ t.rows, key r' = key r
  · rwa [insertOrIgnore_of_taken hk]
  · unfold first? at h ⊢
    rw [rows_insertOrIgnore_of_free fun r' hr' hr => hk ⟨r', hr', hr⟩, List.find?_append, h]
    rfl

/-- A scan that found nothing can find only the row just inserted. -/
theorem eq_of_first?_insertOrIgnore {q : ρ → Bool} {r' : ρ} (hnone : t.first? q = none)
    (h : (t.insertOrIgnore r).first? q = some r') : r' = r := by
  have hmem : r' ∈ (t.insertOrIgnore r).rows := List.mem_of_find?_eq_some h
  rcases mem_of_mem_insertOrIgnore hmem with hr | hr
  · have hq : q r' = true := List.find?_some h
    exact absurd hq (List.find?_eq_none.mp hnone r' hr)
  · exact hr

end insertOrIgnore

section upsert

variable {t : Table key} {r : ρ}

theorem find?_upsert_self : (t.upsert r).find? (key r) = some r := by
  rw [find?_eq_some_iff]
  refine ⟨?_, rfl⟩
  unfold upsert
  split_ifs with h
  · obtain ⟨r', hr', hk⟩ := List.mem_map.mp h
    exact List.mem_map.mpr ⟨r', hr', by simp [hk]⟩
  · rw [rows_insertOrIgnore_of_free (by simpa using h)]
    simp

theorem find?_upsert_of_ne {k : κ} (hk : k ≠ key r) : (t.upsert r).find? k = t.find? k := by
  have hmem : ∀ r', key r' = k → (r' ∈ (t.upsert r).rows ↔ r' ∈ t.rows) := by
    rintro r' rfl
    unfold upsert
    split_ifs with h
    · constructor
      · intro hr'
        obtain ⟨r₀, hr₀, heq⟩ := List.mem_map.mp hr'
        split_ifs at heq
        · exact absurd (congrArg key heq).symm hk
        · exact heq ▸ hr₀
      · intro hr'
        exact List.mem_map.mpr ⟨r', hr', if_neg hk⟩
    · rw [rows_insertOrIgnore_of_free (by simpa using h)]
      have hne : r' ≠ r := fun heq => hk (congrArg key heq)
      simp [hne]
  apply Option.ext
  intro r'
  rw [find?_eq_some_iff, find?_eq_some_iff]
  exact and_congr_left fun hk' => hmem r' hk'

/-- A row with a new key is appended. -/
theorem upsert_of_free (h : ∀ r' ∈ t.rows, key r' ≠ key r) : t.upsert r = t.insertOrIgnore r := by
  unfold upsert
  rw [if_neg (by simpa using h)]

/-- Of two rows with one key the second remains. -/
theorem upsert_upsert {r' : ρ} (hk : key r' = key r) : (t.upsert r).upsert r' = t.upsert r' := by
  have hrows : ∀ {s s' : Table key}, s.rows = s'.rows → s = s' := by
    rintro ⟨_, _⟩ ⟨_, _⟩ rfl
    rfl
  have htaken : key r' ∈ (t.upsert r).rows.map key := by
    rw [hk]
    exact List.mem_map_of_mem (find?_eq_some_iff.mp find?_upsert_self).1
  apply hrows
  by_cases h : key r ∈ t.rows.map key
  · unfold upsert
    simp only [hk, h, if_true, List.map_map]
    rw [if_pos (by simpa [upsert, h, hk] using htaken)]
    refine List.map_congr_left fun r₀ _ => ?_
    by_cases hr₀ : key r₀ = key r <;> simp [hr₀]
  · have hfree : ∀ r₀ ∈ t.rows, key r₀ ≠ key r := by simpa using h
    have hfree' : ∀ r₀ ∈ t.rows, key r₀ ≠ key r' := hk ▸ hfree
    have hfirst : (t.upsert r).rows = t.rows ++ [r] := by
      rw [upsert_of_free hfree, rows_insertOrIgnore_of_free hfree]
    rw [upsert_of_free hfree', rows_insertOrIgnore_of_free hfree']
    unfold upsert at htaken ⊢
    rw [if_pos htaken]
    change (t.upsert r).rows.map _ = _
    rw [hfirst, List.map_append, List.map_singleton, if_pos hk.symm]
    congr 1
    exact (List.map_congr_left fun r₀ hr₀ => if_neg (hfree' r₀ hr₀)).trans (List.map_id' _)

end upsert

section total

variable {t : Table key} {f : ρ → ℕ}

/-- The rows that are deleted under a key account for what the total loses. -/
theorem total_deleteWhere_key {k : κ} :
    (t.deleteWhere fun r => key r == k).total f + (t.find? k).elim 0 f = t.total f := by
  obtain ⟨rows, nodup⟩ := t
  unfold total deleteWhere find? first?
  dsimp only
  induction rows with
  | nil => rfl
  | cons r rows ih =>
      rw [List.map_cons, List.nodup_cons] at nodup
      specialize ih nodup.2
      by_cases hk : key r = k
      · have hfree : ∀ r' ∈ rows, key r' ≠ k := by
          rintro r' hr' rfl
          exact nodup.1 (List.mem_map.mpr ⟨r', hr', hk.symm⟩)
        have hnone : rows.find? (fun r' => decide (key r' = k)) = none :=
          List.find?_eq_none.mpr fun r' hr' => by simpa using hfree r' hr'
        rw [hnone] at ih
        simp only [Option.elim_none, Nat.add_zero] at ih
        simp only [hk, beq_self_eq_true, Bool.not_true, Bool.false_eq_true, not_false_eq_true,
          List.filter_cons_of_neg, decide_true, List.find?_cons_of_pos, Option.elim_some,
          List.foldr_cons, ih]
        omega
      · simp only [List.filter_cons, List.find?_cons, hk, decide_false,
          Bool.not_eq_true', beq_eq_false_iff_ne, ne_eq, not_false_eq_true, if_true,
          List.foldr_cons, ← ih]
        omega

theorem total_insertOrIgnore_of_free {r : ρ} (h : ∀ r' ∈ t.rows, key r' ≠ key r) :
    (t.insertOrIgnore r).total f = t.total f + f r := by
  unfold total
  rw [rows_insertOrIgnore_of_free h]
  induction t.rows with
  | nil => simp
  | cons r' rows ih => rw [List.cons_append, List.foldr_cons, List.foldr_cons, ih, Nat.add_assoc]

/-- An insertion adds a row unless its key is taken. -/
theorem length_insertOrIgnore {r : ρ} : (t.insertOrIgnore r).rows.length =
    t.rows.length + if (t.find? (key r)).isSome then 0 else 1 := by
  cases h : t.find? (key r) with
  | none =>
      have hfree : ∀ r' ∈ t.rows, key r' ≠ key r := find?_eq_none_iff.mp h
      rw [rows_insertOrIgnore_of_free hfree, List.length_append]
      rfl
  | some r' => rw [insertOrIgnore_of_taken ⟨r', find?_eq_some_iff.mp h⟩]; rfl

/-- A deletion by key removes the one row that has it. -/
theorem length_deleteWhere_key {k : κ} :
    (t.deleteWhere fun r => key r == k).rows.length + (if (t.find? k).isSome then 1 else 0) =
      t.rows.length := by
  have htotal := total_deleteWhere_key (t := t) (f := fun _ => 1) (k := k)
  rw [← length_rows, ← length_rows] at htotal
  rw [← htotal]
  cases t.find? k <;> rfl

/-- A row is one of the summands. -/
theorem le_total {k : κ} {r : ρ} (h : t.find? k = some r) : f r ≤ t.total f := by
  have hsplit := total_deleteWhere_key (t := t) (f := f) (k := k)
  rw [h, Option.elim_some] at hsplit
  omega

end total

end Table

end AuraLauncher.Lib
