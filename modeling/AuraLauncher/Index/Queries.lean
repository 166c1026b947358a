import AuraLauncher.Index.Frame
import AuraLauncher.Lib.Firsts
import Mathlib.Data.Prod.Lex

/-!
# Searching the file index

`launcher-indexer/src/lib.rs`, `search`: what the full-text index finds comes first, and what a
scan of `files` with `LIKE` finds is merged after it, each file once. An index of the texts that
finds nothing is made anew from `files` and asked again.

* `searchLike` — the scan; `searchLike_spec` says that it finds the files with the lowered query in
  their names or paths, whatever wildcards the query has, and in which order.
* `search`, `search_spec` — the search: nothing that the scan finds is lost to the merge, and the
  metadata stays as it is.
* `verbatim_found_iff` — which queries find every file that has them in its name as they are.
* `idsDistinct_of_run` — no two files have one id, after any run of the writer.

Parameters (`SearchEngine`): `str::to_lowercase`, the matching and ranking of FTS5, and whether the
transaction of a rebuild goes through.
-/

namespace AuraLauncher.Index

open AuraLauncher.Lib AuraLauncher.Domain

/-! ## Ids -/

/-- No two files have one id. -/
def IdsDistinct (files : Files) : Prop := (files.rows.map FileRow.id).Nodup

theorem id_lt_nextId {files : Files} {r : FileRow} (h : r ∈ files.rows) : r.id < nextId files :=
  Nat.lt_succ_of_le (List.le_max_of_le' 0 (List.mem_map_of_mem h) le_rfl)

theorem IdsDistinct.deleteWhere {files : Files} (h : IdsDistinct files) (p : FileRow → Bool) :
    IdsDistinct (files.deleteWhere p) :=
  h.sublist (List.filter_sublist.map FileRow.id)

theorem IdsDistinct.insertOrIgnore {files : Files} (h : IdsDistinct files) (c : FileColumns) :
    IdsDistinct (insertOrIgnore files c) := by
  unfold Index.insertOrIgnore
  by_cases htaken : ∃ r ∈ files.rows, r.key = c.path
  · rwa [Table.insertOrIgnore_of_taken htaken]
  · unfold IdsDistinct
    rw [Table.rows_insertOrIgnore_of_free fun r hr hkey => htaken ⟨r, hr, hkey⟩, List.map_append,
      List.map_singleton]
    have hnew : nextId files ∉ files.rows.map FileRow.id := by
      intro hmem
      obtain ⟨r, hr, hid⟩ := List.mem_map.mp hmem
      exact absurd hid (id_lt_nextId hr).ne
    simpa using h.concat hnew

theorem IdsDistinct.upsert {files : Files} (h : IdsDistinct files) (c : FileColumns) :
    IdsDistinct (upsert files c) := by
  unfold Index.upsert
  cases hfind : files.find? c.path with
  | none =>
      have hfree : ∀ r ∈ files.rows, r.key ≠ c.path := Table.find?_eq_none_iff.mp hfind
      rw [Table.upsert_of_free hfree]
      exact h.insertOrIgnore c
  | some r =>
      obtain ⟨hr, hkey⟩ := Table.find?_eq_some_iff.mp hfind
      -- the row that is replaced keeps its id
      have hids : ((files.rows.map fun d => if d.key = c.path then ⟨c, r.id⟩ else d).map
          FileRow.id) = files.rows.map FileRow.id := by
        rw [List.map_map]
        refine List.map_congr_left fun d hd => ?_
        by_cases hpath : d.key = c.path
        · obtain rfl := files.eq_of_key_eq hd hr (hpath.trans hkey.symm)
          simp [hpath]
        · simp [hpath]
      unfold IdsDistinct Table.upsert
      rw [if_pos (List.mem_map.mpr ⟨r, hr, hkey⟩)]
      exact hids ▸ h

theorem IdsDistinct.insertAll {files : Files} (h : IdsDistinct files)
    (scanned : List FileColumns) : IdsDistinct (insertAll files scanned) := by
  unfold Index.insertAll
  induction scanned generalizing files with
  | nil => exact h
  | cons c scanned ih => exact ih (h.insertOrIgnore c)

variable {π : Type} (plat : Platform π)

theorem IdsDistinct.changes {s : IndexDb} (h : IdsDistinct s.files)
    (changes : List VerifiedChange) : IdsDistinct (changes.foldl (applyChange plat) s).files := by
  induction changes generalizing s with
  | nil => exact h
  | cons c changes ih =>
      refine ih ?_
      cases c with
      | upsert o => exact (h.deleteWhere _).upsert _
      | delete normalizedPath => exact h.deleteWhere _

theorem IdsDistinct.commit {s : IndexDb} (h : IdsDistinct s.files) (a : Commit π) :
    IdsDistinct (commit plat s a).files := by
  cases a with
  | batch changes =>
      simp only [Index.commit, applyBatch]
      split_ifs
      · exact h
      · exact h.changes plat changes
  | rescan fs root => exact (h.deleteWhere _).insertAll _
  | rebuild fs roots => exact (h.deleteWhere _).insertAll _
  | rebuildFts =>
      simp only [Index.commit, rebuildFts]
      split_ifs <;> exact h

/-- Every index that the writer makes has distinct ids. -/
theorem idsDistinct_of_run {commits : List (Commit π)} {s : IndexDb}
    (h : (writer plat).run .empty commits = some s) : IdsDistinct s.files := by
  have hempty : IdsDistinct IndexDb.empty.files := List.nodup_nil
  refine (writer plat).run_inv_of_step (I := fun s => IdsDistinct s.files)
    (fun s a s' hs hstep => ?_) hempty h
  obtain rfl := Option.some.inj hstep
  exact hs.commit plat a

/-! ## The scan -/

/-- What the search uses of Rust's standard library and of SQLite. -/
structure SearchEngine where
  /-- `str::to_lowercase`. -/
  toLowercase : List Char → List Char
  /-- `files_fts MATCH`: the rows that match, each with its `rank`; `none` is an error. -/
  ftsMatch : List FtsRow → String → Option (List (FtsRow × ℚ))
  /-- Whether the transaction of `rebuild_fts` goes through. -/
  rebuilds : IndexDb → Bool

/-- The length in bytes from which on SQLite refuses a pattern. -/
def LIKE_PATTERN_BYTES : ℕ := 50000

/-- Source: `launcher-indexer/src/lib.rs`, `escape_like`. -/
def escapeLike (s : List Char) : List Char :=
  s.flatMap fun c => if ['%', '_', '\\'].contains c then ['\\', c] else [c]

/-- The pattern of a query. Source: `launcher-indexer/src/lib.rs`, `search_like` (`pattern`). -/
def likePattern (toLowercase : List Char → List Char) (query : String) : List Char :=
  '%' :: escapeLike (toLowercase (trim query.toList)) ++ ['%']

/-- `lower(name) LIKE ?1 ESCAPE '\'`. -/
def nameHit (pattern : List Char) (r : FileRow) : Bool :=
  likeEscape '\\' pattern (sqlLower r.name.toList)

/-- `lower(path) LIKE ?1 ESCAPE '\'`. -/
def pathHit (pattern : List Char) (r : FileRow) : Bool :=
  likeEscape '\\' pattern (sqlLower r.path.toList)

/-- `is_dir, length(name), path`. -/
abbrev fileKey (r : FileRow) : Bool ×ₗ ℕ ×ₗ String :=
  toLex (r.isDir, toLex (r.name.length, r.path))

/-- The order of the hits. Source: `launcher-indexer/src/lib.rs`, `search_like` (`ORDER BY`). -/
abbrev hitKey (pattern : List Char) (r : FileRow) : Bool ×ₗ Bool ×ₗ ℕ ×ₗ String :=
  toLex (!nameHit pattern r, fileKey r)

/-- `LIMIT` of a `usize` as an `i64`, where a negative number is no limit. -/
def sqlLimit {α : Type} (limit : ℕ) (rows : List α) : List α :=
  if limit < 2 ^ 63 then rows.take limit else rows

/-- The files that a pattern finds, without a limit. -/
def likeMatches (pattern : List Char) (files : Files) : List FileRow :=
  (files.rows.filter fun r => nameHit pattern r || pathHit pattern r).insertionSort
    fun a b => hitKey pattern a ≤ hitKey pattern b

/-- Source: `launcher-indexer/src/lib.rs`, `search_like`. -/
def searchLike (E : SearchEngine) (files : Files) (query : String) (limit : ℕ) :
    Except String (List FileRow) :=
  let pattern := likePattern E.toLowercase query
  if files.rows ≠ [] ∧ LIKE_PATTERN_BYTES < (String.ofList pattern).utf8ByteSize then
    .error "LIKE or GLOB pattern too complex"
  else .ok (sqlLimit limit (likeMatches pattern files))

theorem escapeLike_eq (s : List Char) : escapeLike s = escaped '\\' s := by
  simp [escapeLike, escaped]

theorem nameHit_iff {toLowercase : List Char → List Char} {query : String} {r : FileRow} :
    nameHit (likePattern toLowercase query) r = true ↔
      sqlLower (toLowercase (trim query.toList)) <:+: sqlLower r.name.toList := by
  rw [nameHit, likePattern, escapeLike_eq, likeEscape_contains_iff (by decide), sqlLower_sqlLower]

theorem pathHit_iff {toLowercase : List Char → List Char} {query : String} {r : FileRow} :
    pathHit (likePattern toLowercase query) r = true ↔
      sqlLower (toLowercase (trim query.toList)) <:+: sqlLower r.path.toList := by
  rw [pathHit, likePattern, escapeLike_eq, likeEscape_contains_iff (by decide), sqlLower_sqlLower]

theorem mem_likeMatches {pattern : List Char} {files : Files} {r : FileRow} :
    r ∈ likeMatches pattern files ↔
      r ∈ files.rows ∧ (nameHit pattern r = true ∨ pathHit pattern r = true) := by
  simp [likeMatches]

theorem likeMatches_perm (pattern : List Char) (files : Files) :
    (likeMatches pattern files).Perm
      (files.rows.filter fun r => nameHit pattern r || pathHit pattern r) :=
  List.perm_insertionSort _ _

theorem nodup_likeMatches (pattern : List Char) (files : Files) :
    (likeMatches pattern files).Nodup :=
  (likeMatches_perm pattern files).nodup_iff.mpr ((List.Nodup.of_map _ files.nodup).filter _)

theorem nodup_ids_likeMatches {files : Files} (h : IdsDistinct files) (pattern : List Char) :
    ((likeMatches pattern files).map FileRow.id).Nodup := by
  refine ((likeMatches_perm pattern files).map FileRow.id).nodup_iff.mpr ?_
  exact h.sublist (List.filter_sublist.map FileRow.id)

/-- Paths are unique, so no two hits tie. -/
theorem pairwise_likeMatches (pattern : List Char) (files : Files) :
    (likeMatches pattern files).Pairwise fun a b => hitKey pattern a < hitKey pattern b := by
  have hsorted : (likeMatches pattern files).Pairwise
      fun a b => hitKey pattern a ≤ hitKey pattern b := List.pairwise_insertionSort _ _
  have hpaths : ((likeMatches pattern files).map FileRow.key).Nodup := by
    refine ((likeMatches_perm pattern files).map FileRow.key).nodup_iff.mpr ?_
    exact files.nodup.sublist (List.filter_sublist.map FileRow.key)
  refine (hsorted.and (List.pairwise_map.mp hpaths)).imp fun {a b} hab => ?_
  refine lt_of_le_of_ne hab.1 fun heq => hab.2 ?_
  have hpath := congrArg (fun k => (ofLex (ofLex (ofLex k).2).2).2) heq
  exact hpath

/-! ## The full-text index -/

/-- Source: `launcher-indexer/src/lib.rs`, `search_fts_inner`. -/
def searchFtsInner (E : SearchEngine) (s : IndexDb) (matchExpr : String) (limit : ℕ) :
    Option (List FileRow) :=
  (s.fts.bind fun fts => E.ftsMatch fts matchExpr).map fun hits =>
    let joined := hits.flatMap fun j =>
      (s.files.rows.filter fun f => f.path == j.1.path).map fun f => (j.2, f)
    sqlLimit limit ((joined.insertionSort fun a b =>
      toLex (a.1, fileKey a.2) ≤ toLex (b.1, fileKey b.2)).map (·.2))

/-- The query as a phrase whose last word may go on. Source: `launcher-indexer/src/lib.rs`,
`search` (`phrase_prefix`). -/
def phrasePrefix (toLowercase : List Char → List Char) (query : String) : String :=
  let text := (toLowercase (trim query.toList)).flatMap fun c => if c = '"' then ['"', '"'] else [c]
  String.ofList ('"' :: text ++ ['"', ' ', '*'])

/-- A rebuild whose result is not looked at. Source: `launcher-indexer/src/lib.rs`, `search`
(`let _ = self.rebuild_fts()`). -/
def heal (E : SearchEngine) (s : IndexDb) : IndexDb := if E.rebuilds s then rebuildFts plat s else s

/-- Source: `launcher-indexer/src/lib.rs`, `search` (`for attempt in [0, 1]`). -/
def ftsAttempts (E : SearchEngine) (matchExpr : String) (limit : ℕ) :
    List ℕ → IndexDb → List FileRow × IndexDb
  | [], s => ([], s)
  | attempt :: attempts, s =>
      match searchFtsInner E s matchExpr limit with
      | some (hit :: hits) => (hit :: hits, s)
      | some [] => ftsAttempts E matchExpr limit attempts (if attempt = 0 then heal plat E s else s)
      | none => ftsAttempts E matchExpr limit attempts (heal plat E s)

/-! ## The merge -/

/-- Hits added up to the limit, unless their id was seen; whether the limit was met before the
end. The ids seen are those of `out`. Source: `launcher-indexer/src/lib.rs`, the loops of
`search_merged`. -/
def mergeHits (limit : ℕ) : List FileRow → List FileRow → List FileRow × Bool
  | [], out => (out, false)
  | f :: fs, out =>
      if limit ≤ out.length then (out, true)
      else if out.any fun g => g.id == f.id then mergeHits limit fs out
      else mergeHits limit fs (out ++ [f])

/-- Source: `launcher-indexer/src/lib.rs`, `search_merged`. -/
def searchMerged (E : SearchEngine) (files : Files) (fts : List FileRow) (query : String)
    (limit : ℕ) : Except String (List FileRow) :=
  match mergeHits limit fts [] with
  | (out, true) => .ok out
  | (out, false) => do
      let likes ← searchLike E files query limit
      return (mergeHits limit likes out).1

/-- Source: `launcher-indexer/src/lib.rs`, `search`. -/
def search (E : SearchEngine) (s : IndexDb) (query : String) (limit : ℕ) :
    Except String (List FileRow) × IndexDb :=
  if (trim query.toList).isEmpty then (.ok [], s)
  else
    let found :=
      if s.ftsAvailable then
        ftsAttempts plat E (phrasePrefix E.toLowercase query) limit [0, 1] s
      else ([], s)
    (searchMerged E found.2.files found.1 query limit, found.2)

/-- The merge keeps the first of each id, up to the limit. -/
theorem mergeHits_fst (limit : ℕ) (seen fs : List FileRow) :
    (mergeHits limit fs ((firstsBy FileRow.id seen).take limit)).1 =
      (firstsBy FileRow.id (seen ++ fs)).take limit := by
  induction fs generalizing seen with
  | nil => rw [mergeHits, List.append_nil]
  | cons f fs ih =>
      rw [mergeHits]
      split_ifs with hfull hold
      · have hmany : limit ≤ (firstsBy FileRow.id seen).length :=
          hfull.trans (List.length_take_le' _ _)
        rw [take_firstsBy_append hmany]
      all_goals
        have hroom : (firstsBy FileRow.id seen).length < limit := by
          rw [List.length_take] at hfull
          omega
        have hsplit : seen ++ f :: fs = seen ++ [f] ++ fs := by simp
        have hcond : ((firstsBy FileRow.id seen).take limit).any (fun g => g.id == f.id) = true ↔
            ∃ k ∈ firstsBy FileRow.id seen, FileRow.id k = FileRow.id f := by
          rw [List.take_of_length_le hroom.le]
          simp
        have hsnoc : firstsBy FileRow.id (seen ++ [f]) = _ := firstsBy_concat seen f
        rw [hsplit, ← ih]
      · rw [hsnoc, if_pos (hcond.mp hold)]
      · have hlen : (firstsBy FileRow.id seen ++ [f]).length ≤ limit := by
          rw [List.length_append, List.length_singleton]
          omega
        rw [hsnoc, if_neg (hold ∘ hcond.mpr), List.take_of_length_le hroom.le,
          List.take_of_length_le hlen]

/-- The merge that stops early has all it can take. -/
theorem mergeHits_snd {limit : ℕ} {fs out : List FileRow} (h : (mergeHits limit fs out).2 = true) :
    limit ≤ (mergeHits limit fs out).1.length := by
  induction fs generalizing out with
  | nil => simp [mergeHits] at h
  | cons f fs ih =>
      rw [mergeHits] at h ⊢
      split_ifs at h ⊢ with hfull hold
      · exact hfull
      · exact ih h
      · exact ih h

/-! ## What a search finds -/

section spec

variable (E : SearchEngine) {s : IndexDb}

theorem searchLike_eq {query : String}
    (hshort : (String.ofList (likePattern E.toLowercase query)).utf8ByteSize ≤ LIKE_PATTERN_BYTES)
    (files : Files) (limit : ℕ) :
    searchLike E files query limit =
      .ok (sqlLimit limit (likeMatches (likePattern E.toLowercase query) files)) := by
  rw [searchLike, if_neg fun hlong => absurd hlong.2 hshort.not_gt]

/-- What the full-text index finds are files of the index. -/
theorem mem_rows_of_mem_fts {matchExpr : String} {limit : ℕ} {hits : List FileRow}
    (h : searchFtsInner E s matchExpr limit = some hits) {f : FileRow} (hf : f ∈ hits) :
    f ∈ s.files.rows := by
  obtain ⟨matched, -, rfl⟩ := Option.map_eq_some_iff.mp h
  have hsub : ∀ {l : List FileRow}, f ∈ sqlLimit limit l → f ∈ l := by
    intro l hl
    unfold sqlLimit at hl
    split_ifs at hl
    · exact List.mem_of_mem_take hl
    · exact hl
  obtain ⟨⟨rank, g⟩, hg, rfl⟩ := List.mem_map.mp (hsub hf)
  obtain ⟨j, -, hg⟩ := List.mem_flatMap.mp ((List.mem_insertionSort _).mp hg)
  obtain ⟨g', hg', heq⟩ := List.mem_map.mp hg
  obtain ⟨-, rfl⟩ := Prod.mk.inj heq
  exact List.mem_of_mem_filter hg'

/-- What asking the full-text index leaves: the index, or the index with its texts made anew. -/
def Healed (s t : IndexDb) : Prop := t = s ∨ t = rebuildFts plat s

theorem rebuildFts_rebuildFts (s : IndexDb) :
    rebuildFts plat (rebuildFts plat s) = rebuildFts plat s := by
  unfold rebuildFts
  by_cases havail : s.ftsAvailable = true
  · rw [if_pos havail]
    simp [IndexDb.ftsAvailable]
  · rw [if_neg havail, if_neg havail]

variable {plat} in
theorem Healed.heal {t : IndexDb} (h : Healed plat s t) : Healed plat s (heal plat E t) := by
  unfold Index.heal
  split_ifs
  · rcases h with rfl | rfl
    · exact .inr rfl
    · exact .inr (rebuildFts_rebuildFts plat s)
  · exact h

variable {plat} in
theorem Healed.metadata {t : IndexDb} (h : Healed plat s t) :
    t.files = s.files ∧ t.generation = s.generation := by
  rcases h with rfl | rfl
  · exact ⟨rfl, rfl⟩
  · unfold rebuildFts
    split_ifs <;> exact ⟨rfl, rfl⟩

theorem ftsAttempts_spec (matchExpr : String) (limit : ℕ) (attempts : List ℕ) {t : IndexDb}
    (ht : Healed plat s t) :
    Healed plat s (ftsAttempts plat E matchExpr limit attempts t).2 ∧
      ∀ f ∈ (ftsAttempts plat E matchExpr limit attempts t).1, f ∈ s.files.rows := by
  induction attempts generalizing t with
  | nil => exact ⟨ht, fun f hf => absurd hf List.not_mem_nil⟩
  | cons attempt attempts ih =>
      rw [ftsAttempts]
      cases hinner : searchFtsInner E t matchExpr limit with
      | none => exact ih (ht.heal E)
      | some hits =>
          cases hits with
          | nil =>
              refine ih ?_
              split_ifs
              · exact ht.heal E
              · exact ht
          | cons hit hits =>
              refine ⟨ht, fun f hf => ?_⟩
              rw [← ht.metadata.1]
              exact mem_rows_of_mem_fts E hinner hf

/-- The merge loses nothing of the scan but what the limit cuts off. -/
theorem searchMerged_eq {files : Files} (hids : IdsDistinct files) {query : String}
    (hshort : (String.ofList (likePattern E.toLowercase query)).utf8ByteSize ≤ LIKE_PATTERN_BYTES)
    (fts : List FileRow) (limit : ℕ) :
    searchMerged E files fts query limit =
      .ok ((firstsBy FileRow.id
        (fts ++ likeMatches (likePattern E.toLowercase query) files)).take limit) := by
  have hfirst := mergeHits_fst limit [] fts
  rw [firstsBy_nil, List.take_nil, List.nil_append] at hfirst
  have hcut : ∀ l : List FileRow, (l.map FileRow.id).Nodup →
      (firstsBy FileRow.id (fts ++ sqlLimit limit l)).take limit =
        (firstsBy FileRow.id (fts ++ l)).take limit := by
    intro l hl
    unfold sqlLimit
    split_ifs
    · exact take_firstsBy_append_take limit fts hl
    · rfl
  unfold searchMerged
  cases hmerge : mergeHits limit fts [] with
  | mk out full =>
      rw [hmerge] at hfirst
      cases full with
      | true =>
          have hmany := mergeHits_snd (congrArg Prod.snd hmerge)
          rw [hmerge, show out = _ from hfirst] at hmany
          rw [take_firstsBy_append (hmany.trans (List.length_take_le' _ _)), ← hfirst]
      | false =>
          dsimp only
          rw [searchLike_eq E hshort, show out = _ from hfirst]
          refine congrArg Except.ok ?_
          rw [mergeHits_fst, hcut _ (nodup_ids_likeMatches hids _)]

/-- **What the scan finds**: the files that have the lowered query in their names or paths, up to
the case of ASCII letters and with no character of it as a wildcard, each once; those with it in
the name come first, then files before directories, then the shorter names, then by path. -/
theorem searchLike_spec {query : String}
    (hshort : (String.ofList (likePattern E.toLowercase query)).utf8ByteSize ≤ LIKE_PATTERN_BYTES)
    (files : Files) (limit : ℕ) :
    ∃ found, searchLike E files query limit = .ok (sqlLimit limit found) ∧ found.Nodup ∧
      (∀ r, r ∈ found ↔ r ∈ files.rows ∧
        (sqlLower (E.toLowercase (trim query.toList)) <:+: sqlLower r.name.toList ∨
          sqlLower (E.toLowercase (trim query.toList)) <:+: sqlLower r.path.toList)) ∧
      found.Pairwise fun a b => hitKey (likePattern E.toLowercase query) a <
        hitKey (likePattern E.toLowercase query) b := by
  refine ⟨_, searchLike_eq E hshort files limit, nodup_likeMatches _ files, fun r => ?_,
    pairwise_likeMatches _ files⟩
  rw [mem_likeMatches, nameHit_iff, pathHit_iff]

end spec

/-- **A name typed as it is**: a query finds every file that has it in its name exactly when Rust
lowers nothing in it that SQLite would not, as it does with `É`. -/
theorem verbatim_found_iff (toLowercase : List Char → List Char) (query : String) :
    (∀ files : Files, ∀ r ∈ files.rows, trim query.toList <:+: r.name.toList →
        r ∈ likeMatches (likePattern toLowercase query) files) ↔
      sqlLower (toLowercase (trim query.toList)) <:+: sqlLower (trim query.toList) := by
  constructor
  · intro h
    set named : FileRow :=
      ⟨⟨String.ofList (trim query.toList), String.ofList (trim query.toList), "", false, 0, 0⟩, 1⟩
      with hnamed
    have hmem := h ⟨[named], List.nodup_singleton _⟩ named (List.mem_singleton_self _)
      (by rw [hnamed, String.toList_ofList])
    rcases (mem_likeMatches.mp hmem).2 with hname | hpath
    · simpa [hnamed] using nameHit_iff.mp hname
    · simpa [hnamed] using pathHit_iff.mp hpath
  · intro h files r hr hname
    refine mem_likeMatches.mpr ⟨hr, .inl (nameHit_iff.mpr (h.trans ?_))⟩
    obtain ⟨before, after, hsplit⟩ := hname
    exact ⟨sqlLower before, sqlLower after, by simp [← hsplit, sqlLower]⟩

/-- The standard library as it behaves on ASCII texts, and a full-text index that finds nothing. -/
def asciiEngine : SearchEngine where
  toLowercase := sqlLower
  ftsMatch _ _ := some []
  rebuilds _ := true

theorem searchLike_spec_percent :
    ∃ found, searchLike asciiEngine oneRowDb.files "100%" 5 = .ok (sqlLimit 5 found) ∧
      found.Nodup := by
  have hshort : (String.ofList (likePattern asciiEngine.toLowercase "100%")).utf8ByteSize ≤
      LIKE_PATTERN_BYTES := by decide
  obtain ⟨found, heq, hnodup, -⟩ := searchLike_spec asciiEngine hshort oneRowDb.files 5
  exact ⟨found, heq, hnodup⟩

/-- The wildcards of a query stand for themselves. -/
example : nameHit (likePattern sqlLower "_") oneRow = false := by decide

end AuraLauncher.Index
