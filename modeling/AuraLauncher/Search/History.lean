import AuraLauncher.Lib.Firsts
import AuraLauncher.Search.UsageLead
import Mathlib.Data.List.MinMax
import Mathlib.Data.List.Sort

/-!
# The history of uses

`launcher-indexer/src/lib.rs`: every use of a command becomes a row of `history`, and a deletion
after it leaves the 10000 rows with the greatest times. `usage_map` adds the rows up for each
command; the ranking reads nothing else of them.

* `IsNewest` — the rows that the deletion may leave. Which of several rows of one time stay is open
  in SQL, so a step of the machine `history` comes with the rows that stayed; `newest` is a choice
  that is always possible.
* `history_spec` — after any run the rows are the newest of all uses ever recorded.
* `usageMap_spec` — the last use of a command is never reported too early, and a command is missing
  only when 10000 uses are no older than its last one.
* `usageBoost_usageMap` — what the ranking makes of a history that never overflowed.
-/

namespace AuraLauncher.Search

open AuraLauncher.Lib

/-- The columns of `history` that a use sets. -/
structure HistoryColumns where
  commandId : String
  providerId : String
  title : String
  usedAtMs : Int64
  deriving DecidableEq

/-- A row of `history`. -/
structure HistoryRow extends HistoryColumns where
  /-- `INTEGER PRIMARY KEY`. -/
  id : ℕ
  deriving DecidableEq

/-- What `GROUP BY` groups by. -/
def HistoryColumns.command (u : HistoryColumns) : String × String := (u.commandId, u.providerId)

/-- The time of a use. -/
def HistoryColumns.time (u : HistoryColumns) : ℤ := u.usedAtMs.toInt

/-- The number of rows that stay. Source: `launcher-indexer/src/lib.rs`, `record_use_titled`
(`LIMIT 10000`). -/
def HISTORY_ROWS : ℕ := 10000

/-- The use that is recorded. Source: `launcher-indexer/src/lib.rs`, `record_use_titled`
(`now_ms as i64`). -/
def recordedUse (commandId providerId title : String) (nowMs : UInt64) : HistoryColumns :=
  ⟨commandId, providerId, title, nowMs.toInt64⟩

/-- The rows after the insertion. Source: `launcher-indexer/src/lib.rs`, `record_use_titled`
(`INSERT`). -/
def insertUse (rows : List HistoryRow) (u : HistoryColumns) : List HistoryRow :=
  rows ++ [⟨u, (rows.map HistoryRow.id).foldr max 0 + 1⟩]

/-- `kept` is what the deletion may leave of `rows`: as many as there may be, and none older than
one that is gone. Source: `launcher-indexer/src/lib.rs`, `record_use_titled` (`DELETE`). -/
def IsNewest (n : ℕ) (rows kept : List HistoryRow) : Prop :=
  kept.Sublist rows ∧ kept.length = min n rows.length ∧
    ∀ r ∈ rows, r ∉ kept → ∀ k ∈ kept, r.time ≤ k.time

instance (n : ℕ) (rows kept : List HistoryRow) : Decidable (IsNewest n rows kept) :=
  inferInstanceAs (Decidable (_ ∧ _ ∧ ∀ r ∈ rows, r ∉ kept → ∀ k ∈ kept, r.time ≤ k.time))

/-- The history under its uses, each with the rows that stay. Source:
`launcher-indexer/src/lib.rs`, `record_use_titled`. -/
def history : Machine (List HistoryRow) (HistoryColumns × List HistoryRow) where
  step rows a := if IsNewest HISTORY_ROWS (insertUse rows a.1) a.2 then some a.2 else none

/-- Of several rows of one time those that were recorded first stay. -/
def newest (n : ℕ) (rows : List HistoryRow) : List HistoryRow :=
  let top := (rows.insertionSort fun a b => b.time ≤ a.time).take n
  rows.filter fun r => r ∈ top

/-- Source: `launcher-indexer/src/lib.rs`, `usage_map`. -/
def usageMap (rows : List HistoryRow) : List UsageEntry :=
  (firstsBy (fun r => r.command) rows).map fun r =>
    let group := rows.filter fun s => s.command = r.command
    { commandId := r.commandId
      providerId := r.providerId
      uses := group.length % 2 ^ 32
      lastUsedMs := (group.map fun s => s.time).foldr max r.time }

/-! ## What stays -/

theorem isNewest_newest (n : ℕ) {rows : List HistoryRow} (h : rows.Nodup) :
    IsNewest n rows (newest n rows) := by
  set sorted := rows.insertionSort fun a b => b.time ≤ a.time with hsorted
  have hperm : sorted.Perm rows := List.perm_insertionSort _ rows
  have htop : ∀ r ∈ sorted.take n, r ∈ rows := fun r hr => hperm.subset (List.mem_of_mem_take hr)
  have hnodup : (sorted.take n).Nodup := (hperm.nodup_iff.mpr h).sublist (List.take_sublist _ _)
  have hmem : ∀ r, r ∈ newest n rows ↔ r ∈ sorted.take n := by
    intro r
    rw [newest, List.mem_filter, decide_eq_true_eq]
    exact and_iff_right_of_imp (htop r)
  have hkept : (newest n rows).Perm (sorted.take n) :=
    (List.perm_ext_iff_of_nodup (h.filter _) hnodup).mpr hmem
  refine ⟨List.filter_sublist, ?_, fun r hr hgone k hk => ?_⟩
  · rw [hkept.length_eq, List.length_take, hperm.length_eq]
  · have hdrop : r ∈ sorted.drop n := by
      have hr' : r ∈ sorted.take n ++ sorted.drop n := by
        rw [List.take_append_drop]
        exact hperm.mem_iff.mpr hr
      exact (List.mem_append.mp hr').resolve_left fun htake => hgone ((hmem r).mpr htake)
    have hle : sorted.Pairwise fun a b => b.time ≤ a.time := by
      have htotal : Std.Total fun a b : HistoryRow => b.time ≤ a.time :=
        ⟨fun a b => le_total b.time a.time⟩
      have htrans : IsTrans HistoryRow fun a b => b.time ≤ a.time :=
        ⟨fun a b c hab hbc => le_trans hbc hab⟩
      exact List.pairwise_insertionSort _ rows
    rw [← List.take_append_drop n sorted, List.pairwise_append] at hle
    exact hle.2.2 k ((hmem k).mp hk) r hdrop

/-- What the rows are when `uses` were recorded: the newest of them, all of them if they fit. -/
structure Recorded (uses : List HistoryColumns) (rows : List HistoryRow) : Prop where
  ids : (rows.map HistoryRow.id).Nodup
  length : rows.length = min HISTORY_ROWS uses.length
  newest : ∃ forgotten, (rows.map HistoryRow.toHistoryColumns ++ forgotten).Perm uses ∧
    ∀ f ∈ forgotten, ∀ r ∈ rows, f.time ≤ r.time

theorem nodup_ids_insertUse {rows : List HistoryRow} (h : (rows.map HistoryRow.id).Nodup)
    (u : HistoryColumns) : ((insertUse rows u).map HistoryRow.id).Nodup := by
  rw [insertUse, List.map_append, List.map_singleton]
  have hnew : (rows.map HistoryRow.id).foldr max 0 + 1 ∉ rows.map HistoryRow.id :=
    fun hmem => absurd (List.le_max_of_le' 0 hmem le_rfl) (Nat.not_succ_le_self _)
  simpa using h.concat hnew

theorem Recorded.step {uses : List HistoryColumns} {rows kept : List HistoryRow}
    (h : Recorded uses rows) (u : HistoryColumns)
    (hkept : IsNewest HISTORY_ROWS (insertUse rows u) kept) : Recorded (uses ++ [u]) kept := by
  obtain ⟨hsub, hlen, hnewest⟩ := hkept
  obtain ⟨forgotten, hperm, hforgotten⟩ := h.newest
  have hids := nodup_ids_insertUse h.ids u
  have hnodup : (insertUse rows u).Nodup := List.Nodup.of_map _ hids
  have hinsert : (insertUse rows u).length = rows.length + 1 := by simp [insertUse]
  have hcount : rows.length + forgotten.length = uses.length := by
    simpa using hperm.length_eq
  -- what is gone now, and what stays
  set gone := (insertUse rows u).filter fun r => r ∉ kept with hgone
  have hsplit : (kept ++ gone).Perm (insertUse rows u) := by
    have hstay : ((insertUse rows u).filter fun r => r ∈ kept).Perm kept := by
      refine (List.perm_ext_iff_of_nodup (hnodup.filter _) (hnodup.sublist hsub)).mpr fun r => ?_
      rw [List.mem_filter, decide_eq_true_eq]
      exact and_iff_right_of_imp fun hr => hsub.subset hr
    refine (hstay.symm.append_right gone).trans ?_
    simpa [hgone] using List.filter_append_perm (fun r => decide (r ∈ kept)) (insertUse rows u)
  refine ⟨hids.sublist (hsub.map _), ?_, gone.map HistoryRow.toHistoryColumns ++ forgotten, ?_, ?_⟩
  · rw [hlen, hinsert, h.length, List.length_append, List.length_singleton]
    omega
  · rw [← List.append_assoc, ← List.map_append]
    refine ((hsplit.map _).append_right forgotten).trans ?_
    rw [insertUse, List.map_append, List.map_singleton, List.append_assoc]
    exact (List.perm_append_comm.append_left _).trans
      ((List.append_assoc _ _ _).symm ▸ hperm.append_right [u])
  · intro f hf r hr
    rcases List.mem_append.mp hf with hf | hf
    · obtain ⟨x, hx, rfl⟩ := List.mem_map.mp hf
      obtain ⟨hx, hout⟩ := List.mem_filter.mp hx
      exact hnewest x hx (by simpa using hout) r hr
    · -- the rows were full, so one of them is gone, and it is no older than `f`
      rcases List.mem_append.mp (hsub.subset hr) with hold | hnew
      · exact hforgotten f hf r hold
      · obtain ⟨x, hx⟩ : ∃ x, x ∈ gone := by
          refine List.exists_mem_of_length_pos ?_
          have hpos : 0 < forgotten.length := List.length_pos_of_mem hf
          have hall := hsplit.length_eq
          rw [List.length_append, hlen, hinsert] at hall
          have hrows := h.length
          omega
        obtain ⟨hx, hout⟩ := List.mem_filter.mp hx
        have hout : x ∉ kept := by simpa using hout
        rcases List.mem_append.mp hx with hxold | hxnew
        · exact (hforgotten f hf x hxold).trans (hnewest x hx hout r hr)
        · rw [List.mem_singleton.mp hxnew, ← List.mem_singleton.mp hnew] at hout
          exact absurd hr hout

theorem recorded_of_run {actions : List (HistoryColumns × List HistoryRow)}
    {rows : List HistoryRow} (h : history.run [] actions = some rows) :
    Recorded (actions.map Prod.fst) rows := by
  have hempty : Recorded [] [] := ⟨List.nodup_nil, rfl, [], List.Perm.refl [], by simp⟩
  refine history.run_inv_past (G := fun _ _ => True)
    (I := fun past rows => Recorded (past.map Prod.fst) rows)
    (fun past rows a rows' _ _ hpast _ hstep => ?_) hempty
    (history.along_of_forall fun _ _ => trivial) h
  rw [List.map_append, List.map_singleton]
  simp only [history] at hstep
  split_ifs at hstep with hkept
  obtain rfl := Option.some.inj hstep
  exact hpast.step a.1 hkept

/-- **The newest uses stay.** After any run of uses, the history has the newest 10000 of them: as
many rows as there were uses, up to 10000, each of them a use, and no use that is forgotten is
newer than a row. A further use can always be recorded. -/
theorem history_spec {actions : List (HistoryColumns × List HistoryRow)} {rows : List HistoryRow}
    (h : history.run [] actions = some rows) :
    rows.length = min HISTORY_ROWS actions.length ∧ (rows.map HistoryRow.id).Nodup ∧
      (∃ forgotten,
        (rows.map HistoryRow.toHistoryColumns ++ forgotten).Perm (actions.map Prod.fst) ∧
          ∀ f ∈ forgotten, ∀ r ∈ rows, f.time ≤ r.time) ∧
      ∀ u, ∃ kept, history.step rows (u, kept) = some kept := by
  have hrec := recorded_of_run h
  refine ⟨by simpa using hrec.length, hrec.ids, hrec.newest, fun u => ?_⟩
  have hnodup : (insertUse rows u).Nodup := List.Nodup.of_map _ (nodup_ids_insertUse hrec.ids u)
  exact ⟨_, if_pos (isNewest_newest HISTORY_ROWS hnodup)⟩

/-- A use of one command at some time. -/
def notepadAt (time : Int64) : HistoryColumns := ⟨"np", "apps", "Notepad", time⟩

/-- Two uses, the clock set back between them. -/
theorem run_twice : history.run [] [(notepadAt 5, [⟨notepadAt 5, 1⟩]),
    (notepadAt 3, [⟨notepadAt 5, 1⟩, ⟨notepadAt 3, 2⟩])] =
      some [⟨notepadAt 5, 1⟩, ⟨notepadAt 3, 2⟩] := by decide

theorem history_spec_twice :
    ∃ forgotten, ([notepadAt 5, notepadAt 3] ++ forgotten).Perm [notepadAt 5, notepadAt 3] ∧
      ∀ f ∈ forgotten, ∀ r ∈ ([⟨notepadAt 5, 1⟩, ⟨notepadAt 3, 2⟩] : List HistoryRow),
        HistoryColumns.time f ≤ r.time :=
  (history_spec run_twice).2.2.1

/-! ## The usage of the commands -/

/-- The command of an entry. -/
def commandOf (e : UsageEntry) : String × String := (e.commandId, e.providerId)

theorem map_commandOf_usageMap (rows : List HistoryRow) :
    (usageMap rows).map commandOf =
      (firstsBy (fun r => r.command) rows).map fun r => r.command := by
  rw [usageMap, List.map_map]
  rfl

theorem nodup_usageMap (rows : List HistoryRow) : ((usageMap rows).map commandOf).Nodup := by
  rw [map_commandOf_usageMap]
  exact nodup_map_firstsBy rows

theorem mem_map_usageMap {rows : List HistoryRow} {c : String × String} :
    c ∈ (usageMap rows).map commandOf ↔ ∃ r ∈ rows, r.command = c := by
  rw [map_commandOf_usageMap, List.mem_map]
  constructor
  · rintro ⟨r, hr, rfl⟩
    exact ⟨r, mem_of_mem_firstsBy hr, rfl⟩
  · rintro ⟨r, hr, rfl⟩
    obtain ⟨k, hk, hkey, -⟩ := exists_firstsBy (fun r : HistoryRow => r.command) hr
    exact ⟨k, hk, hkey⟩

/-- The greatest of some numbers is one of them. -/
theorem foldr_max_mem (t : ℤ) (l : List ℤ) : l.foldr max t = t ∨ l.foldr max t ∈ l := by
  induction l with
  | nil => exact .inl rfl
  | cons x l ih =>
      rw [List.foldr_cons]
      rcases max_choice x (l.foldr max t) with hmax | hmax
      · rw [hmax]
        exact .inr List.mem_cons_self
      · rw [hmax]
        exact ih.imp_right (List.mem_cons_of_mem x)

theorem le_foldr_max_self (t : ℤ) (l : List ℤ) : t ≤ l.foldr max t := by
  induction l with
  | nil => exact le_rfl
  | cons x l ih => exact ih.trans (le_max_right x _)

/-- An entry adds up the rows of its command. -/
theorem of_mem_usageMap {rows : List HistoryRow} (hfew : rows.length ≤ HISTORY_ROWS)
    {e : UsageEntry} (he : e ∈ usageMap rows) :
    e.uses = rows.countP (fun r => r.command = commandOf e) ∧
      (∃ r ∈ rows, r.command = commandOf e ∧ r.time = e.lastUsedMs) ∧
      ∀ r ∈ rows, r.command = commandOf e → r.time ≤ e.lastUsedMs := by
  obtain ⟨r, hr, rfl⟩ := List.mem_map.mp he
  have hr := mem_of_mem_firstsBy hr
  set group := rows.filter fun s => s.command = r.command with hgroup
  have hmem : ∀ s, s ∈ group ↔ s ∈ rows ∧ s.command = r.command := by
    intro s
    rw [hgroup, List.mem_filter, decide_eq_true_eq]
  refine ⟨?_, ?_, fun s hs hcommand => ?_⟩
  · have hlen : group.length ≤ HISTORY_ROWS := (List.length_filter_le _ _).trans hfew
    change group.length % 2 ^ 32 = _
    rw [Nat.mod_eq_of_lt (hlen.trans_lt (by decide)), hgroup, ← List.countP_eq_length_filter]
    rfl
  · -- the greatest time is that of a row of the group, or of `r` itself
    rcases foldr_max_mem r.time (group.map fun s => s.time) with hself | hin
    · exact ⟨r, hr, rfl, hself.symm⟩
    · obtain ⟨s, hs, htime⟩ := List.mem_map.mp hin
      obtain ⟨hs, hcommand⟩ := (hmem s).mp hs
      exact ⟨s, hs, hcommand, htime⟩
  · refine List.le_max_of_le' _ (List.mem_map.mpr ⟨s, (hmem s).mpr ⟨hs, hcommand⟩, rfl⟩) le_rfl

theorem Recorded.rows_le {uses : List HistoryColumns} {rows : List HistoryRow}
    (h : Recorded uses rows) : rows.length ≤ HISTORY_ROWS := by
  rw [h.length]
  exact min_le_left _ _

/-- The last use of a command is never forgotten before an earlier one. -/
theorem Recorded.of_mem_usageMap {uses : List HistoryColumns} {rows : List HistoryRow}
    (h : Recorded uses rows) {e : UsageEntry} (he : e ∈ usageMap rows) :
    (0 < e.uses ∧ e.uses ≤ uses.countP (fun u => u.command = commandOf e) ∧
        (uses.length ≤ HISTORY_ROWS →
          e.uses = uses.countP fun u => u.command = commandOf e)) ∧
      (∃ u ∈ uses, u.command = commandOf e ∧ u.time = e.lastUsedMs) ∧
        ∀ u ∈ uses, u.command = commandOf e → u.time ≤ e.lastUsedMs := by
  obtain ⟨forgotten, hperm, hforgotten⟩ := h.newest
  obtain ⟨huses, ⟨r, hr, hcommand, htime⟩, hgreatest⟩ := Search.of_mem_usageMap h.rows_le he
  have hsum : uses.countP (fun u => u.command = commandOf e) =
      e.uses + forgotten.countP fun u => u.command = commandOf e := by
    rw [← hperm.countP_eq, List.countP_append, List.countP_map, huses]
    rfl
  refine ⟨⟨?_, by omega, fun hfits => ?_⟩, ⟨r.toHistoryColumns, ?_, hcommand, htime⟩,
    fun u hu hu' => ?_⟩
  · rw [huses, List.countP_pos_iff]
    exact ⟨r, hr, by simpa using hcommand⟩
  · have hcount : rows.length + forgotten.length = uses.length := by simpa using hperm.length_eq
    have hlen := h.length
    obtain rfl : forgotten = [] := List.eq_nil_of_length_eq_zero (by omega)
    simpa using hsum.symm
  · exact hperm.subset (List.mem_append_left _ (List.mem_map_of_mem hr))
  · rcases List.mem_append.mp (hperm.mem_iff.mpr hu) with hrow | hforgot
    · obtain ⟨s, hs, rfl⟩ := List.mem_map.mp hrow
      exact hgreatest s hs hu'
    · exact htime ▸ hforgotten u hforgot r hr

/-- A command is missing when the history is full of uses that are as new. -/
theorem Recorded.of_missing {uses : List HistoryColumns} {rows : List HistoryRow}
    (h : Recorded uses rows) {u : HistoryColumns} (hu : u ∈ uses)
    (hmissing : u.command ∉ (usageMap rows).map commandOf) :
    HISTORY_ROWS < uses.countP fun v => u.time ≤ v.time := by
  obtain ⟨forgotten, hperm, hforgotten⟩ := h.newest
  have hforgot : u ∈ forgotten := by
    refine (List.mem_append.mp (hperm.mem_iff.mpr hu)).resolve_left fun hrow => ?_
    obtain ⟨r, hr, rfl⟩ := List.mem_map.mp hrow
    exact hmissing (mem_map_usageMap.mpr ⟨r, hr, rfl⟩)
  have hall : (rows.map HistoryRow.toHistoryColumns).countP (fun v => u.time ≤ v.time) =
      rows.length := by
    rw [List.countP_map, List.countP_eq_length]
    exact fun r hr => by simpa using hforgotten u hforgot r hr
  have hself : 0 < forgotten.countP fun v => u.time ≤ v.time :=
    List.countP_pos_iff.mpr ⟨u, hforgot, by simp⟩
  have hpos : 0 < forgotten.length := List.length_pos_of_mem hforgot
  have hcount : rows.length + forgotten.length = uses.length := by simpa using hperm.length_eq
  have hlen := h.length
  rw [← hperm.countP_eq, List.countP_append, hall]
  omega

/-- **The usage of the commands.** After any run of uses, `usage_map` has one entry for a command.
Its count is the number of uses of the command, unless uses were forgotten; its time is that of the
last use even then. A command that was used and has no entry was last used before more than 10000
uses, or with them. -/
theorem usageMap_spec {actions : List (HistoryColumns × List HistoryRow)} {rows : List HistoryRow}
    (h : history.run [] actions = some rows) :
    ((usageMap rows).map commandOf).Nodup ∧
      (∀ e ∈ usageMap rows,
        (0 < e.uses ∧
          e.uses ≤ (actions.map Prod.fst).countP (fun u => u.command = commandOf e) ∧
          ((actions.map Prod.fst).length ≤ HISTORY_ROWS →
            e.uses = (actions.map Prod.fst).countP fun u => u.command = commandOf e)) ∧
        (∃ u ∈ actions.map Prod.fst, u.command = commandOf e ∧ u.time = e.lastUsedMs) ∧
          ∀ u ∈ actions.map Prod.fst, u.command = commandOf e → u.time ≤ e.lastUsedMs) ∧
      ∀ u ∈ actions.map Prod.fst, u.command ∉ (usageMap rows).map commandOf →
        HISTORY_ROWS < (actions.map Prod.fst).countP fun v => u.time ≤ v.time := by
  have hrec := recorded_of_run h
  exact ⟨nodup_usageMap rows, fun e he => hrec.of_mem_usageMap he,
    fun u hu hmissing => hrec.of_missing hu hmissing⟩

theorem usageMap_spec_twice :
    ((usageMap [⟨notepadAt 5, 1⟩, ⟨notepadAt 3, 2⟩]).map commandOf).Nodup :=
  (usageMap_spec run_twice).1

/-! ## The boost -/

/-- The boost that the uses of a command ask for. -/
def boostOfUses (uses : List HistoryColumns) (now : ℕ) (c : SearchCommand) : ℚ :=
  match (uses.filter fun u => u.command = (c.id, c.providerId)).map HistoryColumns.time with
  | [] => 0
  | t :: ts => usageBoost [⟨c.id, c.providerId, ts.length + 1, ts.foldr max t⟩] now c

theorem usageBoost_of_missing {usage : List UsageEntry} {c : SearchCommand}
    (h : (c.id, c.providerId) ∉ usage.map commandOf) (now : ℕ) : usageBoost usage now c = 0 := by
  have hfind : (usage.reverse.find? fun e => e.providerId == c.providerId && e.commandId == c.id) =
      none := by
    rw [List.find?_eq_none]
    intro e he hkey
    obtain ⟨hprovider, hid⟩ : e.providerId = c.providerId ∧ e.commandId = c.id := by
      simpa using hkey
    exact h (List.mem_map.mpr ⟨e, List.mem_reverse.mp he, Prod.ext hid hprovider⟩)
  rw [usageBoost, hfind]

/-- Of a usage with one entry for a command, that entry alone counts. -/
theorem usageBoost_of_mem {usage : List UsageEntry} (hnodup : (usage.map commandOf).Nodup)
    {e : UsageEntry} (he : e ∈ usage) {c : SearchCommand}
    (hc : commandOf e = (c.id, c.providerId)) (now : ℕ) :
    usageBoost usage now c = usageBoost [⟨c.id, c.providerId, e.uses, e.lastUsedMs⟩] now c := by
  have hfind : (usage.reverse.find? fun e => e.providerId == c.providerId && e.commandId == c.id) =
      some e := by
    cases hfound : usage.reverse.find? fun e =>
        e.providerId == c.providerId && e.commandId == c.id with
    | none =>
        have hnone := List.find?_eq_none.mp hfound e (List.mem_reverse.mpr he)
        obtain ⟨hid, hprovider⟩ := Prod.mk.inj hc
        simp [hid, hprovider] at hnone
    | some d =>
        obtain ⟨hprovider, hid⟩ : d.providerId = c.providerId ∧ d.commandId = c.id := by
          simpa using List.find?_some hfound
        have hd := List.mem_reverse.mp (List.mem_of_find?_eq_some hfound)
        have hkey : commandOf d = commandOf e := by rw [hc, commandOf, hid, hprovider]
        rw [List.inj_on_of_nodup_map hnodup hd he hkey]
  simp [usageBoost, hfind]

theorem usageBoost_mono {m n : ℕ} (h : m ≤ n) (c : SearchCommand) (last : ℤ) (now : ℕ) :
    usageBoost [⟨c.id, c.providerId, m, last⟩] now c ≤
      usageBoost [⟨c.id, c.providerId, n, last⟩] now c := by
  have hmin : ((min m 10 : ℕ) : ℚ) ≤ (min n 10 : ℕ) := by exact_mod_cast min_le_min_right 10 h
  simp only [usageBoost, List.reverse_singleton, List.find?_cons, beq_self_eq_true, Bool.and_self]
  linarith

/-- **The history and the ranking.** A history that forgot nothing gives every command the boost
that its uses ask for, and one that forgot uses gives no command more. -/
theorem usageBoost_usageMap {actions : List (HistoryColumns × List HistoryRow)}
    {rows : List HistoryRow} (h : history.run [] actions = some rows) (now : ℕ)
    (c : SearchCommand) :
    usageBoost (usageMap rows) now c ≤ boostOfUses (actions.map Prod.fst) now c ∧
      (actions.length ≤ HISTORY_ROWS →
        usageBoost (usageMap rows) now c = boostOfUses (actions.map Prod.fst) now c) := by
  have hrec := recorded_of_run h
  rw [← List.length_map (f := Prod.fst)]
  set uses := actions.map Prod.fst
  have hgroup : ∀ u, u ∈ uses.filter (fun u => u.command = (c.id, c.providerId)) ↔
      u ∈ uses ∧ u.command = (c.id, c.providerId) := by
    intro u
    rw [List.mem_filter, decide_eq_true_eq]
  unfold boostOfUses
  cases htimes : (uses.filter fun u => u.command = (c.id, c.providerId)).map
      HistoryColumns.time with
  | nil =>
      have hmissing : (c.id, c.providerId) ∉ (usageMap rows).map commandOf := by
        intro hin
        obtain ⟨e, he, hkey⟩ := List.mem_map.mp hin
        obtain ⟨-, ⟨u, hu, hcommand, -⟩, -⟩ := hrec.of_mem_usageMap he
        have hmem := (hgroup u).mpr ⟨hu, hcommand.trans hkey⟩
        rw [List.map_eq_nil_iff.mp htimes] at hmem
        exact absurd hmem List.not_mem_nil
      rw [usageBoost_of_missing hmissing]
      exact ⟨le_rfl, fun _ => rfl⟩
  | cons t ts =>
      by_cases hin : (c.id, c.providerId) ∈ (usageMap rows).map commandOf
      · obtain ⟨e, he, hkey⟩ := List.mem_map.mp hin
        obtain ⟨⟨-, hle, hfits⟩, ⟨u, hu, hcommand, htime⟩, hgreatest⟩ := hrec.of_mem_usageMap he
        have hcount : uses.countP (fun u => u.command = commandOf e) = ts.length + 1 := by
          rw [hkey, List.countP_eq_length_filter, ← List.length_map HistoryColumns.time, htimes,
            List.length_cons]
        have hlast : ts.foldr max t = e.lastUsedMs := by
          refine le_antisymm ?_ ?_
          · have hmem : ts.foldr max t ∈ t :: ts := by
              rcases foldr_max_mem t ts with hself | hmem
              · rw [hself]
                exact List.mem_cons_self
              · exact List.mem_cons_of_mem t hmem
            rw [← htimes] at hmem
            obtain ⟨v, hv, hvtime⟩ := List.mem_map.mp hmem
            obtain ⟨hv, hvcommand⟩ := (hgroup v).mp hv
            exact hvtime ▸ hgreatest v hv (hvcommand.trans hkey.symm)
          · have hmem : e.lastUsedMs ∈ t :: ts := by
              rw [← htimes, ← htime]
              exact List.mem_map_of_mem ((hgroup u).mpr ⟨hu, hcommand.trans hkey⟩)
            rcases List.mem_cons.mp hmem with heq | hmem
            · rw [heq]
              exact le_foldr_max_self t ts
            · exact List.le_max_of_le' t hmem le_rfl
        rw [usageBoost_of_mem (nodup_usageMap rows) he hkey]
        dsimp only
        rw [hlast]
        exact ⟨usageBoost_mono (hcount ▸ hle) c _ now, fun hfew => by rw [hfits hfew, hcount]⟩
      · rw [usageBoost_of_missing hin]
        refine ⟨usageBoost_nonneg _ now c, fun hfew => ?_⟩
        have ht : t ∈ (uses.filter fun u => u.command = (c.id, c.providerId)).map
            HistoryColumns.time := htimes ▸ List.mem_cons_self
        obtain ⟨u, hu, -⟩ := List.mem_map.mp ht
        obtain ⟨hu, hcommand⟩ := (hgroup u).mp hu
        have hmany := hrec.of_missing hu (hcommand ▸ hin)
        exact absurd (hmany.trans_le List.countP_le_length) hfew.not_gt

theorem usageBoost_usageMap_twice :
    usageBoost (usageMap [⟨notepadAt 5, 1⟩, ⟨notepadAt 3, 2⟩]) 10 notepadApp =
      boostOfUses [notepadAt 5, notepadAt 3] 10 notepadApp :=
  (usageBoost_usageMap run_twice 10 notepadApp).2 (by decide)

end AuraLauncher.Search
