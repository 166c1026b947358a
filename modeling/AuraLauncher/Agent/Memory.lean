import AuraLauncher.Domain.Rich
import AuraLauncher.Lib.Firsts
import AuraLauncher.Lib.Machine
import Mathlib.Data.List.DropRight

/-!
# The memory of the agent

`memory.rs`: what is remembered of sessions and runs, and the preferences of the user. Every store
is bounded, and what does not fit is forgotten, the oldest first.

* `bounded` — what is kept of a text.
* `SessionMemory`, `sessionMemory` — the entries of each session, under any run of its methods.
  `sessionMemory_spec` says that a session is remembered by its last pushes, and by nothing that was
  pushed to another.
* `RunMemory`, `runMemory` — the records of runs; `recentGoals` — the goals to offer again, which
  `recentGoals_spec` describes.
* `UserPreferences`, `preferences` — the preferences; `preferences_spec` gives the laws of `get`
  after `set` and `remove`, which hold in every state a run reaches.
-/

namespace AuraLauncher.Agent

open AuraLauncher.Lib AuraLauncher.Domain

/-! ## Bounds -/

/-- Source: `memory.rs`, `MAX_SESSIONS`. -/
def MAX_SESSIONS : ℕ := 8

/-- Source: `memory.rs`, `MAX_RUNS_PER_SESSION`. -/
def MAX_RUNS_PER_SESSION : ℕ := 20

/-- Source: `memory.rs`, `MAX_PREFS`. -/
def MAX_PREFS : ℕ := 32

/-- Source: `memory.rs`, `MAX_ENTRY_CHARS`. -/
def MAX_ENTRY_CHARS : ℕ := 512

/-- What is kept of a text. Source: `memory.rs`, `bounded`. -/
def bounded (text : String) : String := cleanText text MAX_ENTRY_CHARS

/-- A text that is kept as it is. -/
def IsBounded (text : String) : Prop := bounded text = text

theorem bounded_bounded (text : String) : IsBounded (bounded text) := by
  have hlen : ((text.toList.take MAX_ENTRY_CHARS).filter fun c =>
      c == '\n' || c == '\r' || c == '\t' || !isControl c).length ≤ MAX_ENTRY_CHARS :=
    (List.length_filter_le _ _).trans (List.length_take_le _ _)
  unfold IsBounded bounded cleanText
  rw [String.toList_ofList, List.take_of_length_le hlen, List.filter_filter]
  simp only [Bool.and_self]

/-- The list without its first element when it is longer than `n`.
Source: `memory.rs` (`if … .len() > … { ….remove(0) }`). -/
def dropOver {α : Type*} (n : ℕ) (xs : List α) : List α := if n < xs.length then xs.tail else xs

theorem dropOver_suffix {α : Type*} (n : ℕ) (xs : List α) : dropOver n xs <:+ xs := by
  unfold dropOver
  split_ifs
  · exact List.tail_suffix xs
  · exact List.suffix_refl xs

theorem length_dropOver_snoc {α : Type*} {n : ℕ} {xs : List α} (h : xs.length ≤ n) (x : α) :
    (dropOver n (xs ++ [x])).length ≤ n := by
  unfold dropOver
  split_ifs with hlong
  · rw [List.length_tail, List.length_append, List.length_singleton]
    omega
  · exact Nat.le_of_not_lt hlong

/-- Making room before an entry is added, or dropping one after. -/
theorem dropOver_snoc {α : Type*} {n : ℕ} (hn : 0 < n) (xs : List α) (x : α) :
    dropOver n (xs ++ [x]) = (if n ≤ xs.length then xs.tail else xs) ++ [x] := by
  unfold dropOver
  rw [List.length_append, List.length_singleton]
  by_cases hfull : n ≤ xs.length
  · rw [if_pos (by omega), if_pos hfull]
    exact List.tail_append_of_ne_nil (List.ne_nil_of_length_pos (by omega))
  · rw [if_neg (by omega), if_neg hfull]

/-! ## Lists of pairs -/

section

variable {β : Type*} {key : String} {l : List (String × β)}

/-- The value of the first pair of the key.
Source: `memory.rs` (`iter().find(…).map(…)`). -/
def valueOf (key : String) (l : List (String × β)) : Option β :=
  (l.find? fun e => e.1 = key).map (·.2)

/-- The pairs with the value of the first one of the key changed, if there is one.
Source: `memory.rs` (`iter_mut().find(…)`). -/
def changeFirst (key : String) (f : β → β) : List (String × β) → Option (List (String × β))
  | [] => none
  | (other, value) :: rest =>
      if other = key then some ((other, f value) :: rest)
      else (changeFirst key f rest).map ((other, value) :: ·)

theorem valueOf_eq_none_iff : valueOf key l = none ↔ key ∉ l.map (·.1) := by
  rw [valueOf, Option.map_eq_none_iff, List.find?_eq_none, List.mem_map]
  simp only [decide_eq_true_eq, not_exists, not_and]

theorem valueOf_of_mem (h : (l.map (·.1)).Nodup) {value : β} (hmem : (key, value) ∈ l) :
    valueOf key l = some value := by
  cases hfind : l.find? fun e => e.1 = key with
  | none => simpa using List.find?_eq_none.mp hfind _ hmem
  | some e =>
      have hkey : e.1 = key := by simpa using List.find?_some hfind
      obtain rfl := List.inj_on_of_nodup_map h (List.mem_of_find?_eq_some hfind) hmem hkey
      rw [valueOf, hfind, Option.map_some]

theorem valueOf_eq_some_iff (h : (l.map (·.1)).Nodup) {value : β} :
    valueOf key l = some value ↔ (key, value) ∈ l := by
  refine ⟨fun hvalue => ?_, valueOf_of_mem h⟩
  obtain ⟨e, hfind, rfl⟩ := Option.map_eq_some_iff.mp hvalue
  have hkey : e.1 = key := by simpa using List.find?_some hfind
  rw [← hkey]
  exact List.mem_of_find?_eq_some hfind

/-- Two lists with the same pairs of a key have the same value of it. -/
theorem valueOf_congr {l' : List (String × β)} (h : (l.map (·.1)).Nodup)
    (h' : (l'.map (·.1)).Nodup) (heq : ∀ value, (key, value) ∈ l' ↔ (key, value) ∈ l) :
    valueOf key l' = valueOf key l := by
  refine Option.ext fun value => ?_
  rw [valueOf_eq_some_iff h', valueOf_eq_some_iff h, heq]

theorem changeFirst_eq_none_iff {f : β → β} : changeFirst key f l = none ↔ key ∉ l.map (·.1) := by
  induction l with
  | nil => simp [changeFirst]
  | cons e l ih =>
      rw [changeFirst]
      split_ifs with hkey
      · simp [hkey]
      · rw [Option.map_eq_none_iff, ih, List.map_cons, List.mem_cons, not_or]
        exact (and_iff_right (Ne.symm hkey)).symm

/-- The value of the key changes, and nothing else. -/
theorem changeFirst_eq_some {f : β → β} {l' : List (String × β)} (hnodup : (l.map (·.1)).Nodup)
    (h : changeFirst key f l = some l') :
    l'.map (·.1) = l.map (·.1) ∧ (∃ value, (key, value) ∈ l ∧ (key, f value) ∈ l') ∧
      ∀ e, e.1 ≠ key → (e ∈ l' ↔ e ∈ l) := by
  induction l generalizing l' with
  | nil => simp [changeFirst] at h
  | cons e l ih =>
      rw [changeFirst] at h
      split_ifs at h with hkey
      · obtain rfl := Option.some.inj h
        refine ⟨rfl, ⟨e.2, by simp [← hkey], by simp [← hkey]⟩, fun d hd => ?_⟩
        have hne : ∀ value, d ≠ (e.1, value) := by
          rintro value rfl
          exact hd hkey
        rw [List.mem_cons, List.mem_cons, or_iff_right (hne _), or_iff_right (hne e.2)]
      · obtain ⟨rest, hrest, rfl⟩ := Option.map_eq_some_iff.mp h
        rw [List.map_cons, List.nodup_cons] at hnodup
        obtain ⟨hkeys, ⟨value, hmem, hmem'⟩, hothers⟩ := ih hnodup.2 hrest
        refine ⟨by rw [List.map_cons, List.map_cons, hkeys],
          ⟨value, List.mem_cons_of_mem e hmem, List.mem_cons_of_mem e hmem'⟩, fun d hd => ?_⟩
        rw [List.mem_cons, List.mem_cons, hothers d hd]

end

/-! ## Sessions -/

/-- Source: `memory.rs`, `MemoryEntry`. -/
structure MemoryEntry where
  kind : String
  text : String
  atMs : ℤ
  deriving DecidableEq

/-- Source: `memory.rs`, `SessionMemory`. -/
structure SessionMemory where
  sessions : List (String × List MemoryEntry)

namespace SessionMemory

/-- No session is remembered. Source: `memory.rs`, `SessionMemory::new`. -/
def new : SessionMemory := ⟨[]⟩

/-- Source: `memory.rs`, `SessionMemory::push`. -/
def push (m : SessionMemory) (id kind text : String) (atMs : ℤ) : SessionMemory :=
  let entry := ⟨kind, bounded text, atMs⟩
  let pushed := changeFirst id (fun es => dropOver MAX_RUNS_PER_SESSION (es ++ [entry])) m.sessions
  match pushed with
  | some sessions => ⟨sessions⟩
  | none => ⟨dropOver MAX_SESSIONS (m.sessions ++ [(id, [entry])])⟩

/-- Source: `memory.rs`, `SessionMemory::entries`. -/
def entries (m : SessionMemory) (id : String) : List MemoryEntry :=
  (valueOf id m.sessions).getD []

/-- Source: `memory.rs`, `SessionMemory::delete_session`. -/
def deleteSession (m : SessionMemory) (id : String) : Bool × SessionMemory :=
  let kept := m.sessions.filter fun s => s.1 ≠ id
  (kept.length != m.sessions.length, ⟨kept⟩)

/-- Source: `memory.rs`, `SessionMemory::session_ids`. -/
def sessionIds (m : SessionMemory) : List String := m.sessions.map (·.1)

end SessionMemory

/-- The methods that change the memory of sessions. -/
inductive SessionOp
  | push (id kind text : String) (atMs : ℤ)
  | delete (id : String)
  | clear

/-- The memory of sessions under its methods. Source: `memory.rs`, `SessionMemory`. -/
def sessionMemory : Machine SessionMemory SessionOp where
  step m
    | .push id kind text atMs => some (m.push id kind text atMs)
    | .delete id => some (m.deleteSession id).2
    | .clear => some ⟨[]⟩

/-- What one operation makes of the entries of a session that is never short of room. -/
def pushedStep (id : String) (pushed : List MemoryEntry) : SessionOp → List MemoryEntry
  | .push other kind text atMs =>
      if other = id then pushed ++ [⟨kind, bounded text, atMs⟩] else pushed
  | .delete other => if other = id then [] else pushed
  | .clear => []

/-- The entries that a run has pushed to a session since the session was last deleted. -/
def pushedTo (id : String) (ops : List SessionOp) : List MemoryEntry :=
  ops.foldl (pushedStep id) []

theorem pushedTo_snoc (id : String) (ops : List SessionOp) (op : SessionOp) :
    pushedTo id (ops ++ [op]) = pushedStep id (pushedTo id ops) op := by
  rw [pushedTo, List.foldl_append]
  rfl

namespace SessionMemory

variable {m : SessionMemory} {id : String}

theorem entries_of_mem (h : m.sessionIds.Nodup) {entries : List MemoryEntry}
    (hmem : (id, entries) ∈ m.sessions) : m.entries id = entries := by
  rw [SessionMemory.entries, valueOf_of_mem h hmem, Option.getD_some]

theorem entries_of_not_mem (h : id ∉ m.sessionIds) : m.entries id = [] := by
  rw [SessionMemory.entries, valueOf_eq_none_iff.mpr h, Option.getD_none]

theorem mem_sessionIds : id ∈ m.sessionIds ↔ ∃ entries, (id, entries) ∈ m.sessions := by
  simp [sessionIds]

theorem entries_congr {m' : SessionMemory} (h : m.sessionIds.Nodup) (h' : m'.sessionIds.Nodup)
    (heq : ∀ entries, (id, entries) ∈ m'.sessions ↔ (id, entries) ∈ m.sessions) :
    m'.entries id = m.entries id := by
  rw [SessionMemory.entries, SessionMemory.entries, valueOf_congr h h' heq]

end SessionMemory

/-- What is remembered after some operations: few sessions, each with some of the entries that were
pushed to it, the last ones. -/
structure Remembers (ops : List SessionOp) (m : SessionMemory) : Prop where
  few : m.sessions.length ≤ MAX_SESSIONS
  nodup : m.sessionIds.Nodup
  entries : ∀ s ∈ m.sessions,
    s.2 ≠ [] ∧ s.2.length ≤ MAX_RUNS_PER_SESSION ∧ s.2 <:+ pushedTo s.1 ops

theorem Remembers.push {ops : List SessionOp} {m : SessionMemory} (h : Remembers ops m)
    (id kind text : String) (atMs : ℤ) :
    Remembers (ops ++ [.push id kind text atMs]) (m.push id kind text atMs) := by
  set entry : MemoryEntry := ⟨kind, bounded text, atMs⟩ with hentry
  have hself : pushedTo id (ops ++ [.push id kind text atMs]) = pushedTo id ops ++ [entry] := by
    simp [pushedTo_snoc, pushedStep, hentry]
  have hother : ∀ other, other ≠ id →
      pushedTo other (ops ++ [.push id kind text atMs]) = pushedTo other ops := by
    intro other hne
    simp [pushedTo_snoc, pushedStep, Ne.symm hne]
  have hkept : ∀ s ∈ m.sessions, s.1 ≠ id → s.2 ≠ [] ∧ s.2.length ≤ MAX_RUNS_PER_SESSION ∧
      s.2 <:+ pushedTo s.1 (ops ++ [.push id kind text atMs]) := by
    intro s hs hne
    rw [hother s.1 hne]
    exact h.entries s hs
  unfold SessionMemory.push
  dsimp only
  cases hpush : changeFirst id (fun es => dropOver MAX_RUNS_PER_SESSION (es ++ [entry]))
      m.sessions with
  | some sessions =>
      obtain ⟨hids, ⟨entries, hmem, hmem'⟩, hothers⟩ := changeFirst_eq_some h.nodup hpush
      have hnodup : (sessions.map (·.1)).Nodup := by rw [hids]; exact h.nodup
      refine ⟨?_, hnodup, fun s hs => ?_⟩
      · have hlen := congrArg List.length hids
        rw [List.length_map, List.length_map] at hlen
        exact hlen ▸ h.few
      · by_cases hid : s.1 = id
        · obtain rfl : s = (id, dropOver MAX_RUNS_PER_SESSION (entries ++ [entry])) :=
            List.inj_on_of_nodup_map hnodup hs hmem' hid
          obtain ⟨-, hlen, hsuffix⟩ := h.entries _ hmem
          refine ⟨?_, length_dropOver_snoc hlen entry, ?_⟩
          · simp [dropOver_snoc (n := MAX_RUNS_PER_SESSION) (by decide)]
          · rw [hself]
            exact (dropOver_suffix _ _).trans ((List.suffix_append_self_iff).mpr hsuffix)
        · exact hkept s ((hothers s hid).mp hs) hid
  | none =>
      have hnew := changeFirst_eq_none_iff.mp hpush
      have hsub := (dropOver_suffix MAX_SESSIONS (m.sessions ++ [(id, [entry])])).sublist
      refine ⟨length_dropOver_snoc h.few _, ?_, fun s hs => ?_⟩
      · refine List.Nodup.sublist (hsub.map _) ?_
        rw [List.map_append, List.map_singleton]
        simpa using h.nodup.concat hnew
      · rcases List.mem_append.mp (hsub.subset hs) with hs | hs
        · refine hkept s hs fun hid => hnew ?_
          exact List.mem_map.mpr ⟨s, hs, hid⟩
        · obtain rfl : s = (id, [entry]) := by simpa using hs
          refine ⟨List.cons_ne_nil _ _, Nat.succ_le_succ (Nat.zero_le 19), ?_⟩
          rw [hself]
          exact List.suffix_append _ _

theorem Remembers.step {ops : List SessionOp} {m m' : SessionMemory} (h : Remembers ops m)
    (op : SessionOp) (hstep : sessionMemory.step m op = some m') : Remembers (ops ++ [op]) m' := by
  cases op with
  | push id kind text atMs =>
      obtain rfl := Option.some.inj hstep
      exact h.push id kind text atMs
  | delete id =>
      obtain rfl := Option.some.inj hstep
      have hsub : List.Sublist (m.sessions.filter fun s => s.1 ≠ id) m.sessions :=
        List.filter_sublist
      refine ⟨hsub.length_le.trans h.few, h.nodup.sublist (hsub.map _), fun s hs => ?_⟩
      have hne : s.1 ≠ id := by simpa using List.of_mem_filter hs
      rw [pushedTo_snoc, pushedStep, if_neg (Ne.symm hne)]
      exact h.entries s (hsub.subset hs)
  | clear =>
      obtain rfl := Option.some.inj hstep
      exact ⟨Nat.zero_le _, List.nodup_nil, by simp⟩

/-- Whenever a run of the methods stops, what is remembered is as `Remembers` says. -/
theorem remembers_of_run {ops : List SessionOp} {m : SessionMemory}
    (h : sessionMemory.run .new ops = some m) : Remembers ops m := by
  have hinit : Remembers [] SessionMemory.new :=
    ⟨Nat.zero_le _, List.nodup_nil, by simp [SessionMemory.new]⟩
  exact sessionMemory.run_inv_past (G := fun _ _ => True)
    (fun _ _ op _ _ _ hpast _ => hpast.step op) hinit
    (sessionMemory.along_of_forall fun _ _ => trivial) h

namespace SessionMemory

variable {ops : List SessionOp} {m : SessionMemory} {id : String}

theorem entries_push_self (h : Remembers ops m) (kind text : String) (atMs : ℤ) :
    (m.push id kind text atMs).entries id =
      dropOver MAX_RUNS_PER_SESSION (m.entries id ++ [⟨kind, bounded text, atMs⟩]) := by
  have hnodup := (h.push id kind text atMs).nodup
  refine entries_of_mem hnodup ?_
  unfold push
  dsimp only
  cases hpush : changeFirst id (fun es => dropOver MAX_RUNS_PER_SESSION
      (es ++ [⟨kind, bounded text, atMs⟩])) m.sessions with
  | some sessions =>
      obtain ⟨-, ⟨entries, hmem, hmem'⟩, -⟩ := changeFirst_eq_some h.nodup hpush
      rwa [entries_of_mem h.nodup hmem]
  | none =>
      rw [entries_of_not_mem (changeFirst_eq_none_iff.mp hpush), dropOver_snoc (by decide)]
      exact List.mem_append_right _ (List.mem_singleton_self _)

/-- A push that starts a session too many forgets the oldest one; else it leaves the others. -/
theorem entries_push_of_ne (h : Remembers ops m) {other : String} (hne : other ≠ id)
    (kind text : String) (atMs : ℤ) :
    (m.push id kind text atMs).entries other =
      if id ∉ m.sessionIds ∧ MAX_SESSIONS ≤ m.sessions.length ∧ m.sessionIds.head? = some other
        then [] else m.entries other := by
  have hnodup := (h.push id kind text atMs).nodup
  revert hnodup
  unfold push
  dsimp only
  cases hpush : changeFirst id (fun es => dropOver MAX_RUNS_PER_SESSION
      (es ++ [⟨kind, bounded text, atMs⟩])) m.sessions with
  | some sessions =>
      intro hnodup
      have hold : id ∈ m.sessionIds := by
        by_contra hnew
        simp [changeFirst_eq_none_iff.mpr hnew] at hpush
      rw [if_neg fun hall => hall.1 hold]
      obtain ⟨-, -, hothers⟩ := changeFirst_eq_some h.nodup hpush
      exact entries_congr h.nodup hnodup fun entries => hothers (other, entries) hne
  | none =>
      intro hnodup
      have hnew : id ∉ m.sessionIds := changeFirst_eq_none_iff.mp hpush
      have hlast : ∀ es, (other, es) ≠ (id, [(⟨kind, bounded text, atMs⟩ : MemoryEntry)]) :=
        fun es heq => hne (congrArg Prod.fst heq)
      simp only [dropOver_snoc (n := MAX_SESSIONS) (by decide)] at hnodup ⊢
      by_cases hfull : MAX_SESSIONS ≤ m.sessions.length
      · rw [if_pos hfull] at hnodup ⊢
        cases hs : m.sessions with
        | nil => simp [hs, MAX_SESSIONS] at hfull
        | cons s rest =>
            have hids : m.sessionIds = s.1 :: rest.map (·.1) := by simp [sessionIds, hs]
            rw [hs] at hnodup
            split_ifs with hoff
            · obtain rfl : s.1 = other := by simpa [hids] using hoff.2.2
              refine entries_of_not_mem ?_
              rw [mem_sessionIds]
              rintro ⟨entries, hmem⟩
              rcases List.mem_append.mp hmem with hmem | hmem
              · have hold := h.nodup
                rw [hids, List.nodup_cons] at hold
                exact hold.1 (List.mem_map.mpr ⟨_, hmem, rfl⟩)
              · exact hlast entries (List.mem_singleton.mp hmem)
            · refine entries_congr h.nodup hnodup fun entries => ?_
              have hfirst : (other, entries) ≠ s := by
                rintro rfl
                exact hoff ⟨hnew, by rwa [hs] at hfull, by rw [hids]; rfl⟩
              rw [hs, List.mem_cons, or_iff_right hfirst, List.tail_cons, List.mem_append,
                List.mem_singleton, or_iff_left (hlast entries)]
      · rw [if_neg hfull] at hnodup ⊢
        rw [if_neg fun hall => hfull hall.2.1]
        refine entries_congr h.nodup hnodup fun entries => ?_
        rw [List.mem_append, List.mem_singleton, or_iff_left (hlast entries)]

theorem isBounded_of_mem_pushedTo {entry : MemoryEntry} (h : entry ∈ pushedTo id ops) :
    IsBounded entry.text := by
  induction ops using List.reverseRecOn with
  | nil => exact absurd h List.not_mem_nil
  | append_singleton ops op ih =>
      rw [pushedTo_snoc] at h
      cases op with
      | push other kind text atMs =>
          rw [pushedStep] at h
          split_ifs at h with hid
          · rcases List.mem_append.mp h with h | h
            · exact ih h
            · obtain rfl := List.mem_singleton.mp h
              exact bounded_bounded text
          · exact ih h
      | delete other =>
          rw [pushedStep] at h
          split_ifs at h with hid
          · exact absurd h List.not_mem_nil
          · exact ih h
      | clear => exact absurd h List.not_mem_nil

theorem entries_spec (h : Remembers ops m) :
    (m.entries id).length ≤ MAX_RUNS_PER_SESSION ∧ m.entries id <:+ pushedTo id ops ∧
      (m.entries id ≠ [] ↔ id ∈ m.sessionIds) := by
  by_cases hid : id ∈ m.sessionIds
  · obtain ⟨entries, hmem⟩ := mem_sessionIds.mp hid
    obtain ⟨hne, hlen, hsuffix⟩ := h.entries _ hmem
    rw [entries_of_mem h.nodup hmem]
    exact ⟨hlen, hsuffix, iff_of_true hne hid⟩
  · rw [entries_of_not_mem hid]
    exact ⟨Nat.zero_le _, List.nil_suffix, iff_of_false (fun hne => hne rfl) hid⟩

end SessionMemory

/-- Source: `memory.rs`, `RunRecord`. -/
structure RunRecord where
  runId : String
  goal : String
  status : String
  turns : ℕ
  atMs : ℤ
  deriving DecidableEq

/-- The record as it is kept. Source: `memory.rs`, `RunMemory::record` (`run.goal = bounded(…)`). -/
def RunRecord.kept (run : RunRecord) : RunRecord := { run with goal := bounded run.goal }

/-- Source: `memory.rs`, `RunMemory`. -/
structure RunMemory where
  runs : List RunRecord

namespace RunMemory

/-- No run is remembered. Source: `memory.rs`, `RunMemory::new`. -/
def new : RunMemory := ⟨[]⟩

/-- Source: `memory.rs`, `RunMemory::record`. -/
def record (m : RunMemory) (run : RunRecord) : RunMemory :=
  let runs := if MAX_RUNS_PER_SESSION ≤ m.runs.length then m.runs.tail else m.runs
  ⟨runs ++ [run.kept]⟩

/-- Source: `memory.rs`, `RunMemory::delete_run`. -/
def deleteRun (m : RunMemory) (runId : String) : Bool × RunMemory :=
  let kept := m.runs.filter fun r => r.runId ≠ runId
  (kept.length != m.runs.length, ⟨kept⟩)

end RunMemory

/-- The methods that change the memory of runs. -/
inductive RunOp
  | record (run : RunRecord)
  | delete (runId : String)
  | clear

/-- The memory of runs under its methods. Source: `memory.rs`, `RunMemory`. -/
def runMemory : Machine RunMemory RunOp where
  step m
    | .record run => some (m.record run)
    | .delete runId => some (m.deleteRun runId).2
    | .clear => some ⟨[]⟩

/-- What one operation makes of records for which there is always room. -/
def recordedStep (recorded : List RunRecord) : RunOp → List RunRecord
  | .record run => recorded ++ [run.kept]
  | .delete runId => recorded.filter fun r => r.runId ≠ runId
  | .clear => []

/-- The records that a run has made and not deleted. -/
def recorded (ops : List RunOp) : List RunRecord := ops.foldl recordedStep []

theorem recorded_snoc (ops : List RunOp) (op : RunOp) :
    recorded (ops ++ [op]) = recordedStep (recorded ops) op := by
  rw [recorded, List.foldl_append]
  rfl

/-- The runs remembered are the last ones recorded. -/
theorem runs_of_run {ops : List RunOp} {m : RunMemory} (h : runMemory.run .new ops = some m) :
    m.runs <:+ recorded ops ∧ m.runs.length ≤ MAX_RUNS_PER_SESSION := by
  refine runMemory.run_inv_past (G := fun _ _ => True)
    (I := fun ops m => m.runs <:+ recorded ops ∧ m.runs.length ≤ MAX_RUNS_PER_SESSION)
    (fun past m op m' _ _ hpast _ hstep => ?_) ⟨List.nil_suffix, Nat.zero_le _⟩
    (runMemory.along_of_forall fun _ _ => trivial) h
  obtain ⟨hsuffix, hlen⟩ := hpast
  rw [recorded_snoc]
  cases op with
  | record run =>
      obtain rfl := Option.some.inj hstep
      have hruns : (m.record run).runs =
          dropOver MAX_RUNS_PER_SESSION (m.runs ++ [run.kept]) := by
        rw [dropOver_snoc (by decide)]
        rfl
      rw [hruns]
      refine ⟨(dropOver_suffix _ _).trans ?_, length_dropOver_snoc hlen _⟩
      exact List.suffix_append_self_iff.mpr hsuffix
  | delete runId =>
      obtain rfl := Option.some.inj hstep
      exact ⟨hsuffix.filter _, (List.length_filter_le _ _).trans hlen⟩
  | clear =>
      obtain rfl := Option.some.inj hstep
      exact ⟨List.nil_suffix, Nat.zero_le _⟩

/-- Source: `agent_service.rs`, `recent_goals` (`r.status.starts_with("Completed")`). -/
def RunRecord.completed (r : RunRecord) : Bool := "Completed".toList.isPrefixOf r.status.toList

/-- Source: `agent_service.rs`, `recent_goals` (the `for` loop). -/
def recentLoop (max : ℕ) : List RunRecord → List String → List String
  | [], out => out
  | r :: rest, out =>
      if r.completed && !out.contains r.goal then
        if max ≤ (out ++ [r.goal]).length then out ++ [r.goal]
        else recentLoop max rest (out ++ [r.goal])
      else recentLoop max rest out

/-- Source: `agent_service.rs`, `recent_goals`. -/
def recentGoals (max : ℕ) (m : RunMemory) : List String := recentLoop max m.runs.reverse []

/-- The goals of the runs that were completed. -/
def completedGoals (runs : List RunRecord) : List String :=
  (runs.filter RunRecord.completed).map RunRecord.goal

theorem recentLoop_eq (max : ℕ) (runs : List RunRecord) (seen : List String)
    (h : (firstsBy id seen).length < max ⊔ 1) :
    recentLoop max runs (firstsBy id seen) =
      (firstsBy id (seen ++ completedGoals runs)).take (max ⊔ 1) := by
  induction runs generalizing seen with
  | nil =>
      rw [recentLoop, completedGoals, List.filter_nil, List.map_nil, List.append_nil,
        List.take_of_length_le h.le]
  | cons r runs ih =>
      have hsnoc : firstsBy id (seen ++ [r.goal]) = if ∃ k ∈ firstsBy id seen, id k = id r.goal
          then firstsBy id seen else firstsBy id seen ++ [r.goal] := firstsBy_concat seen r.goal
      have hcontains : (firstsBy id seen).contains r.goal = true ↔
          ∃ k ∈ firstsBy id seen, id k = id r.goal := by
        simp
      by_cases hdone : r.completed = true
      · have hgoals : completedGoals (r :: runs) = r.goal :: completedGoals runs := by
          simp [completedGoals, hdone]
        have hsplit : seen ++ completedGoals (r :: runs) =
            (seen ++ [r.goal]) ++ completedGoals runs := by
          rw [hgoals, List.append_assoc, List.singleton_append]
        rw [recentLoop, hdone, Bool.true_and, hsplit]
        cases hold : (firstsBy id seen).contains r.goal with
        | true =>
            rw [if_pos (hcontains.mp hold)] at hsnoc
            rw [Bool.not_true, if_neg Bool.false_ne_true, ← hsnoc]
            exact ih _ (by rwa [hsnoc])
        | false =>
            rw [if_neg (by rw [← hcontains, hold]; exact Bool.false_ne_true)] at hsnoc
            rw [Bool.not_false, if_pos rfl, ← hsnoc]
            split_ifs with hfull
            · have hlen : (firstsBy id (seen ++ [r.goal])).length = max ⊔ 1 := by
                rw [hsnoc, List.length_append, List.length_singleton] at hfull ⊢
                omega
              rw [take_firstsBy_append hlen.ge, List.take_of_length_le hlen.le]
            · exact ih _ (by omega)
      · have hgoals : completedGoals (r :: runs) = completedGoals runs := by
          simp [completedGoals, hdone]
        rw [recentLoop, hgoals, if_neg (by simp [hdone])]
        exact ih seen h

theorem recentGoals_eq (max : ℕ) (m : RunMemory) :
    recentGoals max m =
      (firstsBy id (completedGoals m.runs.reverse)).take (max ⊔ 1) := by
  have hloop := recentLoop_eq max m.runs.reverse [] (by simp)
  rwa [firstsBy_nil, List.nil_append] at hloop

theorem isBounded_of_mem_recorded {ops : List RunOp} {r : RunRecord} (h : r ∈ recorded ops) :
    IsBounded r.goal := by
  induction ops using List.reverseRecOn with
  | nil => exact absurd h List.not_mem_nil
  | append_singleton ops op ih =>
      rw [recorded_snoc] at h
      cases op with
      | record run =>
          rcases List.mem_append.mp h with h | h
          · exact ih h
          · obtain rfl := List.mem_singleton.mp h
            exact bounded_bounded run.goal
      | delete runId => exact ih (List.mem_of_mem_filter h)
      | clear => exact absurd h List.not_mem_nil

/-- One goal is offered when none was asked for. -/
example : recentGoals 0 ⟨[⟨"r", "tidy", "Completed", 1, 0⟩]⟩ = ["tidy"] := by decide

/-! ## Preferences -/

/-- Source: `memory.rs`, `UserPreferences`. -/
structure UserPreferences where
  prefs : List (String × String)
  deriving DecidableEq

namespace UserPreferences

/-- No preference is set. Source: `memory.rs`, `UserPreferences::new`. -/
def new : UserPreferences := ⟨[]⟩

/-- Source: `memory.rs`, `UserPreferences::set`. -/
def set (p : UserPreferences) (key value : String) : UserPreferences :=
  match changeFirst (bounded key) (fun _ => bounded value) p.prefs with
  | some prefs => ⟨prefs⟩
  | none =>
      if MAX_PREFS ≤ p.prefs.length then p else ⟨p.prefs ++ [(bounded key, bounded value)]⟩

/-- The key is looked up as it is given. Source: `memory.rs`, `UserPreferences::get`. -/
def get (p : UserPreferences) (key : String) : Option String := valueOf key p.prefs

/-- Source: `memory.rs`, `UserPreferences::remove`. -/
def remove (p : UserPreferences) (key : String) : Bool × UserPreferences :=
  let kept := p.prefs.filter fun e => e.1 ≠ bounded key
  (kept.length != p.prefs.length, ⟨kept⟩)

end UserPreferences

/-- The methods that change the preferences. -/
inductive PreferenceOp
  | set (key value : String)
  | remove (key : String)
  | clear

/-- The preferences under their methods. Source: `memory.rs`, `UserPreferences`. -/
def preferences : Machine UserPreferences PreferenceOp where
  step p
    | .set key value => some (p.set key value)
    | .remove key => some (p.remove key).2
    | .clear => some ⟨[]⟩

/-- There are few preferences, one of a key, with bounded texts only. -/
structure UserPreferences.Tidy (p : UserPreferences) : Prop where
  few : p.prefs.length ≤ MAX_PREFS
  nodup : (p.prefs.map (·.1)).Nodup
  isBounded : ∀ e ∈ p.prefs, IsBounded e.1 ∧ IsBounded e.2

namespace UserPreferences

variable {p : UserPreferences}

/-- What `set` leaves: the pair of its key, if there is room for one, and all others. -/
theorem Tidy.set_cases (h : p.Tidy) (key value : String) :
    (p.set key value).Tidy ∧
      (∀ e, e.1 ≠ bounded key → (e ∈ (p.set key value).prefs ↔ e ∈ p.prefs)) ∧
      if (p.get (bounded key)).isSome = true ∨ p.prefs.length < MAX_PREFS
        then (bounded key, bounded value) ∈ (p.set key value).prefs
        else p.set key value = p := by
  unfold UserPreferences.set
  cases hchange : changeFirst (bounded key) (fun _ => bounded value) p.prefs with
  | some prefs =>
      obtain ⟨hkeys, ⟨old, hmem, hmem'⟩, hothers⟩ := changeFirst_eq_some h.nodup hchange
      have hlen : prefs.length = p.prefs.length := by
        simpa only [List.length_map] using congrArg List.length hkeys
      have hnodup : (prefs.map (·.1)).Nodup := by rw [hkeys]; exact h.nodup
      have hset : (p.get (bounded key)).isSome = true := by
        rw [get, valueOf_of_mem h.nodup hmem, Option.isSome_some]
      have hroom : (p.get (bounded key)).isSome = true ∨ p.prefs.length < MAX_PREFS := .inl hset
      rw [if_pos hroom]
      refine ⟨⟨hlen ▸ h.few, hnodup, fun e he => ?_⟩, hothers, hmem'⟩
      by_cases hkey : e.1 = bounded key
      · obtain rfl : e = (bounded key, bounded value) :=
          List.inj_on_of_nodup_map hnodup he hmem' hkey
        exact ⟨bounded_bounded key, bounded_bounded value⟩
      · exact h.isBounded e ((hothers e hkey).mp he)
  | none =>
      have hnew := changeFirst_eq_none_iff.mp hchange
      have hunset : (p.get (bounded key)).isSome = false := by
        rw [get, valueOf_eq_none_iff.mpr hnew, Option.isSome_none]
      dsimp only
      split_ifs with hfull hroom hroom
      · simp [hunset, hfull.not_gt] at hroom
      · exact ⟨h, fun _ _ => Iff.rfl, rfl⟩
      · refine ⟨⟨?_, ?_, fun e he => ?_⟩, fun e hne => ?_, ?_⟩
        · rw [List.length_append, List.length_singleton]
          omega
        · rw [List.map_append, List.map_singleton]
          simpa using h.nodup.concat hnew
        · rcases List.mem_append.mp he with he | he
          · exact h.isBounded e he
          · obtain rfl := List.mem_singleton.mp he
            exact ⟨bounded_bounded key, bounded_bounded value⟩
        · have hlast : e ≠ (bounded key, bounded value) := fun heq => hne (congrArg Prod.fst heq)
          rw [List.mem_append, List.mem_singleton, or_iff_left hlast]
        · exact List.mem_append_right _ (List.mem_singleton_self _)
      · exact absurd (.inr (Nat.lt_of_not_le hfull)) hroom

theorem Tidy.remove (h : p.Tidy) (key : String) : (p.remove key).2.Tidy := by
  have hsub : List.Sublist (p.remove key).2.prefs p.prefs := List.filter_sublist
  exact ⟨hsub.length_le.trans h.few, h.nodup.sublist (hsub.map _),
    fun e he => h.isBounded e (hsub.subset he)⟩

theorem tidy_of_run {ops : List PreferenceOp} (h : preferences.run .new ops = some p) :
    p.Tidy := by
  refine preferences.run_inv_of_step (fun p op p' hp hstep => ?_)
    (s := UserPreferences.new) ⟨Nat.zero_le _, List.nodup_nil, by simp [new]⟩ h
  cases op with
  | set key value =>
      obtain rfl := Option.some.inj hstep
      exact (hp.set_cases key value).1
  | remove key =>
      obtain rfl := Option.some.inj hstep
      exact hp.remove key
  | clear =>
      obtain rfl := Option.some.inj hstep
      exact ⟨Nat.zero_le _, List.nodup_nil, by simp⟩

theorem Tidy.get_set (h : p.Tidy) (key value other : String) :
    (p.set key value).get other =
      if other = bounded key ∧ ((p.get other).isSome = true ∨ p.prefs.length < MAX_PREFS)
        then some (bounded value) else p.get other := by
  obtain ⟨htidy, hothers, hself⟩ := h.set_cases key value
  by_cases hother : other = bounded key
  · subst hother
    simp only [true_and]
    split_ifs at hself ⊢ with hroom
    · exact valueOf_of_mem htidy.nodup hself
    · rw [hself]
  · rw [if_neg fun hall => hother hall.1]
    exact valueOf_congr h.nodup htidy.nodup fun v => hothers (other, v) hother

theorem Tidy.get_remove (h : p.Tidy) (key other : String) :
    (p.remove key).2.get other = if other = bounded key then none else p.get other := by
  split_ifs with hother
  · refine valueOf_eq_none_iff.mpr ?_
    simp [UserPreferences.remove, hother]
  · refine valueOf_congr h.nodup (h.remove key).nodup fun v => ?_
    simp [UserPreferences.remove, hother]

theorem remove_fst (key : String) : (p.remove key).1 = (p.get (bounded key)).isSome := by
  rw [Bool.eq_iff_iff, remove, bne_iff_ne, Option.isSome_iff_ne_none, get, Ne, Ne,
    valueOf_eq_none_iff, not_iff_not, List.length_filter_eq_length_iff]
  simp only [ne_eq, decide_not, Bool.not_eq_true', decide_eq_false_iff_not, List.mem_map,
    not_exists, not_and]

end UserPreferences

end AuraLauncher.Agent
