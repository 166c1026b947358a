import AuraLauncher.Search.Core

/-!
# Cached and uncached searches

An entry of the cache is the ranked list of what some earlier search read. Its key has the query
and five generations; the ranking reads more: the limit, what the providers answer, the usage at
the time of day, the favourites and the context. So a search that finds an entry agrees with an
uncached search when all that is still as it was.

* `missed`, `storedFrom` — the last search that ranked under a key, and what it read.
* `Sound`, `sound_step` — every entry is the ranked list of what `storedFrom` says.
* `search_agrees_iff` — when one search agrees with the same search on an empty cache.
* `Current` — what a search must meet: if it finds an entry, the search that stored it read what
  this one would read.
* `cached_search_agrees` — in a run whose searches meet it, every search agrees.
* `shortSearch_cached` — a search for one result leaves one result to a later search for fifty.
-/

namespace AuraLauncher.Search

open AuraLauncher.Lib AuraLauncher.Domain

variable {ρ η : Type} (sv : Services ρ η)

/-- The key and the inputs of a search that found nothing in the cache. -/
def missed (s : Core ρ η) : Op ρ η → Option (SearchCacheKey × SearchInputs)
  | .search raw limit =>
      if (s.hit sv raw).isNone then some (s.cacheKey sv raw, searchInputs sv s raw limit) else none
  | _ => none

/-- What the last search that ranked under `key` read. -/
def storedFrom (past : List (Core ρ η × Op ρ η)) (key : SearchCacheKey) : Option SearchInputs :=
  past.findSome? fun p => ((missed sv p.1 p.2).filter fun m => m.1 == key).map Prod.snd

theorem storedFrom_cons_of_missed {past : List (Core ρ η × Op ρ η)} {s : Core ρ η} {op : Op ρ η}
    {key : SearchCacheKey} {i : SearchInputs} (h : missed sv s op = some (key, i)) :
    storedFrom sv ((s, op) :: past) key = some i := by
  simp [storedFrom, h, Option.filter]

theorem storedFrom_cons_of_ne {past : List (Core ρ η × Op ρ η)} {s : Core ρ η} {op : Op ρ η}
    {key : SearchCacheKey} (h : ∀ i, missed sv s op ≠ some (key, i)) :
    storedFrom sv ((s, op) :: past) key = storedFrom sv past key := by
  have hnone : ((missed sv s op).filter fun m => m.1 == key) = none := by
    cases hm : missed sv s op with
    | none => rfl
    | some m =>
        have hne : m.1 ≠ key := by
          rintro rfl
          exact h m.2 hm
        simp [Option.filter, hne]
  simp [storedFrom, hnone]

/-! ## The entries of the cache -/

/-- Every entry is the ranked list of what the last search that ranked under its key read. -/
def Sound (p : Core ρ η × List (Core ρ η × Op ρ η)) : Prop :=
  ∀ key e, p.1.searchCache.find? key = some e →
    ∃ i, storedFrom sv p.2 key = some i ∧ e.results = ranked sv i

theorem sound_clearCache (s : Core ρ η) : Sound sv (s.clearCache, []) := by
  intro key e h
  exact absurd h (by simp [Core.clearCache, newCache])

/-- A search that found nothing leaves the entries of other keys and its own list. -/
theorem find?_search_of_miss {s : Core ρ η} {raw : String} {limit : ℕ}
    (hmiss : s.hit sv raw = none) {key : SearchCacheKey} {e : Entry}
    (h : (search sv s raw limit).2.searchCache.find? key = some e) :
    (key = s.cacheKey sv raw ∧ e.results = ranked sv (searchInputs sv s raw limit)) ∨
      (key ≠ s.cacheKey sv raw ∧ s.searchCache.find? key = some e) := by
  obtain ⟨-, ttl, hcache⟩ := search_miss sv limit hmiss
  rw [hcache] at h
  rcases SearchCache.find?_put _ _ _ _ _ h with ⟨hkey, hresults⟩ | hold
  · exact .inl ⟨hkey, hresults⟩
  · rw [SearchCache.find?_get] at hold
    split_ifs at hold with hkey
    · exact absurd (hmiss.symm.trans hold) (by simp)
    · exact .inr ⟨hkey, hold⟩

/-- A search that found an entry makes none. -/
theorem find?_search_of_hit {s : Core ρ η} {raw : String} {limit : ℕ} {found : Entry}
    (hhit : s.hit sv raw = some found) {key : SearchCacheKey} {e : Entry}
    (h : (search sv s raw limit).2.searchCache.find? key = some e) :
    s.searchCache.find? key = some e := by
  rw [(search_hit sv limit hhit).2, SearchCache.find?_get] at h
  split_ifs at h with hkey
  · subst hkey
    exact (Option.filter_eq_some_iff.mp h).1
  · exact h

/-- **Every operation keeps the cache sound.** -/
theorem sound_step {p q : Core ρ η × List (Core ρ η × Op ρ η)} {op : Op ρ η} (hp : Sound sv p)
    (hstep : (core sv).withHistory.step p op = some q) : Sound sv q := by
  obtain ⟨hcore, hpast⟩ := (core sv).withHistory_step_eq_some.mp hstep
  have hq : stepCore sv p.1 op = q.1 := Option.some.inj hcore
  intro key e h
  rw [← hq] at h
  rw [hpast]
  by_cases hsearch : ∃ raw limit, op = .search raw limit
  · obtain ⟨raw, limit, rfl⟩ := hsearch
    cases hhit : p.1.hit sv raw with
    | none =>
        have hmissed : missed sv p.1 (.search raw limit) =
            some (p.1.cacheKey sv raw, searchInputs sv p.1 raw limit) := by
          simp [missed, hhit]
        rcases find?_search_of_miss sv hhit h with ⟨rfl, hresults⟩ | ⟨hne, hold⟩
        · exact ⟨_, storedFrom_cons_of_missed sv hmissed, hresults⟩
        · obtain ⟨i, hstored, hresults⟩ := hp key e hold
          refine ⟨i, (storedFrom_cons_of_ne sv fun j hj => hne ?_).trans hstored, hresults⟩
          exact (congrArg Prod.fst (Option.some.inj (hmissed.symm.trans hj))).symm
    | some found =>
        have hmissed : ∀ i, missed sv p.1 (.search raw limit) ≠ some (key, i) := by
          simp [missed, hhit]
        obtain ⟨i, hstored, hresults⟩ := hp key e (find?_search_of_hit sv hhit h)
        exact ⟨i, (storedFrom_cons_of_ne sv hmissed).trans hstored, hresults⟩
  · have hother : ∀ raw limit, op ≠ .search raw limit := fun raw limit hop =>
      hsearch ⟨raw, limit, hop⟩
    have hmissed : ∀ i, missed sv p.1 op ≠ some (key, i) := by
      intro i
      cases op with
      | search raw limit => exact absurd rfl (hother raw limit)
      | _ => simp [missed]
    rw [stepCore_searchCache sv p.1 hother] at h
    obtain ⟨i, hstored, hresults⟩ := hp key e h
    exact ⟨i, (storedFrom_cons_of_ne sv hmissed).trans hstored, hresults⟩

/-- The cache of a run that started with an empty one is sound. -/
theorem sound_run {s₀ : Core ρ η} {ops : List (Op ρ η)}
    {p : Core ρ η × List (Core ρ η × Op ρ η)}
    (h : (core sv).withHistory.run (s₀.clearCache, []) ops = some p) : Sound sv p :=
  (core sv).withHistory.run_inv_of_step (fun _ _ _ hp hstep => sound_step sv hp hstep)
    (sound_clearCache sv s₀) h

/-! ## Agreement -/

/-- **When one search agrees**: with a sound cache, a search answers what it would answer with an
empty cache when it finds no entry, or finds one whose inputs are ranked as the current ones. -/
theorem search_agrees_iff {p : Core ρ η × List (Core ρ η × Op ρ η)} (hp : Sound sv p)
    (raw : String) (limit : ℕ) :
    (search sv p.1 raw limit).1.commands = (search sv p.1.clearCache raw limit).1.commands ↔
      ∀ e, p.1.hit sv raw = some e → ∀ i, storedFrom sv p.2 (p.1.cacheKey sv raw) = some i →
        ranked sv i = ranked sv (searchInputs sv p.1 raw limit) := by
  rw [search_clearCache]
  cases hhit : p.1.hit sv raw with
  | none => simp [(search_miss sv limit hhit).1]
  | some e =>
      have hfind : p.1.searchCache.find? (p.1.cacheKey sv raw) = some e :=
        (Option.filter_eq_some_iff.mp hhit).1
      obtain ⟨i, hstored, hresults⟩ := hp _ e hfind
      simp [(search_hit sv limit hhit).1, hstored, hresults]

/-- What a search must meet: if it finds an entry, then the search that stored it had the same
query and limit, the same answers of the providers and the same boost of every command. -/
def Current (p : Core ρ η × List (Core ρ η × Op ρ η)) : Op ρ η → Prop
  | .search raw limit =>
      ∀ e, p.1.hit sv raw = some e → ∀ i, storedFrom sv p.2 (p.1.cacheKey sv raw) = some i →
        i = searchInputs sv p.1 raw limit
  | _ => True

/-- **Cached search agrees with uncached search** in every run, from any launcher with an empty
cache, whose searches find only entries made from what they would read themselves. -/
theorem cached_search_agrees (s₀ : Core ρ η) (ops : List (Op ρ η))
    (h : (core sv).withHistory.Along (Current sv) (s₀.clearCache, []) ops)
    (pre : List (Op ρ η)) (raw : String) (limit : ℕ) (hpre : pre ++ [.search raw limit] <+: ops)
    (p : Core ρ η × List (Core ρ η × Op ρ η))
    (hp : (core sv).withHistory.run (s₀.clearCache, []) pre = some p) :
    (search sv p.1 raw limit).1.commands = (search sv p.1.clearCache raw limit).1.commands := by
  obtain ⟨post, rfl⟩ := hpre
  rw [List.append_assoc] at h
  have hcurrent := (((core sv).withHistory.along_append hp).mp h).2.1
  refine (search_agrees_iff sv (sound_run sv hp) raw limit).mpr fun e he i hi => ?_
  rw [hcurrent e he i hi]

/-! ## A search for one result -/

/-- Services with providers that answer every query with the commands they hold, and with titles
that match only the query itself. -/
def heldServices : Services (List SearchCommand) Unit where
  std := .ascii
  toLowercase s := String.ofList (s.toList.map Char.toLower)
  score c q := if c.title = q.normalized then 115 else 0
  providerId _ := "p"
  query p _ := (p, p)
  takeLastError p := (none, p)
  generation _ := none
  usageMap _ := none
  recordUseTitled h _ _ _ _ := h
  generation_recordUseTitled _ _ _ _ _ := rfl

/-- A command without actions. -/
def namedCommand (id title : String) : SearchCommand where
  id := id
  providerId := "p"
  actions := []
  title := title
  subtitle := none
  icon := none
  score := 0
  keywords := []
  category := .command
  target := none

/-- A launcher with one provider of two commands of one title. -/
def twoCommands : Core (List SearchCommand) Unit :=
  { Core.new (List SearchCommand) Unit with
    providers := [[namedCommand "a" "x", namedCommand "b" "x"]] }

/-- The launcher after a first search. -/
def searchedOnce : Core (List SearchCommand) Unit :=
  (search heldServices twoCommands.clearCache "x" 50).2

/-- A second search with the same limit finds the list of the first, and agrees. -/
theorem cached_search_agrees_twice :
    (searchedOnce.hit heldServices "x").isSome = true ∧
      (search heldServices searchedOnce "x" 50).1.commands =
        (search heldServices searchedOnce.clearCache "x" 50).1.commands := by
  refine ⟨by decide +kernel, ?_⟩
  refine cached_search_agrees heldServices twoCommands [.search "x" 50, .search "x" 50] ?_
    [.search "x" 50] "x" 50 List.prefix_rfl
    (searchedOnce, [(twoCommands.clearCache, .search "x" 50)]) rfl
  have hmiss : twoCommands.clearCache.hit heldServices "x" = none := rfl
  refine ⟨fun e he => ?_, fun p hp => ⟨fun e _ i hi => ?_, fun _ _ => trivial⟩⟩
  · rw [hmiss] at he
    cases he
  · obtain rfl : (searchedOnce, [(twoCommands.clearCache, Op.search "x" 50)]) = p :=
      Option.some.inj hp
    have hstored : storedFrom heldServices [(twoCommands.clearCache, Op.search "x" 50)]
        (twoCommands.clearCache.cacheKey heldServices "x") =
          some (searchInputs heldServices twoCommands.clearCache "x" 50) :=
      storedFrom_cons_of_missed heldServices rfl
    rw [Option.some.inj (hi.symm.trans hstored)]
    rfl

/-- **A search for one result leaves one result to a later search for fifty.** -/
theorem shortSearch_cached :
    ¬ ∀ (s₀ : Core (List SearchCommand) Unit) (ops : List (Op (List SearchCommand) Unit))
      (raw : String) (limit : ℕ) (s : Core (List SearchCommand) Unit),
      (core heldServices).run s₀.clearCache ops = some s →
        (search heldServices s raw limit).1.commands =
          (search heldServices s.clearCache raw limit).1.commands := by
  intro h
  have hsame := congrArg List.length (h twoCommands [.search "x" 1] "x" 50
    (stepCore heldServices twoCommands (.search "x" 1)) rfl)
  exact absurd hsame (by decide +kernel)

end AuraLauncher.Search
