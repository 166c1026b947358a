import AuraLauncher.Search.Agreement

/-!
# Fresh generations

Every invalidating operation writes one of the generations of the cache key. Two of them write the
application generation: one adds to it, the other stores a value from outside, so a value can come
back; the other counters only ever grow by one, until they wrap.

* `Write`, `writes`, `environment_stepCore` — which generation an operation writes, and that it
  changes nothing else of the key.
* `Invalidates` — the operation writes a generation.
* `Unseen` — what an operation must meet: a stored or reached application or file generation was
  not seen before with the other generations as they are, and a counter is not at its last value.
* `Stamped`, `stamped_step` — the invariant of the history.
* `generation_fresh` — in a run that meets it, each invalidating operation brings a key never used
  before, and no entry from before is found after it.
* `storedGeneration_returns` — a bump and a store of the old value bring back an old entry.
-/

namespace AuraLauncher.Search

open AuraLauncher.Lib AuraLauncher.Domain

variable {ρ η : Type} (sv : Services ρ η)

/-! ## What the operations write -/

/-- What an operation writes to the generations. -/
inductive Write where
  | nothing
  | userState
  | context
  | application (gen : UInt64)
  | file (gen : UInt64)
  deriving DecidableEq

/-- The generations after a write. -/
def Write.apply (env : SearchCacheEnvironment) : Write → SearchCacheEnvironment
  | .nothing => env
  | .userState => { env with userStateGeneration := env.userStateGeneration + 1 }
  | .context => { env with contextGeneration := env.contextGeneration + 1 }
  | .application gen => { env with applicationGeneration := gen }
  | .file gen => { env with fileGeneration := gen }

/-- The write that a new value of the file generation amounts to. -/
def fileWrite (old new : UInt64) : Write := if new = old then .nothing else .file new

theorem apply_fileWrite (env : SearchCacheEnvironment) (gen : UInt64) :
    (fileWrite env.fileGeneration gen).apply env = { env with fileGeneration := gen } := by
  unfold fileWrite
  split_ifs with h
  · rw [h]
    rfl
  · rfl

/-- The write of an operation in a state. -/
def writes (s : Core ρ η) : Op ρ η → Write
  | .recordUse _ _ _ => .userState
  | .toggleFavorite _ written _ => if s.favorites.isSome && written then .userState else .nothing
  | .setSearchContext ctx =>
      if s.lastContextState = semanticContext sv ctx then .nothing else .context
  | .bumpApplicationGeneration => .application (s.applicationGeneration + 1)
  | .setApplicationGeneration gen => .application gen
  | .setHistory h => fileWrite (s.environment sv).fileGeneration ((sv.generation h).getD 0)
  | .indexChanged f =>
      fileWrite (s.environment sv).fileGeneration
        (((s.history.map f).bind sv.generation).getD 0)
  | _ => .nothing

/-- An operation invalidates the cached lists. -/
def Invalidates (s : Core ρ η) (op : Op ρ η) : Prop := writes sv s op ≠ .nothing

theorem environment_search (s : Core ρ η) (raw : String) (limit : ℕ) :
    (search sv s raw limit).2.environment sv = s.environment sv := by
  unfold search
  cases h : (s.searchCache.get s.instant (s.cacheKey sv raw)).1 <;> simp only [h] <;> rfl

theorem environment_refreshFavoriteSnapshot (s : Core ρ η) (read : Bool) :
    (s.refreshFavoriteSnapshot read).environment sv = s.environment sv := by
  obtain ⟨snapshot, heq⟩ := refreshFavoriteSnapshot_eq s read
  rw [heq]
  rfl

/-- **What an operation does to the key**: its write, and nothing else. -/
theorem environment_stepCore (s : Core ρ η) (op : Op ρ η) :
    (stepCore sv s op).environment sv = (writes sv s op).apply (s.environment sv) := by
  cases op with
  | search raw limit => exact environment_search sv s raw limit
  | recordUse commandId providerId title =>
      cases hhist : s.history with
      | none => simp [stepCore, Core.recordUse, Core.environment, writes, Write.apply, hhist]
      | some h =>
          simp [stepCore, Core.recordUse, Core.environment, writes, Write.apply, hhist,
            sv.generation_recordUseTitled]
  | setHistory h => exact (apply_fileWrite (s.environment sv) _).symm
  | setFavorites svc read => exact environment_refreshFavoriteSnapshot sv s read
  | refreshFavoriteSnapshot read => exact environment_refreshFavoriteSnapshot sv s read
  | toggleFavorite c written read =>
      simp only [stepCore, Core.toggleFavorite, writes]
      cases s.favorites with
      | none => rfl
      | some svc =>
          cases written with
          | false => rfl
          | true => exact environment_refreshFavoriteSnapshot sv _ read
  | setSearchContext ctx =>
      simp only [stepCore, Core.setSearchContext, writes]
      split_ifs <;> rfl
  | bumpApplicationGeneration => rfl
  | setApplicationGeneration gen => rfl
  | register p => rfl
  | providersMut f => rfl
  | indexChanged f => exact (apply_fileWrite (s.environment sv) _).symm
  | tick nanos wallMs => rfl

/-! ## Generations seen before -/

/-- The generations of all states so far, the current one included. -/
def seen (p : Core ρ η × List (Core ρ η × Op ρ η)) : List SearchCacheEnvironment :=
  p.1.environment sv :: p.2.map fun q => q.1.environment sv

/-- A write meets nothing seen before: a value that is put in place was not seen with the other
generations as they are, and a counter that is increased is not at its last value. -/
def Write.Unseen (env : SearchCacheEnvironment) (past : List SearchCacheEnvironment) :
    Write → Prop
  | .nothing => True
  | .userState => env.userStateGeneration ≠ 0xFFFFFFFFFFFFFFFF
  | .context => env.contextGeneration ≠ 0xFFFFFFFFFFFFFFFF
  | .application gen =>
      ∀ e ∈ past, { e with applicationGeneration := 0 } = { env with applicationGeneration := 0 } →
        e.applicationGeneration ≠ gen
  | .file gen =>
      ∀ e ∈ past, { e with fileGeneration := 0 } = { env with fileGeneration := 0 } →
        e.fileGeneration ≠ gen

/-- What an operation must meet. -/
def Unseen (p : Core ρ η × List (Core ρ η × Op ρ η)) (op : Op ρ η) : Prop :=
  (writes sv p.1 op).Unseen (p.1.environment sv) (seen sv p)

/-- The two counters that only grow are at their largest. -/
def Bounded (env : SearchCacheEnvironment) (past : List SearchCacheEnvironment) : Prop :=
  ∀ e ∈ past, e.userStateGeneration ≤ env.userStateGeneration ∧
    e.contextGeneration ≤ env.contextGeneration

theorem lt_succ_of_ne_last {n : UInt64} (h : n ≠ 0xFFFFFFFFFFFFFFFF) : n < n + 1 := by
  have hne : n.toNat ≠ 0xFFFFFFFFFFFFFFFF := fun heq => h (UInt64.toNat_inj.mp heq)
  have hlt := n.toNat_lt
  rw [UInt64.lt_iff_toNat_lt, UInt64.toNat_add]
  have hone : (1 : UInt64).toNat = 1 := rfl
  rw [hone, Nat.mod_eq_of_lt (by omega)]
  omega

/-- **A write that meets nothing seen before brings generations never seen before.** -/
theorem apply_not_mem {env : SearchCacheEnvironment} {past : List SearchCacheEnvironment}
    {w : Write}
    (hbound : Bounded env past) (hw : w.Unseen env past) (hne : w ≠ .nothing) :
    w.apply env ∉ past := by
  intro hmem
  cases w with
  | nothing => exact hne rfl
  | userState =>
      have hle := (hbound _ hmem).1
      exact absurd (lt_succ_of_ne_last hw) (UInt64.not_lt.mpr hle)
  | context =>
      have hle := (hbound _ hmem).2
      exact absurd (lt_succ_of_ne_last hw) (UInt64.not_lt.mpr hle)
  | application gen => exact hw _ hmem rfl rfl
  | file gen => exact hw _ hmem rfl rfl

/-- The counters that only grow stay the largest. -/
theorem Bounded.apply {env : SearchCacheEnvironment} {past : List SearchCacheEnvironment}
    {w : Write}
    (hbound : Bounded env past) (hw : w.Unseen env past) :
    Bounded (w.apply env) (w.apply env :: past) := by
  have hle : env.userStateGeneration ≤ (w.apply env).userStateGeneration ∧
      env.contextGeneration ≤ (w.apply env).contextGeneration := by
    cases w with
    | nothing => exact ⟨UInt64.le_refl _, UInt64.le_refl _⟩
    | userState => exact ⟨UInt64.le_of_lt (lt_succ_of_ne_last hw), UInt64.le_refl _⟩
    | context => exact ⟨UInt64.le_refl _, UInt64.le_of_lt (lt_succ_of_ne_last hw)⟩
    | application gen => exact ⟨UInt64.le_refl _, UInt64.le_refl _⟩
    | file gen => exact ⟨UInt64.le_refl _, UInt64.le_refl _⟩
  intro e he
  rcases List.mem_cons.mp he with rfl | he
  · exact ⟨UInt64.le_refl _, UInt64.le_refl _⟩
  · exact ⟨UInt64.le_trans (hbound e he).1 hle.1, UInt64.le_trans (hbound e he).2 hle.2⟩

/-! ## The history -/

/-- Every entry of a cache is stored under generations that were seen. -/
def Keyed (s : Core ρ η) (past : List SearchCacheEnvironment) : Prop :=
  ∀ key e, s.searchCache.find? key = some e → key.toSearchCacheEnvironment ∈ past

/-- No entry of a cache is stored under these generations. -/
def Past (s : Core ρ η) (env : SearchCacheEnvironment) : Prop :=
  ∀ key e, s.searchCache.find? key = some e → key.toSearchCacheEnvironment ≠ env

/-- The invariant of a history: the growing counters are at their largest, all caches so far are
stored under generations that were seen, and no cache from before an invalidation is stored under
the current ones. -/
structure Stamped (p : Core ρ η × List (Core ρ η × Op ρ η)) : Prop where
  bounded : Bounded (p.1.environment sv) (seen sv p)
  keyed : Keyed p.1 (seen sv p)
  keyedBefore : ∀ q ∈ p.2, Keyed q.1 (seen sv p)
  past : ∀ q ∈ p.2, Invalidates sv q.1 q.2 → Past q.1 (p.1.environment sv)

theorem stamped_clearCache (s : Core ρ η) : Stamped sv (s.clearCache, []) where
  bounded e he := by
    obtain rfl : e = s.clearCache.environment sv := by simpa [seen] using he
    exact ⟨UInt64.le_refl _, UInt64.le_refl _⟩
  keyed key e h := absurd h (by simp [Core.clearCache, newCache])
  keyedBefore := by simp
  past := by simp

/-- The entries after an operation: those before, or one under the current generations. -/
theorem find?_stepCore {s : Core ρ η} {op : Op ρ η} {key : SearchCacheKey} {e : Entry}
    (h : (stepCore sv s op).searchCache.find? key = some e) :
    key.toSearchCacheEnvironment = s.environment sv ∨ s.searchCache.find? key = some e := by
  by_cases hsearch : ∃ raw limit, op = .search raw limit
  · obtain ⟨raw, limit, rfl⟩ := hsearch
    cases hhit : s.hit sv raw with
    | none =>
        rcases find?_search_of_miss sv hhit h with ⟨rfl, -⟩ | ⟨-, hold⟩
        · exact .inl rfl
        · exact .inr hold
    | some found => exact .inr (find?_search_of_hit sv hhit h)
  · have hother : ∀ raw limit, op ≠ .search raw limit := fun raw limit hop =>
      hsearch ⟨raw, limit, hop⟩
    rw [stepCore_searchCache sv s hother] at h
    exact .inr h

/-- **Each operation that meets its condition keeps the history stamped.** -/
theorem stamped_step {p q : Core ρ η × List (Core ρ η × Op ρ η)} {op : Op ρ η}
    (hp : Stamped sv p) (hop : Unseen sv p op)
    (hstep : (core sv).withHistory.step p op = some q) : Stamped sv q := by
  obtain ⟨hcore, hpast⟩ := (core sv).withHistory_step_eq_some.mp hstep
  obtain ⟨t, past⟩ := q
  obtain rfl : stepCore sv p.1 op = t := Option.some.inj hcore
  obtain rfl : past = (p.1, op) :: p.2 := hpast
  have hseen : seen sv (stepCore sv p.1 op, (p.1, op) :: p.2) =
      (writes sv p.1 op).apply (p.1.environment sv) :: seen sv p := by
    rw [← environment_stepCore]
    rfl
  have hmono : ∀ {s : Core ρ η}, Keyed s (seen sv p) →
      Keyed s (seen sv (stepCore sv p.1 op, (p.1, op) :: p.2)) := by
    intro s hs key e h
    rw [hseen]
    exact List.mem_cons_of_mem _ (hs key e h)
  refine ⟨?_, ?_, ?_, ?_⟩
  · rw [hseen, environment_stepCore]
    exact hp.bounded.apply hop
  · intro key e h
    rcases find?_stepCore sv h with henv | hold
    · rw [hseen, henv]
      exact List.mem_cons_of_mem _ List.mem_cons_self
    · exact hmono hp.keyed key e hold
  · intro r hr
    rcases List.mem_cons.mp hr with rfl | hr
    · exact hmono hp.keyed
    · exact hmono (hp.keyedBefore r hr)
  · intro r hr hinv key e h
    rw [environment_stepCore]
    -- an invalidating operation brings a key that no cache so far is stored under; any other
    -- leaves the key, so only older invalidations count
    by_cases hnothing : writes sv p.1 op = .nothing
    · rw [hnothing]
      rcases List.mem_cons.mp hr with rfl | hr
      · exact absurd hnothing hinv
      · exact hp.past r hr hinv key e h
    · have hkeyed : Keyed r.1 (seen sv p) := by
        rcases List.mem_cons.mp hr with rfl | hr
        · exact hp.keyed
        · exact hp.keyedBefore r hr
      intro heq
      exact apply_not_mem hp.bounded hop hnothing (heq ▸ hkeyed key e h)

/-! ## Runs -/

/-- **Fresh generations.** In a run from an empty cache whose operations meet their condition, each
invalidating operation brings generations that no state before it had, and a search after it looks
for a key that the cache before it did not have. -/
theorem generation_fresh (s₀ : Core ρ η) (ops : List (Op ρ η))
    (h : (core sv).withHistory.Along (Unseen sv) (s₀.clearCache, []) ops)
    (pre : List (Op ρ η)) (op : Op ρ η) (p : Core ρ η × List (Core ρ η × Op ρ η))
    (hp : (core sv).withHistory.run (s₀.clearCache, []) pre = some p)
    (hinv : Invalidates sv p.1 op) (hpre : pre ++ [op] <+: ops) :
    (stepCore sv p.1 op).environment sv ∉ seen sv p ∧
      ∀ mid q raw, pre ++ op :: mid <+: ops →
        (core sv).withHistory.run p (op :: mid) = some q →
          p.1.searchCache.find? (q.1.cacheKey sv raw) = none := by
  have hstamped : ∀ as r, as <+: ops →
      (core sv).withHistory.run (s₀.clearCache, []) as = some r → Stamped sv r := by
    rintro as r ⟨rest, rfl⟩ hr
    exact (core sv).withHistory.run_inv (fun _ _ _ hs hop hstep => stamped_step sv hs hop hstep)
      (stamped_clearCache sv s₀) (((core sv).withHistory.along_append hr).mp h).1 hr
  constructor
  · obtain ⟨rest, rfl⟩ := hpre
    rw [List.append_assoc] at h
    have hop := (((core sv).withHistory.along_append hp).mp h).2.1
    have hbounded := (hstamped pre p ⟨[op] ++ rest, by simp⟩ hp).bounded
    rw [environment_stepCore]
    exact apply_not_mem hbounded hop hinv
  · intro mid q raw hmid hq
    have hrun : (core sv).withHistory.run (s₀.clearCache, []) (pre ++ op :: mid) = some q :=
      (core sv).withHistory.run_append_eq_some.mpr ⟨p, hp, hq⟩
    obtain ⟨r, hr, hrest⟩ := (core sv).withHistory.run_cons_eq_some.mp hq
    have hmem : (p.1, op) ∈ q.2 := by
      refine ((core sv).withHistory_suffix hrest).subset ?_
      rw [((core sv).withHistory_step_eq_some.mp hr).2]
      exact List.mem_cons_self
    have hpast := (hstamped _ q hmid hrun).past _ hmem hinv
    rw [Option.eq_none_iff_forall_ne_some]
    exact fun e he => hpast _ e he rfl

/-- A bump after a search meets the condition. -/
theorem generation_fresh_bump :
    (stepCore heldServices searchedOnce .bumpApplicationGeneration).environment heldServices ∉
      seen heldServices (searchedOnce, [(twoCommands.clearCache, .search "x" 50)]) := by
  refine (generation_fresh heldServices twoCommands [.search "x" 50, .bumpApplicationGeneration] ?_
    [.search "x" 50] .bumpApplicationGeneration
    (searchedOnce, [(twoCommands.clearCache, .search "x" 50)]) rfl ?_ List.prefix_rfl).1
  · refine ⟨trivial, fun p hp => ⟨?_, fun _ _ => trivial⟩⟩
    obtain rfl : (searchedOnce, [(twoCommands.clearCache, Op.search "x" 50)]) = p :=
      Option.some.inj hp
    intro e he _
    have hzero : e.applicationGeneration = 0 := by
      rcases List.mem_cons.mp he with rfl | he
      · exact congrArg SearchCacheEnvironment.applicationGeneration
          (environment_search heldServices twoCommands.clearCache "x" 50)
      · obtain rfl := List.mem_singleton.mp he
        rfl
    rw [hzero]
    decide +kernel
  · exact Write.noConfusion

/-- The launcher after a search and a bump. -/
def bumpedOnce : Core (List SearchCommand) Unit :=
  stepCore heldServices searchedOnce .bumpApplicationGeneration

/-- **A bump and a store of the old value bring back an old entry**: after them, a search looks for
the key under which a search before the bump stored its list. -/
theorem storedGeneration_returns :
    ¬ ∀ (s₀ : Core (List SearchCommand) Unit) (pre : List (Op (List SearchCommand) Unit))
      (op : Op (List SearchCommand) Unit) (s : Core (List SearchCommand) Unit),
      (core heldServices).run s₀.clearCache pre = some s → Invalidates heldServices s op →
        ∀ mid t raw, (core heldServices).run s (op :: mid) = some t →
          s.searchCache.find? (t.cacheKey heldServices raw) = none := by
  intro h
  have hnone := h twoCommands [.search "x" 50, .bumpApplicationGeneration]
    (.setApplicationGeneration 0) bumpedOnce rfl Write.noConfusion []
    (stepCore heldServices bumpedOnce (.setApplicationGeneration 0)) "x" rfl
  have hsome : (bumpedOnce.searchCache.find?
      ((stepCore heldServices bumpedOnce (.setApplicationGeneration 0)).cacheKey heldServices
        "x")).isSome = true := by
    decide +kernel
  rw [hnone] at hsome
  exact absurd hsome (by decide)

end AuraLauncher.Search
