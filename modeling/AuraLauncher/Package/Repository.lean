import AuraLauncher.Domain.Splitting
import AuraLauncher.Lib.Machine
import AuraLauncher.Lib.SortedMap
import AuraLauncher.Package.Integrity
import AuraLauncher.Package.Resolver
import AuraLauncher.Search.WeightsConfig
import AuraLauncher.Workflow.JsonText
import Mathlib.Data.List.Sort

/-!
# The repository and the life of its packages

`repository.rs`: the index that packages are published to and searched in. `trust.rs`, with the
lifecycle of `foundation.rs`: what a signature is worth, and how an installed package may change its
state. `audit.rs`: the log of what was done.

* `publish` — an entry is put in the index with the digest of its payload; `published` is an index
  after any number of these. `published_eq` — it is the map in key order of `Lib.SortedMap`.
* `published_spec` — the entries stand in the order of their ids; each id has the entry published
  last, which is what the resolver sees and whose payload passes the check.
* `searchMarketplace` — the search; `searchMarketplace_eq` says in which order it answers.
* `LifecycleManager`, `enabled_only_installed` — no run makes a package that is broken or not
  installed enabled without an accepted change to `installed` in between.
* `auditRun`, `audit_spec` — runs of the audit log, and what is read of it.

Left out of the log are the errors of the file system, and a file that is no text.
-/

namespace AuraLauncher.Package

open AuraLauncher.Lib AuraLauncher.Runtime AuraLauncher.Domain
open AuraLauncher.Workflow (Json SerdeJson insertField printable_text)
open AuraLauncher.Search.WeightsConfig (asU64 index)

/-! ## Trust -/

/-- Source: `trust.rs`, `SignatureStatus`. -/
inductive SignatureStatus
  | signed
  | checksumVerified
  | unsigned
  deriving DecidableEq

/-- Source: `trust.rs`, `PackageSource`. -/
inductive PackageSource
  | officialRepository
  | sideLoad
  deriving DecidableEq

/-- Source: `trust.rs`, `TrustDecision`. -/
inductive TrustDecision
  | trusted
  | requiresExplicitApproval
  | untrusted
  deriving DecidableEq

/-- Source: `trust.rs`, `evaluate_trust`. -/
def evaluateTrust : SignatureStatus → PackageSource → TrustDecision
  | .signed, .officialRepository => .trusted
  | .signed, .sideLoad => .requiresExplicitApproval
  | .checksumVerified, _ => .requiresExplicitApproval
  | .unsigned, _ => .untrusted

/-! ## The index -/

/-- Source: `repository.rs`, `SignatureBadge`. -/
inductive SignatureBadge
  | signed
  | checksumOnly
  | unsigned
  deriving DecidableEq

/-- Source: `repository.rs`, `search_marketplace` (the `match` on the badge). -/
def SignatureBadge.status : SignatureBadge → SignatureStatus
  | .signed => .signed
  | .checksumOnly => .checksumVerified
  | .unsigned => .unsigned

/-- Source: `repository.rs`, `RepositoryEntry`. -/
structure RepositoryEntry where
  package : PackageMeta
  summary : String
  payloadSha256 : String
  signature : SignatureBadge
  deriving DecidableEq

/-- The id of an entry. -/
abbrev RepositoryEntry.id (e : RepositoryEntry) : String := e.package.id

/-- An entry with the digest of its payload. Source: `repository.rs`, `publish`. -/
def RepositoryEntry.stamped (e : RepositoryEntry) (payload : Bytes) : RepositoryEntry :=
  { e with payloadSha256 := sha256Hex payload }

/-- Source: `repository.rs`, `RepositoryIndex`. -/
structure RepositoryIndex where
  entries : List RepositoryEntry

namespace RepositoryIndex

/-- Source: `repository.rs`, `RepositoryIndex::publish`. -/
def publish (idx : RepositoryIndex) (entry : RepositoryEntry) (payload : Bytes) :
    RepositoryIndex where
  entries :=
    ((idx.entries.filter fun e => e.id ≠ entry.id) ++ [entry.stamped payload]).insertionSort
      fun a b => a.id ≤ b.id

/-- Source: `repository.rs`, `RepositoryIndex::checksum_of`. -/
def checksumOf (idx : RepositoryIndex) (id : String) : Option String :=
  (idx.entries.find? fun e => e.id = id).map (·.payloadSha256)

/-- What the resolver is given. Source: `resolver.rs`, `resolve` (`index`). -/
def packages (idx : RepositoryIndex) : List PackageMeta := idx.entries.map (·.package)

end RepositoryIndex

/-- The index after publishing some entries, each with its payload, in turn. -/
def published (entries : List (RepositoryEntry × Bytes)) : RepositoryIndex :=
  entries.foldl (fun idx e => idx.publish e.1 e.2) ⟨[]⟩

/-- The entry published last under an id. -/
def lastPublished (entries : List (RepositoryEntry × Bytes)) (id : String) :
    Option (RepositoryEntry × Bytes) :=
  entries.reverse.find? fun e => e.1.id = id

/-- On an index in key order, publishing is an insertion. -/
theorem publish_eq (m : SortedMap RepositoryEntry.id) (entry : RepositoryEntry) (payload : Bytes) :
    RepositoryIndex.publish ⟨m.rows⟩ entry payload = ⟨(m.insert (entry.stamped payload)).rows⟩ := by
  set others := m.rows.filter fun e => e.id ≠ entry.id with hothers
  have hperm := List.perm_insertionSort (fun a b : RepositoryEntry => a.id ≤ b.id)
    (others ++ [entry.stamped payload])
  have hmem : ∀ e, e ∈ others ++ [entry.stamped payload] ↔
      e = entry.stamped payload ∨ e ∈ m.rows ∧ e.id ≠ (entry.stamped payload).id := by
    intro e
    rw [List.mem_append, List.mem_singleton, or_comm, hothers, List.mem_filter,
      decide_eq_true_eq]
    rfl
  have hkeys : ((others ++ [entry.stamped payload]).map (·.id)).Nodup := by
    rw [List.map_append, List.nodup_append]
    refine ⟨m.nodup_keys.sublist (List.filter_sublist.map _), by simp, ?_⟩
    intro a ha b hb hab
    obtain ⟨e, he, rfl⟩ := List.mem_map.mp ha
    obtain rfl : b = (entry.stamped payload).id := by simpa using hb
    have hne : e.id ≠ entry.id := by simpa using (List.mem_filter.mp he).2
    exact absurd hab hne
  refine congrArg RepositoryIndex.mk ?_
  refine SortedMap.rows_insert_eq ?_ fun e => (hperm.mem_iff).trans (hmem e)
  have hle := List.pairwise_insertionSort (fun a b : RepositoryEntry => a.id ≤ b.id)
    (others ++ [entry.stamped payload])
  have hne := List.pairwise_map.mp ((hperm.map (·.id)).nodup_iff.mpr hkeys)
  exact (hle.and hne).imp fun h => lt_of_le_of_ne h.1 h.2

/-- **Publishing refines a map in key order.** -/
theorem published_eq (entries : List (RepositoryEntry × Bytes)) :
    published entries = ⟨((SortedMap.empty : SortedMap RepositoryEntry.id).insertAll
      (entries.map fun e => e.1.stamped e.2)).rows⟩ := by
  have hall : ∀ m : SortedMap RepositoryEntry.id,
      entries.foldl (fun (idx : RepositoryIndex) e => idx.publish e.1 e.2) ⟨m.rows⟩ =
        ⟨(m.insertAll (entries.map fun e => e.1.stamped e.2)).rows⟩ := by
    induction entries with
    | nil => exact fun m => rfl
    | cons e entries ih =>
        intro m
        rw [List.foldl_cons, publish_eq, ih]
        rfl
  exact hall SortedMap.empty

/-- The entries of a published index, one for each id. -/
theorem nodup_published (entries : List (RepositoryEntry × Bytes)) :
    ((published entries).entries.map (·.id)).Nodup := by
  rw [published_eq]
  exact SortedMap.nodup_keys _

theorem find?_published (entries : List (RepositoryEntry × Bytes)) (id : String) :
    ((published entries).entries.find? fun e => e.id = id) =
      (lastPublished entries id).map fun e => e.1.stamped e.2 := by
  rw [published_eq]
  change (SortedMap.insertAll _ _).find? id = _
  induction entries using List.reverseRecOn with
  | nil => rfl
  | append_singleton entries e ih =>
      rw [SortedMap.insertAll, List.map_append, List.foldl_append, List.map_singleton,
        List.foldl_cons, List.foldl_nil, SortedMap.find?_insert]
      rw [SortedMap.insertAll] at ih
      have hid : (e.1.stamped e.2).id = e.1.id := rfl
      rw [hid, ih]
      simp only [lastPublished, List.reverse_append, List.reverse_singleton, List.singleton_append,
        List.find?_cons]
      split_ifs with h <;> simp [h]

/-- In an index without repeated ids the resolver sees the entry that a search from the front
finds. -/
theorem byId_packages {idx : RepositoryIndex} (h : (idx.entries.map (·.id)).Nodup) (id : String) :
    byId idx.packages id = (idx.entries.find? fun e => e.id = id).map (·.package) := by
  have hfind : ∀ {l : List RepositoryEntry}, (l.map (·.id)).Nodup → ∀ e,
      (l.find? fun e => e.id = id) = some e ↔ e ∈ l ∧ e.id = id := by
    intro l hl e
    constructor
    · exact fun he => ⟨List.mem_of_find?_eq_some he, by simpa using List.find?_some he⟩
    · rintro ⟨he, rfl⟩
      cases hf : l.find? fun e' => e'.id = e.id with
      | none => simpa using List.find?_eq_none.mp hf e he
      | some e' =>
          have hid : e'.id = e.id := by simpa using List.find?_some hf
          rw [List.inj_on_of_nodup_map hl (List.mem_of_find?_eq_some hf) he hid]
  have hreverse : (idx.entries.reverse.find? fun e => e.id = id) =
      idx.entries.find? fun e => e.id = id := by
    refine Option.ext fun e => ?_
    rw [hfind h, hfind (by rwa [List.map_reverse, List.nodup_reverse]), List.mem_reverse]
  rw [byId, RepositoryIndex.packages, ← List.map_reverse, List.find?_map, ← hreverse]
  rfl

/-- **The index after any number of publications**: its entries stand in strictly increasing order
of their ids; under each id stands the entry published last, which is also what the resolver sees;
and the payload it was published with passes the check against the recorded digest. -/
theorem published_spec (entries : List (RepositoryEntry × Bytes)) :
    (published entries).entries.Pairwise (fun a b => a.id < b.id) ∧
    ∀ id,
      ((published entries).entries.find? fun e => e.id = id) =
          (lastPublished entries id).map (fun e => e.1.stamped e.2) ∧
        byId (published entries).packages id = (lastPublished entries id).map (·.1.package) ∧
        ∀ e, lastPublished entries id = some e →
          ∃ digest, (published entries).checksumOf id = some digest ∧
            verifyIntegrity digest e.2 = true := by
  refine ⟨by rw [published_eq]; exact SortedMap.sorted _, fun id => ?_⟩
  have hfind := find?_published entries id
  refine ⟨hfind, ?_, fun e he => ?_⟩
  · rw [byId_packages (nodup_published entries), hfind, Option.map_map]
    rfl
  · refine ⟨sha256Hex e.2, by rw [RepositoryIndex.checksumOf, hfind, he]; rfl, ?_⟩
    exact verifyIntegrity_self e.2

/-! ## Searching -/

section Search

-- `str::to_lowercase`
variable (lower : List Char → List Char)

/-- The ids and summaries of a search, in the order in which it places them.
Source: `repository.rs`, `search_marketplace` (the loop over `index.entries`). -/
def searchStep (q : List Char) (found : List RepositoryEntry × List RepositoryEntry)
    (e : RepositoryEntry) : List RepositoryEntry × List RepositoryEntry :=
  let id := lower e.id.toList
  let name := lower e.summary.toList
  if id = q then (e :: found.1, found.2)
  else if q.isPrefixOf id then (found.1 ++ [e], found.2)
  else if hasSub q name then (found.1, found.2 ++ [e])
  else found

/-- Source: `repository.rs`, `search_marketplace`. -/
def searchMarketplace (idx : RepositoryIndex) (query : String) (source : PackageSource)
    (limit : ℕ) : List (RepositoryEntry × TrustDecision) :=
  let q := lower (trim query.toList)
  if q.isEmpty then []
  else
    let found := idx.entries.foldl (searchStep lower q) ([], [])
    ((found.1 ++ found.2).take limit).map fun e => (e, evaluateTrust e.signature.status source)

/-- How well an entry answers a query: `0` by its id, `1` by the beginning of its id, `2` by its
summary. -/
def rank (q : List Char) (e : RepositoryEntry) : Option (Fin 3) :=
  if lower e.id.toList = q then some 0
  else if q.isPrefixOf (lower e.id.toList) then some 1
  else if hasSub q (lower e.summary.toList) then some 2
  else none

/-- The entries of a rank. -/
def ranked (q : List Char) (r : Fin 3) (entries : List RepositoryEntry) : List RepositoryEntry :=
  entries.filter fun e => rank lower q e = some r

variable {lower}

theorem ranked_cons (q : List Char) (r : Fin 3) (e : RepositoryEntry)
    (entries : List RepositoryEntry) :
    ranked lower q r (e :: entries) =
      if rank lower q e = some r then e :: ranked lower q r entries
      else ranked lower q r entries := by
  simp [ranked, List.filter_cons]

theorem searchStep_eq (q : List Char) (found : List RepositoryEntry × List RepositoryEntry)
    (e : RepositoryEntry) :
    searchStep lower q found e =
      match rank lower q e with
      | some 0 => (e :: found.1, found.2)
      | some 1 => (found.1 ++ [e], found.2)
      | some 2 => (found.1, found.2 ++ [e])
      | none => found := by
  simp only [searchStep, rank]
  split_ifs <;> rfl

theorem foldl_searchStep (q : List Char) (entries : List RepositoryEntry)
    (found : List RepositoryEntry × List RepositoryEntry) :
    entries.foldl (searchStep lower q) found =
      ((ranked lower q 0 entries).reverse ++ found.1 ++ ranked lower q 1 entries,
        found.2 ++ ranked lower q 2 entries) := by
  induction entries generalizing found with
  | nil => simp [ranked]
  | cons e entries ih =>
      rw [List.foldl_cons, ih, searchStep_eq]
      simp only [ranked_cons]
      match hrank : rank lower q e with
      | none => simp
      | some 0 => simp
      | some 1 => simp
      | some 2 => simp

/-- The answers of a search before the limit. -/
def answers (lower : List Char → List Char) (entries : List RepositoryEntry) (query : String) :
    List RepositoryEntry :=
  let q := lower (trim query.toList)
  if q = [] then []
  else (ranked lower q 0 entries).reverse ++ ranked lower q 1 entries ++ ranked lower q 2 entries

theorem searchMarketplace_eq (idx : RepositoryIndex) (query : String) (source : PackageSource)
    (limit : ℕ) :
    searchMarketplace lower idx query source limit =
      ((answers lower idx.entries query).take limit).map fun e =>
        (e, evaluateTrust e.signature.status source) := by
  unfold searchMarketplace answers
  dsimp only
  by_cases hq : lower (trim query.toList) = []
  · simp [hq]
  · rw [if_neg (by simpa using hq), if_neg hq, foldl_searchStep, List.append_nil, List.nil_append]

theorem mem_answers {entries : List RepositoryEntry} {query : String} {e : RepositoryEntry} :
    e ∈ answers lower entries query ↔
      lower (trim query.toList) ≠ [] ∧ e ∈ entries ∧
        (rank lower (lower (trim query.toList)) e).isSome := by
  unfold answers
  dsimp only
  split_ifs with hq
  · simp [hq]
  · simp only [List.mem_append, List.mem_reverse, ranked, List.mem_filter, decide_eq_true_eq,
      ← and_or_left]
    match rank lower (lower (trim query.toList)) e with
    | none => simp
    | some 0 => simp [hq]
    | some 1 => simp [hq]
    | some 2 => simp [hq]

/-- No id is answered twice, if the index has none twice. -/
theorem nodup_answers {entries : List RepositoryEntry} (h : (entries.map (·.id)).Nodup)
    (query : String) : ((answers lower entries query).map (·.id)).Nodup := by
  unfold answers
  dsimp only
  generalize lower (trim query.toList) = q
  have hsub : ∀ r, ((ranked lower q r entries).map (·.id)).Nodup :=
    fun r => h.sublist (List.filter_sublist.map _)
  -- entries of different ranks are different entries, and so have different ids
  have hdisjoint : ∀ r r', r ≠ r' →
      ∀ e ∈ ranked lower q r entries, ∀ e' ∈ ranked lower q r' entries, e.id ≠ e'.id := by
    intro r r' hne e he e' he' hid
    obtain ⟨hmem, hrank⟩ := List.mem_filter.mp he
    obtain ⟨hmem', hrank'⟩ := List.mem_filter.mp he'
    obtain rfl := List.inj_on_of_nodup_map h hmem hmem' hid
    rw [of_decide_eq_true hrank] at hrank'
    exact hne (Option.some.inj (of_decide_eq_true hrank'))
  split_ifs with hq
  · exact List.nodup_nil
  · rw [List.map_append, List.map_append, List.nodup_append, List.nodup_append]
    refine ⟨⟨by rw [List.map_reverse, List.nodup_reverse]; exact hsub 0, hsub 1, ?_⟩, hsub 2, ?_⟩
    · intro x hx y hy
      obtain ⟨e, he, rfl⟩ := List.mem_map.mp hx
      obtain ⟨e', he', rfl⟩ := List.mem_map.mp hy
      exact hdisjoint 0 1 (by decide) e (List.mem_reverse.mp he) e' he'
    · intro x hx y hy
      obtain ⟨e', he', rfl⟩ := List.mem_map.mp hy
      rcases List.mem_append.mp hx with hx | hx
      · obtain ⟨e, he, rfl⟩ := List.mem_map.mp hx
        exact hdisjoint 0 2 (by decide) e (List.mem_reverse.mp he) e' he'
      · obtain ⟨e, he, rfl⟩ := List.mem_map.mp hx
        exact hdisjoint 1 2 (by decide) e he e' he'

theorem evaluateTrust_eq_trusted {badge : SignatureBadge} {source : PackageSource} :
    evaluateTrust badge.status source = .trusted ↔
      badge = .signed ∧ source = .officialRepository := by
  cases badge <;> cases source <;> decide

/-- **What a search answers.** The entries whose id is the query, the last one of the index first;
then those whose id begins with it; then those whose summary contains it; each of these in the
order of the index, and all cut at the limit. An empty query is answered with nothing. No id is
answered twice, an entry that fits is left out only when the limit is reached, and what is answered
as trusted is signed and from the official repository. -/
theorem searchMarketplace_spec (entries : List (RepositoryEntry × Bytes)) (query : String)
    (source : PackageSource) (limit : ℕ) :
    let results := searchMarketplace lower (published entries) query source limit
    results.map (·.1) = (answers lower (published entries).entries query).take limit ∧
      (results.map (·.1.id)).Nodup ∧
      (∀ e ∈ (published entries).entries, lower (trim query.toList) ≠ [] →
        (rank lower (lower (trim query.toList)) e).isSome →
        e ∈ results.map (·.1) ∨ results.length = limit) ∧
      ∀ result ∈ results, result.2 = .trusted ↔
        result.1.signature = .signed ∧ source = .officialRepository := by
  dsimp only
  rw [searchMarketplace_eq]
  have hfst : (((answers lower (published entries).entries query).take limit).map fun e =>
      (e, evaluateTrust e.signature.status source)).map (·.1) =
      (answers lower (published entries).entries query).take limit := by
    rw [List.map_map]
    exact List.map_id _
  refine ⟨hfst, ?_, fun e hmem hq hrank => ?_, fun result hresult => ?_⟩
  · have hnodup : ((answers lower (published entries).entries query).map (·.id)).Nodup :=
      nodup_answers (nodup_published entries) query
    rw [List.map_map]
    exact hnodup.sublist ((List.take_sublist limit _).map _)
  · have he := mem_answers.mpr ⟨hq, hmem, hrank⟩
    rw [hfst, List.length_map, List.length_take]
    rcases Nat.lt_or_ge limit (answers lower (published entries).entries query).length with
      hlt | hge
    · exact .inr (by omega)
    · exact .inl (by rwa [List.take_of_length_le hge])
  · obtain ⟨e, -, rfl⟩ := List.mem_map.mp hresult
    exact evaluateTrust_eq_trusted

end Search

/-! ## The life of a package -/

/-- Source: `foundation.rs`, `PluginLifecycle`. -/
inductive PluginLifecycle
  | uninstalled
  | installed
  | enabled
  | disabled
  | broken
  deriving DecidableEq

/-- Source: `foundation.rs`, `PluginLifecycle::as_str`. -/
def PluginLifecycle.asStr : PluginLifecycle → String
  | .uninstalled => "uninstalled"
  | .installed => "installed"
  | .enabled => "enabled"
  | .disabled => "disabled"
  | .broken => "broken"

/-- Source: `foundation.rs`, `transition_allowed`. -/
def transitionAllowed : PluginLifecycle → PluginLifecycle → Bool
  | .uninstalled, .installed => true
  | .installed, .enabled => true
  | .installed, .disabled => true
  | .installed, .uninstalled => true
  | .installed, .broken => true
  | .enabled, .disabled => true
  | .enabled, .uninstalled => true
  | .enabled, .broken => true
  | .disabled, .enabled => true
  | .disabled, .uninstalled => true
  | .disabled, .broken => true
  | .broken, .installed => true
  | .broken, .uninstalled => true
  | _, _ => false

/-- Source: `trust.rs`, `LifecycleManager`. -/
structure LifecycleManager where
  states : String → Option PluginLifecycle

namespace LifecycleManager

/-- No plugin is known. Source: `trust.rs`, `LifecycleManager` (`Default`). -/
def dflt : LifecycleManager := ⟨fun _ => none⟩

/-- Source: `trust.rs`, `LifecycleManager::state`. -/
def state (m : LifecycleManager) (id : String) : PluginLifecycle :=
  (m.states id).getD .uninstalled

/-- Source: `trust.rs`, `LifecycleManager::apply`. -/
def apply (m : LifecycleManager) (id : String) (requested : PluginLifecycle) :
    Except String PluginLifecycle × LifecycleManager :=
  let current := m.state id
  if transitionAllowed current requested then
    (.ok requested, ⟨Function.update m.states id (some requested)⟩)
  else
    (.error ("illegal lifecycle transition for `" ++ id ++ "`: " ++ current.asStr ++ " -> " ++
      requested.asStr), m)

end LifecycleManager

/-- The manager under requests for any plugins, accepted or not. -/
def lifecycle : Machine LifecycleManager (String × PluginLifecycle) where
  step m request := some (m.apply request.1 request.2).2

theorem state_apply (m : LifecycleManager) (id other : String) (requested : PluginLifecycle) :
    (m.apply id requested).2.state other =
      if other = id ∧ transitionAllowed (m.state id) requested = true then requested
      else m.state other := by
  unfold LifecycleManager.apply
  dsimp only
  split_ifs with hallowed hboth hboth
  · obtain ⟨rfl, -⟩ := hboth
    simp [LifecycleManager.state]
  · have hid : other ≠ id := fun h => hboth ⟨h, hallowed⟩
    simp [LifecycleManager.state, hid]
  · exact absurd hboth.2 hallowed
  · rfl

/-- The states that only an installation leads out of. -/
def OutOfService (s : PluginLifecycle) : Prop := s = .uninstalled ∨ s = .broken

/-- Out of service a plugin is moved on by an installation, or it stays out of service. -/
theorem outOfService_apply {m : LifecycleManager} {id : String} (h : OutOfService (m.state id))
    (request : String × PluginLifecycle) :
    OutOfService ((m.apply request.1 request.2).2.state id) ∨ request = (id, .installed) := by
  obtain ⟨other, requested⟩ := request
  rw [state_apply]
  split_ifs with hmoved
  · obtain ⟨rfl, hallowed⟩ := hmoved
    rcases h with h | h <;> rw [h] at hallowed <;> cases requested <;>
      simp_all [OutOfService, transitionAllowed]
  · exact .inl h

/-- **No way around the installation.** In every run from a state in which a plugin is broken or not
installed to one in which it is in service, its installation was requested, and accepted, at a time
at which it still was broken or not installed. -/
theorem enabled_only_installed (m t : LifecycleManager) (id : String)
    (requests : List (String × PluginLifecycle)) (hstart : OutOfService (m.state id))
    (hrun : lifecycle.run m requests = some t) (hend : ¬ OutOfService (t.state id)) :
    ∃ past rest s, requests = past ++ (id, .installed) :: rest ∧ lifecycle.run m past = some s ∧
      OutOfService (s.state id) ∧ (s.apply id .installed).1 = .ok .installed := by
  induction requests generalizing m with
  | nil =>
      obtain rfl : m = t := Option.some.inj hrun
      exact absurd hstart hend
  | cons request requests ih =>
      obtain ⟨m', hstep, hrest⟩ := lifecycle.run_cons_eq_some.mp hrun
      obtain rfl : (m.apply request.1 request.2).2 = m' := Option.some.inj hstep
      rcases outOfService_apply hstart request with hstay | rfl
      · obtain ⟨past, rest, s, rfl, hpast, hs, hok⟩ := ih _ hstay hrest
        exact ⟨request :: past, rest, s, rfl,
          lifecycle.run_cons_eq_some.mpr ⟨_, rfl, hpast⟩, hs, hok⟩
      · refine ⟨[], requests, m, rfl, rfl, hstart, ?_⟩
        unfold LifecycleManager.apply
        rcases hstart with h | h <;> simp [h, transitionAllowed]

/-- A broken plugin is enabled again by way of its installation. -/
theorem enabled_only_installed_repair :
    ∃ past rest s,
      [("p", PluginLifecycle.enabled), ("p", .installed), ("p", .enabled)] =
          past ++ ("p", .installed) :: rest ∧
        lifecycle.run ⟨fun _ => some .broken⟩ past = some s ∧ OutOfService (s.state "p") ∧
        (s.apply "p" .installed).1 = .ok .installed :=
  enabled_only_installed ⟨fun _ => some .broken⟩
    ⟨Function.update (Function.update (fun _ => some .broken) "p" (some .installed)) "p"
      (some .enabled)⟩ "p" _ (.inr rfl) rfl (by simp [OutOfService, LifecycleManager.state])

/-! ## The audit log -/

/-- What the audit log uses of `serde_json`. -/
structure AuditJson where
  sj : SerdeJson
  /-- `from_str`, or the text of its error. -/
  fromStr : List Char → Except String Json

/-- What is written of an event. Source: `audit.rs`, `append`. -/
def auditValue (seq : UInt64) (event : String) (detail : Json) : Json :=
  .object (insertField "detail" detail (insertField "event" (.string event)
    (insertField "seq" (.number (.posInt seq)) [])))

section audit

variable (J : AuditJson)

/-- The line of an event, without the line feed. Source: `audit.rs`, `append`. -/
def auditLine (seq : UInt64) (event : String) (detail : Json) : List Char :=
  ((auditValue seq event detail).text J.sj).toList

/-- One line of the file. Source: `audit.rs`, the loop of `read_all`. -/
def readEvent (line : List Char) : Except String (UInt64 × String × Json) :=
  match J.fromStr line with
  | .error e => .error e
  | .ok v => .ok ((asU64 (index v "seq")).getD 0, (index v "event").asStr.getD "", index v "detail")

/-- The events of the file, none where there is no file. Source: `audit.rs`, `read_all`. -/
def readAll (file : Option (List Char)) : Except String (List (UInt64 × String × Json)) :=
  match file with
  | none => .ok []
  | some raw => ((strLines raw).filter fun line => !(trim line).isEmpty).mapM (readEvent J)

/-- Source: `audit.rs`, `next_seq`; the sum is the one of a release build. -/
def nextSeq (file : Option (List Char)) : Except String UInt64 :=
  match readAll J file with
  | .error e => .error e
  | .ok trail => .ok ((trail.getLast?.map Prod.fst).getD 0 + 1)

/-- One event: the answer, and the file after it. Source: `audit.rs`, `append`. -/
def auditAppend (event : String × Json) (file : Option (List Char)) :
    Except String UInt64 × Option (List Char) :=
  match nextSeq J file with
  | .error e => (.error e, file)
  | .ok seq => (.ok seq, some (file.getD [] ++ (auditLine J seq event.1 event.2 ++ ['\n'])))

/-- The answers to the events of a run, and the file after it. -/
def auditRun : List (String × Json) → Option (List Char) →
    List (Except String UInt64) × Option (List Char)
  | [], file => ([], file)
  | event :: events, file =>
      let first := auditAppend J event file
      let rest := auditRun events first.2
      (first.1 :: rest.1, rest.2)

/-! ### What the file holds -/

/-- The lines of the events with their numbers. -/
def auditLines (numbered : List ((String × Json) × ℕ)) : List (List Char) :=
  numbered.map fun p => auditLine J (UInt64.ofNat p.2) p.1.1 p.1.2

/-- The text of the lines. -/
def auditText (numbered : List ((String × Json) × ℕ)) : List Char :=
  (auditLines J numbered).flatMap fun line => line ++ ['\n']

theorem auditText_append (xs ys : List ((String × Json) × ℕ)) :
    auditText J (xs ++ ys) = auditText J xs ++ auditText J ys := by
  simp [auditText, auditLines]

variable {J}

theorem readAll_eq (file : Option (List Char)) :
    readAll J file =
      ((strLines (file.getD [])).filter fun line => !(trim line).isEmpty).mapM (readEvent J) := by
  cases file with
  | none => rfl
  | some raw => rfl

/-- The line of an event is one line, whatever the event. -/
theorem auditLine_spec (hfloats : J.sj.PrintableFloats) (seq : UInt64) (event : String)
    (detail : Json) : '\n' ∉ auditLine J seq event detail ∧
      stripCr (auditLine J seq event detail) = auditLine J seq event detail ∧
      trim (auditLine J seq event detail) ≠ [] := by
  have hprint := printable_text hfloats (auditValue seq event detail)
  refine ⟨hprint.not_mem_newline, ?_, ?_⟩
  · rw [stripCr, if_neg]
    intro hlast
    exact absurd (hprint _ (List.mem_of_getLast? hlast)) (by decide)
  · have hbrace : '\x7b' ∈ auditLine J seq event detail := by
      rw [auditLine, auditValue, Json.text, String.toList_append, String.toList_append]
      simp
    exact trim_ne_nil hbrace (by decide)

/-- The lines of a file that events were written to. -/
theorem lines_auditText (hfloats : J.sj.PrintableFloats) (numbered : List ((String × Json) × ℕ)) :
    ((strLines (auditText J numbered)).filter fun line => !(trim line).isEmpty) =
      auditLines J numbered := by
  have hline : ∀ line ∈ auditLines J numbered,
      '\n' ∉ line ∧ stripCr line = line ∧ trim line ≠ [] := by
    intro line hmem
    obtain ⟨p, -, rfl⟩ := List.mem_map.mp hmem
    exact auditLine_spec hfloats _ _ _
  have hsplit := strLines_flatMap_append (fun line h => (hline line h).1) []
  rw [List.append_nil, List.map_congr_left fun line h => (hline line h).2.1, List.map_id'] at hsplit
  have hnone : strLines [] = [] := rfl
  rw [auditText, hsplit, hnone, List.append_nil]
  exact List.filter_eq_self.mpr fun line h => by simpa using (hline line h).2.2

/-- The fields of an event are in key order. -/
theorem auditValue_eq (seq : UInt64) (event : String) (detail : Json) :
    auditValue seq event detail =
      .object [("detail", detail), ("event", .string event), ("seq", .number (.posInt seq))] := by
  have hevent : "event" < "seq" := by decide
  have hdetail : "detail" < "event" := by decide
  simp only [auditValue, insertField, if_pos hevent, if_pos hdetail]

/-- A line that reads back as an event is read as it. -/
theorem readEvent_of_fromStr {line : List Char} {seq : UInt64} {event : String} {detail : Json}
    (h : J.fromStr line = .ok (auditValue seq event detail)) :
    readEvent J line = .ok (seq, event, detail) := by
  rw [readEvent, h, auditValue_eq]
  rfl

theorem mapM_eq_ok {ε α β : Type} {f : α → Except ε β} {g : α → β} {xs : List α}
    (h : ∀ x ∈ xs, f x = .ok (g x)) : xs.mapM f = .ok (xs.map g) := by
  induction xs with
  | nil => rfl
  | cons x xs ih =>
      rw [List.mapM_cons, h x List.mem_cons_self, ih fun y hy => h y (List.mem_cons_of_mem x hy)]
      rfl

/-- The event at a number reads back, with this detail. -/
def ReadsBack (J : AuditJson) (back : ℕ → Json) (p : (String × Json) × ℕ) : Prop :=
  J.fromStr (auditLine J (UInt64.ofNat p.2) p.1.1 p.1.2) =
    .ok (auditValue (UInt64.ofNat p.2) p.1.1 (back p.2))

/-- An event as it is read. -/
def readBack (back : ℕ → Json) (p : (String × Json) × ℕ) : UInt64 × String × Json :=
  (UInt64.ofNat p.2, p.1.1, back p.2)

section trail

variable {back : ℕ → Json} {numbered : List ((String × Json) × ℕ)} {file : Option (List Char)}

/-- **What was written is read**, where every event reads back. -/
theorem readAll_auditText (hfloats : J.sj.PrintableFloats)
    (hback : ∀ p ∈ numbered, ReadsBack J back p) (hfile : file.getD [] = auditText J numbered) :
    readAll J file = .ok (numbered.map (readBack back)) := by
  have hread : ∀ p ∈ numbered,
      readEvent J (auditLine J (UInt64.ofNat p.2) p.1.1 p.1.2) = .ok (readBack back p) :=
    fun p hp => readEvent_of_fromStr (hback p hp)
  rw [readAll_eq, hfile, lines_auditText hfloats, auditLines, List.mapM_map]
  exact mapM_eq_ok hread

/-- The number of the next event. -/
theorem nextSeq_auditText (hfloats : J.sj.PrintableFloats) {events : List (String × Json)}
    (hback : ∀ p ∈ events.zipIdx 1, ReadsBack J back p)
    (hfile : file.getD [] = auditText J (events.zipIdx 1)) :
    nextSeq J file = .ok (UInt64.ofNat (events.length + 1)) := by
  rw [nextSeq, readAll_auditText hfloats hback hfile]
  have hlast : (((events.zipIdx 1).map (readBack back)).getLast?.map Prod.fst).getD 0 =
      UInt64.ofNat events.length := by
    rcases List.eq_nil_or_concat events with rfl | ⟨events, event, rfl⟩
    · rfl
    · simp [List.zipIdx_append, readBack, Nat.add_comm]
  simp only [hlast, UInt64.ofNat_add]
  rfl

end trail

theorem zipIdx_snoc (events : List (String × Json)) (event : String × Json) :
    (events ++ [event]).zipIdx 1 = events.zipIdx 1 ++ [(event, events.length + 1)] := by
  simp [List.zipIdx_append, Nat.add_comm]

/-- One event more. -/
theorem auditAppend_auditText (hfloats : J.sj.PrintableFloats) {back : ℕ → Json}
    {events : List (String × Json)} (hback : ∀ p ∈ events.zipIdx 1, ReadsBack J back p)
    {file : Option (List Char)} (hfile : file.getD [] = auditText J (events.zipIdx 1))
    (event : String × Json) :
    auditAppend J event file = (.ok (UInt64.ofNat (events.length + 1)),
      some (auditText J ((events ++ [event]).zipIdx 1))) := by
  have htext : auditText J ((events ++ [event]).zipIdx 1) = auditText J (events.zipIdx 1) ++
      (auditLine J (UInt64.ofNat (events.length + 1)) event.1 event.2 ++ ['\n']) := by
    rw [zipIdx_snoc, auditText_append]
    simp [auditText, auditLines]
  rw [auditAppend, nextSeq_auditText hfloats hback hfile, htext, hfile]

theorem auditRun_append (J : AuditJson) (xs ys : List (String × Json))
    (file : Option (List Char)) :
    auditRun J (xs ++ ys) file =
      ((auditRun J xs file).1 ++ (auditRun J ys (auditRun J xs file).2).1,
        (auditRun J ys (auditRun J xs file).2).2) := by
  induction xs generalizing file with
  | nil => rfl
  | cons x xs ih => rw [List.cons_append, auditRun, ih]; rfl

/-- The answers and the file of a run whose events all read back. -/
theorem auditRun_eq (hfloats : J.sj.PrintableFloats) {back : ℕ → Json}
    (events : List (String × Json)) (hback : ∀ p ∈ events.zipIdx 1, ReadsBack J back p) :
    (auditRun J events none).1 = (events.zipIdx 1).map (fun p => .ok (UInt64.ofNat p.2)) ∧
      (auditRun J events none).2.getD [] = auditText J (events.zipIdx 1) := by
  induction events using List.reverseRecOn with
  | nil => exact ⟨rfl, rfl⟩
  | append_singleton events event ih =>
      have hbefore : ∀ p ∈ events.zipIdx 1, ReadsBack J back p := fun p hp =>
        hback p (by rw [zipIdx_snoc]; exact List.mem_append_left _ hp)
      obtain ⟨hanswers, hfile⟩ := ih hbefore
      have hstep := auditAppend_auditText hfloats hbefore hfile event
      rw [auditRun_append]
      simp only [auditRun, hstep, hanswers, Option.getD_some, and_true]
      simp [zipIdx_snoc]

/-- The file only grows. -/
theorem auditRun_prefix (J : AuditJson) (events : List (String × Json))
    (file : Option (List Char)) : file.getD [] <+: (auditRun J events file).2.getD [] := by
  induction events generalizing file with
  | nil => exact List.prefix_refl _
  | cons event events ih =>
      refine List.IsPrefix.trans ?_ (ih (auditAppend J event file).2)
      unfold auditAppend
      split
      · exact List.prefix_refl _
      · exact List.prefix_append _ _

/-- A file that is refused once is refused for good. -/
theorem auditRun_of_refused {file : Option (List Char)} {err : String}
    (h : readAll J file = .error err) (events : List (String × Json)) :
    auditRun J events file = (events.map fun _ => .error err, file) := by
  induction events with
  | nil => rfl
  | cons event events ih =>
      have hstep : auditAppend J event file = (.error err, file) := by
        simp only [auditAppend, nextSeq, h]
      simp only [auditRun, hstep, ih, List.map_cons]

theorem mapM_concat_error {ε α β : Type} {f : α → Except ε β} {g : α → β} {xs : List α} {x : α}
    {e : ε} (h : ∀ y ∈ xs, f y = .ok (g y)) (hx : f x = .error e) :
    (xs ++ [x]).mapM f = .error e := by
  rw [List.mapM_append, mapM_eq_ok h, List.mapM_cons, hx]
  rfl

/-- **The runs of the audit log.** From no file on, the events that read back are numbered from one
on in their order, and the trail that is read is these events with their numbers. Whatever is
written, the file only grows. An event that does not read back, as one that is nested too deep for
the parser, is written and answered with its number, and after it every event is refused with the
error of its line and the file stays as it is. -/
theorem audit_spec (J : AuditJson) (hfloats : J.sj.PrintableFloats) (back : ℕ → Json)
    (events : List (String × Json)) (hback : ∀ p ∈ events.zipIdx 1, ReadsBack J back p) :
    (auditRun J events none).1 = (events.zipIdx 1).map (fun p => .ok (UInt64.ofNat p.2)) ∧
    readAll J (auditRun J events none).2 = .ok ((events.zipIdx 1).map (readBack back)) ∧
    (∀ more, (auditRun J events none).2.getD [] <+:
      (auditRun J (events ++ more) none).2.getD []) ∧
    ∀ event more err,
      J.fromStr (auditLine J (UInt64.ofNat (events.length + 1)) event.1 event.2) = .error err →
      auditRun J (event :: more) (auditRun J events none).2 =
        (.ok (UInt64.ofNat (events.length + 1)) :: more.map fun _ => .error err,
          some (auditText J ((events ++ [event]).zipIdx 1))) := by
  obtain ⟨hanswers, hfile⟩ := auditRun_eq hfloats events hback
  refine ⟨hanswers, readAll_auditText hfloats hback hfile, fun more => ?_, ?_⟩
  · rw [auditRun_append]
    exact auditRun_prefix J more _
  · intro event more err herr
    have hstep := auditAppend_auditText hfloats hback hfile event
    have hrefused : readAll J (some (auditText J ((events ++ [event]).zipIdx 1))) = .error err := by
      have hline : readEvent J
          (auditLine J (UInt64.ofNat (events.length + 1)) event.1 event.2) = .error err := by
        simp only [readEvent, herr]
      have hbefore : ∀ p ∈ events.zipIdx 1,
          readEvent J (auditLine J (UInt64.ofNat p.2) p.1.1 p.1.2) = .ok (readBack back p) :=
        fun p hp => readEvent_of_fromStr (hback p hp)
      rw [readAll_eq, Option.getD_some, lines_auditText hfloats, auditLines, List.mapM_map,
        zipIdx_snoc]
      exact mapM_concat_error hbefore hline
    simp only [auditRun, hstep, auditRun_of_refused hrefused]

end audit

/-- Two events. -/
def demoEvents : List (String × Json) := [("install", .string "app"), ("approve", .null)]

/-- The crate on the lines of the two events. -/
def demoAudit : AuditJson where
  sj := .withoutFloats
  fromStr line :=
    match (demoEvents.zipIdx 1).find? fun p => decide
        (line = ((auditValue (UInt64.ofNat p.2) p.1.1 p.1.2).text .withoutFloats).toList) with
    | some p => .ok (auditValue (UInt64.ofNat p.2) p.1.1 p.1.2)
    | none => .error "expected value"

/-- The trail of the two events. -/
theorem audit_spec_demo :
    readAll demoAudit (auditRun demoAudit demoEvents none).2 =
      .ok [(1, "install", .string "app"), (2, "approve", .null)] := by
  have hback : ∀ p ∈ demoEvents.zipIdx 1,
      ReadsBack demoAudit (fun i => if i = 1 then .string "app" else .null) p := by
    intro p hp
    simp only [demoEvents, List.zipIdx_cons, List.zipIdx_nil, List.mem_cons, List.not_mem_nil,
      or_false] at hp
    rcases hp with rfl | rfl <;> rfl
  exact (audit_spec demoAudit (fun _ _ hc => absurd hc List.not_mem_nil) _ demoEvents hback).2.1

end AuraLauncher.Package
