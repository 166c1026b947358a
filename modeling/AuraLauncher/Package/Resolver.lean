import AuraLauncher.Lib.PostOrder
import Mathlib.Data.Finset.Dedup

/-!
# Install plans

`resolver.rs`: the packages that a request needs, as a list in which every package comes after the
packages it depends on.

* `emit`, `resolve` — the recursive search, with its three pieces of mutable state. The depth of the
  recursion is bounded by one more than the index is long; `resolve_returns` says that no call goes
  deeper.
* `emit_eq`, `searched_eq` — it is the search of `Lib.PostOrder` on the table of dependencies.
* `Needed` — what a request leads to; `InstallOrder` — what a plan is to be.
* `resolve_spec` — a plan is given exactly when all that is needed is in the index and depends on
  itself nowhere, and then it is an install order.
* `resolve_error_spec` — otherwise the error names a package that is missing, with one that asks for
  it, or a cycle.
-/

namespace AuraLauncher.Package

open AuraLauncher.Lib Relation

/-- One package known to the resolver. Source: `resolver.rs`, `PackageMeta`. -/
structure PackageMeta where
  id : String
  version : String
  depends : List String
  deriving DecidableEq

/-- The packages to install, in order. Source: `resolver.rs`, `InstallPlan`. -/
structure InstallPlan where
  steps : List PackageMeta
  deriving DecidableEq

/-- Source: `resolver.rs`, `ResolveError`. -/
inductive ResolveError
  | missingDependency (package missing : String)
  | dependencyCycle (chain : List String)
  deriving DecidableEq

/-- Source: `resolver.rs`, `Display for ResolveError`. -/
def ResolveError.text : ResolveError → String
  | .missingDependency package missing =>
      "`" ++ package ++ "` depends on `" ++ missing ++ "`, which is not in the repository index"
  | .dependencyCycle chain => "dependency cycle: " ++ " -> ".intercalate chain

/-- The table of the index by id; of two entries with one id the later counts.
Source: `resolver.rs`, `resolve` (`by_id`). -/
def byId (index : List PackageMeta) (id : String) : Option PackageMeta :=
  index.reverse.find? fun p => p.id = id

/-- The mutable state of the search. Source: `resolver.rs`, `resolve`. -/
structure Resolving where
  plan : List PackageMeta
  placed : Finset String
  visiting : List String

/-- One call for `id`; `none` when the recursion is not given enough depth.
Source: `resolver.rs`, `emit`. -/
def emit (table : String → Option PackageMeta) :
    ℕ → String → Resolving → Option (Except ResolveError Resolving)
  | 0, _, _ => none
  | depth + 1, id, s =>
      if id ∈ s.placed then some (.ok s)
      else if s.visiting.any fun v => v = id then
        some (.error (.dependencyCycle (s.visiting ++ [id])))
      else
        match table id with
        | none => some (.error (.missingDependency (s.visiting.getLast?.getD "") id))
        | some found =>
            match PostOrder.each (emit table depth) found.depends
                { s with visiting := s.visiting ++ [id] } with
            | some (.ok s') =>
                some (.ok { plan := s'.plan ++ [found], placed := insert id s'.placed,
                            visiting := s'.visiting.dropLast })
            | some (.error e) => some (.error e)
            | none => none

/-- The calls for the requested packages in turn. Source: `resolver.rs`, `resolve`. -/
def searched (index : List PackageMeta) (requested : List String) :
    Option (Except ResolveError Resolving) :=
  PostOrder.each (emit (byId index) (index.length + 1)) requested ⟨[], ∅, []⟩

/-- Source: `resolver.rs`, `resolve`. -/
def resolve (index : List PackageMeta) (requested : List String) :
    Option (Except ResolveError InstallPlan) :=
  match requested.find? fun r => (byId index r).isNone with
  | some r => some (.error (.missingDependency "<request>" r))
  | none => (searched index requested).map (PostOrder.translate (fun s => ⟨s.plan⟩) id)

example : resolve [⟨"app", "1", ["b", "a"]⟩, ⟨"b", "1", ["a"]⟩, ⟨"a", "1", []⟩] ["app"] =
    some (.ok ⟨[⟨"a", "1", []⟩, ⟨"b", "1", ["a"]⟩, ⟨"app", "1", ["b", "a"]⟩]⟩) := by
  decide

/-! ## The search as one on a graph -/

section Table

variable {table : String → Option PackageMeta}

/-- The table of dependencies. -/
def dependsTable (table : String → Option PackageMeta) (id : String) : Option (List String) :=
  (table id).map (·.depends)

/-- The state of the search at the end of `path` with the ids of `order` placed. -/
def Resolving.of (table : String → Option PackageMeta) (path order : List String) : Resolving where
  plan := order.filterMap table
  placed := order.toFinset
  visiting := path

/-- The error for what a search on the graph stops at. -/
def ResolveError.of : PostOrder.Halt String → ResolveError
  | .missing parent id => .missingDependency (parent.getD "") id
  | .cycle chain => .dependencyCycle chain

theorem emit_eq (depth : ℕ) (path order : List String) (id : String) :
    emit table depth id (.of table path order) =
      (PostOrder.visit (dependsTable table) depth path id order).map
        (PostOrder.translate (.of table path) .of) := by
  induction depth generalizing path order id with
  | zero => rfl
  | succ depth ih =>
      have hany : (path.any fun v => v = id) = true ↔ id ∈ path := by simp
      simp only [emit, PostOrder.visit, Resolving.of, List.mem_toFinset, hany]
      split_ifs with hplaced hvisiting
      · rfl
      · rfl
      · cases hfound : table id with
        | none => simp [dependsTable, hfound, PostOrder.translate, ResolveError.of]
        | some found =>
            have heach := PostOrder.each_translate (b := emit table depth)
              (fun x s => ih (path ++ [id]) s x) found.depends order
            simp only [Resolving.of] at heach
            simp only [dependsTable, hfound, Option.map_some, heach]
            rcases PostOrder.each (PostOrder.visit (dependsTable table) depth (path ++ [id]))
              found.depends order with _ | halt | order'
            · rfl
            · rfl
            · simp [PostOrder.translate, Resolving.of, hfound]

end Table

theorem searched_eq (index : List PackageMeta) (requested : List String) :
    searched index requested =
      (PostOrder.search (dependsTable (byId index)) (index.length + 1) requested).map
        (PostOrder.translate (.of (byId index) []) .of) :=
  PostOrder.each_translate (fun x s => emit_eq _ [] s x) requested []

/-! ## What a request needs -/

variable {index : List PackageMeta} {requested : List String}

/-- The package that the index has under `x` asks for `y`. -/
def Depends (index : List PackageMeta) (x y : String) : Prop :=
  ∃ p, byId index x = some p ∧ y ∈ p.depends

/-- A requested package, or one that a needed package asks for. -/
def Needed (index : List PackageMeta) (requested : List String) (x : String) : Prop :=
  ∃ r ∈ requested, ReflTransGen (Depends index) r x

/-- What a plan for a request is to be. -/
structure InstallOrder (index : List PackageMeta) (requested : List String) (plan : InstallPlan) :
    Prop where
  /-- Every step is the entry that the index has under its id. -/
  entries : ∀ p ∈ plan.steps, byId index p.id = some p
  /-- No package is installed twice. -/
  once : (plan.steps.map (·.id)).Nodup
  /-- The packages are those that the request needs. -/
  exactly : ∀ x, x ∈ plan.steps.map (·.id) ↔ Needed index requested x
  /-- What a package depends on is installed before it. -/
  first : ∀ before p after, plan.steps = before ++ p :: after →
    ∀ d ∈ p.depends, d ∈ before.map (·.id)

/-- An error that names what is wrong: a package that the index does not have, with the package that
asks for it, or a path from a requested package that comes back to one of its own packages. -/
def ResolveError.Genuine (index : List PackageMeta) (requested : List String) :
    ResolveError → Prop
  | .missingDependency package missing =>
      byId index missing = none ∧
        (package = "<request>" ∧ missing ∈ requested ∨
          Needed index requested package ∧ Depends index package missing)
  | .dependencyCycle chain =>
      chain.IsChain (Depends index) ∧ (∀ r ∈ chain.head?, r ∈ requested) ∧
        ∃ path x, chain = path ++ [x] ∧ path.Nodup ∧ x ∈ path

theorem byId_eq_some {id : String} {p : PackageMeta} (h : byId index id = some p) :
    p ∈ index ∧ p.id = id := by
  have hid := List.find?_some h
  exact ⟨List.mem_reverse.mp (List.mem_of_find?_eq_some h), by simpa using hid⟩

theorem byId_isSome_iff {id : String} : (byId index id).isSome ↔ id ∈ index.map (·.id) := by
  simp [byId]

theorem edge_iff {x y : String} :
    PostOrder.Edge (dependsTable (byId index)) x y ↔ Depends index x y := by
  simp only [PostOrder.Edge, dependsTable, Option.map_eq_some_iff, Depends]
  constructor
  · rintro ⟨_, ⟨p, hp, rfl⟩, hy⟩
    exact ⟨p, hp, hy⟩
  · rintro ⟨p, hp, hy⟩
    exact ⟨p.depends, ⟨p, hp, rfl⟩, hy⟩

theorem edge_eq : PostOrder.Edge (dependsTable (byId index)) = Depends index := by
  funext x y
  exact propext edge_iff

theorem reached_iff {x : String} :
    PostOrder.Reached (dependsTable (byId index)) requested x ↔ Needed index requested x := by
  rw [PostOrder.Reached, Needed, edge_eq]

/-- The ids that the index knows; there are not more of them than the depth bound allows. -/
theorem known_card_lt (index : List PackageMeta) :
    (index.map (·.id)).toFinset.card < index.length + 1 := by
  have hcard := List.toFinset_card_le (index.map (·.id))
  rw [List.length_map] at hcard
  omega

theorem isSome_dependsTable {x : String} :
    (dependsTable (byId index) x).isSome = (byId index x).isSome :=
  Option.isSome_map

theorem mem_known {x : String} (h : (dependsTable (byId index) x).isSome) :
    x ∈ (index.map (·.id)).toFinset := by
  rw [isSome_dependsTable] at h
  exact List.mem_toFinset.mpr (byId_isSome_iff.mp h)

/-- The resolver comes back. -/
theorem resolve_returns : (resolve index requested).isSome := by
  have hsome := PostOrder.search_isSome (fun _ => mem_known) (known_card_lt index)
    requested
  unfold resolve
  split
  · rfl
  · rw [searched_eq, Option.isSome_map, Option.isSome_map]
    exact hsome

/-- A request without unknown packages is answered by the search. -/
theorem resolve_of_known (h : ∀ r ∈ requested, (byId index r).isSome) :
    resolve index requested =
      (searched index requested).map (PostOrder.translate (fun s => ⟨s.plan⟩) id) := by
  have hfind : (requested.find? fun r => (byId index r).isNone) = none := by
    rw [List.find?_eq_none]
    intro r hr
    simpa [Option.isSome_iff_ne_none] using h r hr
  rw [resolve, hfind]

/-- A plan comes from a search that came through. -/
theorem resolve_eq_ok {plan : InstallPlan} (h : resolve index requested = some (.ok plan)) :
    ∃ order, PostOrder.search (dependsTable (byId index)) (index.length + 1) requested =
      some (.ok order) ∧ plan.steps = order.filterMap (byId index) := by
  unfold resolve at h
  split at h
  · simp at h
  · rw [searched_eq] at h
    rcases hsearch : PostOrder.search (dependsTable (byId index)) (index.length + 1) requested with
      _ | halt | order
    · simp [hsearch] at h
    · simp [hsearch, PostOrder.translate] at h
    · refine ⟨order, rfl, ?_⟩
      simp only [hsearch, Option.map_some, PostOrder.translate, Option.some.injEq,
        Except.ok.injEq] at h
      rw [← h]
      rfl

/-- The entries of known ids, one for one. -/
theorem map_id_filterMap {order : List String} (h : ∀ x ∈ order, (byId index x).isSome) :
    (order.filterMap (byId index)).map (·.id) = order := by
  induction order with
  | nil => rfl
  | cons x order ih =>
      obtain ⟨p, hp⟩ := Option.isSome_iff_exists.mp (h x List.mem_cons_self)
      rw [List.filterMap_cons_some hp, List.map_cons, (byId_eq_some hp).2,
        ih fun y hy => h y (List.mem_cons_of_mem x hy)]

theorem installOrder_of_ok {plan : InstallPlan} (h : resolve index requested = some (.ok plan)) :
    InstallOrder index requested plan := by
  obtain ⟨order, hsearch, hsteps⟩ := resolve_eq_ok h
  obtain ⟨hnodup, hsorted, hmem⟩ := PostOrder.search_ok hsearch
  have hknown : ∀ x ∈ order, (byId index x).isSome := by
    intro x hx
    have hsome := hsorted.known hx
    rwa [isSome_dependsTable] at hsome
  have hids : plan.steps.map (·.id) = order := by rw [hsteps, map_id_filterMap hknown]
  have hentries : ∀ p ∈ plan.steps, byId index p.id = some p := by
    intro p hp
    rw [hsteps] at hp
    obtain ⟨x, -, hx⟩ := List.mem_filterMap.mp hp
    rw [(byId_eq_some hx).2, hx]
  refine ⟨hentries, hids ▸ hnodup, fun x => by rw [hids, hmem, reached_iff], ?_⟩
  intro before p after hsplit d hd
  have hp : byId index p.id = some p := hentries p (by simp [hsplit])
  obtain ⟨ds, hds, hall⟩ := hsorted (before.map (·.id)) p.id (after.map (·.id))
    (by rw [← hids, hsplit, List.map_append, List.map_cons])
  obtain rfl : p.depends = ds := by simpa [dependsTable, hp] using hds
  exact hall d hd

/-- **The resolver is right**: it gives a plan when, and only when, every package that the request
leads to is in the index and no such package depends on itself; the plan lists these packages, each
once, as the index has them, and after all they depend on. -/
theorem resolve_spec (index : List PackageMeta) (requested : List String) :
    ((∃ plan, resolve index requested = some (.ok plan)) ↔
      ∀ x, Needed index requested x →
        (byId index x).isSome ∧ ¬ TransGen (Depends index) x x) ∧
    ∀ plan, resolve index requested = some (.ok plan) → InstallOrder index requested plan := by
  have hexact := PostOrder.search_ok_iff (fun _ => mem_known) (known_card_lt index)
    requested
  simp only [reached_iff, edge_eq, isSome_dependsTable] at hexact
  refine ⟨⟨?_, fun hall => ?_⟩, fun plan => installOrder_of_ok⟩
  · rintro ⟨plan, h⟩
    obtain ⟨order, hsearch, -⟩ := resolve_eq_ok h
    exact hexact.mp ⟨order, hsearch⟩
  · obtain ⟨order, hsearch⟩ := hexact.mpr hall
    have hrequested : ∀ r ∈ requested, (byId index r).isSome :=
      fun r hr => (hall r ⟨r, hr, .refl⟩).1
    rw [resolve_of_known hrequested, searched_eq, hsearch]
    exact ⟨⟨order.filterMap (byId index)⟩, rfl⟩

/-- **The errors are right**: the resolver always answers, and when it gives no plan it names a
package that is missing from the index together with the request or the needed package that asks for
it, or the path from a requested package that closes a cycle. -/
theorem resolve_error_spec (index : List PackageMeta) (requested : List String) :
    (resolve index requested).isSome ∧
      ∀ e, resolve index requested = some (.error e) → e.Genuine index requested := by
  refine ⟨resolve_returns, fun e h => ?_⟩
  unfold resolve at h
  split at h
  · next r hr =>
      obtain rfl : ResolveError.missingDependency "<request>" r = e := by simpa using h
      have hnone := List.find?_some hr
      exact ⟨by simpa using hnone, .inl ⟨rfl, List.mem_of_find?_eq_some hr⟩⟩
  · next hknown =>
      rw [searched_eq] at h
      rcases hsearch : PostOrder.search (dependsTable (byId index)) (index.length + 1) requested
        with _ | halt | order
      · simp [hsearch] at h
      · obtain rfl : ResolveError.of halt = e := by
          simpa [hsearch, PostOrder.translate] using h
        have hgenuine := PostOrder.search_error hsearch
        match halt, hgenuine with
        | .missing none x, ⟨hx, hnone⟩ =>
            -- the requested packages are all known
            have hsome := List.find?_eq_none.mp hknown x hx
            simp [dependsTable] at hnone
            simp [hnone] at hsome
        | .missing (some p) x, ⟨hp, hpx, hnone⟩ =>
            refine ⟨by simpa [dependsTable] using hnone, .inr ⟨reached_iff.mp hp, ?_⟩⟩
            exact edge_iff.mp hpx
        | .cycle chain, ⟨⟨hchain, hhead⟩, hback⟩ =>
            exact ⟨edge_eq ▸ hchain, hhead, hback⟩
      · simp [hsearch, PostOrder.translate] at h

end AuraLauncher.Package
