import AuraLauncher.Domain.Splitting
import AuraLauncher.Lib.Machine
import AuraLauncher.Runner.Variables

/-!
# The contract of the variable store

What `set` and `get` of `Runner.Variables` owe each other, over every sequence of writes. In the
source `set` works on the store in place, and makes the namespace `var` before it looks at the
count; `setInPlace` is that method, and `setInPlace_eq` says that a refused write leaves no trace.

* `VariableStore.varFields` — the variables that are set; `IsName` — the names that `set` takes.
* `set_eq_ok_iff` — the inversion of `set`, with all that it checks.
* `get_of_not_leadsTo` — a write to one variable is seen on no path that does not lead to it.
* `SetContract` — what is asked of one write; `setContract_iff` — when one write has it.
* `setContract_along_iff` — when every write of a sequence has it.
-/

namespace AuraLauncher.Runner

open AuraLauncher.Domain AuraLauncher.Lib
open AuraLauncher.Workflow (Json insertField lookup_insertField lookup_insertField_of_ne
  length_insertField_le insertField_insertField)

variable (std : RustStd)

namespace VariableStore

/-! ## The method in place -/

/-- The write on a store that is changed in place: the root becomes an object and gets the
namespace before the count is looked at. Source: `v2.rs`, `VariableStore::set`. -/
def setInPlace (s : VariableStore) (path : String) (value : Json) :
    Except String Unit × VariableStore :=
  match splitNs std path with
  | .error e => (.error e, s)
  | .ok (ns, rest) =>
      if ns ≠ "var" then
        (.error ("namespace " ++ ns ++ " is read-only; variables live under var.*"), s)
      else if rest = "" ∨ rest.toList.contains '.' then
        (.error "use a single-segment var.<name> in v0.2", s)
      else
        let obj := s.root.asObject.getD []
        let nsObj := (obj.lookup "var").getD (.object [])
        let obj := if (obj.lookup "var").isSome then obj else insertField "var" nsObj obj
        match nsObj with
        | .object m =>
            if maxVariables ≤ m.length then (.error "too many variables", ⟨.object obj⟩)
            else (.ok (), ⟨.object (insertField "var" (.object (insertField rest value m)) obj)⟩)
        | _ => (.error "variable namespace is not an object", ⟨.object obj⟩)

variable {std} {s s' : VariableStore} {path name : String} {value : Json}

/-- Only an object has a field. -/
theorem root_of_lookup {v : Json} (h : (s.root.asObject.getD []).lookup "var" = some v) :
    s = ⟨.object (s.root.asObject.getD [])⟩ := by
  obtain ⟨root⟩ := s
  cases root with
  | object fields => rfl
  | _ => simp [Json.asObject] at h

/-- A write is done or leaves no trace: the root and the namespace are only made when the write is
then done. -/
theorem setInPlace_eq (s : VariableStore) (path : String) (value : Json) :
    s.setInPlace std path value =
      match s.set std path value with
      | .ok s' => (.ok (), s')
      | .error e => (.error e, s) := by
  unfold setInPlace set
  rcases splitNs std path with e | ⟨ns, rest⟩
  · rfl
  simp only [bind, Except.bind]
  by_cases hns : ns ≠ "var"
  · simp only [if_pos hns]
  by_cases hrest : rest = "" ∨ rest.toList.contains '.' = true
  · simp only [if_neg hns, if_pos hrest]
  simp only [if_neg hns, if_neg hrest]
  rcases hvar : (s.root.asObject.getD []).lookup "var" with _ | v
  · -- a namespace that is made now is empty
    simp [maxVariables, insertField_insertField]
  · have hroot := root_of_lookup hvar
    simp only [Option.getD_some, Option.isSome_some, if_true, ← hroot]
    cases v with
    | object m =>
        by_cases hfull : maxVariables ≤ m.length
        · simp only [if_pos hfull]
        · simp only [if_neg hfull]
    | _ => rfl

/-! ## What a write checks, and what it does -/

/-- The namespace `var`; a missing one is empty. -/
def varNamespace (s : VariableStore) : Json :=
  ((s.root.asObject.getD []).lookup "var").getD (.object [])

/-- The variables that are set. -/
def varFields (s : VariableStore) : List (String × Json) := s.varNamespace.asObject.getD []

/-- The variable is set. -/
def Has (s : VariableStore) (name : String) : Prop := (s.varFields.lookup name).isSome

/-- The names that a write takes: one segment. -/
structure IsName (name : String) : Prop where
  ne_empty : name ≠ ""
  no_dot : '.' ∉ name.toList

theorem splitNs_eq_ok_iff {ns rest : String} :
    splitNs std path = .ok (ns, rest) ↔ path = ns ++ "." ++ rest ∧ '.' ∉ ns.toList := by
  unfold splitNs
  constructor
  · intro h
    cases hsplit : splitOnce '.' path.toList with
    | none => simp [hsplit] at h
    | some p =>
        obtain ⟨a, b⟩ := p
        obtain ⟨hpath, hno⟩ := eq_of_splitOnce hsplit
        obtain ⟨rfl, rfl⟩ : String.ofList a = ns ∧ String.ofList b = rest := by
          simpa [hsplit] using h
        refine ⟨String.toList_inj.mp ?_, ?_⟩
        · simpa using hpath
        · simpa using hno
  · rintro ⟨rfl, hno⟩
    have htext : (ns ++ "." ++ rest).toList = ns.toList ++ '.' :: rest.toList := by simp
    rw [htext, splitOnce_append hno]
    simp

/-- A write to a variable, as it goes on after the path was looked at. -/
theorem set_of_isName (s : VariableStore) (h : IsName name) (value : Json) :
    s.set std ("var." ++ name) value =
      match s.varNamespace with
      | .object m =>
          if maxVariables ≤ m.length then .error "too many variables"
          else .ok ⟨.object (insertField "var" (.object (insertField name value m))
            (s.root.asObject.getD []))⟩
      | _ => .error "variable namespace is not an object" := by
  have hsplit : splitNs std ("var." ++ name) = .ok ("var", name) :=
    splitNs_eq_ok_iff.mpr ⟨rfl, by decide⟩
  have hname : ¬ (name = "" ∨ name.toList.contains '.' = true) := by
    simp [h.ne_empty, h.no_dot]
  simp only [set, hsplit, bind, Except.bind, ne_eq, not_true_eq_false, if_false, if_neg hname]
  rfl

/-- **The inversion of a write**: the path is that of a variable, the namespace is an object, and
there is room in it. -/
theorem set_eq_ok_iff :
    s.set std path value = .ok s' ↔
      ∃ name m, path = "var." ++ name ∧ IsName name ∧ s.varNamespace = .object m ∧
        m.length < maxVariables ∧
        s' = ⟨.object (insertField "var" (.object (insertField name value m))
          (s.root.asObject.getD []))⟩ := by
  constructor
  · intro h
    obtain ⟨⟨ns, rest⟩, hsplit, hrest⟩ := bind_eq_ok.mp (show splitNs std path >>= _ = _ from h)
    obtain ⟨rfl, hno⟩ := splitNs_eq_ok_iff.mp hsplit
    have hns : ns = "var" := by
      by_contra hne
      simp [hne] at hrest
    subst hns
    have hname : IsName rest := by
      by_contra hnot
      have hbad : rest = "" ∨ rest.toList.contains '.' = true := by
        by_contra hgood
        rw [not_or] at hgood
        exact hnot ⟨hgood.1, by simpa using hgood.2⟩
      simp only [ne_eq, not_true_eq_false, if_false, if_pos hbad] at hrest
      cases hrest
    rw [show "var" ++ "." ++ rest = "var." ++ rest from rfl, set_of_isName s hname value] at h
    cases hm : s.varNamespace with
    | object m =>
        simp only [hm] at h
        split_ifs at h with hfull
        exact ⟨rest, m, rfl, hname, rfl, Nat.lt_of_not_le hfull, (Except.ok.inj h).symm⟩
    | _ => simp [hm] at h
  · rintro ⟨name, m, rfl, hname, hm, hroom, rfl⟩
    simp only [set_of_isName s hname value, hm, if_neg (Nat.not_le.mpr hroom)]

/-- A write to an unfit name is refused for its name. -/
theorem set_of_not_isName (s : VariableStore) (h : ¬ IsName name) (value : Json) :
    s.set std ("var." ++ name) value = .error "use a single-segment var.<name> in v0.2" := by
  have hsplit : splitNs std ("var." ++ name) = .ok ("var", name) :=
    splitNs_eq_ok_iff.mpr ⟨rfl, by decide⟩
  have hname : name = "" ∨ name.toList.contains '.' = true := by
    by_contra hgood
    rw [not_or] at hgood
    exact h ⟨hgood.1, by simpa using hgood.2⟩
  simp only [set, hsplit, bind, Except.bind, ne_eq, not_true_eq_false, if_false, if_pos hname]

/-! ## What a path sees -/

/-- The segments of a path after its namespace. -/
def restSegments (rest : String) : List String :=
  if rest = "" then [] else (splitOn (· == '.') rest.toList).map String.ofList

/-- A reference is a walk along its segments. -/
theorem get_eq_walk (s : VariableStore) {ns : String} (h : ns = "var" ∨ ns = "input")
    (rest : String) :
    s.get std (ns ++ "." ++ rest) =
      .ok ((walkSegments s.root (ns :: restSegments rest)).map Value.fromJson) := by
  have hno : '.' ∉ ns.toList := by
    rcases h with rfl | rfl
    · decide
    · decide
  have hsplit : splitNs std (ns ++ "." ++ rest) = .ok (ns, rest) :=
    splitNs_eq_ok_iff.mpr ⟨rfl, hno⟩
  simp only [get, hsplit, bind, Except.bind, if_pos h, restSegments]
  by_cases hrest : rest = ""
  · simp only [if_pos hrest, walkSegments]
    cases s.root.get ns with
    | none => rfl
    | some v => rfl
  · have htext : (ns ++ "." ++ rest).toList = ns.toList ++ '.' :: rest.toList := by simp
    have hpieces : splitOn (· == '.') (ns.toList ++ '.' :: rest.toList) =
        ns.toList :: splitOn (· == '.') rest.toList := by
      rw [splitOn_append_cons (p := (· == '.')) ns.toList rest.toList rfl,
        splitOn_of_forall (forall_beq_eq_false hno)]
      rfl
    simp only [if_neg hrest, jsonWalk, htext, hpieces, List.map_cons, String.ofList_toList]

/-- A reference outside both namespaces does not look at the store. -/
theorem get_eq_of_ne (s s' : VariableStore) {ns rest : String}
    (hsplit : splitNs std path = .ok (ns, rest)) (h : ¬ (ns = "var" ∨ ns = "input")) :
    s.get std path = s'.get std path := by
  simp only [get, hsplit, bind, Except.bind, if_neg h]

/-- The path is that of the variable, goes on below it, or is that of the whole namespace. -/
def LeadsTo (name path : String) : Prop :=
  path = "var." ∨ path = "var." ++ name ∨ ("var." ++ name ++ ".").toList <+: path.toList

/-- A path below the namespace that does not lead to a variable goes to another one. -/
theorem exists_restSegments {rest : String} (h : ¬ LeadsTo name ("var." ++ rest)) :
    ∃ other segs, restSegments rest = other :: segs ∧ other ≠ name := by
  have hne : rest ≠ "" := by
    rintro rfl
    exact h (Or.inl rfl)
  rw [restSegments, if_neg hne]
  cases hsplit : splitOnce '.' rest.toList with
  | none =>
      have hno := forall_beq_eq_false (splitOnce_eq_none_iff.mp hsplit)
      refine ⟨rest, [], by simp [splitOn_of_forall hno], ?_⟩
      rintro rfl
      exact h (Or.inr (Or.inl rfl))
  | some p =>
      obtain ⟨a, b⟩ := p
      obtain ⟨hrest, hno⟩ := eq_of_splitOnce hsplit
      refine ⟨String.ofList a, (splitOn (· == '.') b).map String.ofList, ?_, ?_⟩
      · rw [hrest, splitOn_append_cons (p := (· == '.')) a b rfl,
          splitOn_of_forall (forall_beq_eq_false hno)]
        rfl
      · rintro rfl
        refine h (Or.inr (Or.inr ⟨b, ?_⟩))
        simp [hrest]

theorem root_get (s : VariableStore) (key : String) :
    s.root.get key = (s.root.asObject.getD []).lookup key := by
  obtain ⟨root⟩ := s
  cases root <;> rfl

/-- The field of the namespace, from the root. -/
theorem root_get_var {m : List (String × Json)} (h : s.varNamespace = .object m)
    (other : String) : ((s.root.get "var").bind fun v => v.get other) = m.lookup other := by
  rw [root_get]
  unfold varNamespace at h
  cases hvar : (s.root.asObject.getD []).lookup "var" with
  | none =>
      obtain rfl : [] = m := by simpa [hvar] using h
      rfl
  | some v =>
      obtain rfl : v = .object m := by simpa [hvar] using h
      rfl

theorem walkSegments_cons_cons (v : Json) (k l : String) (segs : List String) :
    walkSegments v (k :: l :: segs) =
      ((v.get k).bind fun w => w.get l).bind fun w => walkSegments w segs := by
  simp only [walkSegments]
  rw [Option.bind_assoc]

section written

variable {m : List (String × Json)}

/-- The store after a write. -/
abbrev written (s : VariableStore) (m : List (String × Json)) (name : String) (value : Json) :
    VariableStore :=
  ⟨.object (insertField "var" (.object (insertField name value m)) (s.root.asObject.getD []))⟩

theorem written_varNamespace (s : VariableStore) (m : List (String × Json)) (name : String)
    (value : Json) :
    (s.written m name value).varNamespace = .object (insertField name value m) := by
  simp [varNamespace, Json.asObject, lookup_insertField]

/-- The variable that was written has the value it was given. -/
theorem get_written (hname : IsName name) :
    (s.written m name value).get std ("var." ++ name) = .ok (some (Value.fromJson value)) := by
  have hno := forall_beq_eq_false hname.no_dot
  have hsegs : restSegments name = [name] := by
    simp [restSegments, hname.ne_empty, splitOn_of_forall hno]
  rw [show "var." ++ name = "var" ++ "." ++ name from rfl, get_eq_walk _ (Or.inl rfl), hsegs,
    walkSegments_cons_cons, root_get_var (written_varNamespace s m name value),
    lookup_insertField]
  rfl

/-- **A write to one variable** is seen on no path that does not lead to it. -/
theorem get_of_not_leadsTo (hm : s.varNamespace = .object m) {p : String}
    (hp : ¬ LeadsTo name p) :
    (s.written m name value).get std p = s.get std p := by
  rcases hsplit : splitNs std p with e | ⟨ns, rest⟩
  · simp only [get, hsplit, bind, Except.bind]
  by_cases hns : ns = "var" ∨ ns = "input"
  · obtain ⟨rfl, -⟩ := splitNs_eq_ok_iff.mp hsplit
    rw [get_eq_walk _ hns, get_eq_walk _ hns]
    congr 2
    rcases hns with rfl | rfl
    · obtain ⟨other, segs, hsegs, hother⟩ := exists_restSegments hp
      rw [hsegs, walkSegments_cons_cons, walkSegments_cons_cons,
        root_get_var (written_varNamespace s m name value), root_get_var hm,
        lookup_insertField_of_ne hother]
    · have hinput : (s.written m name value).root.get "input" = s.root.get "input" := by
        rw [root_get s]
        exact lookup_insertField_of_ne (by decide) _ _
      simp only [walkSegments, hinput]
  · exact get_eq_of_ne _ _ hsplit hns

end written

/-! ## The contract -/

variable (std) in
/-- What is asked of one write: the variables stay within the bound; a write that is done is seen at
the variable, with the value in the value domain of `get`, and on no path that leads elsewhere; a
refused one changes nothing; and a variable that is set is not refused for the count. -/
structure SetContract (s : VariableStore) (path : String) (value : Json) : Prop where
  within : (s.setInPlace std path value).2.varFields.length ≤ maxVariables
  stored : (s.setInPlace std path value).1 = .ok () → ∃ name, path = "var." ++ name ∧
    (s.setInPlace std path value).2.varFields.lookup name = some value ∧
    (s.setInPlace std path value).2.get std path = .ok (some (Value.fromJson value)) ∧
    ∀ p, ¬ LeadsTo name p → (s.setInPlace std path value).2.get std p = s.get std p
  rejected : ∀ e, (s.setInPlace std path value).1 = .error e →
    (s.setInPlace std path value).2 = s
  overwrites : ∀ name, path = "var." ++ name → s.Has name →
    (s.setInPlace std path value).1 ≠ .error "too many variables"

/-- The write is to a variable that is set, and the store is full. -/
def OverwritesFull (s : VariableStore) (path : String) : Prop :=
  s.varFields.length = maxVariables ∧ ∃ name, path = "var." ++ name ∧ IsName name ∧ s.Has name

theorem namespace_of_has (h : s.Has name) : s.varNamespace = .object s.varFields := by
  unfold Has varFields at h
  unfold varFields
  cases hns : s.varNamespace with
  | object m => rfl
  | _ => simp [hns, Json.asObject] at h

/-- A write keeps the variables within the bound. -/
theorem setInPlace_within (hs : s.varFields.length ≤ maxVariables) (path : String)
    (value : Json) : (s.setInPlace std path value).2.varFields.length ≤ maxVariables := by
  rw [setInPlace_eq]
  cases hset : s.set std path value with
  | error e => exact hs
  | ok s' =>
      obtain ⟨name, m, -, -, -, hroom, rfl⟩ := set_eq_ok_iff.mp hset
      rw [varFields, written_varNamespace]
      exact (length_insertField_le name value m).trans hroom

/-- **One write** to a store within the bound meets the contract unless it overwrites in a full
store. -/
theorem setContract_iff (hs : s.varFields.length ≤ maxVariables) (path : String) (value : Json) :
    SetContract std s path value ↔ ¬ s.OverwritesFull path := by
  constructor
  · rintro h ⟨hfull, name, rfl, hname, hhas⟩
    apply h.overwrites name rfl hhas
    rw [setInPlace_eq, set_of_isName s hname value, namespace_of_has hhas]
    simp only [hfull, le_refl, if_true]
  · intro h
    cases hset : s.set std path value with
    | error e =>
        have hin : s.setInPlace std path value = (.error e, s) := by
          rw [setInPlace_eq, hset]
        refine ⟨setInPlace_within hs path value, ?_, ?_, ?_⟩
        · rw [hin]
          intro hok
          cases hok
        · intro e' _
          rw [hin]
        · rintro name rfl hhas hmany
          rw [hin] at hmany
          obtain rfl : e = "too many variables" := Except.error.inj hmany
          by_cases hname : IsName name
          · rw [set_of_isName s hname value, namespace_of_has hhas] at hset
            simp only at hset
            split_ifs at hset with hfull
            exact h ⟨Nat.le_antisymm hs hfull, name, rfl, hname, hhas⟩
          · rw [set_of_not_isName s hname value] at hset
            exact absurd (Except.error.inj hset) (by decide)
    | ok s' =>
        have hin : s.setInPlace std path value = (.ok (), s') := by
          rw [setInPlace_eq, hset]
        obtain ⟨name, m, rfl, hname, hm, hroom, rfl⟩ := set_eq_ok_iff.mp hset
        refine ⟨setInPlace_within hs _ value, ?_, ?_, ?_⟩
        · rw [hin]
          intro _
          refine ⟨name, rfl, ?_, get_written hname, fun p hp => get_of_not_leadsTo hm hp⟩
          rw [varFields, written_varNamespace]
          exact lookup_insertField name value m
        · intro e he
          rw [hin] at he
          cases he
        · rintro _ - - hmany
          rw [hin] at hmany
          cases hmany

end VariableStore

/-- The store under a sequence of writes, each of which may be refused. -/
def variableWrites : Machine VariableStore (String × Json) where
  step s w := some (s.setInPlace std w.1 w.2).2

/-- **The contract over every sequence of writes.** From a snapshot within the bound, every write of
a sequence meets the contract exactly when none of them is to a variable that is set while the
store is full. -/
theorem setContract_along_iff (snapshot : Option Json) (writes : List (String × Json))
    (h : (VariableStore.fromSnapshot snapshot).varFields.length ≤ maxVariables) :
    (variableWrites std).Along (fun s w => s.SetContract std w.1 w.2)
        (VariableStore.fromSnapshot snapshot) writes ↔
      (variableWrites std).Along (fun s w => ¬ s.OverwritesFull w.1)
        (VariableStore.fromSnapshot snapshot) writes := by
  have hkeep : ∀ (s : VariableStore) (w : String × Json) (s' : VariableStore),
      s.varFields.length ≤ maxVariables → (variableWrites std).step s w = some s' →
      s'.varFields.length ≤ maxVariables := by
    intro s w s' hs hstep
    obtain rfl : (s.setInPlace std w.1 w.2).2 = s' := Option.some.inj hstep
    exact VariableStore.setInPlace_within hs w.1 w.2
  constructor
  · intro halong
    refine halong.imp_inv (fun s w s' hs _ => hkeep s w s' hs) h fun s w hs hw => ?_
    exact (VariableStore.setContract_iff hs w.1 w.2).mp hw
  · intro halong
    refine halong.imp_inv (fun s w s' hs _ => hkeep s w s' hs) h fun s w hs hw => ?_
    exact (VariableStore.setContract_iff hs w.1 w.2).mpr hw

/-- A new store meets the contract on two writes to one variable. -/
theorem setContract_along_twice :
    (variableWrites RustStd.ascii).Along (fun s w => s.SetContract RustStd.ascii w.1 w.2)
      (VariableStore.fromSnapshot none) [("var.x", .null), ("var.x", .bool true)] := by
  refine (setContract_along_iff RustStd.ascii none [("var.x", .null), ("var.x", .bool true)]
    (Nat.zero_le _)).mpr ⟨?_, fun s' hs' => ⟨?_, fun _ _ => trivial⟩⟩
  · rintro ⟨hfull, -⟩
    exact absurd hfull (by decide)
  · obtain rfl := Option.some.inj hs'
    rintro ⟨hfull, -⟩
    exact absurd hfull (by decide)

/-- A snapshot with as many variables as there may be: `a`, `aa` and so on. -/
def fullSnapshot : Json :=
  .object [("var", .object ((List.range maxVariables).map fun n =>
    (String.ofList (List.replicate (n + 1) 'a'), .null)))]

/-- A full store refuses to set a variable that it has. -/
theorem not_setContract_full :
    ¬ ∀ (snapshot : Option Json) (writes : List (String × Json)),
      (VariableStore.fromSnapshot snapshot).varFields.length ≤ maxVariables →
      (variableWrites RustStd.ascii).Along (fun s w => s.SetContract RustStd.ascii w.1 w.2)
        (VariableStore.fromSnapshot snapshot) writes := by
  intro h
  have hfull : (VariableStore.fromSnapshot (some fullSnapshot)).varFields.length = maxVariables :=
    (List.length_map _).trans List.length_range
  have hwrite := h (some fullSnapshot) [("var.a", .bool true)] (le_of_eq hfull)
  refine (VariableStore.setContract_iff (le_of_eq hfull) "var.a" (.bool true)).mp hwrite.1 ?_
  exact ⟨hfull, "a", rfl, ⟨by decide, by decide⟩, rfl⟩

end AuraLauncher.Runner
