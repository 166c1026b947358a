import AuraLauncher.Domain.Workflow

/-!
# Run-scoped variables and input templates

`launcher-workflow/src/v2.rs`: the variable store of a run and the templates in the input of a
step.

* `VariableStore` — the store, backed by the snapshot in the run record; `get`, `set`.
* `materializeInput` — the input of a step with its `${…}` references replaced. A reference that
  cannot be resolved is an error, and so is a template in an identity field.
* `materializeInput_eq_self` — an input without strings that hold `${` is passed on as it is.
-/

namespace AuraLauncher.Runner

open AuraLauncher.Domain
open AuraLauncher.Workflow (Json insertField)

variable (std : RustStd)

/-! ## The store -/

/-- The variables of a run, an object with the fields `var` and `input`. Source: `v2.rs`,
`VariableStore`. -/
structure VariableStore where
  root : Json

/-- The value at a path of field names. Source: `v2.rs`, `json_walk` (the loop). -/
def walkSegments : Json → List String → Option Json
  | v, [] => some v
  | v, seg :: segs => (v.get seg).bind fun w => walkSegments w segs

/-- The value at a dotted path. Source: `v2.rs`, `json_walk`. -/
def jsonWalk (root : Json) (path : String) : Option Json :=
  walkSegments root ((splitOn (· == '.') path.toList).map String.ofList)

/-- The namespace of a path and what follows it. Source: `v2.rs`, `split_ns`. -/
def splitNs (path : String) : Except String (String × String) :=
  match splitOnce '.' path.toList with
  | some (ns, rest) => .ok (String.ofList ns, String.ofList rest)
  | none =>
      .error ("bare variable " ++ std.strDebug path ++ " forbidden; use var.*/input.*")

namespace VariableStore

/-- Source: `v2.rs`, `VariableStore::from_snapshot`. -/
def fromSnapshot : Option Json → VariableStore
  | some (.object fields) => ⟨.object fields⟩
  | _ => ⟨.object []⟩

/-- Source: `v2.rs`, `VariableStore::snapshot`. -/
def snapshot (s : VariableStore) : Option Json :=
  match s.root with
  | .object [] => none
  | v => some v

/-- The value of a namespaced reference; `.ok none` when it is not set. Source: `v2.rs`,
`VariableStore::get`. -/
def get (s : VariableStore) (path : String) : Except String (Option Value) := do
  let (ns, rest) ← splitNs std path
  if ns = "var" ∨ ns = "input" then
    if rest = "" then .ok ((s.root.get ns).map Value.fromJson)
    else .ok ((jsonWalk s.root (ns ++ "." ++ rest)).map Value.fromJson)
  else if ns = "workflow" ∨ ns = "step" then .ok (some .null)
  else .error ("unknown variable namespace " ++ ns)

/-- The store with the variable `var.<name>` set. Source: `v2.rs`, `VariableStore::set`. -/
def set (s : VariableStore) (path : String) (value : Json) : Except String VariableStore := do
  let (ns, rest) ← splitNs std path
  if ns ≠ "var" then
    .error ("namespace " ++ ns ++ " is read-only; variables live under var.*")
  else if rest = "" ∨ rest.toList.contains '.' then
    .error "use a single-segment var.<name> in v0.2"
  else
    let obj := s.root.asObject.getD []
    match (obj.lookup "var").getD (.object []) with
    | .object m =>
        if maxVariables ≤ m.length then .error "too many variables"
        else .ok ⟨.object (insertField "var" (.object (insertField rest value m)) obj)⟩
    | _ => .error "variable namespace is not an object"

end VariableStore

/-! ## Templates -/

variable (store : VariableStore)

/-- The characters that open a template. -/
def templateOpen : List Char := ['$', '\x7b']

/-- The value of a reference in a template, which must be set. Source: `v2.rs`,
`materialize_string`. -/
def reference (path : String) : Except String Value := do
  match ← store.get std path with
  | some v => .ok v
  | none => .error ("unknown variable reference " ++ path)

/-- The text of a value inside a longer text. Source: `v2.rs`, `materialize_string`. -/
def interpolated (path : String) : Value → Except String String
  | .string t => .ok t
  | .number x => .ok (std.floatDisplay x)
  | .bool true => .ok "true"
  | .bool false => .ok "false"
  | _ => .error ("variable " ++ path ++ " is not string-interpolatable")

/-- Embedded references replaced by their texts, with a bound on the characters that are left; `s`
is the whole text. Source: `v2.rs`, `materialize_string` (the loop). -/
def interpolate (s : String) : ℕ → List Char → Except String (List Char)
  | 0, rest => .ok rest
  | n + 1, rest =>
      match findSub templateOpen rest with
      | none => .ok rest
      | some (before, found) =>
          match splitOnce '\x7d' (found.drop 2) with
          | none => .error ("unterminated template in " ++ std.strDebug s)
          | some (path, rest) => do
              let v ← reference std store (String.ofList path)
              let text ← interpolated std (String.ofList path) v
              let out ← interpolate s n rest
              return before ++ text.toList ++ out

/-- The path of a text that is exactly one template. Source: `v2.rs`, `materialize_string`. -/
def wholeTemplate (s : String) : Option String :=
  let trimmed := trim s.toList
  if templateOpen.isPrefixOf trimmed then
    let rest := trimmed.drop 2
    if rest.getLast? = some '\x7d' then some (String.ofList rest.dropLast) else none
  else none

/-- Source: `v2.rs`, `materialize_string`. -/
def materializeString (s : String) : Except String Json :=
  match wholeTemplate s with
  | some path => (reference std store path).map Value.toJson
  | none =>
      if hasSub templateOpen s.toList then
        (interpolate std store s s.toList.length s.toList).map fun out =>
          .string (String.ofList out)
      else .ok (.string s)

/-- Whether a field is an identity field with a template in it. Source: `v2.rs`,
`materialize_input`. -/
def isIdentityTemplate (key : String) (v : Json) : Bool :=
  (key == "server_id" || key == "tool_name") &&
    (v.asStr.map fun s => hasSub templateOpen s.toList).getD false

mutual

/-- Source: `v2.rs`, `materialize_input`. -/
def materializeInput : Json → Except String Json
  | .string s => materializeString std store s
  | .array items => do
      let out ← materializeItems items
      return .array out
  | .object fields => do
      let out ← materializeFields fields
      return .object out
  | v => .ok v

/-- The items of an array in turn. -/
def materializeItems : List Json → Except String (List Json)
  | [] => .ok []
  | v :: items => do
      let w ← materializeInput v
      let out ← materializeItems items
      return w :: out

/-- The fields of an object in turn; a template in an identity field is refused. -/
def materializeFields : List (String × Json) → Except String (List (String × Json))
  | [] => .ok []
  | (k, v) :: fields =>
      if isIdentityTemplate k v then
        .error ("identity field " ++ k ++ " must be definition-bound; templates forbidden")
      else do
        let w ← materializeInput v
        let out ← materializeFields fields
        return (k, w) :: out

end

mutual

/-- Whether no string in a value holds `${`; the names of fields do not count. -/
def templateFree : Json → Bool
  | .string s => !hasSub templateOpen s.toList
  | .array items => itemsTemplateFree items
  | .object fields => fieldsTemplateFree fields
  | _ => true

/-- Whether no string in the items of an array holds `${`. -/
def itemsTemplateFree : List Json → Bool
  | [] => true
  | v :: items => templateFree v && itemsTemplateFree items

/-- Whether no string in the fields of an object holds `${`. -/
def fieldsTemplateFree : List (String × Json) → Bool
  | [] => true
  | (_, v) :: fields => templateFree v && fieldsTemplateFree fields

end

variable {std store}

theorem wholeTemplate_eq_none {s : String} (h : hasSub templateOpen s.toList = false) :
    wholeTemplate s = none := by
  have hno : templateOpen.isPrefixOf (trim s.toList) = false := by
    by_contra hpre
    have hpre : templateOpen <+: trim s.toList :=
      List.isPrefixOf_iff_prefix.mp (Bool.eq_true_of_not_eq_false hpre)
    have hsub := hasSub_iff.mpr (hpre.isInfix.trans (trim_isInfix s.toList))
    rw [hsub] at h
    exact Bool.noConfusion h
  unfold wholeTemplate
  simp only [hno, Bool.false_eq_true, if_false]

mutual

/-- An input without strings that hold `${` is passed on as it is. -/
theorem materializeInput_eq_self :
    ∀ {v : Json}, templateFree v = true → materializeInput std store v = .ok v
  | .null, _ | .bool _, _ | .number _, _ => rfl
  | .string s, h => by
      have hno : hasSub templateOpen s.toList = false := by simpa [templateFree] using h
      simp only [materializeInput, materializeString, wholeTemplate_eq_none hno, hno,
        Bool.false_eq_true, if_false]
  | .array items, h => by
      have h : itemsTemplateFree items = true := h
      simp only [materializeInput, materializeItems_eq_self h]
      rfl
  | .object fields, h => by
      have h : fieldsTemplateFree fields = true := h
      simp only [materializeInput, materializeFields_eq_self h]
      rfl

theorem materializeItems_eq_self :
    ∀ {items : List Json}, itemsTemplateFree items = true →
      materializeItems std store items = .ok items
  | [], _ => rfl
  | v :: items, h => by
      obtain ⟨hv, hitems⟩ : templateFree v = true ∧ itemsTemplateFree items = true := by
        simpa [itemsTemplateFree] using h
      simp only [materializeItems, materializeInput_eq_self hv, materializeItems_eq_self hitems]
      rfl

theorem materializeFields_eq_self :
    ∀ {fields : List (String × Json)}, fieldsTemplateFree fields = true →
      materializeFields std store fields = .ok fields
  | [], _ => rfl
  | (k, v) :: fields, h => by
      obtain ⟨hv, hfields⟩ : templateFree v = true ∧ fieldsTemplateFree fields = true := by
        simpa [fieldsTemplateFree] using h
      have hid : isIdentityTemplate k v = false := by
        cases v <;> simp_all [isIdentityTemplate, Json.asStr, templateFree]
      simp only [materializeFields, hid, Bool.false_eq_true, if_false,
        materializeInput_eq_self hv, materializeFields_eq_self hfields]
      rfl

end

end AuraLauncher.Runner
