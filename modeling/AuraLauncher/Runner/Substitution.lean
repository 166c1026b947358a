import AuraLauncher.Runner.VariableLaws

/-!
# What a whole-field template puts in its place

A string of an input that is exactly one template is replaced by the variable itself
(`materialize_string` of `v2.rs`), at any depth of the input. On its way the value passes through
`Value`, whose numbers are floats.

* `Place` — an input with a hole at any depth, and what fills it; `Place.Allowed` — the hole is not
  an identity field.
* `materializeInput_plug` — materialising fills the hole with what the template stands for, and
  everything else as it is materialised without it.
* `toJson_fromJson_iff` — the values that pass through `Value` unchanged: those without integers.
* `materialize_reference_iff` — the values that a reference gives back.
-/

namespace AuraLauncher.Runner

open AuraLauncher.Domain
open AuraLauncher.Workflow (Json JsonNumber)

variable {std : RustStd}

/-! ## The value domain -/

mutual

/-- No number in the value is an integer. -/
def integerFree : Json → Bool
  | .number (.float _ _) => true
  | .number _ => false
  | .array items => itemsIntegerFree items
  | .object fields => fieldsIntegerFree fields
  | _ => true

def itemsIntegerFree : List Json → Bool
  | [] => true
  | v :: items => integerFree v && itemsIntegerFree items

def fieldsIntegerFree : List (String × Json) → Bool
  | [] => true
  | (_, v) :: fields => integerFree v && fieldsIntegerFree fields

end

theorem numberOfF64_of_finite {x : Float} (h : x.isFinite = true) :
    numberOfF64 x = .float x h :=
  dif_pos h

theorem numberOfF64_of_not_finite {x : Float} (h : ¬ x.isFinite = true) :
    numberOfF64 x = .posInt 0 :=
  dif_neg h

/-- Of the numbers, the floats come back from the value domain. -/
theorem numberOfF64_asF64_iff (n : JsonNumber) :
    numberOfF64 n.asF64 = n ↔ integerFree (.number n) = true := by
  cases n with
  | float x finite => exact iff_of_true (numberOfF64_of_finite finite) rfl
  | posInt n =>
      refine iff_of_false ?_ Bool.false_ne_true
      intro h
      by_cases hfinite : n.toFloat.isFinite = true
      · cases (numberOfF64_of_finite hfinite).symm.trans h
      · -- an integer without a finite float would become `0`, and `0` has one
        obtain rfl : 0 = n :=
          JsonNumber.posInt.inj ((numberOfF64_of_not_finite hfinite).symm.trans h)
        exact hfinite (by decide)
  | negInt n =>
      refine iff_of_false ?_ Bool.false_ne_true
      intro h
      by_cases hfinite : (JsonNumber.negInt n).asF64.isFinite = true
      · cases (numberOfF64_of_finite hfinite).symm.trans h
      · cases (numberOfF64_of_not_finite hfinite).symm.trans h

mutual

/-- **The passage through the value domain** keeps exactly the values without integers. -/
theorem toJson_fromJson_iff :
    ∀ v : Json, (Value.fromJson v).toJson = v ↔ integerFree v = true
  | .null | .bool _ | .string _ => by simp [Value.fromJson, Value.toJson, integerFree]
  | .number n => by
      rw [← numberOfF64_asF64_iff]
      simp [Value.fromJson, Value.toJson]
  | .array items => by
      simp [Value.fromJson, Value.toJson, integerFree, itemsToJson_itemsFromJson_iff items]
  | .object fields => by
      simp [Value.fromJson, Value.toJson, integerFree, fieldsToJson_fieldsFromJson_iff fields]

theorem itemsToJson_itemsFromJson_iff :
    ∀ items : List Json,
      Value.itemsToJson (Value.itemsFromJson items) = items ↔ itemsIntegerFree items = true
  | [] => by simp [Value.itemsFromJson, Value.itemsToJson, itemsIntegerFree]
  | v :: items => by
      simp [Value.itemsFromJson, Value.itemsToJson, itemsIntegerFree, toJson_fromJson_iff v,
        itemsToJson_itemsFromJson_iff items]

theorem fieldsToJson_fieldsFromJson_iff :
    ∀ fields : List (String × Json),
      Value.fieldsToJson (Value.fieldsFromJson fields) = fields ↔ fieldsIntegerFree fields = true
  | [] => by simp [Value.fieldsFromJson, Value.fieldsToJson, fieldsIntegerFree]
  | (k, v) :: fields => by
      simp [Value.fieldsFromJson, Value.fieldsToJson, fieldsIntegerFree, toJson_fromJson_iff v,
        fieldsToJson_fieldsFromJson_iff fields]

end

/-! ## Places in an input -/

/-- An input with a hole. -/
inductive Place
  | here
  | item (before : List Json) (inner : Place) (after : List Json)
  | field (before : List (String × Json)) (key : String) (inner : Place)
      (after : List (String × Json))

namespace Place

/-- The input with the hole filled. -/
def plug : Place → Json → Json
  | .here, v => v
  | .item before inner after, v => .array (before ++ inner.plug v :: after)
  | .field before key inner after, v => .object (before ++ (key, inner.plug v) :: after)

/-- The hole is not the value of an identity field. -/
def Allowed : Place → Prop
  | .here => True
  | .item _ inner _ => inner.Allowed
  | .field _ key inner _ => (inner = .here → key ≠ "server_id" ∧ key ≠ "tool_name") ∧ inner.Allowed

variable (std) in
/-- Everything around the hole materialised. -/
def materialize (store : VariableStore) : Place → Except String Place
  | .here => .ok .here
  | .item before inner after => do
      let before ← materializeItems std store before
      let inner ← inner.materialize store
      let after ← materializeItems std store after
      return .item before inner after
  | .field before key inner after => do
      let before ← materializeFields std store before
      let inner ← inner.materialize store
      let after ← materializeFields std store after
      return .field before key inner after

end Place

variable {store : VariableStore}

theorem materializeItems_append {before after out₁ out₂ : List Json}
    (h₁ : materializeItems std store before = .ok out₁)
    (h₂ : materializeItems std store after = .ok out₂) :
    materializeItems std store (before ++ after) = .ok (out₁ ++ out₂) := by
  induction before generalizing out₁ with
  | nil =>
      obtain rfl : [] = out₁ := Except.ok.inj h₁
      exact h₂
  | cons v before ih =>
      obtain ⟨w, hw, hrest⟩ := bind_eq_ok.mp h₁
      obtain ⟨out, hout, hret⟩ := bind_eq_ok.mp hrest
      obtain rfl : w :: out = out₁ := Except.ok.inj hret
      simp only [List.cons_append, materializeItems, hw, ih hout]
      rfl

theorem materializeFields_append {before after out₁ out₂ : List (String × Json)}
    (h₁ : materializeFields std store before = .ok out₁)
    (h₂ : materializeFields std store after = .ok out₂) :
    materializeFields std store (before ++ after) = .ok (out₁ ++ out₂) := by
  induction before generalizing out₁ with
  | nil =>
      obtain rfl : [] = out₁ := Except.ok.inj h₁
      exact h₂
  | cons field before ih =>
      obtain ⟨k, v⟩ := field
      simp only [materializeFields] at h₁
      split_ifs at h₁ with hid
      obtain ⟨w, hw, hrest⟩ := bind_eq_ok.mp h₁
      obtain ⟨out, hout, hret⟩ := bind_eq_ok.mp hrest
      obtain rfl : (k, w) :: out = out₁ := Except.ok.inj hret
      simp only [List.cons_append, materializeFields, hid, Bool.false_eq_true, if_false, hw,
        ih hout]
      rfl

/-- A template is only refused where it is itself the value of an identity field. -/
theorem isIdentityTemplate_plug {inner : Place} {key : String} {v : Json}
    (h : inner = .here → key ≠ "server_id" ∧ key ≠ "tool_name") :
    isIdentityTemplate key (inner.plug v) = false := by
  cases inner with
  | here =>
      obtain ⟨hserver, htool⟩ := h rfl
      simp [isIdentityTemplate, hserver, htool]
  | item before inner after => simp [isIdentityTemplate, Place.plug, Json.asStr]
  | field before key' inner after => simp [isIdentityTemplate, Place.plug, Json.asStr]

/-- **Materialising fills the hole** with what is in it materialised. -/
theorem materializeInput_plug {p p' : Place} {v w : Json} (hp : p.Allowed)
    (hmat : p.materialize std store = .ok p') (hv : materializeInput std store v = .ok w) :
    materializeInput std store (p.plug v) = .ok (p'.plug w) := by
  induction p generalizing p' with
  | here =>
      obtain rfl : Place.here = p' := Except.ok.inj hmat
      exact hv
  | item before inner after ih =>
      obtain ⟨out₁, hout₁, hrest⟩ := bind_eq_ok.mp hmat
      obtain ⟨inner', hinner, hrest⟩ := bind_eq_ok.mp hrest
      obtain ⟨out₂, hout₂, hret⟩ := bind_eq_ok.mp hrest
      obtain rfl : Place.item out₁ inner' out₂ = p' := Except.ok.inj hret
      have hcons : materializeItems std store (inner.plug v :: after) =
          .ok (inner'.plug w :: out₂) := by
        simp only [materializeItems, ih hp hinner, hout₂]
        rfl
      simp only [Place.plug, materializeInput, materializeItems_append hout₁ hcons]
      rfl
  | field before key inner after ih =>
      obtain ⟨out₁, hout₁, hrest⟩ := bind_eq_ok.mp hmat
      obtain ⟨inner', hinner, hrest⟩ := bind_eq_ok.mp hrest
      obtain ⟨out₂, hout₂, hret⟩ := bind_eq_ok.mp hrest
      obtain rfl : Place.field out₁ key inner' out₂ = p' := Except.ok.inj hret
      have hcons : materializeFields std store ((key, inner.plug v) :: after) =
          .ok ((key, inner'.plug w) :: out₂) := by
        simp only [materializeFields, isIdentityTemplate_plug hp.1, Bool.false_eq_true, if_false,
          ih hp.2 hinner, hout₂]
        rfl
      simp only [Place.plug, materializeInput, materializeFields_append hout₁ hcons]
      rfl

/-! ## The reference to a variable -/

/-- The text that is exactly the template of a path. -/
def referenceTo (path : String) : String := "$\x7b" ++ path ++ "\x7d"

theorem wholeTemplate_referenceTo (path : String) :
    wholeTemplate (referenceTo path) = some path := by
  have htext : (referenceTo path).toList = '$' :: '\x7b' :: (path.toList ++ ['\x7d']) := by
    simp [referenceTo]
  have htrim : trim (referenceTo path).toList = '$' :: '\x7b' :: (path.toList ++ ['\x7d']) := by
    rw [htext]
    simp [trim, isWhitespace]
  simp [wholeTemplate, htrim, templateOpen]

/-- A reference stands for the value of its variable, as it comes back from the value domain. -/
theorem materializeInput_referenceTo {s s' : VariableStore} {name : String} {v : Json}
    (h : s.set std ("var." ++ name) v = .ok s') :
    materializeInput std s' (.string (referenceTo ("var." ++ name))) =
      .ok (Value.fromJson v).toJson := by
  obtain ⟨name', m, hpath, hname, -, -, rfl⟩ := VariableStore.set_eq_ok_iff.mp h
  obtain rfl : name = name' := by simpa using hpath
  simp only [materializeInput, materializeString, wholeTemplate_referenceTo, reference,
    VariableStore.get_written hname]
  rfl

/-- **What a reference gives back.** A variable that was set is put in place of every reference to
it, at any depth outside the identity fields, exactly when its value has no integer in it. -/
theorem materialize_reference_iff (s s' : VariableStore) (name : String) (v : Json)
    (h : s.set std ("var." ++ name) v = .ok s') :
    (∀ p p' : Place, p.Allowed → p.materialize std s' = .ok p' →
      materializeInput std s' (p.plug (.string (referenceTo ("var." ++ name)))) =
        .ok (p'.plug v)) ↔ integerFree v = true := by
  have href := materializeInput_referenceTo h
  rw [← toJson_fromJson_iff]
  constructor
  · intro hall
    exact Except.ok.inj (href.symm.trans (hall .here .here trivial rfl))
  · intro hv p p' hp hmat
    rw [materializeInput_plug hp hmat href, hv]

/-- A list of a boolean and a text comes back whole, in a field. -/
theorem materialize_reference_list :
    materializeInput RustStd.ascii
      ((VariableStore.fromSnapshot none).written [] "x" (.array [.bool true, .string "a"]))
      (.object [("args", .string (referenceTo ("var." ++ "x")))]) =
        .ok (.object [("args", .array [.bool true, .string "a"])]) :=
  (materialize_reference_iff (VariableStore.fromSnapshot none) _ "x"
    (.array [.bool true, .string "a"]) rfl).mpr rfl (.field [] "args" .here [])
      (.field [] "args" .here []) ⟨fun _ => by decide, trivial⟩ rfl

/-- The number `1` becomes the number `1.0`. -/
theorem not_materialize_reference :
    ¬ ∀ (s s' : VariableStore) (name : String) (v : Json),
      s.set RustStd.ascii ("var." ++ name) v = .ok s' →
      ∀ p p' : Place, p.Allowed → p.materialize RustStd.ascii s' = .ok p' →
        materializeInput RustStd.ascii s' (p.plug (.string (referenceTo ("var." ++ name)))) =
          .ok (p'.plug v) := by
  intro h
  have hset : (VariableStore.fromSnapshot none).set RustStd.ascii ("var." ++ "x")
      (.number (.posInt 1)) =
        .ok ((VariableStore.fromSnapshot none).written [] "x" (.number (.posInt 1))) := rfl
  have hone := h _ _ "x" _ hset .here .here trivial rfl
  have hback := Except.ok.inj ((materializeInput_referenceTo hset).symm.trans hone)
  exact absurd ((toJson_fromJson_iff _).mp hback) (by decide)

end AuraLauncher.Runner
