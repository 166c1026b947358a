import AuraLauncher.Domain.Std

/-!
# The validation of a UI tree

`launcher-domain/src/tool.rs`, `UiSchema::validate`: what a plugin declares for a window is checked
before it is rendered, node by node, with the ids and the number of the nodes so far carried along.

Of a node only what the validation reads is here; its title, value and properties are left out.

* `UiNode`, `UiSchema`, `nodeKindParse` — a tree, and the kinds it may have.
* `visit`, `validateNode`, `UiSchema.validate` — the check of a node, and the walk.
* `UiNode.nodes` — the nodes of a tree with their depths, in the order of the walk.
* `validateNode_eq_foldlM` — the walk is a pass over these.
* `foldlM_visit_iff` — what such a pass asks for.
* `validateUi_eq_ok_iff` — which trees are valid.
-/

namespace AuraLauncher.Domain

/-! ## Trees -/

/-- Source: `tool.rs`, `UI_SCHEMA_VERSION`. -/
def uiSchemaVersion : ℕ := 1

/-- Source: `tool.rs`, `MAX_UI_NODES`. -/
def maxUiNodes : ℕ := 256

/-- Source: `tool.rs`, `MAX_UI_DEPTH`. -/
def maxUiDepth : ℕ := 16

/-- Source: `tool.rs`, `MAX_TEXT_CHARS`. -/
def maxNodeTextChars : ℕ := 8192

/-- Source: `tool.rs`, `MAX_ID_CHARS`. -/
def maxIdChars : ℕ := 128

/-- Source: `tool.rs`, `UiNodeKind`. -/
inductive UiNodeKind where
  | container | section | text | markdown | icon | image | textField | passwordField | textArea
  | dropdown | checkbox | radio | toggle | numberInput | button | actionButton | list | listItem
  | detail | keyValue | progress | status | badge | separator | spacer
  deriving DecidableEq, Repr

/-- The names of the kinds. -/
def nodeKinds : List (String × UiNodeKind) :=
  [("container", .container), ("section", .section), ("text", .text), ("markdown", .markdown),
    ("icon", .icon), ("image", .image), ("text_field", .textField),
    ("password_field", .passwordField), ("text_area", .textArea), ("dropdown", .dropdown),
    ("checkbox", .checkbox), ("radio", .radio), ("toggle", .toggle),
    ("number_input", .numberInput), ("button", .button), ("action_button", .actionButton),
    ("list", .list), ("list_item", .listItem), ("detail", .detail), ("key_value", .keyValue),
    ("progress", .progress), ("status", .status), ("badge", .badge), ("separator", .separator),
    ("spacer", .spacer)]

/-- Source: `tool.rs`, `node_kind_parse`. -/
def nodeKindParse (s : String) : Option UiNodeKind := nodeKinds.lookup s

/-- A node with the nodes in it. Source: `tool.rs`, `UiNode`. -/
inductive UiNode where
  | mk (kind id : String) (text : Option String) (children : List UiNode)

namespace UiNode

/-- The name of its kind. -/
def kind : UiNode → String
  | mk kind _ _ _ => kind

/-- Its id. -/
def id : UiNode → String
  | mk _ id _ _ => id

/-- Its text, if it has one. -/
def text : UiNode → Option String
  | mk _ _ text _ => text

end UiNode

/-- Source: `tool.rs`, `UiSchema`. -/
structure UiSchema where
  schemaVersion : ℕ
  root : UiNode

/-! ## The validation -/

variable (std : RustStd)

/-- The check of one node at a depth, apart from those in it: the ids and the number of the nodes
with this one. Source: `tool.rs`, `validate_node` (up to its loop). -/
def visit (seen : List String × ℕ) (node : ℕ × UiNode) : Except String (List String × ℕ) :=
  let count := seen.2 + 1
  if node.1 > maxUiDepth then .error ("ui depth exceeds " ++ toString maxUiDepth)
  else if count > maxUiNodes then .error ("ui node count exceeds " ++ toString maxUiNodes)
  else if node.2.kind.isEmpty || node.2.id.isEmpty || node.2.id.length > maxIdChars then
    .error ("invalid node id " ++ std.strDebug node.2.id)
  else if (nodeKindParse node.2.kind).isNone then
    .error ("unknown ui node kind " ++ std.strDebug node.2.kind)
  else if seen.1.contains node.2.id then
    .error ("duplicate ui node id " ++ std.strDebug node.2.id)
  else if node.2.text.any fun t => t.length > maxNodeTextChars then .error "node text too long"
  else .ok (node.2.id :: seen.1, count)

mutual

/-- Source: `tool.rs`, `validate_node`. -/
def validateNode (depth : ℕ) (seen : List String × ℕ) :
    UiNode → Except String (List String × ℕ)
  | .mk kind id text children => do
      let seen ← visit std seen (depth, .mk kind id text children)
      validateChildren (depth + 1) seen children

/-- The nodes in a node, one after the other. Source: `tool.rs`, `validate_node` (its loop). -/
def validateChildren (depth : ℕ) (seen : List String × ℕ) :
    List UiNode → Except String (List String × ℕ)
  | [] => .ok seen
  | child :: rest => do
      let seen ← validateNode depth seen child
      validateChildren depth seen rest

end

/-- Source: `tool.rs`, `UiSchema::validate`. -/
def UiSchema.validate (s : UiSchema) : Except String Unit :=
  if s.schemaVersion ≠ uiSchemaVersion then
    .error ("unsupported ui schema_version " ++ toString s.schemaVersion)
  else do
    let _ ← validateNode std 1 ([], 0) s.root
    return ()

/-! ## The walk as a pass -/

mutual

/-- The nodes of a tree with their depths, each before those in it. -/
def UiNode.nodes (depth : ℕ) : UiNode → List (ℕ × UiNode)
  | .mk kind id text children =>
      (depth, .mk kind id text children) :: UiNode.nodesOf (depth + 1) children

/-- The nodes of several trees. -/
def UiNode.nodesOf (depth : ℕ) : List UiNode → List (ℕ × UiNode)
  | [] => []
  | child :: rest => child.nodes depth ++ UiNode.nodesOf depth rest

end

mutual

/-- **The walk is a pass over the nodes.** -/
theorem validateNode_eq_foldlM (depth : ℕ) (seen : List String × ℕ) (node : UiNode) :
    validateNode std depth seen node = (node.nodes depth).foldlM (visit std) seen := by
  cases node with
  | mk kind id text children =>
      rw [validateNode, UiNode.nodes, List.foldlM_cons]
      congr 1
      funext seen
      exact validateChildren_eq_foldlM (depth + 1) seen children

theorem validateChildren_eq_foldlM (depth : ℕ) (seen : List String × ℕ) (children : List UiNode) :
    validateChildren std depth seen children =
      (UiNode.nodesOf depth children).foldlM (visit std) seen := by
  cases children with
  | nil => rfl
  | cons child rest =>
      rw [validateChildren, UiNode.nodesOf, List.foldlM_append, validateNode_eq_foldlM]
      congr 1
      funext seen
      exact validateChildren_eq_foldlM depth seen rest

end

/-- What a node is asked for by itself. -/
structure UiNode.Acceptable (node : ℕ × UiNode) : Prop where
  depth_le : node.1 ≤ maxUiDepth
  kind_known : (nodeKindParse node.2.kind).isSome = true
  id_ne : node.2.id ≠ ""
  id_le : node.2.id.length ≤ maxIdChars
  text_le : ∀ t, node.2.text = some t → t.length ≤ maxNodeTextChars

/-- No kind has an empty name. -/
theorem ne_empty_of_nodeKindParse {s : String} (h : (nodeKindParse s).isSome = true) : s ≠ "" := by
  rintro rfl
  exact absurd h (by decide)

/-- **What one visit asks for**: the node by itself, its id being new, and room for one more. -/
theorem visit_eq_ok_iff {seen seen' : List String × ℕ} {node : ℕ × UiNode} :
    visit std seen node = .ok seen' ↔ UiNode.Acceptable node ∧ node.2.id ∉ seen.1 ∧
      seen.2 + 1 ≤ maxUiNodes ∧ seen' = (node.2.id :: seen.1, seen.2 + 1) := by
  unfold visit
  dsimp only
  constructor
  · intro h
    split_ifs at h with hdepth hcount hid hkind hseen htext
    rw [Bool.or_eq_true, Bool.or_eq_true, not_or, not_or] at hid
    refine ⟨⟨not_lt.mp hdepth, ?_, ?_, ?_, ?_⟩, ?_, not_lt.mp hcount, (Except.ok.inj h).symm⟩
    · simpa [Option.isSome_iff_ne_none] using hkind
    · simpa using hid.1.2
    · simpa using hid.2
    · intro t ht
      rw [ht] at htext
      simpa using htext
    · simpa using hseen
  · rintro ⟨⟨hdepth, hkind, hne, hid, htext⟩, hnew, hcount, rfl⟩
    have hempty := ne_empty_of_nodeKindParse hkind
    have hshort : ¬ (node.2.text.any fun t => decide (t.length > maxNodeTextChars)) = true := by
      intro hany
      obtain ⟨t, ht, hlt⟩ := (Option.any_eq_true _ _).mp hany
      exact absurd (htext t ht) (not_le.mpr (of_decide_eq_true hlt))
    rw [if_neg (not_lt.mpr hdepth), if_neg (not_lt.mpr hcount), if_neg (by simp [hempty, hne, hid]),
      if_neg (by simp [Option.isSome_iff_ne_none.mp hkind]), if_neg (by simpa using hnew),
      if_neg hshort]

/-- **What a pass asks for**: every node by itself, ids that are new and different from one another,
and room for all of them. -/
theorem foldlM_visit_iff (nodes : List (ℕ × UiNode)) (seen : List String × ℕ)
    (hcount : seen.2 ≤ maxUiNodes) :
    (∃ seen', nodes.foldlM (visit std) seen = .ok seen') ↔
      (∀ node ∈ nodes, UiNode.Acceptable node) ∧ (∀ node ∈ nodes, node.2.id ∉ seen.1) ∧
        (nodes.map fun node => node.2.id).Nodup ∧ seen.2 + nodes.length ≤ maxUiNodes := by
  induction nodes generalizing seen with
  | nil => simpa [pure, Except.pure] using hcount
  | cons node nodes ih =>
      simp only [List.foldlM_cons, bind_eq_ok, List.forall_mem_cons, List.map_cons,
        List.nodup_cons, List.length_cons]
      constructor
      · rintro ⟨seen', s, hvisit, hrest⟩
        obtain ⟨hnode, hnew, hroom, rfl⟩ := (visit_eq_ok_iff std).mp hvisit
        obtain ⟨hnodes, hids, hnodup, hlength⟩ := (ih _ hroom).mp ⟨seen', hrest⟩
        refine ⟨⟨hnode, hnodes⟩, ⟨hnew, fun n hn hmem => hids n hn (List.mem_cons_of_mem _ hmem)⟩,
          ⟨?_, hnodup⟩, by dsimp only at hlength; omega⟩
        intro hmem
        obtain ⟨n, hn, heq⟩ := List.mem_map.mp hmem
        exact hids n hn (heq ▸ List.mem_cons_self)
      · rintro ⟨⟨hnode, hnodes⟩, ⟨hnew, hids⟩, ⟨hself, hnodup⟩, hlength⟩
        have hroom : seen.2 + 1 ≤ maxUiNodes := by omega
        have hvisit := (visit_eq_ok_iff std).mpr ⟨hnode, hnew, hroom, rfl⟩
        have hlater : ∀ n ∈ nodes, n.2.id ∉ node.2.id :: seen.1 := by
          intro n hn hmem
          rcases List.mem_cons.mp hmem with heq | hmem
          · exact hself (heq ▸ List.mem_map_of_mem hn)
          · exact hids n hn hmem
        obtain ⟨seen', hrest⟩ := (ih (node.2.id :: seen.1, seen.2 + 1) hroom).mpr
          ⟨hnodes, hlater, hnodup, by dsimp only; omega⟩
        exact ⟨seen', _, hvisit, hrest⟩

/-- **Which trees are valid**: those of the version whose nodes are of known kinds, with ids that
are not empty, not too long and different from one another, not too deep, not too many, and with
texts that are not too long. -/
theorem validateUi_eq_ok_iff (s : UiSchema) :
    s.validate std = .ok () ↔
      s.schemaVersion = uiSchemaVersion ∧
        (∀ node ∈ s.root.nodes 1, (nodeKindParse node.2.kind).isSome = true) ∧
        (∀ node ∈ s.root.nodes 1, node.2.id ≠ "" ∧ node.2.id.length ≤ maxIdChars) ∧
        ((s.root.nodes 1).map fun node => node.2.id).Nodup ∧
        (∀ node ∈ s.root.nodes 1, node.1 ≤ maxUiDepth) ∧
        (s.root.nodes 1).length ≤ maxUiNodes ∧
        ∀ node ∈ s.root.nodes 1, ∀ t, node.2.text = some t → t.length ≤ maxNodeTextChars := by
  have hpass := foldlM_visit_iff std (s.root.nodes 1) ([], 0) (Nat.zero_le _)
  rw [Nat.zero_add] at hpass
  unfold UiSchema.validate
  by_cases hversion : s.schemaVersion = uiSchemaVersion
  · rw [if_neg (not_not.mpr hversion), validateNode_eq_foldlM]
    have hok : (do let _ ← (s.root.nodes 1).foldlM (visit std) ([], 0)
                   return ()) = Except.ok () ↔
        ∃ seen', (s.root.nodes 1).foldlM (visit std) ([], 0) = .ok seen' := by
      simp only [bind_eq_ok, pure, Except.pure, and_true]
    rw [hok, hpass]
    constructor
    · rintro ⟨hnodes, -, hnodup, hlength⟩
      exact ⟨hversion, fun n hn => (hnodes n hn).kind_known,
        fun n hn => ⟨(hnodes n hn).id_ne, (hnodes n hn).id_le⟩, hnodup,
        fun n hn => (hnodes n hn).depth_le, hlength, fun n hn => (hnodes n hn).text_le⟩
    · rintro ⟨-, hkinds, hids, hnodup, hdepths, hlength, htexts⟩
      refine ⟨?_, fun _ _ => List.not_mem_nil, hnodup, hlength⟩
      exact fun n hn => ⟨hdepths n hn, hkinds n hn, (hids n hn).1, (hids n hn).2, htexts n hn⟩
  · rw [if_pos hversion]
    exact iff_of_false (fun h => nomatch h) fun h => hversion h.1

end AuraLauncher.Domain
