import AuraLauncher.Agent.Prompt
import AuraLauncher.Workflow.JsonText

/-!
# The catalog in the prompt

The tool catalog is cut twice on its way into the agent prompt: `render_json` drops whole entries to
stay within its limits, and `build_agent_prompt` cuts the text to the context budget, wherever that
falls.

* `arrayText` — the text of some entries as an array; `size_arrayText` is its length.
* `keptFrom_spec`, `ToolCatalog.exists_kept` — the entries that are kept are the longest prefix of
  the catalog within the limits.
* `takeBytes_isPrefix`, `takeBytes_eq_self_iff` — what a text is cut to.
* `CatalogWhole` — the rendering is the longest prefix within the limits, and what stands in the
  prompt is an array of whole entries.
* `catalogWhole_iff` — it is exactly when the limit leaves room for the two brackets, and every
  prefix within the limits is within the budget of the prompt.
-/

namespace AuraLauncher.Agent

open AuraLauncher.Lib
open AuraLauncher.Workflow (Json SerdeJson insertField quote not_array_text_of_prefix)

variable {sj : SerdeJson}

/-! ## The lengths of the texts -/

/-- The length of a field: its quoted key, a colon and its value. -/
def fieldSize (sj : SerdeJson) (field : String × Json) : ℕ :=
  (quote field.1).utf8ByteSize + 1 + (field.2.text sj).utf8ByteSize

/-- The fields of an object have a comma between each two. -/
theorem size_fieldsText (fields : List (String × Json)) :
    (Json.fieldsText sj fields).utf8ByteSize =
      (fields.map (fieldSize sj)).sum + (fields.length - 1) := by
  have hcolon : (":" : String).utf8ByteSize = 1 := rfl
  have hcomma : ("," : String).utf8ByteSize = 1 := rfl
  induction fields with
  | nil => rfl
  | cons field fields ih =>
      obtain ⟨k, v⟩ := field
      cases fields with
      | nil =>
          simp only [Json.fieldsText, String.utf8ByteSize_append, hcolon]
          simp [fieldSize]
      | cons field fields =>
          simp only [Json.fieldsText, String.utf8ByteSize_append, hcolon, hcomma, ih]
          simp only [List.map_cons, List.sum_cons, List.length_cons, fieldSize]
          omega

/-- The items of an array have a comma between each two. -/
theorem size_itemsText (items : List Json) :
    (Json.itemsText sj items).utf8ByteSize =
      (items.map fun v => (v.text sj).utf8ByteSize).sum + (items.length - 1) := by
  have hcomma : ("," : String).utf8ByteSize = 1 := rfl
  induction items with
  | nil => rfl
  | cons v items ih =>
      cases items with
      | nil => simp [Json.itemsText]
      | cons w items =>
          simp only [Json.itemsText, String.utf8ByteSize_append, hcomma, ih]
          simp only [List.map_cons, List.sum_cons, List.length_cons]
          omega

/-- A field with a new key is put among the others. -/
theorem insertField_perm {key : String} (value : Json) {fields : List (String × Json)}
    (h : key ∉ fields.map Prod.fst) :
    (insertField key value fields).Perm ((key, value) :: fields) := by
  induction fields with
  | nil => exact List.Perm.refl _
  | cons field fields ih =>
      obtain ⟨k, v⟩ := field
      rw [List.map_cons, List.mem_cons, not_or] at h
      unfold insertField
      split_ifs with hlt heq
      · exact List.Perm.refl _
      · exact absurd heq h.1
      · exact ((ih h.2).cons (k, v)).trans (List.Perm.swap _ _ _)

/-- Fields with different keys are all there, in another order. -/
theorem foldl_insertField_perm {fields acc : List (String × Json)}
    (hnodup : ((fields ++ acc).map Prod.fst).Nodup) :
    (fields.foldl (fun acc field => insertField field.1 field.2 acc) acc).Perm
      (fields ++ acc) := by
  induction fields generalizing acc with
  | nil => exact List.Perm.refl _
  | cons field fields ih =>
      rw [List.cons_append, List.map_cons, List.nodup_cons] at hnodup
      have hfresh : field.1 ∉ acc.map Prod.fst := fun hmem =>
        hnodup.1 (by rw [List.map_append]; exact List.mem_append_right _ hmem)
      have hins := insertField_perm field.2 hfresh
      have hmoved : (fields ++ insertField field.1 field.2 acc).Perm
          (field :: (fields ++ acc)) :=
        (hins.append_left fields).trans List.perm_middle
      rw [List.foldl_cons]
      refine (ih ?_).trans hmoved
      rw [(hmoved.map Prod.fst).nodup_iff]
      exact List.nodup_cons.mpr hnodup

/-- An entry is as long as a value as it is as a struct. -/
theorem ToolCatalogEntry.size_toValue (e : ToolCatalogEntry) :
    (e.toValue.text sj).utf8ByteSize = (e.toText sj).utf8ByteSize := by
  have hnodup : ((e.fields ++ []).map Prod.fst).Nodup := by
    rw [List.append_nil]
    change ["ref", "kind", "title", "description", "action_type", "input_schema"].Nodup
    decide
  have hperm := foldl_insertField_perm hnodup
  rw [List.append_nil] at hperm
  unfold toValue toText
  simp only [Json.text, String.utf8ByteSize_append, size_fieldsText, hperm.length_eq,
    (hperm.map (fieldSize sj)).sum_nat]

/-- The text of some entries as an array. -/
def arrayText (sj : SerdeJson) (es : List ToolCatalogEntry) : String :=
  (Json.array (es.map ToolCatalogEntry.toValue)).text sj

/-- The length of the text of an entry. -/
def ToolCatalogEntry.size (sj : SerdeJson) (e : ToolCatalogEntry) : ℕ := (e.toText sj).utf8ByteSize

theorem size_arrayText (es : List ToolCatalogEntry) :
    (arrayText sj es).utf8ByteSize =
      2 + (es.map (ToolCatalogEntry.size sj)).sum + (es.length - 1) := by
  have hopen : ("[" : String).utf8ByteSize = 1 := rfl
  have hclose : ("]" : String).utf8ByteSize = 1 := rfl
  have hsizes : (es.map ToolCatalogEntry.toValue).map (fun v => (v.text sj).utf8ByteSize) =
      es.map (ToolCatalogEntry.size sj) := by
    rw [List.map_map]
    exact List.map_congr_left fun e _ => e.size_toValue
  unfold arrayText
  simp only [Json.text, String.utf8ByteSize_append, hopen, hclose, size_itemsText, hsizes,
    List.length_map]
  omega

/-- A longer prefix has a longer text. -/
theorem size_arrayText_take_le (es : List ToolCatalogEntry) {m n : ℕ} (h : m ≤ n) :
    (arrayText sj (es.take m)).utf8ByteSize ≤ (arrayText sj (es.take n)).utf8ByteSize := by
  have hsplit : es.take n = es.take m ++ (es.take n).drop m := by
    have hwhole := List.take_append_drop m (es.take n)
    rw [List.take_take, Nat.min_eq_left h] at hwhole
    exact hwhole.symm
  rw [hsplit, size_arrayText, size_arrayText, List.map_append, List.sum_append, List.length_append]
  omega

/-! ## The entries that are kept -/

/-- What some entries add behind `kept` others, with their commas. -/
def grown (sj : SerdeJson) (kept : ℕ) (es : List ToolCatalogEntry) : ℕ :=
  (es.map (ToolCatalogEntry.size sj)).sum + if kept = 0 then es.length - 1 else es.length

theorem grown_cons (kept : ℕ) (e : ToolCatalogEntry) (es : List ToolCatalogEntry) :
    grown sj kept (e :: es) =
      (if kept = 0 then e.size sj else e.size sj + 1) + grown sj (kept + 1) es := by
  simp only [grown, List.map_cons, List.sum_cons, List.length_cons, Nat.succ_ne_zero, if_false]
  split_ifs <;> omega

/-- The limits let `m` more entries through, behind `kept` entries in `chars` bytes. -/
def WithinFrom (sj : SerdeJson) (limits : ProjectionLimits) (kept chars : ℕ)
    (es : List ToolCatalogEntry) (m : ℕ) : Prop :=
  kept + m ≤ limits.maxEntries ∧ chars + grown sj kept (es.take m) ≤ limits.maxChars

theorem withinFrom_succ {limits : ProjectionLimits} {kept chars m : ℕ} {e : ToolCatalogEntry}
    {es : List ToolCatalogEntry} :
    WithinFrom sj limits kept chars (e :: es) (m + 1) ↔
      WithinFrom sj limits (kept + 1)
        (chars + if kept = 0 then e.size sj else e.size sj + 1) es m := by
  unfold WithinFrom
  rw [List.take_succ_cons, grown_cons]
  exact and_congr (by omega) (by omega)

/-- **The loop of `render_json`** keeps the longest prefix within the limits. -/
theorem keptFrom_spec (sj : SerdeJson) (limits : ProjectionLimits) (kept chars : ℕ)
    (es : List ToolCatalogEntry) :
    ∃ n ≤ es.length, ToolCatalog.keptFrom sj limits kept chars es = es.take n ∧
      (n = 0 ∨ WithinFrom sj limits kept chars es n) ∧
      ∀ m ≤ es.length, WithinFrom sj limits kept chars es m → m ≤ n := by
  induction es generalizing kept chars with
  | nil => exact ⟨0, Nat.le_refl 0, rfl, .inl rfl, fun m hm _ => hm⟩
  | cons e es ih =>
      obtain ⟨n, hn, hkept, hwithin, hlongest⟩ := ih (kept + 1)
        (chars + if kept = 0 then e.size sj else e.size sj + 1)
      unfold ToolCatalog.keptFrom
      by_cases hstop : limits.maxEntries ≤ kept ∨
          limits.maxChars < chars + if kept = 0 then e.size sj else e.size sj + 1
      · refine ⟨0, Nat.zero_le _, if_pos hstop, .inl rfl, fun m _ hm => ?_⟩
        cases m with
        | zero => exact Nat.le_refl 0
        | succ m =>
            obtain ⟨hentries, hchars⟩ := withinFrom_succ.mp hm
            omega
      · have hfirst : WithinFrom sj limits kept chars (e :: es) 1 := by
          refine withinFrom_succ.mpr ⟨by omega, ?_⟩
          rw [List.take_zero, grown]
          simp only [List.map_nil, List.sum_nil, List.length_nil]
          split_ifs at hstop ⊢ <;> omega
        refine ⟨n + 1, Nat.succ_le_succ hn, ?_, .inr ?_, fun m hle hm => ?_⟩
        · rw [List.take_succ_cons, ← hkept]
          exact if_neg hstop
        · rcases hwithin with rfl | hwithin
          · exact hfirst
          · exact withinFrom_succ.mpr hwithin
        · cases m with
          | zero => exact Nat.zero_le _
          | succ m =>
              have hle' : m ≤ es.length := Nat.le_of_succ_le_succ hle
              exact Nat.succ_le_succ (hlongest m hle' (withinFrom_succ.mp hm))

/-- The first `n` entries of a catalog are within the limits. -/
def ToolCatalog.Within (sj : SerdeJson) (c : ToolCatalog) (limits : ProjectionLimits) (n : ℕ) :
    Prop :=
  n ≤ limits.maxEntries ∧
    (arrayText sj (c.entries.rows.take n)).utf8ByteSize ≤ limits.maxChars

/-- The entries that are kept: the longest prefix within the limits, or none. -/
theorem ToolCatalog.exists_kept (sj : SerdeJson) (c : ToolCatalog) (limits : ProjectionLimits) :
    ∃ n ≤ c.len, c.kept sj limits = c.entries.rows.take n ∧ (n = 0 ∨ c.Within sj limits n) ∧
      ∀ m ≤ c.len, c.Within sj limits m → m ≤ n := by
  have hwithin : ∀ m, WithinFrom sj limits 0 2 c.entries.rows m ↔ c.Within sj limits m := by
    intro m
    unfold WithinFrom ToolCatalog.Within
    rw [size_arrayText, grown, if_pos rfl, Nat.zero_add, Nat.add_assoc]
  obtain ⟨n, hn, hkept, hin, hlongest⟩ := keptFrom_spec sj limits 0 2 c.entries.rows
  exact ⟨n, hn, hkept, hin.imp_right (hwithin n).mp,
    fun m hm h => hlongest m hm ((hwithin m).mpr h)⟩

/-! ## What is cut -/

theorem takeBytes_isPrefix (n : ℕ) (s : List Char) : takeBytes n s <+: s := by
  induction s generalizing n with
  | nil => exact List.nil_prefix
  | cons c cs ih =>
      unfold takeBytes
      split_ifs
      · exact List.cons_prefix_cons.mpr ⟨rfl, ih _⟩
      · exact List.nil_prefix

theorem size_ofList_cons (c : Char) (cs : List Char) :
    (String.ofList (c :: cs)).utf8ByteSize = c.utf8Size + (String.ofList cs).utf8ByteSize := by
  have hsplit : String.ofList ([c] ++ cs) = String.ofList [c] ++ String.ofList cs :=
    String.ofList_append
  rw [← List.singleton_append, hsplit, String.utf8ByteSize_append]
  congr 1
  exact String.utf8ByteSize_singleton

/-- A text stays whole exactly if it has no more bytes than it may. -/
theorem takeBytes_eq_self_iff {n : ℕ} {s : List Char} :
    takeBytes n s = s ↔ (String.ofList s).utf8ByteSize ≤ n := by
  induction s generalizing n with
  | nil => simp [takeBytes]
  | cons c cs ih =>
      rw [size_ofList_cons]
      unfold takeBytes
      split_ifs with hc
      · rw [List.cons.injEq, ih]
        simp only [true_and]
        omega
      · refine iff_of_false (fun h => by cases h) ?_
        omega

/-- Four bytes have room for a character. -/
theorem takeBytes_ne_nil {n : ℕ} (hn : 4 ≤ n) {s : List Char} (hs : s ≠ []) :
    takeBytes n s ≠ [] := by
  cases s with
  | nil => exact absurd rfl hs
  | cons c cs =>
      have hc := c.utf8Size_le_four
      unfold takeBytes
      rw [if_pos (by omega)]
      exact List.cons_ne_nil _ _

theorem catalogSection_eq (catalogBlock : String) (contextBudget : ℕ) :
    catalogSection catalogBlock contextBudget =
      takeBytes (max contextBudget 256) catalogBlock.toList := by
  rw [catalogSection, boundChars, String.toList_ofList]

/-- **An array that is cut is none**: the section of a text of an array is the text of an array
exactly if it is the whole text. -/
theorem catalogSection_array_iff (hfloats : sj.PlainFloats) (items : List Json)
    (contextBudget : ℕ) :
    (∃ items', catalogSection ((Json.array items).text sj) contextBudget =
        ((Json.array items').text sj).toList) ↔
      ((Json.array items).text sj).utf8ByteSize ≤ max contextBudget 256 := by
  have hwhole := takeBytes_eq_self_iff (n := max contextBudget 256)
    (s := ((Json.array items).text sj).toList)
  rw [String.ofList_toList] at hwhole
  rw [catalogSection_eq, ← hwhole]
  constructor
  · rintro ⟨items', heq⟩
    by_contra hcut
    have hne : ((Json.array items).text sj).toList ≠ [] := by simp [Json.text]
    exact not_array_text_of_prefix hfloats (takeBytes_isPrefix _ _)
      (takeBytes_ne_nil (by omega) hne) hcut heq
  · exact fun h => ⟨items, h⟩

/-! ## The catalog that the prompt has -/

/-- The rendering has the longest prefix of the catalog within the limits, in no more bytes than
they allow, and what the prompt has of it is an array of whole entries. -/
structure CatalogWhole (sj : SerdeJson) (c : ToolCatalog) (limits : ProjectionLimits)
    (contextBudget : ℕ) : Prop where
  longest : ∃ n ≤ c.len, c.renderJson sj limits = (arrayText sj (c.entries.rows.take n), n) ∧
    c.Within sj limits n ∧ ∀ m ≤ c.len, c.Within sj limits m → m ≤ n
  embedded : ∃ items, (∀ v ∈ items, ∃ e ∈ c.entries.rows, v = e.toValue) ∧
    catalogSection (c.renderJson sj limits).1 contextBudget = ((Json.array items).text sj).toList

/-- **When the prompt carries whole entries**: exactly when the limit leaves room for the brackets
of an array, and every prefix of the catalog within the limits is within the budget, which is never
below 256 bytes. -/
theorem catalogWhole_iff (sj : SerdeJson) (hfloats : sj.PlainFloats) (c : ToolCatalog)
    (limits : ProjectionLimits) (contextBudget : ℕ) :
    CatalogWhole sj c limits contextBudget ↔
      2 ≤ limits.maxChars ∧ ∀ m ≤ c.len, c.Within sj limits m →
        (arrayText sj (c.entries.rows.take m)).utf8ByteSize ≤ max contextBudget 256 := by
  obtain ⟨n, hn, hkept, hin, hlongest⟩ := ToolCatalog.exists_kept sj c limits
  have hrender : c.renderJson sj limits = (arrayText sj (c.entries.rows.take n), n) := by
    have hlen : (c.entries.rows.take n).length = n := List.length_take_of_le hn
    rw [ToolCatalog.renderJson, hkept, hlen]
    rfl
  have hsection := catalogSection_array_iff hfloats
    ((c.entries.rows.take n).map ToolCatalogEntry.toValue) contextBudget
  constructor
  · intro h
    obtain ⟨k, -, hk, hwithin, hmost⟩ := h.longest
    obtain ⟨-, rfl⟩ := Prod.mk.inj (hrender.symm.trans hk)
    have hsize := hwithin.2
    rw [size_arrayText] at hsize
    refine ⟨by omega, fun m hm hm' => ?_⟩
    obtain ⟨items, -, htext⟩ := h.embedded
    rw [hrender] at htext
    exact (size_arrayText_take_le _ (hmost m hm hm')).trans (hsection.mp ⟨items, htext⟩)
  · rintro ⟨hroom, hbudget⟩
    have hwithin : c.Within sj limits n := by
      refine hin.elim (fun h0 => ?_) id
      rw [h0, ToolCatalog.Within, List.take_zero, size_arrayText]
      exact ⟨Nat.zero_le _, hroom⟩
    have hwhole : catalogSection (arrayText sj (c.entries.rows.take n)) contextBudget =
        (arrayText sj (c.entries.rows.take n)).toList := by
      rw [catalogSection_eq, takeBytes_eq_self_iff, String.ofList_toList]
      exact hbudget n hn hwithin
    refine ⟨⟨n, hn, hrender, hwithin, hlongest⟩,
      (c.entries.rows.take n).map ToolCatalogEntry.toValue, fun v hv => ?_, ?_⟩
    · obtain ⟨e, he, rfl⟩ := List.mem_map.mp hv
      exact ⟨e, List.mem_of_mem_take he, rfl⟩
    · rw [hrender]
      exact hwhole

/-- A catalog without tools is rendered whole. -/
theorem catalogWhole_new : CatalogWhole .withoutFloats .new .default 4096 := by
  refine (catalogWhole_iff _ SerdeJson.plainFloats_withoutFloats _ _ _).mpr ⟨by decide, ?_⟩
  intro m hm _
  obtain rfl : m = 0 := Nat.le_zero.mp hm
  decide

/-- A tool with a description of some length. -/
def reportTool (description : String) : WorkflowToolSummary where
  definitionId := "wf.report"
  name := "Report"
  description := some description

theorem size_quote_replicate (n : ℕ) :
    (quote (String.ofList (List.replicate n 'a'))).utf8ByteSize = n + 2 := by
  have hplain : (List.replicate n 'a').flatMap AuraLauncher.Workflow.escapeChar =
      List.replicate n 'a' := by
    induction n with
    | zero => rfl
    | succ n ih =>
        rw [List.replicate_succ, List.flatMap_cons, ih]
        rfl
  have hsize : (String.ofList (List.replicate n 'a')).utf8ByteSize = n := by
    clear hplain
    induction n with
    | zero => rfl
    | succ n ih =>
        rw [List.replicate_succ, size_ofList_cons, ih]
        exact Nat.add_comm 1 n
  have hquote : ("\"" : String).utf8ByteSize = 1 := rfl
  rw [quote, String.toList_ofList, hplain, String.utf8ByteSize_append, String.utf8ByteSize_append,
    hsize, hquote]
  omega

theorem size_reportTool (description : String) :
    (reportTool description).entry.size .withoutFloats =
      117 + (quote description).utf8ByteSize := by
  have hbraces : ("\x7b" : String).utf8ByteSize = 1 ∧ ("\x7d" : String).utf8ByteSize = 1 :=
    ⟨rfl, rfl⟩
  have hkeys : (quote "ref").utf8ByteSize = 5 ∧ (quote "kind").utf8ByteSize = 6 ∧
      (quote "title").utf8ByteSize = 7 ∧ (quote "description").utf8ByteSize = 13 ∧
      (quote "action_type").utf8ByteSize = 13 ∧ (quote "input_schema").utf8ByteSize = 14 := by
    decide
  have hvalues : (quote (workflowRef "wf.report")).utf8ByteSize = 20 ∧
      (ToolKind.workflow.toJson.text .withoutFloats).utf8ByteSize = 10 ∧
      (quote "Report").utf8ByteSize = 8 ∧ ("null" : String).utf8ByteSize = 4 := by
    decide
  rw [ToolCatalogEntry.size, ToolCatalogEntry.toText, Json.text, String.utf8ByteSize_append,
    String.utf8ByteSize_append, size_fieldsText]
  simp only [ToolCatalogEntry.fields, WorkflowToolSummary.entry, reportTool, fieldSize,
    List.map_cons, List.map_nil, List.sum_cons, List.sum_nil, Option.elim_some, Option.elim_none,
    Option.getD_none, Json.text, hkeys, hvalues, hbraces, List.length_cons, List.length_nil]
  omega

/-- The default limits let the tool through, and the budget of the host cuts it. -/
theorem not_catalogWhole :
    ¬ CatalogWhole .withoutFloats
      (.project [] [reportTool (String.ofList (List.replicate 4200 'a'))]) .default 4096 := by
  intro h
  obtain ⟨n, hn, hrender, -, hmost⟩ := h.longest
  generalize hdescription : String.ofList (List.replicate 4200 'a') = description at hrender hmost h
  have hsize : (arrayText .withoutFloats [(reportTool description).entry]).utf8ByteSize =
      4321 := by
    rw [size_arrayText, List.map_singleton, List.sum_singleton, size_reportTool, ← hdescription,
      size_quote_replicate]
    rfl
  have hone : 1 ≤ n := by
    refine hmost 1 (Nat.le_refl 1) ⟨by decide, ?_⟩
    exact hsize.trans_le (by decide)
  obtain rfl : n = 1 := Nat.le_antisymm hn hone
  obtain ⟨items, -, htext⟩ := h.embedded
  rw [hrender] at htext
  have hwhole := (catalogSection_array_iff SerdeJson.plainFloats_withoutFloats _ _).mp
    ⟨items, htext⟩
  exact absurd (hsize.symm.trans_le hwhole) (by decide)

end AuraLauncher.Agent
