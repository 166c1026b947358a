import AuraLauncher.Domain.Std
import AuraLauncher.Mcp.Protocol
import Mathlib.Algebra.Order.BigOperators.Group.List

/-!
# Rich results

`launcher-domain/src/rich.rs`: the structured content that a plugin may attach to a result, read
leniently from an untrusted value, and checked afterwards. The registry by command ids and the
rendered lines are left out.

* `RichBlock`, `RichResult`, `RichBlock.decode` — the content, and its blocks on the wire.
* `RichResult.fromValue`, `RichResult.validate` — the reading and the check.
* `takeBlocks_spec` — how many blocks are read, and how many characters they have.
* `RichBlock.chars_clean_le` — cleaning shortens texts.
* `validate_of_fromValue` — what was read passes the check exactly when it has no block with too
  many rows: these are counted in the check only.
-/

namespace AuraLauncher.Domain

open AuraLauncher.Mcp (structFields defaultField decodeArray)
open AuraLauncher.Workflow (Json)

/-! ## The content -/

/-- Source: `rich.rs`, `MAX_BLOCKS`. -/
def maxBlocks : ℕ := 64

/-- Source: `rich.rs`, `MAX_TABLE_ROWS`. -/
def maxTableRows : ℕ := 200

/-- Source: `rich.rs`, `MAX_TEXT_CHARS`. -/
def maxTextChars : ℕ := 4096

/-- Source: `rich.rs`, `MAX_TOTAL_CHARS`. -/
def maxTotalChars : ℕ := 256 * 1024

/-- Source: `rich.rs`, `Emphasis`. -/
inductive Emphasis where
  | none | strong | code
  deriving DecidableEq, Repr

/-- Source: `rich.rs`, `KeyValueRow`. -/
structure KeyValueRow where
  key : String
  value : String
  deriving DecidableEq

/-- Source: `rich.rs`, `RichBlock`. -/
inductive RichBlock where
  | text (text : String) (emphasis : Emphasis)
  | keyValue (rows : List KeyValueRow)
  | table (headers : List String) (rows : List (List String))
  | divider
  deriving DecidableEq

/-- Source: `rich.rs`, `RichResult`. -/
structure RichResult where
  blocks : List RichBlock
  deriving DecidableEq

/-! ## The wire form -/

/-- The emphasis with the name. -/
def Emphasis.ofName : String → Option Emphasis
  | "none" => some .none
  | "strong" => some .strong
  | "code" => some .code
  | _ => Option.none

/-- A variant without data is its name, or an object with the name for its only field and nothing
for its value. Source: `rich.rs`, `Emphasis` (`Deserialize`). -/
def Emphasis.decode : Json → Option Emphasis
  | .string name => Emphasis.ofName name
  | .object [(name, .null)] => Emphasis.ofName name
  | .object [(name, .object [])] => Emphasis.ofName name
  | _ => Option.none

/-- Source: `rich.rs`, `KeyValueRow` (`Deserialize`). -/
def KeyValueRow.decode (v : Json) : Option KeyValueRow := do
  let fields ← structFields ["key", "value"] v
  let key ← (fields.lookup "key").bind Json.asStr
  let value ← (fields.lookup "value").bind Json.asStr
  return ⟨key, value⟩

/-- The name of the variant, and the rest of the value: the tag is a field of an object or the first
item of an array. -/
def taggedContent (tag : String) : Json → Option (String × Json)
  | .object fields =>
      match fields.lookup tag with
      | some (.string name) => some (name, .object (fields.filter fun f => f.1 != tag))
      | _ => none
  | .array (.string name :: items) => some (name, .array items)
  | _ => none

/-- Source: `rich.rs`, `RichBlock` (`Deserialize`). -/
def RichBlock.decode (v : Json) : Option RichBlock := do
  match ← taggedContent "type" v with
  | ("text", content) =>
      let fields ← structFields ["text", "emphasis"] content
      let text ← (fields.lookup "text").bind Json.asStr
      let emphasis ← defaultField Emphasis.decode .none fields "emphasis"
      return .text text emphasis
  | ("key_value", content) =>
      let fields ← structFields ["rows"] content
      let rows ← (fields.lookup "rows").bind (decodeArray KeyValueRow.decode)
      return .keyValue rows
  | ("table", content) =>
      let fields ← structFields ["headers", "rows"] content
      let headers ← (fields.lookup "headers").bind (decodeArray Json.asStr)
      let rows ← (fields.lookup "rows").bind (decodeArray (decodeArray Json.asStr))
      return .table headers rows
  | ("divider", content) =>
      let _ ← structFields [] content
      return .divider
  | _ => none

/-! ## The reading -/

/-- The characters of the Unicode category `Cc`. Source: `char::is_control`. -/
def isControl (c : Char) : Bool := c.toNat ≤ 0x1f || (0x7f ≤ c.toNat && c.toNat ≤ 0x9f)

/-- A text without control characters, of which a part at the front is kept. Source: `rich.rs`,
`clean`. -/
def cleanText (s : String) (maxChars : ℕ) : String :=
  String.ofList ((s.toList.take maxChars).filter fun c =>
    c == '\n' || c == '\r' || c == '\t' || !isControl c)

namespace RichBlock

/-- The characters of a block. -/
def chars : RichBlock → ℕ
  | .text body _ => body.length
  | .keyValue rows => (rows.map fun r => r.key.length + r.value.length).sum
  | .table headers rows =>
      (headers.map String.length).sum + (rows.flatten.map String.length).sum
  | .divider => 0

/-- A block with its texts cleaned. -/
def clean : RichBlock → RichBlock
  | .text body emphasis => .text (cleanText body maxTextChars) emphasis
  | .keyValue rows =>
      .keyValue (rows.map fun r => ⟨cleanText r.key 256, cleanText r.value maxTextChars⟩)
  | .table headers rows =>
      .table (headers.map fun h => cleanText h 256) (rows.map fun row => row.map fun c =>
        cleanText c 1024)
  | .divider => .divider

/-- The rows of a block. -/
def rowCount : RichBlock → ℕ
  | .keyValue rows => rows.length
  | .table _ rows => rows.length
  | _ => 0

end RichBlock

/-- Source: `serde_json::Value::as_array`. -/
def asArray : Json → Option (List Json)
  | .array items => some items
  | _ => none

/-- The blocks that are read and their characters: what is no block is passed over, and nothing is
read once there are enough blocks or too many characters. Source: `rich.rs`, the loop of
`from_value`. -/
def takeBlocks : List Json → List RichBlock → ℕ → List RichBlock × ℕ
  | [], blocks, total => (blocks, total)
  | b :: rest, blocks, total =>
      match RichBlock.decode b with
      | none => takeBlocks rest blocks total
      | some block =>
          let total := total + block.chars
          let blocks := blocks ++ [block]
          if blocks.length ≥ maxBlocks || total > maxTotalChars then (blocks, total)
          else takeBlocks rest blocks total

namespace RichResult

/-- Source: `rich.rs`, `RichResult::from_value`. -/
def fromValue (v : Json) : Option RichResult := do
  let fields ← v.asObject
  let raw ← (fields.lookup "blocks").bind asArray
  let (blocks, total) := takeBlocks (raw.take (maxBlocks * 2)) [] 0
  if blocks.isEmpty || total > maxTotalChars then none
  else some ⟨blocks.map RichBlock.clean⟩

/-- The check of the blocks, with their characters added up. Source: `rich.rs`, the loop of
`validate`. -/
def checkBlocks : List RichBlock → ℕ → Except String ℕ
  | [], total => .ok total
  | .keyValue rows :: rest, total =>
      if rows.length > maxTableRows then .error "too many key/value rows"
      else checkBlocks rest (total + (RichBlock.keyValue rows).chars)
  | .table headers rows :: rest, total =>
      if rows.length > maxTableRows then .error "too many table rows"
      else checkBlocks rest (total + (RichBlock.table headers rows).chars)
  | block :: rest, total => checkBlocks rest (total + block.chars)

/-- Source: `rich.rs`, `RichResult::validate`. -/
def validate (r : RichResult) : Except String Unit :=
  if r.blocks.isEmpty then .error "empty rich payload"
  else if r.blocks.length > maxBlocks then
    .error ("too many blocks (max " ++ toString maxBlocks ++ ")")
  else
    match checkBlocks r.blocks 0 with
    | .error e => .error e
    | .ok total =>
        if total > maxTotalChars then .error "rich payload exceeds character budget" else .ok ()

end RichResult

/-! ## Cleaning -/

theorem length_cleanText_le (s : String) (maxChars : ℕ) :
    (cleanText s maxChars).length ≤ s.length := by
  rw [cleanText, String.length_ofList, ← String.length_toList]
  exact (List.length_filter_le _ _).trans (List.length_take_le' _ _)

namespace RichBlock

/-- Cleaning adds no characters. -/
theorem chars_clean_le (b : RichBlock) : b.clean.chars ≤ b.chars := by
  cases b with
  | text body emphasis => exact length_cleanText_le _ _
  | keyValue rows =>
      simp only [clean, chars, List.map_map]
      refine List.sum_le_sum fun r _ => ?_
      exact Nat.add_le_add (length_cleanText_le r.key 256)
        (length_cleanText_le r.value maxTextChars)
  | table headers rows =>
      simp only [clean, chars, ← List.map_flatten, List.map_map]
      refine Nat.add_le_add (List.sum_le_sum fun h _ => ?_) (List.sum_le_sum fun c _ => ?_)
      · rw [Function.comp_apply]
        exact length_cleanText_le h 256
      · rw [Function.comp_apply]
        exact length_cleanText_le c 1024
  | divider => exact Nat.le_refl _

end RichBlock

/-! ## What was read, checked -/

/-- **What the reading keeps**: the characters are those of the blocks, and the blocks are not too
many. -/
theorem takeBlocks_spec (raw : List Json) {blocks : List RichBlock} {total : ℕ}
    (hlength : blocks.length < maxBlocks) (htotal : total = (blocks.map RichBlock.chars).sum) :
    (takeBlocks raw blocks total).1.length ≤ maxBlocks ∧
      (takeBlocks raw blocks total).2 =
        ((takeBlocks raw blocks total).1.map RichBlock.chars).sum := by
  induction raw generalizing blocks total with
  | nil => exact ⟨hlength.le, htotal⟩
  | cons b rest ih =>
      rw [takeBlocks]
      cases RichBlock.decode b with
      | none => exact ih hlength htotal
      | some block =>
          have hnext : total + block.chars = ((blocks ++ [block]).map RichBlock.chars).sum := by
            simp [htotal]
          dsimp only
          split_ifs with hstop
          · refine ⟨?_, hnext⟩
            rw [List.length_append, List.length_singleton]
            exact hlength
          · rw [Bool.or_eq_true, not_or] at hstop
            exact ih (not_le.mp (by simpa using hstop.1)) hnext

namespace RichResult

/-- **What the check of the blocks asks for**: no block with too many rows. -/
theorem checkBlocks_eq_ok_iff {blocks : List RichBlock} {total t : ℕ} :
    checkBlocks blocks total = .ok t ↔
      (∀ b ∈ blocks, b.rowCount ≤ maxTableRows) ∧ t = total + (blocks.map RichBlock.chars).sum := by
  induction blocks generalizing total with
  | nil => simp [checkBlocks, eq_comm]
  | cons block rest ih =>
      have hstep : checkBlocks (block :: rest) total = .ok t ↔ block.rowCount ≤ maxTableRows ∧
          checkBlocks rest (total + block.chars) = .ok t := by
        cases block with
        | keyValue rows =>
            rw [checkBlocks]
            split_ifs with hrows
            · simp [RichBlock.rowCount, hrows]
            · simp [RichBlock.rowCount, not_lt.mp hrows]
        | table headers rows =>
            rw [checkBlocks]
            split_ifs with hrows
            · simp [RichBlock.rowCount, hrows]
            · simp [RichBlock.rowCount, not_lt.mp hrows]
        | _ => simp [checkBlocks, RichBlock.rowCount]
      rw [hstep, ih, List.forall_mem_cons, List.map_cons, List.sum_cons, Nat.add_assoc, and_assoc]

/-- A result that is read is made of cleaned blocks: at least one, not too many, and not with too
many characters. -/
theorem exists_of_fromValue {v : Json} {r : RichResult} (h : fromValue v = some r) :
    ∃ blocks, r = ⟨blocks.map RichBlock.clean⟩ ∧ blocks ≠ [] ∧ blocks.length ≤ maxBlocks ∧
      (blocks.map RichBlock.chars).sum ≤ maxTotalChars := by
  simp only [fromValue, Option.bind_eq_bind, Option.bind_eq_some_iff] at h
  obtain ⟨fields, -, raw, -, hread⟩ := h
  have hempty : ([] : List RichBlock).length < maxBlocks := by decide
  have hzero : 0 = (([] : List RichBlock).map RichBlock.chars).sum := rfl
  obtain ⟨hlength, htotal⟩ := takeBlocks_spec (raw.take (maxBlocks * 2)) hempty hzero
  split_ifs at hread with hstop
  rw [Bool.or_eq_true, not_or] at hstop
  refine ⟨_, (Option.some.inj hread).symm, by simpa using hstop.1, hlength, ?_⟩
  rw [← htotal]
  exact not_lt.mp (by simpa using hstop.2)

/-- **What was read is valid but for its rows**: it passes the check exactly when none of its blocks
has too many. -/
theorem validate_of_fromValue (v : Json) (r : RichResult) (h : fromValue v = some r) :
    r.validate = .ok () ↔ ∀ b ∈ r.blocks, b.rowCount ≤ maxTableRows := by
  obtain ⟨blocks, rfl, hne, hlength, htotal⟩ := exists_of_fromValue h
  have hcleaned : ((blocks.map RichBlock.clean).map RichBlock.chars).sum ≤ maxTotalChars := by
    rw [List.map_map]
    exact (List.sum_le_sum fun b _ => b.chars_clean_le).trans htotal
  unfold validate
  rw [if_neg (by simpa using hne), if_neg (by simpa using hlength)]
  cases hcheck : checkBlocks (blocks.map RichBlock.clean) 0 with
  | error e =>
      refine iff_of_false (fun hok => nomatch hok) fun hrows => ?_
      have hok : checkBlocks (blocks.map RichBlock.clean) 0 = .ok _ :=
        checkBlocks_eq_ok_iff.mpr ⟨hrows, rfl⟩
      rw [hcheck] at hok
      cases hok
  | ok total =>
      obtain ⟨hrows, rfl⟩ := checkBlocks_eq_ok_iff.mp hcheck
      rw [Nat.zero_add]
      exact iff_of_true (if_neg (not_lt.mpr hcleaned)) hrows

/-- A table without headers and with empty rows. -/
def emptyTable (rows : ℕ) : Json :=
  .object [("blocks", .array [.object [("headers", .array []),
    ("rows", .array (List.replicate rows (.array []))), ("type", .string "table")]])]

/-- A table of two rows is read and passes the check. -/
theorem validate_emptyTable :
    (⟨[.table [] [[], []]]⟩ : RichResult).validate = .ok () := by
  have hread : fromValue (emptyTable 2) = some ⟨[.table [] [[], []]]⟩ := by decide +kernel
  exact (validate_of_fromValue _ _ hread).mpr (by decide)

/-- A table of 201 rows is read and refused. -/
theorem not_validate_emptyTable :
    ¬ ∀ (v : Json) (r : RichResult), fromValue v = some r → r.validate = .ok () := by
  intro h
  have hread : fromValue (emptyTable 201) = some ⟨[.table [] (List.replicate 201 [])]⟩ := by
    decide +kernel
  have hok := h _ _ hread
  revert hok
  decide +kernel

end RichResult

end AuraLauncher.Domain
