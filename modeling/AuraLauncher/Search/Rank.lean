import AuraLauncher.Domain.Action
import AuraLauncher.Domain.Names
import Mathlib.Data.List.Sort
import Mathlib.Data.Rat.Defs

/-!
# Ranking

`launcher-search/src/lib.rs`: the pure function from the commands that the providers answered to
the list that a search returns. Scores are exact numbers; every boost of the source is an integer.

* `SearchCommand` — a command with the fields that a search reads.
* `QueryContext` — a query, parsed.
* `searchIdentityKey`, `contextScore` — the identity of a command, and what the desktop context
  adds to its score.
* `rankWithBoost` — score, sort, drop repeated rows, collapse equal identities, cut at the limit.

Parameters: the lexical score of a command and the Unicode tables.
-/

namespace AuraLauncher.Search

open AuraLauncher.Domain

/-- Source: `launcher-domain/src/lib.rs`, `Category`. -/
inductive Category where
  | application | file | folder | command | plugin
  deriving DecidableEq, Repr

/-- A command with the fields that a search reads. Source: `launcher-domain/src/lib.rs`,
`Command`. -/
structure SearchCommand extends Command where
  title : String
  subtitle : Option String
  icon : Option String
  score : ℚ
  keywords : List String
  category : Category
  /-- The path or command line that its actions use. -/
  target : Option String

/-- A parsed query. Source: `launcher-domain/src/lib.rs`, `QueryContext`. -/
structure QueryContext where
  raw : String
  normalized : String
  tokens : List String
  deriving DecidableEq

/-- The words of a text. Source: `str::split_whitespace`. -/
def splitWhitespace (s : List Char) : List (List Char) :=
  (splitOn isWhitespace s).filter fun word => !word.isEmpty

/-- Source: `launcher-domain/src/lib.rs`, `QueryContext::parse`; `lower` is `str::to_lowercase`. -/
def QueryContext.parse (lower : String → String) (raw : String) : QueryContext :=
  let normalized := lower (String.ofList (List.intercalate [' '] (splitWhitespace raw.toList)))
  { raw := raw
    normalized := normalized
    tokens := (splitWhitespace normalized.toList).map String.ofList }

/-- The semantic identity of a command. Source: `launcher-search/src/lib.rs`,
`search_identity_key`. -/
def searchIdentityKey (std : RustStd) (c : SearchCommand) : String :=
  match c.category, c.target with
  | .application, some t | .file, some t | .folder, some t =>
      "path:" ++ normalizePathIdentity std t
  | _, _ => "cmd:" ++ c.providerId ++ ":" ++ c.id

/-! ## The desktop context -/

/-- Source: `launcher-search/src/lib.rs`, `ContextSnapshot`. -/
structure ContextSnapshot where
  foregroundApp : Option String
  currentFolder : Option String
  deriving DecidableEq

/-- The text before the last backslash, empty when there is none. -/
def parentText (t : List Char) : List Char :=
  ((t.reverse.dropWhile fun c => c != '\\').drop 1).reverse

/-- What the folder of a candidate adds. Source: `launcher-search/src/lib.rs`, `context_score`
(`proximity`). -/
def folderScore (f t : List Char) : ℚ :=
  if f.isEmpty || t.isEmpty then 0
  else if parentText t = f then 12
  else if (f ++ ['\\']).isPrefixOf t then 7
  else if (t ++ ['\\']).isPrefixOf f then 3
  else 0

/-- What the context adds to the score of a candidate, with the default weights. Source:
`launcher-search/src/lib.rs`, `context_score`. -/
def contextScore (std : RustStd) (c : SearchCommand) (ctx : ContextSnapshot) : ℚ :=
  let identity := normalizePathIdentity std
  let foreground : ℚ :=
    match ctx.foregroundApp, c.target with
    | some fg, some target => if identity fg = identity target then 8 else 0
    | _, _ => 0
  let folder : ℚ :=
    match ctx.currentFolder, c.target with
    | some folder, some target => folderScore (identity folder).toList (identity target).toList
    | _, _ => 0
  foreground + folder

/-! ## Ranking -/

/-- The order of the ranked list: score descending, then provider and id. Source:
`launcher-search/src/lib.rs`, the comparison in `rank_with_boost`. -/
def RankLe (a b : SearchCommand) : Prop :=
  b.score < a.score ∨ a.score = b.score ∧
    (a.providerId < b.providerId ∨ a.providerId = b.providerId ∧ a.id ≤ b.id)

instance : DecidableRel RankLe := fun _ _ => inferInstanceAs (Decidable (_ ∨ _ ∧ _))

/-- The rows without those whose provider and id came before. -/
def dropRepeated (commands : List SearchCommand) : List SearchCommand :=
  commands.foldl
    (fun kept c =>
      if kept.any fun k => k.providerId == c.providerId && k.id == c.id then kept
      else kept ++ [c])
    []

/-- An action of a dropped row, unless the kept row has one of its id and kind. -/
def mergeAction (actions : List Action) (a : Action) : List Action :=
  if actions.any fun k => k.id.getD "" == a.id.getD "" && k.kind == a.kind then actions
  else actions ++ [a]

/-- A row with what it lacks from a dropped row of the same identity. -/
def mergeRow (kept dropped : SearchCommand) : SearchCommand :=
  { kept with
    subtitle := if kept.subtitle.isNone then dropped.subtitle else kept.subtitle
    actions := dropped.actions.foldl mergeAction kept.actions }

/-- The first row of each identity, merged with the later rows of that identity. -/
def collapse (std : RustStd) (commands : List SearchCommand) : List SearchCommand :=
  commands.foldl
    (fun kept c =>
      if kept.any fun k => searchIdentityKey std k == searchIdentityKey std c then
        kept.map fun k =>
          if searchIdentityKey std k = searchIdentityKey std c then mergeRow k c else k
      else kept ++ [c])
    []

/-- Source: `launcher-search/src/lib.rs`, `rank_with_boost`. -/
def rankWithBoost (std : RustStd) (score : SearchCommand → QueryContext → ℚ)
    (commands : List SearchCommand) (query : QueryContext) (limit : ℕ)
    (boost : SearchCommand → ℚ) : List SearchCommand :=
  let scored := commands.map fun c =>
    { c with score := if 0 < score c query then score c query + boost c else 0 }
  let matching := scored.filter fun c => decide (0 < c.score)
  (collapse std (dropRepeated (matching.insertionSort RankLe))).take limit

end AuraLauncher.Search
