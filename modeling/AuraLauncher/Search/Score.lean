import AuraLauncher.Search.Rank
import Mathlib.Algebra.Order.Field.Rat

/-!
# Lexical scores

`launcher-search/src/lib.rs` and `fuzzy.rs`: how well a command matches a query, as the sum of the
parts that the explanation of a result shows. Every weight of the source is an integer or a half,
and the numbers here are exact.

* `fuzzyScore`, `fuzzyScoreBest` — the scored subsequence matcher.
* `RankingWeights`, `RankingWeights.default` — the weights that a score reads.
* `ScoreParts`, `scoreWithParts`, `score` — the parts, and their sum under the default weights.

Parameters: what `SearchStd` lists.
-/

namespace AuraLauncher.Search

open AuraLauncher.Domain

/-- What the scores use of Rust's standard library and of the table of syllables. -/
structure SearchStd where
  std : RustStd
  /-- `str::to_lowercase`. -/
  lower : String → String
  /-- `Path::file_stem`, when it is text; which characters part a path is the platform's matter. -/
  fileStem : String → Option String
  /-- Source: `launcher-domain/src/pinyin_table.rs`, `lookup_syllable`. -/
  lookupSyllable : Char → Option String

/-- What `SearchStd` is on ASCII texts and file names without separators. -/
def SearchStd.ascii : SearchStd where
  std := RustStd.ascii
  lower s := String.ofList (s.toList.map Char.toLower)
  fileStem name :=
    let stem := (name.toList.reverse.dropWhile fun c => c != '.').drop 1
    some (if stem.isEmpty then name else String.ofList stem.reverse)
  lookupSyllable _ := none

/-! ## Scored subsequences -/

/-- Source: `fuzzy.rs`, `GAP_PENALTY`. -/
def GAP_PENALTY : ℚ := 3 / 2

/-- Source: `fuzzy.rs`, `GAP_CAP`. -/
def GAP_CAP : ℚ := 30

/-- Source: `fuzzy.rs`, `RUN_BONUS`. -/
def RUN_BONUS : ℚ := 6

/-- Source: `fuzzy.rs`, `WORD_BOUNDARY_BONUS`. -/
def WORD_BOUNDARY_BONUS : ℚ := 12

/-- Source: `fuzzy.rs`, `PREFIX_SCORE`. -/
def PREFIX_SCORE : ℚ := 100

/-- Source: `launcher-search/src/lib.rs`, `FUZZY_MAX_CONTRIBUTION`. -/
def FUZZY_MAX_CONTRIBUTION : ℚ := 40

/-- What parts the words of a candidate. Source: `fuzzy.rs`, `is_separator`. -/
def isFuzzySeparator (c : Char) : Bool :=
  isWhitespace c || c == '-' || c == '_' || c == '.' || c == '/' || c == '\\'

/-- The first lower-case glyph of a character. Source: `fuzzy.rs`, `fold`. -/
def fold (std : RustStd) (c : Char) : Option Char :=
  if c.toNat < 128 then some c.toLower else (std.toLowercase c).head?

/-- What the matcher carries along a candidate. -/
structure FuzzyState where
  score : ℚ
  gapTotal : ℚ
  /-- The glyphs of the query that are still to be found. -/
  rest : List Char
  prevPos : Option ℕ
  run : ℕ
  lastWasSep : Bool

/-- One character of the candidate. Source: `fuzzy.rs`, the loop of `fuzzy_score`. -/
def fuzzyStep (std : RustStd) (s : FuzzyState) (p : Char × ℕ) : FuzzyState :=
  let s :=
    match s.rest with
    | q :: rest =>
        if fold std p.1 = some q then
          let (score, run) :=
            if s.lastWasSep then (s.score + WORD_BOUNDARY_BONUS, 0) else (s.score, s.run)
          match s.prevPos with
          | some prev =>
              if p.2 = prev + 1 then
                { s with
                  score := score + (RUN_BONUS + (min (run + 1) 5 : ℕ))
                  run := run + 1
                  prevPos := some p.2
                  rest := rest }
              else
                { s with
                  score := score
                  gapTotal := min (s.gapTotal + (p.2 - prev - 1 : ℕ) * GAP_PENALTY) GAP_CAP
                  run := 0
                  prevPos := some p.2
                  rest := rest }
          | none => { s with score := score, run := 0, prevPos := some p.2, rest := rest }
        else s
    | [] => s
  { s with lastWasSep := isFuzzySeparator p.1 }

/-- Whether a candidate begins with the query. As in the source, a candidate shorter than the query
that agrees with it as far as it goes counts. Source: `fuzzy.rs`, `prefix_ok`. -/
def prefixOk (std : RustStd) (candidate q : List Char) : Bool :=
  (candidate.zip q).all fun p => fold std p.1 == some p.2

/-- Source: `fuzzy.rs`, `fuzzy_score`. -/
def fuzzyScore (S : SearchStd) (candidate query : String) : Option ℚ :=
  let q :=
    if query.length ≤ 48 then query.toList.map fun c => (fold S.std c).getD c
    else (S.lower query).toList
  if q.isEmpty || candidate.isEmpty then none
  else if prefixOk S.std candidate.toList q then some PREFIX_SCORE
  else
    let s := candidate.toList.zipIdx.foldl (fuzzyStep S.std) ⟨0, 0, q, none, 0, true⟩
    if s.rest.isEmpty then some (max (s.score - s.gapTotal) 0) else none

/-- Source: `fuzzy.rs`, `fuzzy_score_best`. -/
def fuzzyScoreBest (S : SearchStd) (candidates : List String) (query : String) : Option ℚ :=
  (candidates.filterMap fun c => fuzzyScore S c query).foldl
    (fun acc s =>
      match acc with
      | some best => if best ≥ s then some best else some s
      | none => some s)
    none

/-! ## Weights and parts -/

/-- Source: `launcher-search/src/lib.rs`, `type_prior`. -/
def typePrior : Category → ℚ
  | .application => 25
  | .folder => 20
  | .command => 15
  | .plugin => 10
  | .file => 0

/-- The weights that a score reads. Source: `launcher-search/src/lib.rs`, `RankingWeights`. -/
structure RankingWeights where
  keywordExact : ℚ
  keywordPrefix : ℚ
  keywordContains : ℚ
  multiToken : ℚ
  titleExact : ℚ
  titlePrefix : ℚ
  titleContains : ℚ
  pluginHint : ℚ
  titleWord : ℚ
  pluginHintMatched : ℚ

/-- Source: `launcher-search/src/lib.rs`, `RankingWeights::default`. -/
def RankingWeights.default : RankingWeights where
  keywordExact := 50
  keywordPrefix := 25
  keywordContains := 15
  multiToken := 30
  titleExact := 100
  titlePrefix := 60
  titleContains := 40
  pluginHint := 45
  titleWord := 85
  pluginHintMatched := 15

/-- Source: `launcher-search/src/lib.rs`, `MatchedField`. -/
inductive MatchedField where
  | none | title | titleStem | titleWord | keyword | fuzzy
  deriving DecidableEq, Repr

/-- Source: `launcher-search/src/lib.rs`, `ScoreParts`. -/
structure ScoreParts where
  pluginHint : ℚ
  title : ℚ
  keyword : ℚ
  fuzzy : ℚ
  multiToken : ℚ
  typePrior : ℚ
  matchedField : MatchedField
  deriving DecidableEq

/-- Source: `launcher-search/src/lib.rs`, `ScoreParts::total`. -/
def ScoreParts.total (p : ScoreParts) : ℚ :=
  p.pluginHint + p.title + p.keyword + p.fuzzy + p.multiToken + p.typePrior

/-- Source: `launcher-search/src/lib.rs`, `best_title_score`. -/
def bestTitleScore (candidate query : List Char) (w : RankingWeights) : ℚ :=
  if candidate = query then w.titleExact
  else if query.isPrefixOf candidate then w.titlePrefix
  else if hasSub query candidate then w.titleContains
  else 0

/-- What parts the words of a title. -/
def isWordBreak (c : Char) : Bool := isWhitespace c || c == '-' || c == '_' || c == '.'

/-- The stem that is scored beside the title of a file. -/
def scoredStem (S : SearchStd) (c : SearchCommand) : Option String :=
  if c.category = .file then S.fileStem (S.lower c.title) else none

/-- The title part and where it was found: the title, the stem of a file, the words, each of them
only when it scores more than those before. -/
def titlePart (S : SearchStd) (c : SearchCommand) (q : List Char) (w : RankingWeights) :
    ℚ × MatchedField :=
  let title := (S.lower c.title).toList
  let whole := bestTitleScore title q w
  let found : ℚ × MatchedField := (whole, if 0 < whole then .title else .none)
  let found :=
    match scoredStem S c with
    | some stem =>
        let score := bestTitleScore stem.toList q w
        if found.1 < score then (score, .titleStem) else found
    | none => found
  (splitOn isWordBreak title).foldl
    (fun found word =>
      let score := min (bestTitleScore word q w) w.titleWord
      if found.1 < score then (score, .titleWord) else found)
    found

/-- The bonus of one keyword. -/
def keywordBonus (S : SearchStd) (q : List Char) (w : RankingWeights) (k : String) : ℚ :=
  let k := (S.lower k).toList
  if k = q then w.keywordExact
  else if q.isPrefixOf k then w.keywordPrefix
  else if hasSub q k then w.keywordContains
  else 0

/-- The keyword part. -/
def keywordPart (S : SearchStd) (c : SearchCommand) (q : List Char) (w : RankingWeights) : ℚ :=
  c.keywords.foldl (fun sum k => sum + keywordBonus S q w k) 0

/-- What the subsequence matcher is tried on: the title, the stem of a file, the keywords, and the
pinyin keys of the title. -/
def fuzzyCandidates (S : SearchStd) (c : SearchCommand) : List String :=
  let title := S.lower c.title
  let initials := pinyinInitials S.lookupSyllable title
  let full := pinyinFull S.lookupSyllable title
  [title] ++ (scoredStem S c).toList ++ c.keywords ++
    (if initials.isEmpty then [] else [initials]) ++
    (if full.isEmpty || full == initials then [] else [full])

/-- The bounded contribution of the subsequence matcher. -/
def fuzzyPart (S : SearchStd) (c : SearchCommand) (query : String) : Option ℚ :=
  (fuzzyScoreBest S (fuzzyCandidates S c) query).map fun best =>
    min (best / PREFIX_SCORE) 1 * FUZZY_MAX_CONTRIBUTION

/-- Whether every word of the query occurs in the title and the keywords. -/
def hasAllTokens (S : SearchStd) (c : SearchCommand) (query : QueryContext) : Bool :=
  let haystack := S.lower c.title ++ " " ++ String.intercalate " " (c.keywords.map S.lower)
  query.tokens.all fun t => hasSub t.toList haystack.toList

/-- The provider's own score, as far as it counts. -/
def hint (c : SearchCommand) : ℚ := max 0 (min c.score 1)

/-- Source: `launcher-search/src/lib.rs`, `score_with_parts`. -/
def scoreWithParts (S : SearchStd) (c : SearchCommand) (query : QueryContext)
    (w : RankingWeights) : ScoreParts :=
  if query.normalized.isEmpty then ⟨0, 0, 0, 0, 0, 0, .none⟩
  else
    let q := query.normalized.toList
    let pluginHint := hint c * w.pluginHint
    let found := titlePart S c q w
    let title := found.1
    let field := if 0 < title then found.2 else .none
    let keyword := keywordPart S c q w
    let field := if 0 < keyword ∧ field = .none then .keyword else field
    -- the matcher is asked only when nothing else gave the command a score
    let fuzzy := if pluginHint + title + keyword = 0 then fuzzyPart S c query.normalized else none
    let field := if fuzzy.isSome then .fuzzy else field
    let fuzzy := fuzzy.getD 0
    let multiToken :=
      if query.tokens.length > 1 ∧ hasAllTokens S c query = true then w.multiToken else 0
    let pluginHint :=
      if 0 < title + keyword + fuzzy then pluginHint / max w.pluginHint 1 * w.pluginHintMatched
      else pluginHint
    let parts : ScoreParts := ⟨pluginHint, title, keyword, fuzzy, multiToken, 0, field⟩
    if 0 < parts.total then { parts with typePrior := typePrior c.category } else parts

/-- Source: `launcher-search/src/lib.rs`, `score`. -/
def score (S : SearchStd) (c : SearchCommand) (query : QueryContext) : ℚ :=
  (scoreWithParts S c query .default).total

/-- A result of a provider with its score. Source: `launcher-search/src/lib.rs`, `from_provider` in
the tests. -/
def fromProvider (id title provider : String) (category : Category) (scoreHint : ℚ) :
    SearchCommand where
  id := id
  providerId := provider
  actions := []
  title := title
  subtitle := none
  icon := none
  score := scoreHint
  keywords := []
  category := category
  target := none

end AuraLauncher.Search
