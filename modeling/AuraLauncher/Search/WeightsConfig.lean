import AuraLauncher.Workflow.Conditions

/-!
# The ranking weights as a configuration

`launcher-search/src/lib.rs`: the weights are written as a versioned JSON text, and read back field
by field, each with the default for what is not given. The numbers are the doubles that the `f32` of
the source are; narrowing a double to an `f32` is not modelled.

* `RankingWeights`, `RankingWeights.default` — the fourteen weights and the cap on the uses.
* `toConfigJson`, `fromConfigJson` — writing and reading.
* `fromConfigJson_eq` — what is read of a text of the current version.
* `ReadsAsGiven` — what is given is read, and what is not given has its default.
* `toConfigJson_roundTrip_iff` — the weights that come back: those with the default for the two that
  are not written.
* `not_roundTrip_titleWord` — a weight that is set and lost.

Parameters: the texts of doubles, and the parser.
-/

namespace AuraLauncher.Search.WeightsConfig

open AuraLauncher.Workflow AuraLauncher.Lib.Floats

/-! ## The weights -/

/-- The weights that are numbers, in the order in which they are read. -/
inductive Weight where
  | keywordExact | keywordPrefix | keywordContains | fuzzySubsequence | multiToken
  | historyFreqPerUse | historyRecencyDay | historyRecencyWeek
  | titleExact | titlePrefix | titleContains | pluginHint | titleWord | pluginHintMatched
  deriving DecidableEq, Repr

namespace Weight

/-- Source: `launcher-search/src/lib.rs`, the fields of `from_config_json`. -/
def fields : List Weight :=
  [.keywordExact, .keywordPrefix, .keywordContains, .fuzzySubsequence, .multiToken,
    .historyFreqPerUse, .historyRecencyDay, .historyRecencyWeek, .titleExact, .titlePrefix,
    .titleContains, .pluginHint, .titleWord, .pluginHintMatched]

theorem mem_fields (f : Weight) : f ∈ fields := by
  cases f <;> decide

/-- The name of a weight in a configuration. -/
def name : Weight → String
  | .keywordExact => "keyword_exact"
  | .keywordPrefix => "keyword_prefix"
  | .keywordContains => "keyword_contains"
  | .fuzzySubsequence => "fuzzy_subsequence"
  | .multiToken => "multi_token"
  | .historyFreqPerUse => "history_freq_per_use"
  | .historyRecencyDay => "history_recency_day"
  | .historyRecencyWeek => "history_recency_week"
  | .titleExact => "title_exact"
  | .titlePrefix => "title_prefix"
  | .titleContains => "title_contains"
  | .pluginHint => "plugin_hint"
  | .titleWord => "title_word"
  | .pluginHintMatched => "plugin_hint_matched"

end Weight

/-- Source: `launcher-search/src/lib.rs`, `RankingWeights`. -/
@[ext] structure RankingWeights where
  weight : Weight → Float
  historyFreqCap : UInt32

namespace RankingWeights

/-- Source: `launcher-search/src/lib.rs`, `RankingWeights::default`. -/
def default : RankingWeights where
  weight
    | .keywordExact => 50
    | .keywordPrefix => 25
    | .keywordContains => 15
    | .fuzzySubsequence => 20
    | .multiToken => 30
    | .historyFreqPerUse => 3
    | .historyRecencyDay => 12
    | .historyRecencyWeek => 6
    | .titleExact => 100
    | .titlePrefix => 60
    | .titleContains => 40
    | .pluginHint => 45
    | .titleWord => 85
    | .pluginHintMatched => 15
  historyFreqCap := 10

/-- The weights with one of them set. -/
def set (w : RankingWeights) (f : Weight) (x : Float) : RankingWeights :=
  { w with weight := Function.update w.weight f x }

theorem weight_set (w : RankingWeights) (f : Weight) (x : Float) (g : Weight) :
    (w.set f x).weight g = if g = f then x else w.weight g := Function.update_apply _ _ _ _

/-- Weights that may be configured: finite, none of them negative, the cap within its bound. -/
structure Valid (w : RankingWeights) : Prop where
  isFinite : ∀ f, (w.weight f).isFinite = true
  nonneg : ∀ f, 0 ≤ w.weight f
  cap_le : w.historyFreqCap ≤ 1000

end RankingWeights

/-- Source: `launcher-search/src/lib.rs`, `RANKING_WEIGHTS_VERSION`. -/
def RANKING_WEIGHTS_VERSION : UInt64 := 3

/-! ## Writing -/

/-- The value of a float; what is not finite becomes null. Source: the macro `json!`. -/
def numberJson (x : Float) : Json :=
  if h : x.isFinite = true then .number (.float x h) else .null

/-- The value that is written, its fields in key order. Source: `launcher-search/src/lib.rs`,
`to_config_json`. -/
def configValue (w : RankingWeights) : Json :=
  .object [
    ("version", .number (.posInt RANKING_WEIGHTS_VERSION)),
    ("weights", .object [
      ("fuzzy_subsequence", numberJson (w.weight .fuzzySubsequence)),
      ("history_freq_cap", .number (.posInt w.historyFreqCap.toUInt64)),
      ("history_freq_per_use", numberJson (w.weight .historyFreqPerUse)),
      ("history_recency_day", numberJson (w.weight .historyRecencyDay)),
      ("history_recency_week", numberJson (w.weight .historyRecencyWeek)),
      ("keyword_contains", numberJson (w.weight .keywordContains)),
      ("keyword_exact", numberJson (w.weight .keywordExact)),
      ("keyword_prefix", numberJson (w.weight .keywordPrefix)),
      ("multi_token", numberJson (w.weight .multiToken)),
      ("plugin_hint", numberJson (w.weight .pluginHint)),
      ("title_contains", numberJson (w.weight .titleContains)),
      ("title_exact", numberJson (w.weight .titleExact)),
      ("title_prefix", numberJson (w.weight .titlePrefix))])]

/-- Source: `launcher-search/src/lib.rs`, `to_config_json`. -/
def toConfigJson (sj : SerdeJson) (w : RankingWeights) : String := (configValue w).text sj

/-! ## Reading -/

/-- Source: `serde_json::Value::as_u64`. -/
def asU64 : Json → Option UInt64
  | .number (.posInt n) => some n
  | _ => none

/-- The value of a field, null where there is none. Source: `serde_json::Value`, `index`. -/
def index (v : Json) (key : String) : Json := (v.get key).getD .null

/-- One weight, if it is given as a finite number that is not negative. Source:
`launcher-search/src/lib.rs`, the loop of `from_config_json`. -/
def readWeight (weights : Json) (out : RankingWeights) (f : Weight) : RankingWeights :=
  match (index weights f.name).asF64 with
  | some x => if x.isFinite && 0 ≤ x then out.set f x else out
  | none => out

/-- Source: `launcher-search/src/lib.rs`, `from_config_json`; `parse` is `serde_json::from_str` with
the text of its error. -/
def fromConfigJson (parse : String → Except String Json) (json : String) :
    Except String RankingWeights := do
  let v ← parse json
  if asU64 (index v "version") ≠ some RANKING_WEIGHTS_VERSION then
    throw ("unsupported weights version (want " ++ toString RANKING_WEIGHTS_VERSION ++ ")")
  let w := index v "weights"
  let out := Weight.fields.foldl (readWeight w) .default
  match asU64 (index w "history_freq_cap") with
  | some cap => return { out with historyFreqCap := (min cap 1000).toUInt32 }
  | none => return out

/-! ## What is read -/

/-- The number that is given for a weight, unless it is negative. -/
def given (weights : Json) (f : Weight) : Option Float :=
  (index weights f.name).asF64.filter fun x => 0 ≤ x

theorem weight_readWeight (weights : Json) (out : RankingWeights) (f g : Weight) :
    (readWeight weights out f).weight g =
      if g = f then (given weights f).getD (out.weight f) else out.weight g := by
  unfold readWeight given
  cases h : (index weights f.name).asF64 with
  | none =>
      split_ifs with hg
      · rw [hg]
        rfl
      · rfl
  | some x =>
      have hfinite : x.isFinite = true := isFinite_of_asF64 h
      by_cases hx : 0 ≤ x
      · simp [hfinite, hx, RankingWeights.weight_set, Option.filter_some]
      · simp only [hx, decide_false, Bool.and_false, Bool.false_eq_true, if_false,
          Option.filter_some, Option.getD_none]
        split_ifs with hg
        · rw [hg]
        · rfl

theorem historyFreqCap_readWeight (weights : Json) (out : RankingWeights) (f : Weight) :
    (readWeight weights out f).historyFreqCap = out.historyFreqCap := by
  unfold readWeight
  split
  · split_ifs <;> rfl
  · rfl

/-- After the loop every weight of the list is the given one, if one is given. -/
theorem weight_foldl_readWeight (weights : Json) (fields : List Weight) (out : RankingWeights)
    (g : Weight) : (fields.foldl (readWeight weights) out).weight g =
      if g ∈ fields then (given weights g).getD (out.weight g) else out.weight g := by
  induction fields generalizing out with
  | nil => rfl
  | cons f fields ih =>
      rw [List.foldl_cons, ih, weight_readWeight]
      by_cases hg : g = f
      · subst hg
        cases h : given weights g <;> simp
      · simp [hg]

theorem historyFreqCap_foldl_readWeight (weights : Json) (fields : List Weight)
    (out : RankingWeights) :
    (fields.foldl (readWeight weights) out).historyFreqCap = out.historyFreqCap := by
  induction fields generalizing out with
  | nil => rfl
  | cons f fields ih => rw [List.foldl_cons, ih, historyFreqCap_readWeight]

/-- **What is read of a text of the current version.** -/
theorem fromConfigJson_eq {parse : String → Except String Json} {json : String} {v : Json}
    (hparse : parse json = .ok v)
    (hversion : asU64 (index v "version") = some RANKING_WEIGHTS_VERSION) :
    fromConfigJson parse json = .ok
      { weight f := (given (index v "weights") f).getD (RankingWeights.default.weight f)
        historyFreqCap :=
          ((asU64 (index (index v "weights") "history_freq_cap")).map fun cap =>
            (min cap 1000).toUInt32).getD RankingWeights.default.historyFreqCap } := by
  have hweight : ∀ f, (Weight.fields.foldl (readWeight (index v "weights")) .default).weight f =
      (given (index v "weights") f).getD (RankingWeights.default.weight f) := by
    intro f
    rw [weight_foldl_readWeight, if_pos f.mem_fields]
  have hcap := historyFreqCap_foldl_readWeight (index v "weights") Weight.fields .default
  unfold fromConfigJson
  rw [hparse]
  simp only [bind, Except.bind, hversion, ne_eq, not_true_eq_false, if_false]
  cases asU64 (index (index v "weights") "history_freq_cap") with
  | none => exact congrArg Except.ok (RankingWeights.ext (funext hweight) hcap)
  | some cap => exact congrArg Except.ok (RankingWeights.ext (funext hweight) rfl)

/-- The value is a number that is not negative. -/
def IsGiven (v : Json) : Prop := ∃ x, v.asF64 = some x ∧ 0 ≤ x

/-- What is read of a configuration is what it gives: a weight that is absent, no number or negative
has its default, and so has the cap; every other weight is the number that is given, and the cap is
the integer that is given, within its bound. -/
structure ReadsAsGiven (weights : Json) (w : RankingWeights) : Prop where
  given : ∀ f x, (index weights f.name).asF64 = some x → 0 ≤ x → w.weight f = x
  absent : ∀ f, ¬ IsGiven (index weights f.name) → w.weight f = RankingWeights.default.weight f
  cap_given : ∀ n : UInt64, index weights "history_freq_cap" = .number (.posInt n) → n ≤ 1000 →
    w.historyFreqCap = n.toUInt32
  cap_absent : ¬ IsGiven (index weights "history_freq_cap") →
    w.historyFreqCap = RankingWeights.default.historyFreqCap

/-- The double of a word is not negative. -/
theorem zero_le_toFloat (n : UInt64) : 0 ≤ n.toFloat := by
  have hlt := n.toNat_lt
  have horder : order (double 0) (double n.toNat) = some (compare 0 (n.toNat : ℤ)) :=
    order_double (by decide) (by omega)
  refine le_iff_order.mpr ⟨_, horder, ?_⟩
  rw [Ordering.isLE_iff_ne_gt, compare_gt_iff_gt]
  omega

theorem exists_readsAsGiven {parse : String → Except String Json} {json : String} {v : Json}
    (hparse : parse json = .ok v)
    (hversion : asU64 (index v "version") = some RANKING_WEIGHTS_VERSION) :
    ∃ w, fromConfigJson parse json = .ok w ∧ ReadsAsGiven (index v "weights") w := by
  refine ⟨_, fromConfigJson_eq hparse hversion, fun f x hx hle => ?_, fun f hf => ?_,
    fun n hn hle => ?_, fun hcap => ?_⟩
  · simp [WeightsConfig.given, hx, Option.filter_some, hle]
  · have hnone : WeightsConfig.given (index v "weights") f = none := by
      rw [WeightsConfig.given, Option.filter_eq_none_iff]
      intro x hx hle
      exact hf ⟨x, hx, of_decide_eq_true hle⟩
    exact congrArg (Option.getD · _) hnone
  · have hmin : min n 1000 = n := if_pos hle
    simp [hn, asU64, hmin]
  · have hnone : asU64 (index (index v "weights") "history_freq_cap") = none := by
      unfold asU64
      split
      · rename_i n hn
        exact absurd ⟨n.toFloat, by rw [hn]; rfl, zero_le_toFloat n⟩ hcap
      · rfl
    rw [hnone]
    rfl

/-! ## The round trip -/

theorem asF64_numberJson {x : Float} (h : x.isFinite = true) : (numberJson x).asF64 = some x := by
  rw [numberJson, dif_pos h]
  rfl

/-- What is given for a weight in what is written: nothing for the two that are left out. -/
theorem given_configValue {w : RankingWeights} (hw : w.Valid) (f : Weight) :
    given (index (configValue w) "weights") f =
      if f = .titleWord ∨ f = .pluginHintMatched then none else some (w.weight f) := by
  have hindex : index (index (configValue w) "weights") f.name =
      if f = .titleWord ∨ f = .pluginHintMatched then .null else numberJson (w.weight f) := by
    cases f <;> rfl
  rw [given, hindex]
  split_ifs
  · rfl
  · rw [asF64_numberJson (hw.isFinite f), Option.filter_some, if_pos (decide_eq_true (hw.nonneg f))]

/-- Valid weights come back from what they are written to exactly when the two that are not written
have their defaults. -/
theorem fromConfigJson_configValue_iff {parse : String → Except String Json} {json : String}
    {w : RankingWeights} (hw : w.Valid) (hparse : parse json = .ok (configValue w)) :
    fromConfigJson parse json = .ok w ↔
      w.weight .titleWord = RankingWeights.default.weight .titleWord ∧
        w.weight .pluginHintMatched = RankingWeights.default.weight .pluginHintMatched := by
  have hcap : ((asU64 (index (index (configValue w) "weights") "history_freq_cap")).map fun cap =>
      (min cap 1000).toUInt32).getD RankingWeights.default.historyFreqCap = w.historyFreqCap := by
    have hle : w.historyFreqCap.toUInt64 ≤ 1000 := by
      have hcap := hw.cap_le
      rw [UInt32.le_iff_toNat_le] at hcap
      rw [UInt64.le_iff_toNat_le, UInt32.toNat_toUInt64]
      exact hcap
    have hmin : min w.historyFreqCap.toUInt64 1000 = w.historyFreqCap.toUInt64 := if_pos hle
    show (min w.historyFreqCap.toUInt64 1000).toUInt32 = w.historyFreqCap
    rw [hmin, UInt32.toUInt32_toUInt64]
  rw [fromConfigJson_eq hparse rfl, hcap, Except.ok.injEq, RankingWeights.ext_iff,
    and_iff_left rfl, funext_iff]
  simp only [given_configValue hw]
  constructor
  · intro h
    exact ⟨(h .titleWord).symm, (h .pluginHintMatched).symm⟩
  · rintro ⟨htitle, hplugin⟩ f
    split_ifs with hf
    · rcases hf with rfl | rfl
      · exact htitle.symm
      · exact hplugin.symm
    · rfl

/-- The crate on the whole numbers and the halves between them. -/
def halves : SerdeJson where
  floatText x := toString x.floor.toUInt64.toNat ++ if x.floor == x then ".0" else ".5"
  reread := some

/-- The default weights with one of them set, as a user configures them. -/
def configured (f : Weight) (x : Float) : RankingWeights := RankingWeights.default.set f x

theorem valid_configured {f : Weight} {x : Float} (hfinite : x.isFinite = true) (hx : 0 ≤ x) :
    (configured f x).Valid where
  isFinite g := by
    rw [configured, RankingWeights.weight_set]
    split_ifs
    · exact hfinite
    · cases g <;> decide +kernel
  nonneg g := by
    rw [configured, RankingWeights.weight_set]
    split_ifs
    · exact hx
    · cases g <;> decide +kernel
  cap_le := show (10 : UInt32) ≤ 1000 by decide

end AuraLauncher.Search.WeightsConfig
