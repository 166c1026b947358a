import AuraLauncher.Search.RankContract

/-!
# Identity keys of plain commands

What is not a file, a folder or an application is known by its provider and its id. The key joins
the two with a colon, and both may contain colons: the name of a plugin is any text that is not
blank, and a plugin chooses its ids.

* `SearchCommand.isPlain` — a command that is known by its provider and id.
* `Respelled` — the provider of one command is that of the other with a piece of the other's id.
* `searchIdentityKey_eq_iff` — when two plain commands have one key.
* `plain_apart_iff` — keys, rows and actions of plain commands are kept apart exactly when no two of
  the candidates are respelled.
* `calcCommands_merge` — two plugins whose commands become one row with the actions of both.
-/

namespace AuraLauncher.Search

open AuraLauncher.Domain AuraLauncher.Lib

/-- Whether a command is known by its provider and id. -/
def SearchCommand.isPlain (c : SearchCommand) : Bool :=
  c.target.isNone || c.category == .command || c.category == .plugin

/-- The provider of `b` is that of `a` with the beginning of the id of `a`, and the id of `b` is
what remains of it. -/
def Respelled (a b : SearchCommand) : Prop :=
  ∃ s : String, b.providerId = a.providerId ++ ":" ++ s ∧ a.id = s ++ ":" ++ b.id

theorem searchIdentityKey_of_isPlain (std : RustStd) {c : SearchCommand} (h : c.isPlain = true) :
    searchIdentityKey std c = "cmd:" ++ c.providerId ++ ":" ++ c.id := by
  unfold searchIdentityKey
  cases htarget : c.target <;> cases hcategory : c.category <;>
    simp [SearchCommand.isPlain, htarget, hcategory] at h ⊢

theorem searchIdentityKey_of_not_isPlain (std : RustStd) {c : SearchCommand}
    (h : c.isPlain = false) :
    ∃ t, searchIdentityKey std c = "path:" ++ normalizePathIdentity std t := by
  unfold searchIdentityKey
  cases htarget : c.target <;> cases hcategory : c.category <;>
    simp [SearchCommand.isPlain, htarget, hcategory] at h ⊢

/-- A plain command shares its key with plain commands only. -/
theorem isPlain_of_key_eq (std : RustStd) {a b : SearchCommand} (ha : a.isPlain = true)
    (h : searchIdentityKey std a = searchIdentityKey std b) : b.isPlain = true := by
  by_contra hb
  obtain ⟨t, ht⟩ := searchIdentityKey_of_not_isPlain std (Bool.not_eq_true _ ▸ hb)
  rw [searchIdentityKey_of_isPlain std ha, ht] at h
  have hhead := congrArg (fun s => s.toList.head?) h
  simp at hhead

/-- Two texts around a colon are the same text when the parts are, or when one first part is the
other with a colon and more. -/
theorem append_colon_inj {p i p' i' : List Char} :
    p ++ ':' :: i = p' ++ ':' :: i' ↔
      (p = p' ∧ i = i') ∨ (∃ s, p' = p ++ ':' :: s ∧ i = s ++ ':' :: i') ∨
        ∃ s, p = p' ++ ':' :: s ∧ i' = s ++ ':' :: i := by
  constructor
  · intro h
    rcases List.append_eq_append_iff.mp h with ⟨c, hp, hi⟩ | ⟨c, hp, hi⟩
    · cases c with
      | nil => exact .inl ⟨by simpa using hp.symm, by simpa using hi⟩
      | cons d s =>
          obtain ⟨rfl, hrest⟩ := List.cons.inj hi
          exact .inr (.inl ⟨s, hp, hrest⟩)
    · cases c with
      | nil => exact .inl ⟨by simpa using hp, by simpa using hi.symm⟩
      | cons d s =>
          obtain ⟨rfl, hrest⟩ := List.cons.inj hi
          exact .inr (.inr ⟨s, hp, hrest⟩)
  · rintro (⟨rfl, rfl⟩ | ⟨s, rfl, rfl⟩ | ⟨s, rfl, rfl⟩) <;> simp

theorem respelled_iff {a b : SearchCommand} :
    Respelled a b ↔ ∃ s : List Char, b.providerId.toList = a.providerId.toList ++ ':' :: s ∧
      a.id.toList = s ++ ':' :: b.id.toList := by
  constructor
  · rintro ⟨s, hp, hi⟩
    exact ⟨s.toList, by simp [hp], by simp [hi]⟩
  · rintro ⟨s, hp, hi⟩
    refine ⟨String.ofList s, String.toList_injective ?_, String.toList_injective ?_⟩
    · simp [hp]
    · simp [hi]

/-- **When plain commands have one key.** -/
theorem searchIdentityKey_eq_iff (std : RustStd) {a b : SearchCommand} (ha : a.isPlain = true)
    (hb : b.isPlain = true) : searchIdentityKey std a = searchIdentityKey std b ↔
      a.source = b.source ∨ Respelled a b ∨ Respelled b a := by
  have hkey : searchIdentityKey std a = searchIdentityKey std b ↔
      a.providerId.toList ++ ':' :: a.id.toList = b.providerId.toList ++ ':' :: b.id.toList := by
    rw [searchIdentityKey_of_isPlain std ha, searchIdentityKey_of_isPlain std hb,
      ← String.toList_inj]
    simp
  have hsource : a.source = b.source ↔
      a.providerId.toList = b.providerId.toList ∧ a.id.toList = b.id.toList := by
    simp [SearchCommand.source, String.toList_inj]
  rw [hkey, append_colon_inj, hsource, respelled_iff, respelled_iff]

/-- A respelled command has another source. -/
theorem Respelled.source_ne {a b : SearchCommand} (h : Respelled a b) : a.source ≠ b.source := by
  intro heq
  obtain ⟨s, hp, -⟩ := respelled_iff.mp h
  have hprovider : a.providerId = b.providerId := congrArg Prod.fst heq
  have hlength := congrArg List.length hp
  rw [hprovider, List.length_append, List.length_cons] at hlength
  omega

section

variable (std : RustStd) (commands : List SearchCommand)

/-- What the rows of a ranking keep apart: the actions of a plain row are those of candidates of its
source, and a plain candidate that matches has a row of its source, unless another identity shares
that source. -/
def KeepsApart (rows : List SearchCommand) (limit : ℕ) (matching : SearchCommand → Prop) : Prop :=
  (∀ r ∈ rows, r.isPlain = true → ∀ x ∈ r.actions, ∃ c ∈ commands, c.source = r.source ∧
    x ∈ c.actions) ∧
  (rows.length < limit → ∀ c ∈ commands, c.isPlain = true → matching c →
    (∀ d ∈ commands, d.source = c.source → d.isPlain = true) → ∃ r ∈ rows, r.source = c.source)

variable {commands}

/-- Plain candidates of one key have one source, when none of them is respelled. -/
theorem source_eq_of_key_eq
    (h : ∀ a ∈ commands, ∀ b ∈ commands, a.isPlain = true → b.isPlain = true → ¬ Respelled a b)
    {a b : SearchCommand} (ha : a ∈ commands) (hb : b ∈ commands) (hplain : a.isPlain = true)
    (hkey : searchIdentityKey std a = searchIdentityKey std b) : a.source = b.source := by
  have hplain' : b.isPlain = true := isPlain_of_key_eq std hplain hkey
  rcases (searchIdentityKey_eq_iff std hplain hplain').mp hkey with hsource | hr | hr
  · exact hsource
  · exact absurd hr (h a ha b hb hplain hplain')
  · exact absurd hr (h b hb a ha hplain' hplain)

theorem keepsApart_rankWithBoost (score : SearchCommand → QueryContext → ℚ) (query : QueryContext)
    (limit : ℕ) (boost : SearchCommand → ℚ)
    (h : ∀ a ∈ commands, ∀ b ∈ commands, a.isPlain = true → b.isPlain = true → ¬ Respelled a b) :
    KeepsApart commands (rankWithBoost std score commands query limit boost) limit
      fun c => 0 < (scoredRow score query boost c).score := by
  have hrows := forall₂_allRows std score commands query boost
  constructor
  · intro r hr hplain x hx
    have hr' : r ∈ allRows std score commands query boost := List.mem_of_mem_take hr
    obtain ⟨w, hw, hshows⟩ := exists_shown hrows hr'
    obtain ⟨d, hd, -, rfl⟩ := exists_candidate std score commands query boost hw
    obtain ⟨v, hv, hkey, hxv⟩ := exists_of_mem_actions std hr' hx
    rw [dropRepeated_eq] at hv
    obtain ⟨c, hc, rfl, -⟩ :=
      (mem_matchingRows score commands query boost).mp (mem_of_mem_firstsBy hv)
    have hdc : searchIdentityKey std d = searchIdentityKey std c :=
      (hkey.trans (hshows.key std)).symm
    have hdplain : d.isPlain = true := isPlain_of_key_eq std hplain (hshows.key std)
    refine ⟨c, hc, ?_, hxv⟩
    exact (source_eq_of_key_eq std h hd hc hdplain hdc).symm.trans hshows.source.symm
  · intro hshort c hc hplain hpos hunshared
    have hsame : ∀ d ∈ commands, d.source = c.source →
        searchIdentityKey std d = searchIdentityKey std c := by
      intro d hd hsource
      exact (searchIdentityKey_eq_iff std (hunshared d hd hsource) hplain).mpr (.inl hsource)
    obtain ⟨w, hw, hkey, -⟩ := exists_row std score commands query boost hc hpos hsame
    obtain ⟨d, hd, -, rfl⟩ := exists_candidate std score commands query boost hw
    obtain ⟨r, hr, hshows⟩ := exists_showing hrows hw
    have hfits : (allRows std score commands query boost).length ≤ limit := by
      rw [rankWithBoost_eq, List.length_take] at hshort
      omega
    refine ⟨r, ?_, hshows.source.trans (source_eq_of_key_eq std h hc hd hplain hkey.symm).symm⟩
    rwa [rankWithBoost_eq, List.take_of_length_le hfits]

/-- **Keeping plain commands apart.** The keys of plain candidates of different sources differ, and
every ranking keeps their rows and their actions apart, exactly when no two of them are
respelled. -/
theorem plain_apart_iff :
    ((∀ a ∈ commands, ∀ b ∈ commands, a.isPlain = true → b.isPlain = true →
        (a.providerId, a.id) ≠ (b.providerId, b.id) →
        searchIdentityKey std a ≠ searchIdentityKey std b) ∧
      ∀ (score : SearchCommand → QueryContext → ℚ) (query : QueryContext) (limit : ℕ)
        (boost : SearchCommand → ℚ),
        KeepsApart commands (rankWithBoost std score commands query limit boost) limit
          fun c => 0 < (scoredRow score query boost c).score) ↔
    ∀ a ∈ commands, ∀ b ∈ commands, a.isPlain = true → b.isPlain = true → ¬ Respelled a b := by
  constructor
  · rintro ⟨hkeys, -⟩ a ha b hb hplain hplain' hr
    exact hkeys a ha b hb hplain hplain' hr.source_ne
      ((searchIdentityKey_eq_iff std hplain hplain').mpr (.inr (.inl hr)))
  · intro h
    refine ⟨fun a ha b hb hplain _ hne hkey => ?_, fun score query limit boost => ?_⟩
    · exact hne (source_eq_of_key_eq std h ha hb hplain hkey)
    · exact keepsApart_rankWithBoost std score query limit boost h

end

/-- A command of a plugin, as the host projects it: the provider is `plugin:` and the name of the
plugin, the id begins with that name. Source: `launcher-plugin-host/src/lib.rs`, `query`. -/
def pluginCommand (plugin item payload : String) : SearchCommand :=
  { fromProvider (plugin ++ ":" ++ item) "calc" ("plugin:" ++ plugin) .plugin 1 with
    actions := [⟨.copy, some (.text payload), none, none, none, none, false⟩,
      ⟨.pluginInvoke, none, some payload, none, none, none, false⟩] }

/-- A command of the plugin `a` and one of the plugin `a:a`. -/
def calcCommands : List SearchCommand :=
  [pluginCommand "a" "a:a:run" "one", pluginCommand "a:a" "run" "two"]

/-- Their keys are equal, and the ranking makes one row of them, with an action of each. -/
theorem calcCommands_merge :
    (¬ ∀ a ∈ calcCommands, ∀ b ∈ calcCommands, a.isPlain = true → b.isPlain = true →
        (a.providerId, a.id) ≠ (b.providerId, b.id) →
        searchIdentityKey RustStd.ascii a ≠ searchIdentityKey RustStd.ascii b) ∧
      (rankWithBoost RustStd.ascii (score SearchStd.ascii) calcCommands
          (QueryContext.parse SearchStd.ascii.lower "calc") 10 fun _ => 0).map
        (fun r => (r.providerId, r.actions.map Action.id)) =
        [("plugin:a", [none, some "one", some "two"])] := by
  constructor
  · intro h
    exact h (calcCommands.head (by decide)) (List.head_mem _) (calcCommands.getLast (by decide))
      (List.getLast_mem _) (by decide) (by decide) (by decide) (by decide +kernel)
  · decide +kernel

end AuraLauncher.Search
