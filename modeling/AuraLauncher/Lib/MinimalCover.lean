import Mathlib.Data.List.Pairwise
import Mathlib.Data.List.Perm.Lattice
import Mathlib.Data.Set.Insert
import Mathlib.Order.Comparable

/-!
# Minimal covers

A list of elements of an order that stands for all that lies above its members needs no member above
another one. When an element is added, it is left out if it lies above a member, and the members
above it are dropped otherwise. Whether the list stays minimal, and goes on to stand for what it
should, depends on the two tests that decide this.

* `MinimalCover` — no member lies above another one, and above the members lies, of the points in
  question, what lies above the elements of a set.
* `MinimalCover.perm` — of every set there is one, up to the order of the members.
* `coverInsert` — the insertion, with its two tests.
* `DecidesCover`, `MinimalCover.coverInsert_iff` — what the tests have to decide.
-/

namespace AuraLauncher.Lib

universe u

variable {α : Type u}

/-- The members are points, no two of them are related, and above them lie the points that lie above
an element of `S`. -/
structure MinimalCover (r : α → α → Prop) (X : Set α) (l : List α) (S : Set α) : Prop where
  subset : ∀ a ∈ l, a ∈ X
  separate : l.Pairwise (IncompRel r)
  covers : ∀ x ∈ X, (∃ a ∈ l, r a x) ↔ ∃ a ∈ S, r a x

/-- The list after an insertion: `covered` is whether the element is found to lie above a member,
and `above` which members are found to lie above it. -/
def coverInsert (covered : Bool) (above : α → Bool) (l : List α) (a : α) : List α :=
  if covered then l else l.filter (fun b => !above b) ++ [a]

/-- The tests of an insertion decide what they are for. -/
structure DecidesCover (r : α → α → Prop) (l : List α) (a : α) (covered : Bool)
    (above : α → Bool) : Prop where
  covered_iff : covered = true ↔ ∃ b ∈ l, r b a
  above_iff : covered = false → ∀ b ∈ l, above b = true ↔ r a b

namespace MinimalCover

variable {r : α → α → Prop} {X : Set α} {l l' : List α} {S : Set α}

theorem nil : MinimalCover r X [] ∅ where
  subset _ ha := absurd ha List.not_mem_nil
  separate := .nil
  covers x _ := by simp

/-- Related members are the same. -/
theorem eq_of_rel (h : MinimalCover r X l S) {a b : α} (ha : a ∈ l) (hb : b ∈ l) (hab : r a b) :
    a = b := by
  by_contra hne
  exact (h.separate.forall ha hb hne).1 hab

theorem nodup [Std.Refl r] (h : MinimalCover r X l S) : l.Nodup := by
  refine h.separate.imp ?_
  rintro a _ hinc rfl
  exact hinc.1 (refl a)

variable [IsPartialOrder α r]

theorem mem_of_mem (h : MinimalCover r X l S) (h' : MinimalCover r X l' S) {a : α} (ha : a ∈ l) :
    a ∈ l' := by
  have hself : ∃ b ∈ S, r b a := (h.covers a (h.subset a ha)).mp ⟨a, ha, refl a⟩
  obtain ⟨b, hb, hba⟩ := (h'.covers a (h.subset a ha)).mpr hself
  -- the member of the one list below that of the other has a member of the first below it
  have hmember : ∃ c ∈ S, r c b := (h'.covers b (h'.subset b hb)).mp ⟨b, hb, refl b⟩
  obtain ⟨c, hc, hcb⟩ := (h.covers b (h'.subset b hb)).mpr hmember
  obtain rfl : c = a := h.eq_of_rel hc ha (IsTrans.trans _ _ _ hcb hba)
  obtain rfl : c = b := antisymm hcb hba
  exact hb

/-- **There is one minimal cover**, up to the order of its members. -/
theorem perm (h : MinimalCover r X l S) (h' : MinimalCover r X l' S) : l.Perm l' :=
  (List.perm_ext_iff_of_nodup h.nodup h'.nodup).mpr fun _ =>
    ⟨h.mem_of_mem h', h'.mem_of_mem h⟩

variable {a : α} {covered : Bool} {above : α → Bool}

/-- Tests that decide what they are for keep the cover. -/
theorem of_decides (h : MinimalCover r X l S) (ha : a ∈ X)
    (htests : DecidesCover r l a covered above) :
    MinimalCover r X (coverInsert covered above l a) (insert a S) := by
  unfold coverInsert
  cases hcovered : covered with
  | true =>
      obtain ⟨b, hb, hba⟩ := htests.covered_iff.mp hcovered
      refine ⟨h.subset, h.separate, fun x hx => ?_⟩
      rw [if_pos rfl, h.covers x hx, Set.exists_mem_insert, or_iff_right_of_imp]
      exact fun hax => (h.covers x hx).mp ⟨b, hb, IsTrans.trans _ _ _ hba hax⟩
  | false =>
      have habove := htests.above_iff hcovered
      have hfree : ∀ b ∈ l, ¬ r b a := fun b hb hba => by
        have htrue := htests.covered_iff.mpr ⟨b, hb, hba⟩
        rw [hcovered] at htrue
        cases htrue
      refine ⟨fun b hb => ?_, ?_, fun x hx => ?_⟩
      · rcases List.mem_append.mp hb with hb | hb
        · exact h.subset b (List.mem_of_mem_filter hb)
        · exact List.mem_singleton.mp hb ▸ ha
      · refine List.pairwise_append.mpr
          ⟨h.separate.sublist List.filter_sublist, List.pairwise_singleton _ _, ?_⟩
        intro b hb c hc
        obtain rfl := List.mem_singleton.mp hc
        obtain ⟨hb, hnot⟩ := List.mem_filter.mp hb
        refine ⟨hfree b hb, fun hcb => ?_⟩
        rw [(habove b hb).mpr hcb] at hnot
        cases hnot
      · rw [Set.exists_mem_insert, ← h.covers x hx]
        constructor
        · rintro ⟨b, hb, hbx⟩
          rcases List.mem_append.mp hb with hb | hb
          · exact .inr ⟨b, List.mem_of_mem_filter hb, hbx⟩
          · exact .inl (List.mem_singleton.mp hb ▸ hbx)
        · have hlast : r a x → ∃ b ∈ l.filter (fun b => !above b) ++ [a], r b x := fun hax =>
            ⟨a, List.mem_append_right _ (List.mem_singleton_self a), hax⟩
          rintro (hax | ⟨b, hb, hbx⟩)
          · exact hlast hax
          · -- what lay above a member that is dropped lies above the new one
            cases hdrop : above b with
            | true => exact hlast (IsTrans.trans _ _ _ ((habove b hb).mp hdrop) hbx)
            | false =>
                exact ⟨b, List.mem_append_left _ (List.mem_filter.mpr ⟨hb, by simp [hdrop]⟩), hbx⟩

/-- Tests that keep the cover decide what they are for, if the element is not dropped for itself. -/
theorem decides (h : MinimalCover r X l S) (ha : a ∈ X) (hself : above a = false)
    (hnew : MinimalCover r X (coverInsert covered above l a) (insert a S)) :
    DecidesCover r l a covered above := by
  unfold coverInsert at hnew
  cases hcovered : covered with
  | true =>
      rw [hcovered, if_pos rfl] at hnew
      refine ⟨iff_of_true rfl ?_, nofun⟩
      exact (hnew.covers a ha).mpr ⟨a, Set.mem_insert a S, refl a⟩
  | false =>
      rw [hcovered, if_neg Bool.false_ne_true] at hnew
      have hlast : a ∈ l.filter (fun b => !above b) ++ [a] :=
        List.mem_append_right _ (List.mem_singleton_self a)
      have hkept : ∀ b ∈ l, above b = false → b ∈ l.filter (fun b => !above b) ++ [a] :=
        fun b hb hno => List.mem_append_left _ (List.mem_filter.mpr ⟨hb, by simp [hno]⟩)
      -- a member that is dropped lies above the new one
      have hdropped : ∀ b ∈ l, above b = true → r a b := by
        intro b hb hdrop
        have hstill : ∃ c ∈ insert a S, r c b := by
          obtain ⟨c, hc, hcb⟩ := (h.covers b (h.subset b hb)).mp ⟨b, hb, refl b⟩
          exact ⟨c, Set.mem_insert_of_mem a hc, hcb⟩
        obtain ⟨c, hc, hcb⟩ := (hnew.covers b (h.subset b hb)).mpr hstill
        rcases List.mem_append.mp hc with hc | hc
        · obtain ⟨hc, hnot⟩ := List.mem_filter.mp hc
          rw [h.eq_of_rel hc hb hcb, hdrop] at hnot
          cases hnot
        · exact List.mem_singleton.mp hc ▸ hcb
      refine ⟨iff_of_false Bool.false_ne_true ?_, fun _ b hb => ⟨hdropped b hb, fun hab => ?_⟩⟩
      · rintro ⟨b, hb, hba⟩
        cases hdrop : above b with
        | true =>
            obtain rfl : a = b := antisymm (hdropped b hb hdrop) hba
            rw [hself] at hdrop
            cases hdrop
        | false =>
            obtain rfl := hnew.eq_of_rel (hkept b hb hdrop) hlast hba
            exact (List.nodup_append.mp hnew.nodup).2.2 b
              (List.mem_filter.mpr ⟨hb, by simp [hself]⟩) b (List.mem_singleton_self b) rfl
      · by_contra hno
        have hdrop : above b = false := by simpa using hno
        obtain rfl := hnew.eq_of_rel hlast (hkept b hb hdrop) hab
        exact (List.nodup_append.mp hnew.nodup).2.2 a
          (List.mem_filter.mpr ⟨hb, by simp [hself]⟩) a (List.mem_singleton_self a) rfl

/-- **What the tests have to decide**: the insertion keeps the cover exactly when they decide what
they are for. -/
theorem coverInsert_iff (h : MinimalCover r X l S) (ha : a ∈ X) (hself : above a = false) :
    MinimalCover r X (coverInsert covered above l a) (insert a S) ↔
      DecidesCover r l a covered above :=
  ⟨h.decides ha hself, h.of_decides ha⟩

end MinimalCover

end AuraLauncher.Lib
