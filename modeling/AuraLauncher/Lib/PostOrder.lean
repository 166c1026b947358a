import Mathlib.Data.Finset.Card
import Mathlib.Data.List.Nodup
import Mathlib.Data.List.Chain
import Mathlib.Logic.Relation

/-!
# Listing a directed graph, successors first

A graph is a table of successor lists that may have holes: `next x = none` is a node the table does
not know.

* `PostOrder.each` — a loop over a list whose body may stop it, or not come back.
* `PostOrder.visit`, `PostOrder.search` — the depth-first search that lists every node after its
  successors. It stops at a node without an entry and at a node that lies on the path to it.
* `search_isSome` — a depth bound above the number of known nodes is never met.
* `search_ok`, `search_ok_iff` — the search comes through exactly when every node it can reach is
  known and lies on no cycle; then it lists those nodes, each once, successors first.
* `search_error` — what it stops at is what it says.

`Clean` is the invariant: the listed nodes are `Sorted` and none of them lies on the path. The path
itself is a `Trail`, a chain of edges from one of the starts.
-/

namespace AuraLauncher.Lib.PostOrder

open Relation

variable {α : Type*} {σ τ ε ζ : Type*}

/-! ## Loops with a body that may stop them -/

/-- A loop over a list. The body answers with the next state or with the reason to stop; `none` is
a body that does not come back. -/
def each (f : α → σ → Option (Except ε σ)) : List α → σ → Option (Except ε σ)
  | [], s => some (.ok s)
  | x :: xs, s =>
      match f x s with
      | some (.ok s') => each f xs s'
      | some (.error e) => some (.error e)
      | none => none

theorem each_cons_eq_ok {f : α → σ → Option (Except ε σ)} {x : α} {xs : List α} {s t : σ} :
    each f (x :: xs) s = some (.ok t) ↔
      ∃ s', f x s = some (.ok s') ∧ each f xs s' = some (.ok t) := by
  rw [each]
  rcases f x s with _ | e | s' <;> simp

theorem each_cons_eq_error {f : α → σ → Option (Except ε σ)} {x : α} {xs : List α} {s : σ} {e : ε} :
    each f (x :: xs) s = some (.error e) ↔
      f x s = some (.error e) ∨ ∃ s', f x s = some (.ok s') ∧ each f xs s' = some (.error e) := by
  rw [each]
  rcases f x s with _ | e | s' <;> simp

theorem each_isSome {f : α → σ → Option (Except ε σ)} (h : ∀ x s, (f x s).isSome) (xs : List α)
    (s : σ) : (each f xs s).isSome := by
  induction xs generalizing s with
  | nil => rfl
  | cons x xs ih =>
      have hx := h x s
      rw [each]
      rcases hf : f x s with _ | e | s'
      · rw [hf] at hx
        cases hx
      · rfl
      · exact ih s'

/-- An answer read in other terms. -/
def translate (g : σ → τ) (k : ε → ζ) : Except ε σ → Except ζ τ
  | .ok s => .ok (g s)
  | .error e => .error (k e)

/-- Two loops whose bodies do the same in different terms do the same. -/
theorem each_translate {f : α → σ → Option (Except ε σ)} {b : α → τ → Option (Except ζ τ)}
    {g : σ → τ} {k : ε → ζ} (h : ∀ x s, b x (g s) = (f x s).map (translate g k)) (xs : List α)
    (s : σ) : each b xs (g s) = (each f xs s).map (translate g k) := by
  induction xs generalizing s with
  | nil => rfl
  | cons x xs ih =>
      rw [each, each, h]
      rcases f x s with _ | e | s'
      · rfl
      · rfl
      · exact ih s'

/-! ## The search -/

/-- Why a search stops before its end. -/
inductive Halt (α : Type*)
  /-- `node` has no entry; `parent` is the node that asked for it. -/
  | missing (parent : Option α) (node : α)
  /-- The path from a start that came back to one of its nodes. -/
  | cycle (chain : List α)
  deriving DecidableEq

section Search

variable [DecidableEq α] (next : α → Option (List α))

/-- The visit of `x` at the end of `path`, on the nodes listed so far. -/
def visit : ℕ → List α → α → List α → Option (Except (Halt α) (List α))
  | 0, _, _, _ => none
  | depth + 1, path, x, order =>
      if x ∈ order then some (.ok order)
      else if x ∈ path then some (.error (.cycle (path ++ [x])))
      else
        match next x with
        | none => some (.error (.missing path.getLast? x))
        | some ys =>
            match each (visit depth (path ++ [x])) ys order with
            | some (.ok order') => some (.ok (order' ++ [x]))
            | some (.error halt) => some (.error halt)
            | none => none

/-- The visits of all starts in turn. -/
def search (depth : ℕ) (starts : List α) : Option (Except (Halt α) (List α)) :=
  each (visit next depth []) starts []

end Search

/-! ## What the search is about -/

/-- The edges of a table of successors. -/
def Edge (next : α → Option (List α)) (x y : α) : Prop := ∃ ys, next x = some ys ∧ y ∈ ys

/-- Every listed node is known and stands after all its successors. -/
def Sorted (next : α → Option (List α)) (order : List α) : Prop :=
  ∀ before x after, order = before ++ x :: after → ∃ ys, next x = some ys ∧ ∀ y ∈ ys, y ∈ before

/-- A chain of edges from one of the starts. -/
def Trail (next : α → Option (List α)) (starts path : List α) : Prop :=
  path.IsChain (Edge next) ∧ ∀ s ∈ path.head?, s ∈ starts

/-- Some start reaches `x`. -/
def Reached (next : α → Option (List α)) (starts : List α) (x : α) : Prop :=
  ∃ s ∈ starts, ReflTransGen (Edge next) s x

/-- A reason to stop that is one: an unknown node with the reached node that leads to it, or a trail
that comes back to one of its own nodes for the first time. -/
def Halt.Genuine (next : α → Option (List α)) (starts : List α) : Halt α → Prop
  | .missing none x => x ∈ starts ∧ next x = none
  | .missing (some p) x => Reached next starts p ∧ Edge next p x ∧ next x = none
  | .cycle chain => Trail next starts chain ∧ ∃ path x, chain = path ++ [x] ∧ path.Nodup ∧ x ∈ path

variable {next : α → Option (List α)}

theorem Sorted.nil : Sorted next [] := by
  intro before x after h
  simp at h

theorem Sorted.snoc {order ys : List α} {x : α} (h : Sorted next order) (hx : next x = some ys)
    (hys : ∀ y ∈ ys, y ∈ order) : Sorted next (order ++ [x]) := by
  intro before z after heq
  rcases List.eq_nil_or_concat after with rfl | ⟨after, w, rfl⟩
  · obtain ⟨rfl, hz⟩ := List.append_inj' heq rfl
    obtain rfl : x = z := by simpa using hz
    exact ⟨ys, hx, hys⟩
  · have hsplit : order ++ [x] = (before ++ z :: after) ++ [w] := by simpa using heq
    exact h before z after (List.append_inj' hsplit rfl).1

/-- What a listed node leads to stands before it. -/
theorem Sorted.mem_before {order before after : List α} {x y : α} (h : Sorted next order)
    (hsplit : order = before ++ x :: after) (hxy : TransGen (Edge next) x y) : y ∈ before := by
  have hstep : ∀ {b a : List α} {u v : α}, order = b ++ u :: a → Edge next u v → v ∈ b := by
    rintro b a u v hb ⟨vs, hvs, hv⟩
    obtain ⟨vs', hvs', hall⟩ := h b u a hb
    obtain rfl : vs = vs' := by simpa [hvs] using hvs'
    exact hall v hv
  induction hxy with
  | single hxy => exact hstep hsplit hxy
  | @tail y z _ hyz ih =>
      obtain ⟨b, a, rfl⟩ := List.append_of_mem ih
      have hz := hstep (b := b) (a := a ++ x :: after) (by simpa using hsplit) hyz
      exact List.mem_append_left _ hz

/-- A sorted list without repetition keeps all its nodes lead to, and holds no cycle. -/
theorem Sorted.closed {order : List α} (h : Sorted next order) {x y : α} (hx : x ∈ order)
    (hxy : ReflTransGen (Edge next) x y) : y ∈ order := by
  obtain ⟨before, after, rfl⟩ := List.append_of_mem hx
  rcases reflTransGen_iff_eq_or_transGen.mp hxy with rfl | hxy
  · exact hx
  · exact List.mem_append_left _ (h.mem_before rfl hxy)

theorem Sorted.known {order : List α} (h : Sorted next order) {x : α} (hx : x ∈ order) :
    (next x).isSome := by
  obtain ⟨before, after, rfl⟩ := List.append_of_mem hx
  obtain ⟨ys, hys, -⟩ := h before x after rfl
  simp [hys]

theorem Sorted.acyclic {order : List α} (h : Sorted next order) (hnodup : order.Nodup) {x : α}
    (hx : x ∈ order) : ¬ TransGen (Edge next) x x := by
  intro hcycle
  obtain ⟨before, after, rfl⟩ := List.append_of_mem hx
  have hbefore := h.mem_before rfl hcycle
  exact (List.disjoint_of_nodup_append hnodup) hbefore List.mem_cons_self

/-- The nodes of a trail are reached, and each leads to its end. -/
theorem Trail.reached_last {starts path : List α} {x : α} (h : Trail next starts (path ++ [x])) :
    Reached next starts x := by
  obtain ⟨hchain, hhead⟩ := h
  cases path with
  | nil => exact ⟨x, hhead x rfl, .refl⟩
  | cons s path =>
      refine ⟨s, hhead s rfl, ?_⟩
      exact List.relationReflTransGen_of_exists_isChain_cons (path ++ [x]) hchain (by simp)

/-- A trail goes on along an edge. -/
theorem Trail.snoc {starts path : List α} {x y : α} (h : Trail next starts (path ++ [x]))
    (hxy : Edge next x y) : Trail next starts ((path ++ [x]) ++ [y]) := by
  obtain ⟨hchain, hhead⟩ := h
  refine ⟨hchain.append (List.isChain_singleton y) ?_, ?_⟩
  · simpa using hxy
  · cases path <;> simpa using hhead

theorem Trail.start {starts : List α} {x : α} (h : x ∈ starts) : Trail next starts ([] ++ [x]) :=
  ⟨List.isChain_singleton x, by simpa using h⟩

/-- A genuine reason rules out that every reached node is known and on no cycle. -/
theorem Halt.Genuine.refutes {starts : List α} {halt : Halt α} (h : halt.Genuine next starts) :
    ∃ x, Reached next starts x ∧ (next x = none ∨ TransGen (Edge next) x x) := by
  match halt, h with
  | .missing none x, ⟨hx, hnone⟩ => exact ⟨x, ⟨x, hx, .refl⟩, .inl hnone⟩
  | .missing (some p) x, ⟨⟨s, hs, hsp⟩, hpx, hnone⟩ =>
      exact ⟨x, ⟨s, hs, hsp.tail hpx⟩, .inl hnone⟩
  | .cycle chain, ⟨htrail, path, x, hchain, _, hx⟩ =>
      subst hchain
      refine ⟨x, htrail.reached_last, .inr ?_⟩
      obtain ⟨before, after, rfl⟩ := List.append_of_mem hx
      -- the part of the trail from the first `x` to the last
      have hpart : (x :: (after ++ [x])).IsChain (Edge next) := by
        have hchain := htrail.1
        rw [List.append_assoc] at hchain
        simpa using hchain.right_of_append
      cases after with
      | nil => exact .single (by simpa using hpart)
      | cons y after =>
          obtain ⟨hxy, hrest⟩ := List.isChain_cons_cons.mp hpart
          exact TransGen.head' hxy
            (List.relationReflTransGen_of_exists_isChain_cons (after ++ [x]) hrest (by simp))

/-! ## What a visit does -/

/-- The lists the search works on, at the end of `path`. -/
structure Clean (next : α → Option (List α)) (path order : List α) : Prop where
  sorted : Sorted next order
  nodup : order.Nodup
  off_path : ∀ x ∈ order, x ∉ path

/-- What a visit of `x` that comes through has done to the list. -/
structure Visited (next : α → Option (List α)) (path : List α) (x : α) (order order' : List α) :
    Prop where
  clean : Clean next path order'
  kept : ∀ y ∈ order, y ∈ order'
  listed : x ∈ order'
  reached : ∀ y ∈ order', y ∈ order ∨ ReflTransGen (Edge next) x y

/-- A loop of visits that comes through has listed all its nodes. -/
theorem each_ok {f : α → List α → Option (Except ε (List α))} {path : List α}
    (hf : ∀ x order order', Clean next path order → f x order = some (.ok order') →
      Visited next path x order order') {xs order order' : List α} (hclean : Clean next path order)
    (h : each f xs order = some (.ok order')) :
    Clean next path order' ∧ (∀ y ∈ order, y ∈ order') ∧ (∀ x ∈ xs, x ∈ order') ∧
      ∀ y ∈ order', y ∈ order ∨ ∃ x ∈ xs, ReflTransGen (Edge next) x y := by
  induction xs generalizing order with
  | nil =>
      obtain rfl : order = order' := by simpa [each] using h
      exact ⟨hclean, fun _ hy => hy, by simp, fun _ hy => .inl hy⟩
  | cons x xs ih =>
      obtain ⟨between, hx, hrest⟩ := each_cons_eq_ok.mp h
      have hvisited := hf x order between hclean hx
      obtain ⟨hclean', hkept, hlisted, hreached⟩ := ih hvisited.clean hrest
      refine ⟨hclean', fun y hy => hkept y (hvisited.kept y hy), ?_, ?_⟩
      · intro y hy
        rcases List.mem_cons.mp hy with rfl | hy
        · exact hkept y hvisited.listed
        · exact hlisted y hy
      · intro y hy
        rcases hreached y hy with hy | ⟨z, hz, hzy⟩
        · exact (hvisited.reached y hy).imp_right fun hxy => ⟨x, List.mem_cons_self, hxy⟩
        · exact .inr ⟨z, List.mem_cons_of_mem x hz, hzy⟩

variable [DecidableEq α]

theorem visit_ok {depth : ℕ} {path order order' : List α} {x : α} (hclean : Clean next path order)
    (h : visit next depth path x order = some (.ok order')) :
    Visited next path x order order' := by
  induction depth generalizing path x order order' with
  | zero => cases h
  | succ depth ih =>
      rw [visit] at h
      split_ifs at h with horder hpath
      · obtain rfl : order = order' := by simpa using h
        exact ⟨hclean, fun _ hy => hy, horder, fun _ hy => .inl hy⟩
      · simp at h
      · cases hnext : next x with
        | none => simp [hnext] at h
        | some ys =>
            simp only [hnext] at h
            rcases hys : each (visit next depth (path ++ [x])) ys order with _ | halt | order''
            · simp [hys] at h
            · simp [hys] at h
            · obtain rfl : order'' ++ [x] = order' := by simpa [hys] using h
              -- below `x` the path ends in `x`, so `x` itself is not listed there
              have hbelow : Clean next (path ++ [x]) order := by
                refine ⟨hclean.sorted, hclean.nodup, fun y hy hmem => ?_⟩
                rcases List.mem_append.mp hmem with hmem | hmem
                · exact hclean.off_path y hy hmem
                · obtain rfl : y = x := by simpa using hmem
                  exact horder hy
              obtain ⟨hclean', hkept, hlisted, hreached⟩ :=
                each_ok (fun _ _ _ hc hv => ih hc hv) hbelow hys
              have hx : x ∉ order'' := fun hx => hclean'.off_path x hx (by simp)
              refine ⟨⟨hclean'.sorted.snoc hnext hlisted, ?_, ?_⟩, ?_, by simp, ?_⟩
              · simpa using hclean'.nodup.concat hx
              · intro y hy hmem
                rcases List.mem_append.mp hy with hy | hy
                · exact hclean'.off_path y hy (List.mem_append_left _ hmem)
                · obtain rfl : y = x := by simpa using hy
                  exact hpath hmem
              · exact fun y hy => List.mem_append_left _ (hkept y hy)
              · intro y hy
                rcases List.mem_append.mp hy with hy | hy
                · rcases hreached y hy with hy | ⟨z, hz, hzy⟩
                  · exact .inl hy
                  · exact .inr (.head ⟨ys, hnext, hz⟩ hzy)
                · obtain rfl : y = x := by simpa using hy
                  exact .inr .refl

/-- A visit at the end of a trail that stops has a reason to. -/
theorem visit_error {starts path order : List α} {depth : ℕ} {x : α} {halt : Halt α}
    (hnodup : path.Nodup) (htrail : Trail next starts (path ++ [x]))
    (h : visit next depth path x order = some (.error halt)) : halt.Genuine next starts := by
  induction depth generalizing path x order with
  | zero => cases h
  | succ depth ih =>
      rw [visit] at h
      split_ifs at h with horder hpath
      · simp at h
      · obtain rfl : Halt.cycle (path ++ [x]) = halt := by simpa using h
        exact ⟨htrail, path, x, rfl, hnodup, hpath⟩
      · cases hnext : next x with
        | none =>
            obtain rfl : Halt.missing path.getLast? x = halt := by simpa [hnext] using h
            rcases List.eq_nil_or_concat path with rfl | ⟨path, p, rfl⟩
            · exact ⟨htrail.2 x (by simp), hnext⟩
            · rw [List.concat_eq_append] at htrail ⊢
              rw [List.getLast?_append_of_ne_nil _ (by simp)]
              obtain ⟨hchain, hhead⟩ := htrail
              have hparts := List.isChain_append.mp hchain
              refine ⟨Trail.reached_last ⟨hparts.1, ?_⟩, ?_, hnext⟩
              · cases path <;> simpa using hhead
              · exact hparts.2.2 p (by simp) x (by simp)
        | some ys =>
            simp only [hnext] at h
            have hbelow : ∀ (zs : List α) (order : List α), (∀ z ∈ zs, z ∈ ys) →
                each (visit next depth (path ++ [x])) zs order = some (.error halt) →
                halt.Genuine next starts := by
              intro zs
              induction zs with
              | nil => simp [each]
              | cons z zs ihz =>
                  intro order hzs hz
                  rcases each_cons_eq_error.mp hz with hz | ⟨order', -, hz⟩
                  · have hlonger : (path ++ [x]).Nodup := by simpa using hnodup.concat hpath
                    exact ih hlonger (htrail.snoc ⟨ys, hnext, hzs z List.mem_cons_self⟩) hz
                  · exact ihz order' (fun w hw => hzs w (List.mem_cons_of_mem z hw)) hz
            rcases hys : each (visit next depth (path ++ [x])) ys order with _ | halt' | order'
            · simp [hys] at h
            · obtain rfl : halt' = halt := by simpa [hys] using h
              exact hbelow ys order (fun _ hz => hz) hys
            · simp [hys] at h

/-- The path holds different known nodes, so it does not get longer than there are known nodes. -/
theorem visit_isSome {known : Finset α} (hknown : ∀ x, (next x).isSome → x ∈ known) {depth : ℕ}
    {path order : List α} {x : α} (hnodup : path.Nodup) (hpath : ∀ y ∈ path, y ∈ known)
    (hdepth : known.card < depth + path.length) : (visit next depth path x order).isSome := by
  induction depth generalizing path x order with
  | zero =>
      have hsub : path.toFinset ⊆ known := fun y hy => hpath y (List.mem_toFinset.mp hy)
      have hcard := Finset.card_le_card hsub
      rw [List.toFinset_card_of_nodup hnodup] at hcard
      omega
  | succ depth ih =>
      rw [visit]
      split_ifs with horder hmem
      · rfl
      · rfl
      · cases hnext : next x with
        | none => rfl
        | some ys =>
            have hlonger : (path ++ [x]).Nodup := by simpa using hnodup.concat hmem
            have hin : ∀ y ∈ path ++ [x], y ∈ known := by
              intro y hy
              rcases List.mem_append.mp hy with hy | hy
              · exact hpath y hy
              · obtain rfl : y = x := by simpa using hy
                exact hknown y (by simp [hnext])
            have hys : (each (visit next depth (path ++ [x])) ys order).isSome :=
              each_isSome (fun _ _ => ih hlonger hin
                (by rw [List.length_append, List.length_singleton]; omega)) ys order
            rcases heach : each (visit next depth (path ++ [x])) ys order with _ | halt | order'
            · simp [heach] at hys
            · simp [heach]
            · simp [heach]

/-! ## What the search does -/

/-- A search with a depth bound above the number of known nodes comes back. -/
theorem search_isSome {known : Finset α} (hknown : ∀ x, (next x).isSome → x ∈ known) {depth : ℕ}
    (hdepth : known.card < depth) (starts : List α) : (search next depth starts).isSome :=
  each_isSome (fun _ _ => visit_isSome hknown List.nodup_nil (by simp) (by simpa using hdepth))
    starts []

/-- **What the search lists**: the reached nodes, each once, successors first. -/
theorem search_ok {depth : ℕ} {starts order : List α}
    (h : search next depth starts = some (.ok order)) :
    order.Nodup ∧ Sorted next order ∧ ∀ x, x ∈ order ↔ Reached next starts x := by
  have hclean : Clean next [] [] := ⟨Sorted.nil, List.nodup_nil, by simp⟩
  obtain ⟨hclean', -, hlisted, hreached⟩ := each_ok (fun _ _ _ => visit_ok) hclean h
  refine ⟨hclean'.nodup, hclean'.sorted, fun x => ⟨fun hx => ?_, ?_⟩⟩
  · exact (hreached x hx).resolve_left List.not_mem_nil
  · rintro ⟨s, hs, hsx⟩
    exact hclean'.sorted.closed (hlisted s hs) hsx

/-- **What the search stops at** is what it says. -/
theorem search_error {depth : ℕ} {starts : List α} {halt : Halt α}
    (h : search next depth starts = some (.error halt)) : halt.Genuine next starts := by
  have hall : ∀ (xs : List α) (order : List α), (∀ x ∈ xs, x ∈ starts) →
      each (visit next depth []) xs order = some (.error halt) → halt.Genuine next starts := by
    intro xs
    induction xs with
    | nil => simp [each]
    | cons x xs ih =>
        intro order hxs hx
        rcases each_cons_eq_error.mp hx with hx | ⟨order', -, hx⟩
        · exact visit_error List.nodup_nil (.start (hxs x List.mem_cons_self)) hx
        · exact ih order' (fun y hy => hxs y (List.mem_cons_of_mem x hy)) hx
  exact hall starts [] (fun _ hx => hx) h

/-- **The search is exact**: it comes through when, and only when, every node it can reach is known
and lies on no cycle. -/
theorem search_ok_iff {known : Finset α} (hknown : ∀ x, (next x).isSome → x ∈ known) {depth : ℕ}
    (hdepth : known.card < depth) (starts : List α) :
    (∃ order, search next depth starts = some (.ok order)) ↔
      ∀ x, Reached next starts x → (next x).isSome ∧ ¬ TransGen (Edge next) x x := by
  constructor
  · rintro ⟨order, h⟩ x hx
    obtain ⟨hnodup, hsorted, hmem⟩ := search_ok h
    exact ⟨hsorted.known ((hmem x).mpr hx), hsorted.acyclic hnodup ((hmem x).mpr hx)⟩
  · intro hall
    have hsome := search_isSome hknown hdepth starts
    rcases hsearch : search next depth starts with _ | halt | order
    · simp [hsearch] at hsome
    · obtain ⟨x, hx, hbad⟩ := (search_error hsearch).refutes
      obtain ⟨hsome', hacyclic⟩ := hall x hx
      rcases hbad with hnone | hcycle
      · simp [hnone] at hsome'
      · exact absurd hcycle hacyclic
    · exact ⟨order, rfl⟩

end AuraLauncher.Lib.PostOrder
