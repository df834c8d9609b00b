import Mathlib.Data.Finset.Card
import Mathlib.Data.List.Sort
import Mathlib.Data.Set.Insert
import Mathlib.Logic.Relation
import Mathlib.Order.Lattice

/-!
# Strongly connected components

Depth-first search with low links over successor lists: a vertex is numbered when it is entered, every
vertex is put on a stack, and a vertex whose low link is its own number ends a component, which is
what lies above it on the stack.

1. `Consistent s gray`: what holds between two steps of the search, for the set of the vertices that
   are still being scanned.
2. `Scanning`: what holds while the successors of a vertex are scanned; `enter`, `visit` and `finish`
   keep it.
3. `Connected`: what a call promises its caller (`strongConnect_connected`).
-/

namespace FlowGraph

variable {α : Type*} [LinearOrder α]

/-- The vectors of the search; a vertex that was not entered has a negative number. The top of the
stack is its first element. -/
structure Search (α : Type*) where
  index : α → ℤ
  low : α → ℤ
  stack : List α
  onStack : α → Bool
  nextIndex : ℤ
  components : List (List α)

namespace Search

/-- Nothing is entered. -/
def initial : Search α :=
  { index := fun _ => -1, low := fun _ => -1, stack := [], onStack := fun _ => false
    nextIndex := 0, components := [] }

/-- Numbers `v` and puts it on the stack. -/
def enter (v : α) (s : Search α) : Search α :=
  { s with
    index := Function.update s.index v s.nextIndex
    low := Function.update s.low v s.nextIndex
    nextIndex := s.nextIndex + 1
    stack := v :: s.stack
    onStack := Function.update s.onStack v true }

/-- Lowers the low link of `v` to `n`. -/
def lowerTo (v : α) (n : ℤ) (s : Search α) : Search α :=
  { s with low := Function.update s.low v (min (s.low v) n) }

/-- Takes vertices from the stack, `v` being the last one. -/
def popThrough (v : α) : List α → List α × List α
  | [] => ([], [])
  | w :: l => if w = v then ([w], l) else (w :: (popThrough v l).1, (popThrough v l).2)

/-- Ends the component of `v` if its low link is its number. -/
def finish (v : α) (s : Search α) : Search α :=
  if s.low v = s.index v then
    let popped := popThrough v s.stack
    { s with
      stack := popped.2
      onStack := fun x => s.onStack x && x ∉ popped.1
      components := s.components ++ [popped.1.insertionSort (· ≤ ·)] }
  else s

/-- Scans the successor `w` of `v`. -/
def visit (connect : α → Search α → Search α) (v : α) (s : Search α) (w : α) : Search α :=
  if s.index w < 0 then lowerTo v ((connect w s).low w) (connect w s)
  else if s.onStack w then lowerTo v (s.index w) s
  else s

variable (next : α → List α)

/-- Enters `v`, scans its successors and ends its component. -/
def strongConnect : ℕ → α → Search α → Search α
  | 0, _, s => s
  | fuel + 1, v, s => finish v ((next v).foldl (visit (strongConnect fuel) v) (enter v s))

/-- The search from every vertex of a list that is not entered yet. -/
def connectAll (fuel : ℕ) (order : List α) : Search α :=
  order.foldl (fun s v => if s.index v < 0 then strongConnect next fuel v s else s) initial

/-- A path along the successor lists. -/
def Reach : α → α → Prop := Relation.ReflTransGen fun x y => y ∈ next x

/-- Between two steps of the search: `gray` are the vertices whose successors are being scanned. -/
structure Consistent (s : Search α) (gray : Set α) : Prop where
  onStack : ∀ x, s.onStack x = true ↔ x ∈ s.stack
  entered : ∀ x ∈ s.stack, 0 ≤ s.index x
  falling : s.stack.Pairwise fun x y => s.index y < s.index x
  nextIndex_pos : 0 ≤ s.nextIndex
  index_lt : ∀ x, s.index x < s.nextIndex
  gray_mem : ∀ x ∈ gray, x ∈ s.stack
  scanned : ∀ x, 0 ≤ s.index x → x ∉ gray → ∀ y ∈ next x, 0 ≤ s.index y
  closed : ∀ x, 0 ≤ s.index x → x ∉ s.stack → ∀ y ∈ next x, y ∉ s.stack
  up : ∀ x ∈ gray, ∀ y ∈ s.stack, s.index x ≤ s.index y → Reach next x y
  down : ∀ y ∈ s.stack, ∃ x ∈ gray, s.index x ≤ s.index y ∧ Reach next y x
  listed : ∀ x, (∃ c ∈ s.components, x ∈ c) ↔ 0 ≤ s.index x ∧ x ∉ s.stack
  nonempty : ∀ c ∈ s.components, c ≠ []
  nodup : ∀ c ∈ s.components, c.Nodup
  strong : ∀ c ∈ s.components, ∀ x ∈ c, ∀ y, y ∈ c ↔ Reach next x y ∧ Reach next y x
  ordered : s.components.Pairwise fun c d => ∀ x ∈ c, ∀ y ∈ d, x ≠ y ∧ y ∉ next x

/-- Scanning the successors of `v`, entered from `s`: `done` are the successors behind. -/
structure Scanning (s t : Search α) (v : α) (gray : Set α) (done : List α) : Prop where
  consistent : Consistent next t (insert v gray)
  keep : ∀ x, 0 ≤ s.index x → t.index x = s.index x ∧ t.low x = s.low x
  index_eq : t.index v = s.nextIndex
  stack : ∃ l, t.stack = l ++ v :: s.stack ∧ (∀ x ∈ l, s.index x < 0) ∧
    ∀ x ∈ l, ∀ y ∈ next x, y ∈ s.stack → t.low v ≤ s.index y
  low : t.low v = s.nextIndex ∨ ∃ y ∈ s.stack, s.index y = t.low v ∧ Reach next v y
  done : ∀ w ∈ done, 0 ≤ t.index w ∧ (w ∈ s.stack → t.low v ≤ s.index w)
  sound : ∀ x, 0 ≤ t.index x → 0 ≤ s.index x ∨ Reach next v x

/-- What the call for `v` makes of `s`. -/
structure Connected (s t : Search α) (v : α) (gray : Set α) : Prop where
  consistent : Consistent next t gray
  keep : ∀ x, 0 ≤ s.index x → t.index x = s.index x ∧ t.low x = s.low x
  entered : s.nextIndex ≤ t.index v
  stack : ∃ l, t.stack = l ++ s.stack ∧ (∀ x ∈ l, s.index x < 0) ∧
    ∀ x ∈ l, ∀ y ∈ next x, y ∈ s.stack → t.low v ≤ s.index y
  low : t.low v = t.index v ∨ ∃ y ∈ s.stack, s.index y = t.low v ∧ Reach next v y
  sound : ∀ x, 0 ≤ t.index x → 0 ≤ s.index x ∨ Reach next v x

variable {next} {s t : Search α} {gray : Set α} {v w : α} {l : List α}

theorem popThrough_append {l r : List α} (h : v ∉ l) :
    popThrough v (l ++ v :: r) = (l ++ [v], r) := by
  induction l with
  | nil => simp [popThrough]
  | cons x l ih =>
    rw [List.mem_cons, not_or] at h
    rw [List.cons_append, popThrough, if_neg (Ne.symm h.1), ih h.2, List.cons_append]

omit [LinearOrder α] in
theorem Consistent.nodup_stack (h : Consistent next s gray) : s.stack.Nodup :=
  h.falling.imp fun hlt heq => absurd (congrArg s.index heq) (by omega)

omit [LinearOrder α] in
theorem consistent_initial : Consistent next (initial : Search α) ∅ := by
  refine ⟨?_, ?_, ?_, ?_, ?_, ?_, ?_, ?_, ?_, ?_, ?_, ?_, ?_, ?_, ?_⟩ <;> simp [initial]

/-! ## Entering a vertex -/

theorem Consistent.enter (h : Consistent next s gray) (hv : s.index v < 0)
    (hreach : ∀ x ∈ gray, Reach next x v) :
    Consistent next (enter v s) (insert v gray) := by
  have hvs : v ∉ s.stack := fun hm => absurd (h.entered v hm) (by omega)
  have hindex : ∀ x, 0 ≤ s.index x → (Search.enter v s).index x = s.index x := by
    intro x hx
    refine Function.update_of_ne ?_ _ _
    rintro rfl
    omega
  have hnew : (Search.enter v s).index v = s.nextIndex := Function.update_self ..
  have hold : ∀ x, x ≠ v → (Search.enter v s).index x = s.index x := fun x hx =>
    Function.update_of_ne hx _ _
  have hpos := h.nextIndex_pos
  refine
    { onStack := fun x => ?_, entered := fun x hx => ?_, falling := ?_, nextIndex_pos := ?_
      index_lt := fun x => ?_, gray_mem := ?_, scanned := fun x hx hxg y hy => ?_
      closed := fun x hx hxs y hy => ?_, up := fun x hx y hy hxy => ?_, down := fun y hy => ?_
      listed := fun x => ?_, nonempty := h.nonempty, nodup := h.nodup, strong := h.strong
      ordered := h.ordered }
  · by_cases hxv : x = v
    · subst hxv
      simp [Search.enter]
    · have hon : (Search.enter v s).onStack x = s.onStack x := Function.update_of_ne hxv _ _
      rw [hon, h.onStack]
      simp [Search.enter, hxv]
  · rcases List.mem_cons.1 hx with rfl | hx
    · omega
    · rw [hindex x (h.entered x hx)]
      exact h.entered x hx
  · refine List.pairwise_cons.2 ⟨fun x hx => ?_, ?_⟩
    · rw [hnew, hindex x (h.entered x hx)]
      exact h.index_lt x
    · refine h.falling.imp_of_mem fun {x y} hx hy hlt => ?_
      rwa [hindex x (h.entered x hx), hindex y (h.entered y hy)]
  · show 0 ≤ s.nextIndex + 1
    omega
  · show (Search.enter v s).index x < s.nextIndex + 1
    by_cases hxv : x = v
    · subst hxv
      omega
    · have := h.index_lt x
      rw [hold x hxv]
      omega
  · rintro x (rfl | hx)
    · exact List.mem_cons_self ..
    · exact List.mem_cons_of_mem _ (h.gray_mem x hx)
  · obtain ⟨hxv, hxg⟩ : x ≠ v ∧ x ∉ gray := by simpa using hxg
    rw [hold x hxv] at hx
    have hy := h.scanned x hx hxg y hy
    rwa [hindex y hy]
  · obtain ⟨hxv, hxs⟩ : x ≠ v ∧ x ∉ s.stack := by simpa [Search.enter] using hxs
    rw [hold x hxv] at hx
    have hys := h.closed x hx hxs y hy
    have hyi := h.scanned x hx (fun hg => hxs (h.gray_mem x hg)) y hy
    have hyv : y ≠ v := by
      rintro rfl
      omega
    simpa [Search.enter, hyv] using hys
  · rcases List.mem_cons.1 hy with hyv | hys
    · rcases hx with hxv | hx
      · rw [hxv, hyv]
        exact .refl
      · rw [hyv]
        exact hreach x hx
    · rw [hindex y (h.entered y hys)] at hxy
      rcases hx with hxv | hx
      · have := h.index_lt y
        rw [hxv, hnew] at hxy
        omega
      · rw [hindex x (h.entered x (h.gray_mem x hx))] at hxy
        exact h.up x hx y hys hxy
  · rcases List.mem_cons.1 hy with rfl | hy
    · exact ⟨y, Set.mem_insert _ _, le_rfl, .refl⟩
    · obtain ⟨x, hx, hxy, hr⟩ := h.down y hy
      refine ⟨x, Set.mem_insert_of_mem _ hx, ?_, hr⟩
      rwa [hindex x (h.entered x (h.gray_mem x hx)), hindex y (h.entered y hy)]
  · refine (h.listed x).trans ?_
    by_cases hxv : x = v
    · subst hxv
      simp [Search.enter, hv]
    · rw [hold x hxv]
      simp [Search.enter, hxv]

theorem scanning_enter (h : Consistent next s gray) (hv : s.index v < 0)
    (hreach : ∀ x ∈ gray, Reach next x v) : Scanning next s (enter v s) v gray [] where
  consistent := h.enter hv hreach
  keep := by
    intro x hx
    have hxv : x ≠ v := by
      rintro rfl
      omega
    exact ⟨Function.update_of_ne hxv _ _, Function.update_of_ne hxv _ _⟩
  index_eq := Function.update_self ..
  stack := ⟨[], rfl, by simp, by simp⟩
  low := Or.inl (Function.update_self ..)
  done := by simp
  sound := by
    intro x hx
    by_cases hxv : x = v
    · rw [hxv]
      exact Or.inr .refl
    · rw [show (Search.enter v s).index x = s.index x from Function.update_of_ne hxv _ _] at hx
      exact Or.inl hx

/-! ## Scanning a successor -/

theorem Consistent.lowerTo (h : Consistent next s gray) (v : α) (n : ℤ) :
    Consistent next (lowerTo v n s) gray := { h with }

theorem low_lowerTo (v : α) (n : ℤ) (s : Search α) :
    (lowerTo v n s).low v = min (s.low v) n := Function.update_self ..

theorem low_lowerTo_of_ne {x : α} (h : x ≠ v) (n : ℤ) (s : Search α) :
    (lowerTo v n s).low x = s.low x := Function.update_of_ne h _ _

omit [LinearOrder α] in
theorem Scanning.low_le (h : Scanning next s t v gray l) (hs : Consistent next s gray) :
    t.low v ≤ s.nextIndex := by
  rcases h.low with hlow | ⟨y, _, hy, _⟩
  · omega
  · have := hs.index_lt y
    omega

omit [LinearOrder α] in
/-- A vertex of the stack with a smaller number than the scanned one was on it before. -/
theorem Scanning.mem_of_lt (h : Scanning next s t v gray l) {y : α} (hy : y ∈ t.stack)
    (hlt : t.index y < s.nextIndex) : y ∈ s.stack := by
  obtain ⟨m, hm, -, -⟩ := h.stack
  rw [hm] at hy
  rcases List.mem_append.1 hy with hy | hy
  · have hfall := h.consistent.falling
    rw [hm] at hfall
    have := (List.pairwise_append.1 hfall).2.2 y hy v (List.mem_cons_self ..)
    rw [h.index_eq] at this
    omega
  · rcases List.mem_cons.1 hy with rfl | hy
    · rw [h.index_eq] at hlt
      omega
    · exact hy

/-- Lowering the link of the scanned vertex to the number of a vertex that it reaches. -/
theorem Scanning.lower (h : Scanning next s t v gray l) (hv : s.index v < 0) {n : ℤ}
    (hn : t.low v ≤ n ∨ ∃ y ∈ s.stack, s.index y = n ∧ Reach next v y) {done : List α}
    (hdone : ∀ w ∈ done, 0 ≤ t.index w ∧ (w ∈ s.stack → min (t.low v) n ≤ s.index w)) :
    Scanning next s (lowerTo v n t) v gray done where
  consistent := h.consistent.lowerTo v n
  keep := by
    intro x hx
    have hxv : x ≠ v := by
      rintro rfl
      omega
    exact ⟨(h.keep x hx).1, (low_lowerTo_of_ne hxv n t).trans (h.keep x hx).2⟩
  index_eq := h.index_eq
  stack := by
    obtain ⟨m, hm, hnew, hlow⟩ := h.stack
    refine ⟨m, hm, hnew, fun x hx y hy hys => ?_⟩
    rw [low_lowerTo]
    exact (min_le_left _ _).trans (hlow x hx y hy hys)
  low := by
    rw [low_lowerTo]
    rcases le_total (t.low v) n with hle | hle
    · rw [min_eq_left hle]
      exact h.low
    · rw [min_eq_right hle]
      rcases hn with hn | hn
      · rw [le_antisymm hle hn]
        exact h.low
      · exact Or.inr hn
  done := by
    intro w hw
    rw [low_lowerTo]
    exact hdone w hw
  sound := h.sound

/-- After the call for a successor that was not entered. -/
theorem Scanning.called (h : Scanning next s t v gray l) (hs : Consistent next s gray)
    (hv : s.index v < 0) (hw : w ∈ next v) (hwt : t.index w < 0) {t' : Search α}
    (hc : Connected next t t' w (insert v gray)) :
    Scanning next s (lowerTo v (t'.low w) t') v gray (w :: l) := by
  have hvt : 0 ≤ t.index v := by
    rw [h.index_eq]
    exact hs.nextIndex_pos
  have hlowv : t'.low v = t.low v := (hc.keep v hvt).2
  have hle := h.low_le hs
  have hkeep : ∀ x, 0 ≤ s.index x → t'.index x = s.index x ∧ t'.low x = s.low x := by
    intro x hx
    have ht := h.keep x hx
    have ht' := hc.keep x (by omega)
    exact ⟨ht'.1.trans ht.1, ht'.2.trans ht.2⟩
  have hsnew : s.nextIndex ≤ t'.index w := by
    have h₁ := h.consistent.index_lt v
    have h₂ := hc.entered
    rw [h.index_eq] at h₁
    omega
  refine ⟨hc.consistent.lowerTo v _, fun x hx => ?_, (hc.keep v hvt).1.trans h.index_eq, ?_, ?_, ?_,
    fun x hx => ?_⟩
  · have hxv : x ≠ v := by
      rintro rfl
      omega
    exact ⟨(hkeep x hx).1, (low_lowerTo_of_ne hxv _ t').trans (hkeep x hx).2⟩
  · obtain ⟨m, hm, hnew, hlow⟩ := h.stack
    obtain ⟨m', hm', hnew', hlow'⟩ := hc.stack
    rw [low_lowerTo, hlowv]
    refine ⟨m' ++ m, by rw [List.append_assoc, ← hm]; exact hm', fun x hx => ?_,
      fun x hx y hy hys => ?_⟩
    · rcases List.mem_append.1 hx with hx | hx
      · have := hnew' x hx
        by_contra hpos
        have := (h.keep x (by omega)).1
        omega
      · exact hnew x hx
    · rcases List.mem_append.1 hx with hx | hx
      · have hyt : y ∈ t.stack := by
          rw [hm]
          exact List.mem_append_right _ (List.mem_cons_of_mem _ hys)
        have hlow' := hlow' x hx y hy hyt
        rw [(h.keep y (hs.entered y hys)).1] at hlow'
        exact (min_le_right _ _).trans hlow'
      · exact (min_le_left _ _).trans (hlow x hx y hy hys)
  · rw [low_lowerTo, hlowv]
    rcases le_or_gt (t.low v) (t'.low w) with hle' | hlt
    · rw [min_eq_left hle']
      exact h.low
    · rw [min_eq_right hlt.le]
      rcases hc.low with heq | ⟨y, hy, heq, hr⟩
      · omega
      · have hys := h.mem_of_lt hy (by omega)
        rw [(h.keep y (hs.entered y hys)).1] at heq
        exact Or.inr ⟨y, hys, heq, .head hw hr⟩
  · rw [low_lowerTo, hlowv]
    intro u hu
    rcases List.mem_cons.1 hu with rfl | hu
    · refine ⟨hs.nextIndex_pos.trans hsnew, fun hus => ?_⟩
      have h₁ := hs.entered u hus
      have h₂ := (h.keep u h₁).1
      omega
    · obtain ⟨hpos, hlow⟩ := h.done u hu
      exact ⟨(hc.keep u hpos).1.symm ▸ hpos, fun hus => (min_le_left _ _).trans (hlow hus)⟩
  · rcases hc.sound x hx with hx | hr
    · exact h.sound x hx
    · exact Or.inr (.head hw hr)

/-- Scanning a successor, given what the call for it promises. -/
theorem Scanning.visit (h : Scanning next s t v gray l) (hs : Consistent next s gray)
    (hv : s.index v < 0) (hw : w ∈ next v) {connect : α → Search α → Search α}
    (hc : t.index w < 0 → Connected next t (connect w t) w (insert v gray)) :
    Scanning next s (visit connect v t w) v gray (w :: l) := by
  unfold Search.visit
  split_ifs with hwt hon
  · exact h.called hs hv hw hwt (hc hwt)
  · have hwst := (h.consistent.onStack w).1 hon
    refine h.lower hv ?_ ?_
    · rcases le_or_gt (t.low v) (t.index w) with hle | hlt
      · exact Or.inl hle
      · have := h.low_le hs
        have hws := h.mem_of_lt hwst (by omega)
        exact Or.inr ⟨w, hws, ((h.keep w (hs.entered w hws)).1).symm, .single hw⟩
    · intro u hu
      rcases List.mem_cons.1 hu with rfl | hu
      · refine ⟨by omega, fun hus => (min_le_right _ _).trans ?_⟩
        rw [(h.keep u (hs.entered u hus)).1]
      · obtain ⟨hpos, hlow⟩ := h.done u hu
        exact ⟨hpos, fun hus => (min_le_left _ _).trans (hlow hus)⟩
  · refine { h with done := fun u hu => ?_ }
    rcases List.mem_cons.1 hu with rfl | hu
    · refine ⟨by omega, fun hus => absurd ?_ hon⟩
      obtain ⟨m, hm, -, -⟩ := h.stack
      rw [h.consistent.onStack, hm]
      exact List.mem_append_right _ (List.mem_cons_of_mem _ hus)
    · exact h.done u hu

/-! ## Ending a component -/

omit [LinearOrder α] in
/-- The part of the stack above the vertices that were there before: what the call entered. -/
theorem Scanning.mem_stack (h : Scanning next s t v gray l) : ∃ m, t.stack = m ++ v :: s.stack ∧
    v ∉ m ∧ (∀ x ∈ m, x ∉ s.stack) ∧ v ∉ s.stack ∧ (∀ x ∈ m, t.index v < t.index x) := by
  obtain ⟨m, hm, -, -⟩ := h.stack
  have hnodup := h.consistent.nodup_stack
  have hfall := h.consistent.falling
  rw [hm] at hnodup hfall
  obtain ⟨-, hrest, hdisjoint⟩ := List.nodup_append.1 hnodup
  refine ⟨m, hm, fun hv => ?_, fun x hx hxs => ?_, (List.nodup_cons.1 hrest).1, fun x hx => ?_⟩
  · exact hdisjoint v hv v (List.mem_cons_self ..) rfl
  · exact hdisjoint x hx x (List.mem_cons_of_mem _ hxs) rfl
  · exact (List.pairwise_append.1 hfall).2.2 x hx v (List.mem_cons_self ..)

/-- The edges out of what the call entered: their ends are entered, and those that were on the stack
before bound the low link. -/
theorem Scanning.edge (h : Scanning next s t v gray (next v)) (hs : Consistent next s gray) {x y : α}
    (hx : x ∈ t.stack) (hxs : x ∉ s.stack) (hy : y ∈ next x) :
    0 ≤ t.index y ∧ (y ∈ s.stack → t.low v ≤ s.index y) := by
  by_cases hxv : x = v
  · subst hxv
    exact h.done y hy
  · obtain ⟨m, hm, -, hlow⟩ := h.stack
    refine ⟨h.consistent.scanned x (h.consistent.entered x hx) ?_ y hy, fun hys => ?_⟩
    · rintro (hxv' | hxg)
      · exact hxv hxv'
      · exact hxs (hs.gray_mem x hxg)
    · rw [hm] at hx
      rcases List.mem_append.1 hx with hx | hx
      · exact hlow x hx y hy hys
      · rcases List.mem_cons.1 hx with hx | hx
        · exact absurd hx hxv
        · exact absurd hx hxs

/-- With all successors scanned every vertex that is not being scanned has entered successors. -/
theorem Scanning.scanned (h : Scanning next s t v gray (next v)) {x y : α} (hx : 0 ≤ t.index x)
    (hxg : x ∉ gray) (hy : y ∈ next x) : 0 ≤ t.index y := by
  by_cases hxv : x = v
  · subst hxv
    exact (h.done y hy).1
  · exact h.consistent.scanned x hx (by simp [hxv, hxg]) y hy

/-- A vertex with a smaller low link stays on the stack. -/
theorem Scanning.stay (h : Scanning next s t v gray (next v)) (hs : Consistent next s gray)
    (hne : t.low v ≠ t.index v) : Connected next s t v gray := by
  obtain ⟨y, hys, hylow, hvy⟩ : ∃ y ∈ s.stack, s.index y = t.low v ∧ Reach next v y :=
    h.low.resolve_left fun heq => hne (heq.trans h.index_eq.symm)
  have hkeep : ∀ x ∈ s.stack, t.index x = s.index x := fun x hx =>
    (h.keep x (hs.entered x hx)).1
  have hsub : ∀ x ∈ gray, x ∈ insert v gray := fun x hx => Set.mem_insert_of_mem _ hx
  refine ⟨{ h.consistent with
      gray_mem := fun x hx => h.consistent.gray_mem x (hsub x hx)
      scanned := fun x hx hxg z hz => h.scanned hx hxg hz
      up := fun x hx => h.consistent.up x (hsub x hx)
      down := fun x hx => ?_ }, h.keep, h.index_eq.ge, ?_, Or.inr ⟨y, hys, hylow, hvy⟩,
    h.sound⟩
  · obtain ⟨z, hz, hzx, hr⟩ := h.consistent.down x hx
    rcases hz with rfl | hz
    · obtain ⟨z', hz', hzy, hr'⟩ := hs.down y hys
      have hzs := hkeep z' (hs.gray_mem z' hz')
      have hlt := hs.index_lt y
      have heq := h.index_eq
      exact ⟨z', hz', by omega, (hr.trans hvy).trans hr'⟩
    · exact ⟨z, hz, hzx, hr⟩
  · obtain ⟨m, hm, hnew, -⟩ := h.stack
    obtain ⟨m', hm', hvm, hms, hvs, -⟩ := h.mem_stack
    obtain rfl : m = m' := List.append_cancel_right (hm.symm.trans hm')
    refine ⟨m ++ [v], by rw [hm, List.append_assoc]; rfl, fun x hx => ?_, fun x hx z hz hzs => ?_⟩
    · rcases List.mem_append.1 hx with hx | hx
      · exact hnew x hx
      · rw [List.mem_singleton.1 hx]
        by_contra hpos
        have h₁ := (h.keep v (by omega)).1
        have h₂ := hs.index_lt v
        have h₃ := h.index_eq
        omega
    · have hxt : x ∈ t.stack ∧ x ∉ s.stack := by
        rw [hm]
        rcases List.mem_append.1 hx with hx | hx
        · exact ⟨List.mem_append_left _ hx, hms x hx⟩
        · rw [List.mem_singleton.1 hx]
          exact ⟨by simp, hvs⟩
      exact (h.edge hs hxt.1 hxt.2 hz).2 hzs

/-- A vertex whose low link is its number: nothing it entered leads to an older vertex of the stack,
and all of it leads to and from the vertex. -/
structure Root (next : α → List α) (s t : Search α) (v : α) (m : List α) : Prop where
  stack : t.stack = m ++ v :: s.stack
  fresh : ∀ x ∈ m ++ [v], x ∈ t.stack ∧ x ∉ s.stack
  nodup : (m ++ [v]).Nodup
  inside : ∀ x ∈ m ++ [v], ∀ y ∈ next x, 0 ≤ t.index y ∧ y ∉ s.stack
  linked : ∀ x ∈ m ++ [v], Reach next v x ∧ Reach next x v

theorem Scanning.root (h : Scanning next s t v gray (next v)) (hs : Consistent next s gray)
    (hreach : ∀ x ∈ gray, Reach next x v) (heq : t.low v = t.index v) :
    ∃ m, v ∉ m ∧ Root next s t v m := by
  obtain ⟨m, hm, hvm, hms, hvs, hmv⟩ := h.mem_stack
  have hfresh : ∀ x ∈ m ++ [v], x ∈ t.stack ∧ x ∉ s.stack := by
    intro x hx
    rw [hm]
    rcases List.mem_append.1 hx with hx | hx
    · exact ⟨List.mem_append_left _ hx, hms x hx⟩
    · rw [List.mem_singleton.1 hx]
      exact ⟨by simp, hvs⟩
  have hv : v ∈ t.stack := (hfresh v (by simp)).1
  have hnodup := h.consistent.nodup_stack
  rw [hm, ← List.singleton_append, ← List.append_assoc] at hnodup
  refine ⟨m, hvm, hm, hfresh, hnodup.of_append_left, fun x hx y hy => ?_, fun x hx => ⟨?_, ?_⟩⟩
  · obtain ⟨hxt, hxs⟩ := hfresh x hx
    obtain ⟨hpos, hlow⟩ := h.edge hs hxt hxs hy
    refine ⟨hpos, fun hys => ?_⟩
    have h₁ := hlow hys
    have h₂ := hs.index_lt y
    have h₃ := h.index_eq
    omega
  · refine h.consistent.up v (Set.mem_insert _ _) x (hfresh x hx).1 ?_
    rcases List.mem_append.1 hx with hx | hx
    · exact (hmv x hx).le
    · rw [List.mem_singleton.1 hx]
  · obtain ⟨z, hz, -, hr⟩ := h.consistent.down x (hfresh x hx).1
    rcases hz with rfl | hz
    · exact hr
    · exact hr.trans (hreach z hz)

omit [LinearOrder α] in
/-- What is entered and no longer on the stack leads to nothing else. -/
theorem Consistent.reach_closed (h : Consistent next s gray) {x y : α} (hr : Reach next x y)
    (hx : 0 ≤ s.index x ∧ x ∉ s.stack) : 0 ≤ s.index y ∧ y ∉ s.stack := by
  induction hr with
  | refl => exact hx
  | tail _ he ih =>
    exact ⟨h.scanned _ ih.1 (fun hg => ih.2 (h.gray_mem _ hg)) _ he, h.closed _ ih.1 ih.2 _ he⟩

/-- What a root entered and still has on the stack is a strongly connected component. -/
theorem Root.strong {m : List α} (hm : Root next s t v m) {g : Set α} (h : Consistent next t g)
    {x : α} (hx : x ∈ m ++ [v]) (y : α) :
    y ∈ m ++ [v] ↔ Reach next x y ∧ Reach next y x := by
  obtain ⟨hvx, hxv⟩ := hm.linked x hx
  constructor
  · intro hy
    obtain ⟨hvy, hyv⟩ := hm.linked y hy
    exact ⟨hxv.trans hvy, hyv.trans hvx⟩
  · rintro ⟨hxy, hyx⟩
    have hstack : ∀ z ∈ t.stack, z ∈ m ++ [v] ∨ z ∈ s.stack := by
      intro z hz
      rw [hm.stack] at hz
      simp only [List.mem_append, List.mem_cons, List.not_mem_nil, or_false] at hz ⊢
      tauto
    -- What the root leads to is in its component or in an earlier one.
    have hto : ∀ z, Reach next v z → z ∈ m ++ [v] ∨ (0 ≤ t.index z ∧ z ∉ t.stack) := by
      intro z hz
      induction hz with
      | refl => exact Or.inl (by simp)
      | @tail a b _ he ih =>
        rcases ih with ha | ha
        · obtain ⟨hpos, hbs⟩ := hm.inside a ha b he
          by_cases hbt : b ∈ t.stack
          · exact Or.inl ((hstack b hbt).resolve_right hbs)
          · exact Or.inr ⟨hpos, hbt⟩
        · exact Or.inr (h.reach_closed (.single he) ha)
    refine (hto y (hvx.trans hxy)).resolve_right fun hy => ?_
    exact (h.reach_closed hyx hy).2 (hm.fresh x hx).1

/-- The component of a vertex whose low link is its number is taken from the stack. -/
theorem Scanning.leave (h : Scanning next s t v gray (next v)) (hs : Consistent next s gray)
    (hreach : ∀ x ∈ gray, Reach next x v) (heq : t.low v = t.index v) :
    Connected next s (finish v t) v gray := by
  obtain ⟨m, hvm, hm⟩ := h.root hs hreach heq
  have hpop : popThrough v t.stack = (m ++ [v], s.stack) := by
    rw [hm.stack, popThrough_append hvm]
  have hkeep : ∀ x ∈ s.stack, t.index x = s.index x := fun x hx =>
    (h.keep x (hs.entered x hx)).1
  have hstack : ∀ x, x ∈ t.stack ↔ x ∈ m ++ [v] ∨ x ∈ s.stack := by
    intro x
    rw [hm.stack]
    simp only [List.mem_append, List.mem_cons, List.not_mem_nil, or_false]
    tauto
  have hfinish : finish v t = { t with
      stack := s.stack
      onStack := fun x => t.onStack x && x ∉ m ++ [v]
      components := t.components ++ [(m ++ [v]).insertionSort (· ≤ ·)] } := by
    unfold finish
    rw [if_pos heq, hpop]
  rw [hfinish]
  have hfall : (m ++ v :: s.stack).Pairwise fun x y => t.index y < t.index x := by
    rw [← hm.stack]
    exact h.consistent.falling
  have hcomp : ∀ c ∈ t.components ++ [(m ++ [v]).insertionSort (· ≤ ·)],
      c ∈ t.components ∨ c = (m ++ [v]).insertionSort (· ≤ ·) := by
    intro c hc
    simpa using hc
  have hsort : ∀ x, x ∈ (m ++ [v]).insertionSort (· ≤ ·) ↔ x ∈ m ++ [v] := fun x =>
    List.mem_insertionSort _
  refine ⟨?_, h.keep, h.index_eq.ge, ⟨[], rfl, by simp, by simp⟩, Or.inl heq, h.sound⟩
  exact
    { onStack := fun x => by
        show (t.onStack x && decide (x ∉ m ++ [v])) = true ↔ x ∈ s.stack
        rw [Bool.and_eq_true, decide_eq_true_eq, h.consistent.onStack, hstack]
        exact ⟨fun hx => hx.1.resolve_left hx.2, fun hx => ⟨Or.inr hx, fun hc =>
          (hm.fresh x hc).2 hx⟩⟩
      entered := fun x hx => h.consistent.entered x ((hstack x).2 (Or.inr hx))
      falling := (List.pairwise_cons.1 (List.pairwise_append.1 hfall).2.1).2
      nextIndex_pos := h.consistent.nextIndex_pos
      index_lt := h.consistent.index_lt
      gray_mem := hs.gray_mem
      scanned := fun x hx hxg y hy => h.scanned hx hxg hy
      closed := fun x hx hxs y hy hys => by
        by_cases hxt : x ∈ t.stack
        · exact (hm.inside x (((hstack x).1 hxt).resolve_right hxs) y hy).2 hys
        · exact h.consistent.closed x hx hxt y hy ((hstack y).2 (Or.inr hys))
      up := fun x hx y hy => h.consistent.up x (Set.mem_insert_of_mem _ hx) y
        ((hstack y).2 (Or.inr hy))
      down := fun y hy => by
        obtain ⟨x, hx, hxy, hr⟩ := hs.down y hy
        refine ⟨x, hx, ?_, hr⟩
        show t.index x ≤ t.index y
        rwa [hkeep x (hs.gray_mem x hx), hkeep y hy]
      listed := fun x => by
        have hold := h.consistent.listed x
        constructor
        · rintro ⟨c, hc, hx⟩
          rcases hcomp c hc with hc | rfl
          · obtain ⟨hpos, hxt⟩ := hold.1 ⟨c, hc, hx⟩
            exact ⟨hpos, fun hxs => hxt ((hstack x).2 (Or.inr hxs))⟩
          · obtain ⟨hxt, hxs⟩ := hm.fresh x ((hsort x).1 hx)
            exact ⟨h.consistent.entered x hxt, hxs⟩
        · rintro ⟨hpos, hxs⟩
          by_cases hxt : x ∈ t.stack
          · exact ⟨_, List.mem_append_right _ (List.mem_singleton_self _),
              (hsort x).2 (((hstack x).1 hxt).resolve_right hxs)⟩
          · obtain ⟨c, hc, hx⟩ := hold.2 ⟨hpos, hxt⟩
            exact ⟨c, List.mem_append_left _ hc, hx⟩
      nonempty := fun c hc => by
        rcases hcomp c hc with hc | rfl
        · exact h.consistent.nonempty c hc
        · exact List.ne_nil_of_mem ((hsort v).2 (by simp))
      nodup := fun c hc => by
        rcases hcomp c hc with hc | rfl
        · exact h.consistent.nodup c hc
        · exact (List.perm_insertionSort _ _).nodup_iff.2 hm.nodup
      strong := fun c hc x hx y => by
        rcases hcomp c hc with hc | rfl
        · exact h.consistent.strong c hc x hx y
        · rw [hsort]
          exact hm.strong h.consistent ((hsort x).1 hx) y
      ordered := by
        refine List.pairwise_append.2 ⟨h.consistent.ordered, List.pairwise_singleton _ _, ?_⟩
        intro c hc d hd x hx y hy
        rw [List.mem_singleton.1 hd, hsort] at hy
        have hyt := (hm.fresh y hy).1
        obtain ⟨hpos, hxt⟩ := (h.consistent.listed x).1 ⟨c, hc, hx⟩
        refine ⟨?_, fun he => h.consistent.closed x hpos hxt y he hyt⟩
        rintro rfl
        exact hxt hyt }

/-! ## The search -/

theorem Scanning.finish (h : Scanning next s t v gray (next v)) (hs : Consistent next s gray)
    (hreach : ∀ x ∈ gray, Reach next x v) : Connected next s (finish v t) v gray := by
  by_cases heq : t.low v = t.index v
  · exact h.leave hs hreach heq
  · unfold Search.finish
    rw [if_neg heq]
    exact h.stay hs heq

/-- Scanning a list of successors. -/
theorem Scanning.foldl {connect : α → Search α → Search α} (hs : Consistent next s gray)
    (hv : s.index v < 0) (hc : ∀ w ∈ next v, ∀ l t, Scanning next s t v gray l → t.index w < 0 →
      Connected next t (connect w t) w (insert v gray)) (m : List α) (hm : ∀ w ∈ m, w ∈ next v)
    (h : Scanning next s t v gray l) :
    ∃ l', (∀ w, w ∈ m ∨ w ∈ l → w ∈ l') ∧
      Scanning next s (m.foldl (Search.visit connect v) t) v gray l' := by
  induction m generalizing t l with
  | nil => exact ⟨l, by simp, h⟩
  | cons w m ih =>
    have hw := hm w (List.mem_cons_self ..)
    have hstep := h.visit hs hv hw (hc w hw l t h)
    obtain ⟨l', hl', hend⟩ := ih (fun x hx => hm x (List.mem_cons_of_mem _ hx)) hstep
    refine ⟨l', ?_, hend⟩
    rintro x (hx | hx)
    · rcases List.mem_cons.1 hx with rfl | hx
      · exact hl' x (Or.inr (List.mem_cons_self ..))
      · exact hl' x (Or.inl hx)
    · exact hl' x (Or.inr (List.mem_cons_of_mem _ hx))

/-- The vertices that are not entered yet. -/
def remaining (U : Finset α) (s : Search α) : Finset α := U.filter (s.index · < 0)

omit [LinearOrder α] in
theorem Scanning.remaining_lt (h : Scanning next s t v gray l) (hs : Consistent next s gray)
    {U : Finset α} (hv : v ∈ U) (hvs : s.index v < 0) :
    (remaining U t).card < (remaining U s).card := by
  refine Finset.card_lt_card ⟨fun x hx => ?_, fun hsub => ?_⟩
  · obtain ⟨hxU, hx⟩ := Finset.mem_filter.1 hx
    refine Finset.mem_filter.2 ⟨hxU, ?_⟩
    by_contra hpos
    have := (h.keep x (by omega)).1
    omega
  · have hvt := (Finset.mem_filter.1 (hsub (Finset.mem_filter.2 ⟨hv, hvs⟩))).2
    have h₁ := h.index_eq
    have h₂ := hs.nextIndex_pos
    omega

/-- With fuel for every vertex that is not entered yet a call keeps its promise. -/
theorem strongConnect_connected {U : Finset α} (hU : ∀ a ∈ U, ∀ b ∈ next a, b ∈ U) (fuel : ℕ)
    (hvU : v ∈ U) (hs : Consistent next s gray) (hv : s.index v < 0)
    (hreach : ∀ x ∈ gray, Reach next x v) (hfuel : (remaining U s).card ≤ fuel) :
    Connected next s (strongConnect next fuel v s) v gray := by
  induction fuel generalizing v s gray with
  | zero =>
    have hmem : v ∈ remaining U s := Finset.mem_filter.2 ⟨hvU, hv⟩
    rw [Nat.le_zero, Finset.card_eq_zero] at hfuel
    rw [hfuel] at hmem
    exact absurd hmem (Finset.notMem_empty v)
  | succ fuel ih =>
    have hcall : ∀ w ∈ next v, ∀ l t, Scanning next s t v gray l → t.index w < 0 →
        Connected next t (strongConnect next fuel w t) w (insert v gray) := by
      intro w hw l t h hwt
      refine ih (hU v hvU w hw) h.consistent hwt ?_ ?_
      · rintro x (rfl | hx)
        · exact .single hw
        · exact (hreach x hx).tail hw
      · have := h.remaining_lt hs hvU hv
        omega
    obtain ⟨l, hl, hend⟩ := Scanning.foldl hs hv hcall (next v) (fun _ h => h)
      (scanning_enter hs hv hreach)
    exact Scanning.finish { hend with done := fun w hw => hend.done w (hl w (Or.inl hw)) } hs hreach

/-- After the search from every vertex of a list: nothing is on the stack, and what is reachable from
the list is entered. -/
theorem connectAll_consistent {U : Finset α} (hU : ∀ a ∈ U, ∀ b ∈ next a, b ∈ U) {fuel : ℕ}
    (hfuel : U.card ≤ fuel) {order : List α} (horder : ∀ v ∈ order, v ∈ U) :
    Consistent next (connectAll next fuel order) ∅ ∧
    (∀ v ∈ order, 0 ≤ (connectAll next fuel order).index v) ∧
    ∀ x, 0 ≤ (connectAll next fuel order).index x → ∃ v ∈ order, Reach next v x := by
  have hgen : ∀ (l : List α) (s : Search α), (∀ v ∈ l, v ∈ U) → Consistent next s ∅ →
      let t := l.foldl (fun s v => if s.index v < 0 then strongConnect next fuel v s else s) s
      Consistent next t ∅ ∧ (∀ v, v ∈ l ∨ 0 ≤ s.index v → 0 ≤ t.index v) ∧
        ∀ x, 0 ≤ t.index x → 0 ≤ s.index x ∨ ∃ v ∈ l, Reach next v x := by
    intro l
    induction l with
    | nil => exact fun s _ hs => ⟨hs, by simp, fun x hx => Or.inl hx⟩
    | cons v l ih =>
      intro s hl hs
      have hvU := hl v (List.mem_cons_self ..)
      have hstep : ∃ t, (if s.index v < 0 then strongConnect next fuel v s else s) = t ∧
          Consistent next t ∅ ∧ (∀ x, x = v ∨ 0 ≤ s.index x → 0 ≤ t.index x) ∧
          ∀ x, 0 ≤ t.index x → 0 ≤ s.index x ∨ Reach next v x := by
        refine ⟨_, rfl, ?_⟩
        split_ifs with hv
        · have hc := strongConnect_connected hU fuel hvU hs hv (by simp)
            ((Finset.card_filter_le _ _).trans hfuel)
          refine ⟨hc.consistent, ?_, hc.sound⟩
          rintro x (rfl | hx)
          · exact hs.nextIndex_pos.trans hc.entered
          · rw [(hc.keep x hx).1]
            exact hx
        · refine ⟨hs, ?_, fun x hx => Or.inl hx⟩
          rintro x (rfl | hx)
          · omega
          · exact hx
      obtain ⟨t, ht, hcons, hmono, hsound⟩ := hstep
      obtain ⟨h₁, h₂, h₃⟩ := ih t (fun x hx => hl x (List.mem_cons_of_mem _ hx)) hcons
      rw [List.foldl_cons, ht]
      refine ⟨h₁, ?_, fun x hx => ?_⟩
      · rintro x (hx | hx)
        · rcases List.mem_cons.1 hx with rfl | hx
          · exact h₂ x (Or.inr (hmono x (Or.inl rfl)))
          · exact h₂ x (Or.inl hx)
        · exact h₂ x (Or.inr (hmono x (Or.inr hx)))
      · rcases h₃ x hx with hx | ⟨w, hw, hr⟩
        · rcases hsound x hx with hx | hr
          · exact Or.inl hx
          · exact Or.inr ⟨v, List.mem_cons_self .., hr⟩
        · exact Or.inr ⟨w, List.mem_cons_of_mem _ hw, hr⟩
  obtain ⟨h₁, h₂, h₃⟩ := hgen order initial horder consistent_initial
  refine ⟨h₁, fun v hv => h₂ v (Or.inl hv), fun x hx => (h₃ x hx).resolve_left ?_⟩
  simp [initial]

omit [LinearOrder α] in
/-- With no vertex being scanned the stack is empty. -/
theorem Consistent.stack_eq_nil (h : Consistent next s ∅) : s.stack = [] := by
  refine List.eq_nil_iff_forall_not_mem.2 fun y hy => ?_
  obtain ⟨x, hx, -⟩ := h.down y hy
  exact hx

omit [LinearOrder α] in
/-- The components have no vertex twice. -/
theorem Consistent.nodup_flatten (h : Consistent next s gray) : s.components.flatten.Nodup := by
  refine List.nodup_flatten.2 ⟨h.nodup, h.ordered.imp fun hcd x hx hx' => ?_⟩
  exact (hcd x hx x hx').1 rfl

omit [LinearOrder α] in
/-- Two listed vertices are in one component exactly if each leads to the other. -/
theorem Consistent.same_component_iff (h : Consistent next s gray) {x y : α}
    (hx : ∃ c ∈ s.components, x ∈ c) :
    (∃ c ∈ s.components, x ∈ c ∧ y ∈ c) ↔ Reach next x y ∧ Reach next y x := by
  constructor
  · rintro ⟨c, hc, hx, hy⟩
    exact (h.strong c hc x hx y).1 hy
  · intro hr
    obtain ⟨c, hc, hx⟩ := hx
    exact ⟨c, hc, hx, (h.strong c hc x hx y).2 hr⟩

end Search

end FlowGraph
