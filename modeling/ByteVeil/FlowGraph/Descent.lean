import ByteVeil.FlowGraph.Sweep
import Mathlib.Algebra.GroupWithZero.Nat

/-!
# Descending iteration on vectors of sets

A vector of finite sets is lowered entry by entry to `F D b` until nothing changes. For a monotone
`F` that starts below the vector the iteration ends at a fixpoint, and every family of sets that `F`
preserves from below is still below the end.
-/

namespace FlowGraph

variable {α : Type*}

/-- Entrywise inclusion. -/
def Below (D D' : List (Finset α)) : Prop := ∀ i, D.getD i ∅ ⊆ D'.getD i ∅

theorem getD_set (D : List (Finset α)) (b i : ℕ) (s : Finset α) :
    (D.set b s).getD i ∅ = if i = b ∧ b < D.length then s else D.getD i ∅ := by
  simp only [List.getD_eq_getElem?_getD, List.getElem?_set]
  by_cases hib : b = i
  · subst hib
    by_cases hb : b < D.length
    · simp [hb]
    · simp [hb]
  · simp [hib, Ne.symm hib]

/-- The number of elements in all entries together. -/
def size (D : List (Finset α)) : ℕ := (D.map Finset.card).sum

theorem size_set {D : List (Finset α)} {b : ℕ} {s : Finset α} (hb : b < D.length) :
    size (D.set b s) + (D.getD b ∅).card = size D + s.card := by
  unfold size
  induction D generalizing b with
  | nil => simp at hb
  | cons a D ih =>
    cases b with
    | zero =>
      simp only [List.set_cons_zero, List.map_cons, List.sum_cons, List.getD_cons_zero]
      omega
    | succ b =>
      have := ih (b := b) (by simpa using hb)
      simp only [List.set_cons_succ, List.map_cons, List.sum_cons, List.getD_cons_succ]
      omega

theorem size_set_lt {D : List (Finset α)} {b : ℕ} {s : Finset α} (hb : b < D.length)
    (h : s ⊂ D.getD b ∅) : size (D.set b s) < size D := by
  have hsize := size_set (D := D) (b := b) (s := s) hb
  have hcard := Finset.card_lt_card h
  omega

theorem size_map_range_le {n m : ℕ} {g : ℕ → Finset α} (h : ∀ b < n, (g b).card ≤ m) :
    size ((List.range n).map g) ≤ n * m := by
  induction n with
  | zero => simp [size]
  | succ n ih =>
    have hrest := ih fun b hb => h b (Nat.lt_succ_of_lt hb)
    have hlast := h n (Nat.lt_succ_self n)
    unfold size at hrest ⊢
    rw [List.range_succ, List.map_append, List.map_append, List.sum_append, Nat.succ_mul]
    simp only [List.map_cons, List.map_nil, List.sum_cons, List.sum_nil]
    omega

variable [DecidableEq α]

/-- Replaces entry `b` by `F D b`; the flag says whether this changed it. -/
def lower (inScope : ℕ → Bool) (F : List (Finset α) → ℕ → Finset α) (b : ℕ)
    (D : List (Finset α)) : List (Finset α) × Bool :=
  if inScope b ∧ F D b ≠ D.getD b ∅ then (D.set b (F D b), true) else (D, false)

section

variable {inScope : ℕ → Bool} {F : List (Finset α) → ℕ → Finset α} {order : List ℕ}
  {D₀ : List (Finset α)}

/-- What the iteration from `D₀` maintains. -/
structure Lowering (inScope : ℕ → Bool) (F : List (Finset α) → ℕ → Finset α) (order : List ℕ)
    (D₀ D : List (Finset α)) : Prop where
  length_eq : D.length = D₀.length
  above : ∀ b ∈ order, inScope b → F D b ⊆ D.getD b ∅
  frame : ∀ b, ¬ (b ∈ order ∧ inScope b) → D.getD b ∅ = D₀.getD b ∅

theorem Lowering.step (hmono : ∀ D D' b, Below D D' → F D b ⊆ F D' b)
    (hlen : ∀ b ∈ order, inScope b → b < D₀.length) {D : List (Finset α)}
    (h : Lowering inScope F order D₀ D) {b : ℕ} (hb : b ∈ order) :
    Lowering inScope F order D₀ (lower inScope F b D).1 := by
  unfold lower
  split_ifs with hc
  · obtain ⟨hs, _⟩ := hc
    have hbl : b < D.length := by rw [h.length_eq]; exact hlen b hb hs
    have hbelow : Below (D.set b (F D b)) D := by
      intro i
      rw [getD_set]
      split_ifs with hi
      · rw [hi.1]
        exact h.above b hb hs
      · exact subset_rfl
    refine ⟨by simpa using h.length_eq, fun i hi his => ?_, fun i hi => ?_⟩
    · rw [getD_set]
      split_ifs with hib
      · rw [hib.1]
        exact hmono _ _ b hbelow
      · exact (hmono _ _ i hbelow).trans (h.above i hi his)
    · rw [getD_set, if_neg, h.frame i hi]
      rintro ⟨rfl, _⟩
      exact hi ⟨hb, hs⟩
  · exact h

/-- A monotone `F` that starts below the vector, and fuel for every element of it. -/
structure Descends (inScope : ℕ → Bool) (F : List (Finset α) → ℕ → Finset α) (order : List ℕ)
    (D₀ : List (Finset α)) (fuel : ℕ) : Prop where
  mono : ∀ D D' b, Below D D' → F D b ⊆ F D' b
  lt_length : ∀ b ∈ order, inScope b → b < D₀.length
  init : ∀ b ∈ order, inScope b → F D₀ b ⊆ D₀.getD b ∅
  size_lt : size D₀ < fuel

namespace Descends

variable {fuel : ℕ} (h : Descends inScope F order D₀ fuel)
include h

omit [DecidableEq α] in
theorem start : Lowering inScope F order D₀ D₀ := ⟨rfl, h.init, fun _ _ => rfl⟩

theorem keeps : ∀ b ∈ order, ∀ D, Lowering inScope F order D₀ D →
    Lowering inScope F order D₀ (lower inScope F b D).1 :=
  fun _ hb _ hD => hD.step h.mono h.lt_length hb

/-- A change makes the vector smaller. -/
theorem drops : ∀ b ∈ order, ∀ D, Lowering inScope F order D₀ D →
    size (lower inScope F b D).1 ≤ size D ∧
      ((lower inScope F b D).2 = true → size (lower inScope F b D).1 < size D) := by
  intro i hi D hD
  unfold lower
  split_ifs with hc
  · have hlt := size_set_lt (by rw [hD.length_eq]; exact h.lt_length i hi hc.1)
      (ssubset_of_subset_of_ne (hD.above i hi hc.1) hc.2)
    exact ⟨hlt.le, fun _ => hlt⟩
  · exact ⟨le_rfl, fun h => absurd h (by decide)⟩

/-- The iteration comes to its end. -/
theorem settles : Settles (lower inScope F) order D₀ (settle (lower inScope F) order fuel D₀) :=
  settles_settle size h.keeps h.drops h.start h.size_lt

/-- The end of the iteration: a fixpoint that keeps the entries it never touches. -/
theorem fixed :
    let D := settle (lower inScope F) order fuel D₀
    D.length = D₀.length ∧ (∀ b ∈ order, inScope b → F D b = D.getD b ∅) ∧
      ∀ b, ¬ (b ∈ order ∧ inScope b) → D.getD b ∅ = D₀.getD b ∅ := by
  have hend := settle_invariant h.keeps fuel h.start
  refine ⟨hend.length_eq, fun b hb hs => ?_, hend.frame⟩
  have hfix := settle_fixed size h.keeps ?_ h.drops h.start h.size_lt b hb
  · by_contra hne
    unfold lower at hfix
    rw [if_pos ⟨hs, hne⟩] at hfix
    simp at hfix
  · intro i _ D _ hflag
    unfold lower at hflag ⊢
    split_ifs at hflag ⊢ with hc
    rfl

end Descends

/-- A family that `F` preserves from below stays below the iteration. -/
theorem settle_lower_above {T : ℕ → α → Prop} (h₀ : ∀ b x, T b x → x ∈ D₀.getD b ∅)
    (hT : ∀ b ∈ order, inScope b → ∀ D : List (Finset α), (∀ i x, T i x → x ∈ D.getD i ∅) →
      ∀ x, T b x → x ∈ F D b) (fuel : ℕ) :
    ∀ b x, T b x → x ∈ (settle (lower inScope F) order fuel D₀).getD b ∅ := by
  refine settle_invariant (P := fun D : List (Finset α) => ∀ b x, T b x → x ∈ D.getD b ∅) ?_ fuel h₀
  intro i hi D hD b x hx
  unfold lower
  split_ifs with hc
  · rw [getD_set]
    split_ifs with hb
    · rw [hb.1] at hx
      exact hT i hi hc.1 D hD x hx
    · exact hD b x hx
  · exact hD b x hx

end

/-- The intersection of the entries at the indices of `l`, inside `top`. -/
def meet (top : Finset α) (D : List (Finset α)) (l : List ℕ) : Finset α :=
  l.foldl (fun acc i => acc ∩ D.getD i ∅) top

theorem mem_meet {top : Finset α} {D : List (Finset α)} {l : List ℕ} {x : α} :
    x ∈ meet top D l ↔ x ∈ top ∧ ∀ i ∈ l, x ∈ D.getD i ∅ := by
  unfold meet
  induction l generalizing top with
  | nil => simp
  | cons i l ih =>
    rw [List.foldl_cons, ih, Finset.mem_inter, List.forall_mem_cons, and_assoc]

theorem meet_mono {top : Finset α} {D D' : List (Finset α)} {l : List ℕ} (h : Below D D') :
    meet top D l ⊆ meet top D' l := by
  intro x hx
  rw [mem_meet] at hx ⊢
  exact ⟨hx.1, fun i hi => h i (hx.2 i hi)⟩

end FlowGraph
