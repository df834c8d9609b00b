import ByteVeil.FlowGraph.Path
import Mathlib.Data.Finset.Union
import Mathlib.Order.Bounds.Basic

/-!
# Liveness

A vertex is live when a path from it leads to a use and passes no kill on the way. This is the least
set that contains the uses and that passes backwards along the edges out of vertices without a kill.

Over a straight piece of code the set in front is computed from the set behind, either instruction by
instruction from the end (`liveBefore`) or at once from the uses no definition precedes and the
definitions (`summarize`).
-/

namespace FlowGraph

section

variable {γ : Type*} {E : γ → γ → Prop} {uses kills : γ → Prop}

/-- A path from `x` leads to a use, with no kill before it. -/
def Live (E : γ → γ → Prop) (uses kills : γ → Prop) (x : γ) : Prop :=
  ∃ l y, Path E x l y ∧ uses y ∧ ∀ z ∈ l.dropLast, ¬ kills z

theorem Live.of_use {x : γ} (h : uses x) : Live E uses kills x :=
  ⟨[x], x, .single x, h, by simp⟩

theorem Live.of_edge {x y : γ} (he : E x y) (hx : ¬ kills x) (h : Live E uses kills y) :
    Live E uses kills x := by
  obtain ⟨l, z, hp, hz, hl⟩ := h
  refine ⟨x :: l, z, .cons he hp, hz, fun w hw => ?_⟩
  have hne : l ≠ [] := List.ne_nil_of_mem hp.start_mem
  rw [List.dropLast_cons_of_ne_nil hne] at hw
  rcases List.mem_cons.1 hw with rfl | hw
  · exact hx
  · exact hl w hw

/-- What makes a vertex live is a use there, or a live successor behind it. -/
theorem live_iff {x : γ} : Live E uses kills x ↔
    uses x ∨ ¬ kills x ∧ ∃ y, E x y ∧ Live E uses kills y := by
  constructor
  · rintro ⟨l, y, hp, hy, hl⟩
    cases hp with
    | single a => exact Or.inl hy
    | @cons a b c l he hp =>
      have hne : l ≠ [] := List.ne_nil_of_mem hp.start_mem
      rw [List.dropLast_cons_of_ne_nil hne] at hl
      refine Or.inr ⟨hl x (List.mem_cons_self ..), b, he, l, y, hp, hy, fun z hz => ?_⟩
      exact hl z (List.mem_cons_of_mem _ hz)
  · rintro (h | ⟨hx, y, he, h⟩)
    · exact .of_use h
    · exact .of_edge he hx h

/-- A set that contains the uses and passes backwards over edges contains every live vertex. -/
theorem Live.induct {S : γ → Prop} (huse : ∀ x, uses x → S x)
    (hedge : ∀ x y, E x y → ¬ kills x → S y → S x) {x : γ} (h : Live E uses kills x) : S x := by
  obtain ⟨l, y, hp, hy, hl⟩ := h
  induction hp with
  | single a => exact huse a hy
  | @cons a b c l he hp ih =>
    have hne : l ≠ [] := List.ne_nil_of_mem hp.start_mem
    rw [List.dropLast_cons_of_ne_nil hne] at hl
    refine hedge a b he (hl a (List.mem_cons_self ..)) (ih hy fun z hz => ?_)
    exact hl z (List.mem_cons_of_mem _ hz)

end

/-! ## Straight code -/

section

variable {ι ρ : Type*} [DecidableEq ρ] (uses definitions : ι → Finset ρ)

/-- The live set in front of an instruction, from the one behind it. -/
def before (i : ι) (live : Finset ρ) : Finset ρ := live \ definitions i ∪ uses i

/-- The live set in front of a list of instructions, from the one behind it. -/
def liveBefore (l : List ι) (live : Finset ρ) : Finset ρ := l.foldr (before uses definitions) live

/-- The uses that no definition precedes, and the definitions. -/
def summarize (l : List ι) : Finset ρ × Finset ρ :=
  l.foldl (fun acc i => (acc.1 ∪ uses i \ acc.2, acc.2 ∪ definitions i)) (∅, ∅)

/-- The live set in front of a list of instructions, and the greatest size it has on the way. -/
def peakBefore (l : List ι) (live : Finset ρ) : Finset ρ × ℕ :=
  l.foldr (fun i acc => (before uses definitions i acc.1,
    max acc.2 (before uses definitions i acc.1).card)) (live, live.card)

variable {uses definitions}

theorem mem_before {i : ι} {live : Finset ρ} {r : ρ} :
    r ∈ before uses definitions i live ↔ r ∈ uses i ∨ r ∉ definitions i ∧ r ∈ live := by
  rw [before, Finset.mem_union, Finset.mem_sdiff]
  tauto

@[simp] theorem liveBefore_nil (live : Finset ρ) : liveBefore uses definitions [] live = live := rfl

@[simp] theorem liveBefore_cons (i : ι) (l : List ι) (live : Finset ρ) :
    liveBefore uses definitions (i :: l) live =
      before uses definitions i (liveBefore uses definitions l live) := rfl

/-- The summary is the walk from the end. -/
theorem summarize_union (l : List ι) (live : Finset ρ) :
    (summarize uses definitions l).1 ∪ live \ (summarize uses definitions l).2 =
      liveBefore uses definitions l live := by
  have hgen : ∀ U D : Finset ρ,
      let s := l.foldl (fun acc i => (acc.1 ∪ uses i \ acc.2, acc.2 ∪ definitions i)) (U, D)
      s.1 ∪ live \ s.2 = U ∪ liveBefore uses definitions l live \ D := by
    induction l with
    | nil => exact fun _ _ => rfl
    | cons i l ih =>
      intro U D
      refine (ih (U ∪ uses i \ D) (D ∪ definitions i)).trans ?_
      ext r
      rw [liveBefore_cons]
      simp only [Finset.mem_union, Finset.mem_sdiff, mem_before]
      tauto
  have h := hgen ∅ ∅
  rw [Finset.empty_union, Finset.sdiff_empty] at h
  exact h

theorem liveBefore_mono {l : List ι} {live live' : Finset ρ} (h : live ⊆ live') :
    liveBefore uses definitions l live ⊆ liveBefore uses definitions l live' := by
  induction l with
  | nil => exact h
  | cons i l ih =>
    intro r hr
    rw [liveBefore_cons, mem_before] at hr ⊢
    exact hr.imp_right fun h => ⟨h.1, ih h.2⟩

theorem peakBefore_fst (l : List ι) (live : Finset ρ) :
    (peakBefore uses definitions l live).1 = liveBefore uses definitions l live := by
  induction l with
  | nil => rfl
  | cons i l ih => exact congrArg (before uses definitions i) ih

/-- The peak is the size of the live set at some point, and no point has a larger one. -/
theorem peakBefore_snd (l : List ι) (live : Finset ρ) :
    IsGreatest {n | ∃ k ≤ l.length, (liveBefore uses definitions (l.drop k) live).card = n}
      (peakBefore uses definitions l live).2 := by
  induction l with
  | nil => exact ⟨⟨0, le_rfl, rfl⟩, by rintro _ ⟨k, _, rfl⟩; simp [peakBefore]⟩
  | cons i l ih =>
    obtain ⟨⟨k, hk, hpeak⟩, hmax⟩ := ih
    have hsnd : (peakBefore uses definitions (i :: l) live).2 =
        max (peakBefore uses definitions l live).2
          (liveBefore uses definitions (i :: l) live).card := by
      rw [liveBefore_cons, ← peakBefore_fst]
      rfl
    rw [hsnd]
    constructor
    · rcases max_choice (peakBefore uses definitions l live).2
        (liveBefore uses definitions (i :: l) live).card with h | h
      · exact ⟨k + 1, Nat.succ_le_succ hk, by rw [h, ← hpeak]; rfl⟩
      · exact ⟨0, Nat.zero_le _, h.symm⟩
    · rintro _ ⟨j, hj, rfl⟩
      cases j with
      | zero => exact le_max_right _ _
      | succ j => exact (hmax ⟨j, Nat.le_of_succ_le_succ hj, rfl⟩).trans (le_max_left _ _)

end

end FlowGraph
