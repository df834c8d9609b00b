import ByteVeil.FlowGraph.Path
import ByteVeil.FlowGraph.Search
import ByteVeil.FlowGraph.Descent
import ByteVeil.IR.Blocks

/-!
# Reachable blocks and dominators

`markReachable` and the iteration that lowers the dominator sets from all reachable blocks. The sets
at the end are exactly the dominators.
-/

namespace ByteVeil.IR.Function

open FlowGraph

variable (f : Function)

/-- The blocks marked by `markReachable(0)`. -/
def reachable : Finset ℕ :=
  mark f.successors (Finset.range f.blockCount) (f.blockCount + 1) ∅ 0

/-- The set `next` of one visit of a block. -/
def nextDominators (dominators : List (Finset ℕ)) (block : ℕ) : Finset ℕ :=
  let reached := (f.predecessors block).filter (· ∈ f.reachable)
  let next := meet f.reachable dominators reached
  if reached.isEmpty then next else insert block next

/-- The sets before the first round. -/
def initialDominators : List (Finset ℕ) :=
  (List.range f.blockCount).map fun block =>
    if block = 0 then {0} else if block ∈ f.reachable then f.reachable else ∅

/-- `dominators`; a round visits the blocks after the entry in order. -/
def dominators : List (Finset ℕ) :=
  settle (lower (· ∈ f.reachable) f.nextDominators) (List.range' 1 (f.blockCount - 1))
    (f.blockCount * f.blockCount + 1) f.initialDominators

/-- Every path from the entry to `b` visits `d`. -/
def Dominates (d b : ℕ) : Prop := ∀ l, Path f.Edge 0 l b → d ∈ l

variable {f}

theorem Graph.mem_reachable (hf : f.Graph) {b : ℕ} : b ∈ f.reachable ↔ f.Reachable b := by
  refine mem_mark (fun a _ b hb => ?_) (Finset.mem_range.2 hf.pos) (by simp)
  exact Finset.mem_range.2 (hf.successors_lt a b hb)

theorem dominates_iff {d b : ℕ} :
    f.Dominates d b ↔ OnEveryPath (fun x y => f.Edge y x) (· = 0) d b := by
  constructor
  · rintro h e l rfl hp
    simpa using h _ hp.reverse
  · intro h l hp
    simpa using h 0 _ rfl hp.reverse

theorem reachable_iff {b : ℕ} :
    f.Reachable b ↔ ReachesStop (fun x y => f.Edge y x) (· = 0) b := by
  constructor
  · exact fun h => ⟨0, rfl, Relation.reflTransGen_swap.2 h⟩
  · rintro ⟨_, rfl, h⟩
    exact reach_flip h

theorem Dominates.reachable {d b : ℕ} (h : f.Dominates d b) (hb : f.Reachable b) :
    f.Reachable d :=
  reachable_iff.2 ((dominates_iff.1 h).reachesStop (reachable_iff.1 hb))

theorem Graph.card_reachable_le (hf : f.Graph) : f.reachable.card ≤ f.blockCount := by
  have : f.reachable ⊆ Finset.range f.blockCount := fun b hb =>
    Finset.mem_range.2 (hf.reachable_lt (hf.mem_reachable.1 hb))
  simpa using Finset.card_le_card this

theorem getD_initialDominators (b : ℕ) : f.initialDominators.getD b ∅ =
    if b < f.blockCount then
      if b = 0 then {0} else if b ∈ f.reachable then f.reachable else ∅
    else ∅ := by
  unfold initialDominators
  by_cases hb : b < f.blockCount
  · rw [List.getD_eq_getElem _ _ (by simpa), if_pos hb]
    simp
  · rw [List.getD_eq_default _ _ (by simpa using hb), if_neg hb]

theorem nextDominators_mono {D D' : List (Finset ℕ)} {b : ℕ} (h : Below D D') :
    f.nextDominators D b ⊆ f.nextDominators D' b := by
  unfold nextDominators
  dsimp only
  split_ifs
  · exact meet_mono h
  · exact Finset.insert_subset_insert _ (meet_mono h)

theorem mem_nextDominators (hf : f.Graph) {D : List (Finset ℕ)} {b x : ℕ} (hb : b ∈ f.reachable) :
    x ∈ f.nextDominators D b ↔ x = b ∨ (x ∈ f.reachable ∧
      ∀ p ∈ f.reachable, f.Edge p b → x ∈ D.getD p ∅) := by
  have hmeet : x ∈ meet f.reachable D ((f.predecessors b).filter (· ∈ f.reachable)) ↔
      x ∈ f.reachable ∧ ∀ p ∈ f.reachable, f.Edge p b → x ∈ D.getD p ∅ := by
    rw [mem_meet]
    simp only [List.mem_filter, hf.mem_predecessors, decide_eq_true_eq]
    exact and_congr_right fun _ => ⟨fun h p hp he => h p ⟨he, hp⟩, fun h p hp => h p hp.2 hp.1⟩
  unfold nextDominators
  dsimp only
  split_ifs with hempty
  · rw [hmeet]
    refine ⟨Or.inr, ?_⟩
    rintro (rfl | h)
    · refine ⟨hb, fun p hp he => ?_⟩
      have : p ∈ (f.predecessors x).filter (· ∈ f.reachable) :=
        List.mem_filter.2 ⟨hf.mem_predecessors.2 he, by simpa using hp⟩
      rw [List.isEmpty_iff.1 hempty] at this
      exact absurd this List.not_mem_nil
    · exact h
  · rw [Finset.mem_insert, hmeet]

theorem Graph.mem_order (hf : f.Graph) {b : ℕ} :
    b ∈ List.range' 1 (f.blockCount - 1) ↔ b ≠ 0 ∧ b < f.blockCount := by
  have := hf.pos
  rw [List.mem_range'_1]
  omega

theorem Graph.dominators_descends (hf : f.Graph) :
    Descends (· ∈ f.reachable) f.nextDominators (List.range' 1 (f.blockCount - 1))
      f.initialDominators (f.blockCount * f.blockCount + 1) where
  mono _ _ _ h := nextDominators_mono h
  lt_length b hb _ := by simpa [initialDominators] using (hf.mem_order.1 hb).2
  init b hb hs x hx := by
    have hbr : b ∈ f.reachable := by simpa using hs
    rw [getD_initialDominators, if_pos (hf.mem_order.1 hb).2, if_neg (hf.mem_order.1 hb).1,
      if_pos hbr]
    rcases (mem_nextDominators hf hbr).1 hx with rfl | h
    · exact hbr
    · exact h.1
  size_lt := by
    refine Nat.lt_succ_of_le (size_map_range_le fun b _ => ?_)
    have := hf.card_reachable_le
    have := hf.pos
    split_ifs
    · simp only [Finset.card_singleton]; omega
    · omega
    · simp

/-- The dominator sets are what the iteration says at its end. -/
theorem Graph.dominators_fixed (hf : f.Graph) :
    (∀ b ∈ f.reachable, b ≠ 0 →
      f.nextDominators f.dominators b = f.dominators.getD b ∅) ∧
    (∀ b ∉ f.reachable, f.dominators.getD b ∅ = ∅) ∧ f.dominators.getD 0 ∅ = {0} := by
  obtain ⟨_, hfix, hframe⟩ := hf.dominators_descends.fixed
  refine ⟨fun b hb hb0 => ?_, fun b hb => ?_, ?_⟩
  · exact hfix b (hf.mem_order.2 ⟨hb0, hf.reachable_lt (hf.mem_reachable.1 hb)⟩) (by simpa using hb)
  · refine (hframe b fun h => hb (by simpa using h.2)).trans ?_
    rw [getD_initialDominators]
    split_ifs with _ h0
    · exact absurd (hf.mem_reachable.2 (h0 ▸ Relation.ReflTransGen.refl)) hb
    · rfl
    · rfl
  · refine (hframe 0 fun h => (hf.mem_order.1 h.1).1 rfl).trans ?_
    rw [getD_initialDominators, if_pos hf.pos, if_pos rfl]

/-- `dominators` holds exactly the dominators of every reachable block. -/
theorem Graph.mem_dominators (hf : f.Graph) {b d : ℕ} (hb : f.Reachable b) :
    d ∈ f.dominators.getD b ∅ ↔ f.Dominates d b := by
  obtain ⟨hfix, hout, h0⟩ := hf.dominators_fixed
  constructor
  · intro hd
    refine dominates_iff.2 (onEveryPath_of_mem (D := fun b => f.dominators.getD b ∅) ?_ ?_ hd)
    · rintro e rfl x hx
      rw [h0] at hx
      exact Finset.mem_singleton.1 hx
    · intro a c ha hac hc x hx
      by_cases har : a ∈ f.reachable
      · rw [← hfix a har ha, mem_nextDominators hf har] at hx
        exact hx.imp_right fun h => h.2 c (hf.mem_reachable.2 (reachable_iff.2 hc)) hac
      · rw [hout a har] at hx
        exact absurd hx (Finset.notMem_empty x)
  · intro hd
    refine settle_lower_above (T := fun b x => f.Reachable b ∧ f.Dominates x b) ?_ ?_ _ b d ⟨hb, hd⟩
    · rintro b x ⟨hb, hx⟩
      rw [getD_initialDominators, if_pos (hf.reachable_lt hb)]
      split_ifs with h0
      · subst h0
        simpa using hx [0] (.single 0)
      · exact hf.mem_reachable.2 (hx.reachable hb)
      · exact absurd (hf.mem_reachable.2 hb) ‹_›
    · rintro b _ hs D hD x ⟨hb, hx⟩
      rw [mem_nextDominators hf (hf.mem_reachable.2 hb)]
      by_cases hxb : x = b
      · exact Or.inl hxb
      · refine Or.inr ⟨hf.mem_reachable.2 (hx.reachable hb), fun p hp he => ?_⟩
        have hpr := hf.mem_reachable.1 hp
        exact hD p x ⟨hpr, dominates_iff.2 ((dominates_iff.1 hx).of_edge hxb he)⟩

end ByteVeil.IR.Function
