import ByteVeil.FlowGraph.Components
import ByteVeil.IR.Dominators

/-!
# Strongly connected components

`strongConnect` over the reachable blocks. The components partition them by mutual reachability, and
no component has an edge into a later one.
-/

namespace ByteVeil.IR

open ByteVeil.Luau FlowGraph

namespace Function

variable (f : Function)

/-- The successors that `strongConnect` looks at. -/
def reachedSuccessors (block : ℕ) : List ℕ := (f.successors block).filter (· ∈ f.reachable)

/-- The blocks `strongConnect` may be called for from outside. -/
def reachedBlocks : List ℕ := (List.range f.blockCount).filter (· ∈ f.reachable)

/-- `f.stronglyConnectedComponents`; no call is nested deeper than there are blocks. -/
def stronglyConnectedComponents : List (List ℕ) :=
  (Search.connectAll f.reachedSuccessors f.blockCount f.reachedBlocks).components

variable {f}

theorem Graph.mem_reachedBlocks (hf : f.Graph) {b : ℕ} :
    b ∈ f.reachedBlocks ↔ f.Reachable b := by
  rw [reachedBlocks, List.mem_filter, List.mem_range, decide_eq_true_eq, hf.mem_reachable]
  exact and_iff_right_of_imp hf.reachable_lt

theorem Graph.mem_reachedSuccessors (hf : f.Graph) {a b : ℕ} (ha : f.Reachable a) :
    b ∈ f.reachedSuccessors a ↔ f.Edge a b := by
  rw [reachedSuccessors, List.mem_filter, decide_eq_true_eq, hf.mem_reachable]
  exact and_iff_left_of_imp fun h => ha.tail h

/-- From a reachable block the filtered edges lead where the edges lead. -/
theorem Graph.reach_iff (hf : f.Graph) {a b : ℕ} (ha : f.Reachable a) :
    Search.Reach f.reachedSuccessors a b ↔ Relation.ReflTransGen f.Edge a b := by
  constructor
  · intro h
    exact Relation.ReflTransGen.mono (fun x y hxy => (List.mem_filter.1 hxy).1) _ _ h
  · intro h
    induction h with
    | refl => exact .refl
    | tail hab he ih => exact ih.tail ((hf.mem_reachedSuccessors (ha.trans hab)).2 he)

/-- At the end the search is consistent, and it has entered the reachable blocks. -/
theorem Graph.connectAll_consistent (hf : f.Graph) :
    let s := Search.connectAll f.reachedSuccessors f.blockCount f.reachedBlocks
    Search.Consistent f.reachedSuccessors s ∅ ∧ ∀ b, (∃ c ∈ s.components, b ∈ c) ↔ f.Reachable b := by
  have hclosed : ∀ a ∈ f.reachable, ∀ b ∈ f.reachedSuccessors a, b ∈ f.reachable := by
    intro a _ b hb
    simpa using (List.mem_filter.1 hb).2
  have hstarts : ∀ b ∈ f.reachedBlocks, b ∈ f.reachable := fun b hb =>
    hf.mem_reachable.2 (hf.mem_reachedBlocks.1 hb)
  obtain ⟨hs, hin, hout⟩ :=
    Search.connectAll_consistent hclosed hf.card_reachable_le hstarts
  refine ⟨hs, fun b => ?_⟩
  rw [hs.listed, hs.stack_eq_nil]
  simp only [List.not_mem_nil, not_false_eq_true, and_true]
  constructor
  · intro hb
    obtain ⟨v, hv, hr⟩ := hout b hb
    have hv := hf.mem_reachedBlocks.1 hv
    exact hv.trans ((hf.reach_iff hv).1 hr)
  · intro hb
    exact hin b (hf.mem_reachedBlocks.2 hb)

end Function

/-- Of every function of the IR the components partition the reachable blocks, two reachable blocks are
in one component exactly if each can be reached from the other, and no component has an edge into a
later one. -/
theorem addFunction_components (p : Proto) (nextId : ℕ) (parentId : ℤ) (protoIndex : ℕ) :
    let f := (addFunction p nextId parentId protoIndex).1
    [] ∉ f.stronglyConnectedComponents ∧
    f.stronglyConnectedComponents.flatten.Nodup ∧
    (∀ b, b ∈ f.stronglyConnectedComponents.flatten ↔ f.Reachable b) ∧
    (∀ a b, f.Reachable a → f.Reachable b →
      ((∃ c ∈ f.stronglyConnectedComponents, a ∈ c ∧ b ∈ c) ↔
        Relation.ReflTransGen f.Edge a b ∧ Relation.ReflTransGen f.Edge b a)) ∧
    f.stronglyConnectedComponents.Pairwise fun c d => ∀ a ∈ c, ∀ b ∈ d, ¬ f.Edge a b := by
  intro f
  have hf : f.Graph := addFunction_graph p nextId parentId protoIndex
  obtain ⟨hs, hlisted⟩ := hf.connectAll_consistent
  refine ⟨fun h => hs.nonempty [] h rfl, hs.nodup_flatten, fun b => ?_, fun a b ha hb => ?_, ?_⟩
  · rw [List.mem_flatten]
    exact hlisted b
  · rw [← hf.reach_iff ha, ← hf.reach_iff hb]
    exact hs.same_component_iff ((hlisted a).2 ha)
  · refine hs.ordered.imp_of_mem fun {c d} hc _ hcd a ha b hb he => ?_
    have har : f.Reachable a := (hlisted a).1 ⟨c, hc, ha⟩
    exact (hcd a ha b hb).2 ((hf.mem_reachedSuccessors har).2 he)

end ByteVeil.IR
