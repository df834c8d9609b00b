import ByteVeil.FlowGraph.Path
import Mathlib.Order.Interval.Set.Basic

/-!
# Regions with one entry and one exit

The vertices are linearly ordered and a region is an interval `[lo, hi)`. A region with a single
entry and a single exit only looks at the edges with one end inside. Whether the vertices before it,
the region and the vertices after it can be run one after another depends on the other edges: it is
exactly that no edge jumps over the region and none comes back from behind it.
-/

namespace FlowGraph

variable {α : Type*} [LinearOrder α] {E : α → α → Prop} {start lo hi : α}

/-- `t` is where the region is entered: from outside, or because the graph starts there. -/
def Enters (E : α → α → Prop) (start lo hi t : α) : Prop :=
  (lo ≤ t ∧ t < hi) ∧ (t = start ∨ ∃ s, E s t ∧ ¬(lo ≤ s ∧ s < hi))

/-- `t` is outside the region and an edge of the region leads there. -/
def Leaves (E : α → α → Prop) (lo hi t : α) : Prop :=
  ¬(lo ≤ t ∧ t < hi) ∧ ∃ s, E s t ∧ lo ≤ s ∧ s < hi

/-- The region is entered at `lo` only and left for `hi` only. -/
structure SingleEntryExit (E : α → α → Prop) (start lo hi : α) : Prop where
  enters : ∀ t, Enters E start lo hi t ↔ t = lo
  leaves : ∀ t, Leaves E lo hi t ↔ t = hi

namespace SingleEntryExit

theorem lo_lt_hi (h : SingleEntryExit E start lo hi) : lo < hi := ((h.enters lo).2 rfl).1.2

end SingleEntryExit

end FlowGraph
