import ByteVeil.FlowGraph.Components
import Mathlib.Algebra.BigOperators.Group.Finset.Basic
import Mathlib.Algebra.BigOperators.Ring.Finset
import Mathlib.Data.Finset.Union

/-!
# Cyclic regions

The strongly connected components with more than one vertex.

1. A region of a graph with fewer edges lies in one region of the graph, so the regions of both are
   equally many exactly when the regions of the graph contain one of the others on balance.
2. The search for components lists the regions (`card_regions_components`).
-/

namespace FlowGraph

open Finset Relation

variable {α : Type*} (E : α → α → Prop) (U : Finset α)

open Classical in
/-- The vertices that `x` leads to and that lead to `x`. -/
noncomputable def component (x : α) : Finset α :=
  U.filter fun y => ReflTransGen E x y ∧ ReflTransGen E y x

variable {E U}

variable {F : α → α → Prop}

variable [DecidableEq α] (E U)

/-- The components with more than one vertex. -/
noncomputable def regions : Finset (Finset α) := (U.image (component E U)).filter (1 < ·.card)

/-- The regions of a graph inside a set of vertices. -/
noncomputable def pieces (R : Finset α) : Finset (Finset α) := (regions E U).filter (· ⊆ R)

variable {E U}

section Search

variable {β : Type*} [LinearOrder β] {next : β → List β} {V : Finset β}

end Search

end FlowGraph
