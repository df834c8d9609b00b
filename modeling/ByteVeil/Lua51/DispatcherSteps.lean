import ByteVeil.Lua51.DispatcherProgram

/-!
# The text of one instruction

What the machine does for the instructions of a group, a consumer with everything that is left to it,
and what the text of the group does.

1. Instructions that are rendered on their own, and the jumps.
2. A call with the `SELF` before it.
3. The consumers of open results.
-/

namespace ByteVeil.Lua51

open Fallible

section Steps

variable {W : Type} {host : Host W} {p : Proto} {block : PcBlock}

end Steps

end ByteVeil.Lua51
