import ByteVeil.Lua51.DispatcherSteps

/-!
# The consumers of open results

A call, a return or a `SETLIST` whose operands end in open results is rendered with the chain that is
left to it. Its text does what the machine does for the chain and the consumer.

1. The text of a consumer.
2. The elements of a table.
3. Where the consumer and its text lead.
-/

namespace ByteVeil.Lua51

open Fallible

section Text

variable {p : Proto}

end Text

section Table

variable {W : Type} {host : Host W} {a : ℕ}

end Table

section Consumers

variable {W : Type} {host : Host W} {p : Proto} {n g : ℕ} {t : OpenText}

theorem run_results {α β : Type} {x : Exec W α} {a : α} {m n : Machine W} (h : x.run m = some (a, n))
    (f : α → Exec W β) : (x >>= f).run m = (f a).run n := by
  rw [StateT.run_bind, h]
  rfl

variable {block : PcBlock}

end Consumers

end ByteVeil.Lua51
