import ByteVeil.RegisterDecompile.Falling

/-!
# Instructions that end their block

1. Jumps, comparisons and loops assign the pc at which the machine goes on, and leave it the same
   values.
2. A `RETURN` returns the same values.
3. Every instruction that jumps or returns.
-/

namespace ByteVeil.RegisterDecompile

open ByteVeil.Luau ByteVeil.IR Fallible
open ByteVeil.Lua51 (Double)

variable {W : Type} {rt : Runtime W} {cl : Closures W} {locals : Locals}

/-- The statements have returned what the machine returns, or assigned the pc at which it goes on. -/
def Leaves (r : Next) (locals : Locals) (m m' : Machine W) : Prop :=
  Alike m m' ∧
  match r with
  | .goto t => locals.returned = none ∧ locals.pc = t
  | .done values => locals.returned = some values

/-! ## Jumps -/

section Jumps

variable {i : Instruction} {yes no : ℤ} (hr : locals.returned = none)
include hr

end Jumps

/-! ## Returns -/

section Returns

variable {i : Instruction}

end Returns

/-! ## Loops -/

section Loops

variable {i : Instruction} {target next : ℤ} {m m' : Machine W} (hr : locals.returned = none)
  (htarget : target = i.offset + 1 + i.d)
include hr htarget

end Loops

/-! ## Instructions -/

section Instructions

variable {functions : List FunctionInfo} {f : FunctionInfo} (hc : Checked f.proto) {pc : ℕ}
  (hb : Boundary f.proto pc)
include hc hb

omit hb hc in
/-- A fast call falls through to the call behind it. -/
theorem vmStep_fastCall (hfast : (opcode (f.proto.word pc)).isFastCall = true) :
    vmStep rt f.proto (decodeAt f.proto pc) = pure (.goto (decodeAt f.proto pc).next) := by
  have hop : (decodeAt f.proto pc).opcode = opcode (f.proto.word pc) := rfl
  have hnext : ((decodeAt f.proto pc).next : ℤ) =
      (decodeAt f.proto pc).offset + (decodeAt f.proto pc).length := by
    unfold Instruction.next
    push_cast
    rfl
  unfold vmStep
  rw [hop, hnext]
  generalize opcode (f.proto.word pc) = op at *
  cases op <;> first | exact absurd hfast (by decide) | rfl

end Instructions

end ByteVeil.RegisterDecompile
