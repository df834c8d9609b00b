import ByteVeil.Lua51.Proto
import Mathlib.Logic.Nontrivial.Defs

/-!
# Lua 5.1 values

Tables, functions, userdata and threads are objects with an identity. Numbers are compared by the
rules of floating-point numbers.
-/

namespace ByteVeil.Lua51

/-- A value. -/
inductive Value
  | nil
  | boolean (b : Bool)
  | number (d : Double)
  | string (bytes : List UInt8)
  | object (id : ℕ)
  deriving DecidableEq, Inhabited

/-- The value of a constant. -/
def Constant.value : Constant → Value
  | .nil => .nil
  | .boolean b => .boolean b
  | .number d => .number d
  | .string bytes => .string bytes

instance : Nontrivial Value := ⟨.nil, .object 0, by decide⟩

namespace Double

/-- The magnitude of the infinities; greater ones are no numbers. -/
def infinite : ℕ := 0x7ff0000000000000

/-- Not a number. -/
def isNan (d : Double) : Bool := decide (infinite < d.magnitude)

/-- A position on the number line. -/
def key (d : Double) : ℤ := if d.negative then -d.magnitude else d.magnitude

/-- `<` on numbers. -/
def lt (d e : Double) : Bool := !d.isNan && !e.isNan && decide (d.key < e.key)

/-- `<=` on numbers. -/
def le (d e : Double) : Bool := !d.isNan && !e.isNan && decide (d.key ≤ e.key)

/-- `==` on numbers. -/
def eq (d e : Double) : Bool := !d.isNan && !e.isNan && decide (d.key = e.key)

/-- The number zero. -/
def zero : Double := ⟨false, 0⟩

/-- Minus a number. -/
def neg (d : Double) : Double := ⟨!d.negative, d.magnitude⟩

end Double

/-- A number that is neither infinite nor undefined. -/
def Constant.finite : Constant → Bool
  | .number d => decide (d.magnitude < Double.infinite)
  | _ => true

/-- Everything except `nil` and `false` counts as true. -/
def Value.truthy : Value → Bool
  | .nil => false
  | .boolean b => b
  | _ => true

end ByteVeil.Lua51
