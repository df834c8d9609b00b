import ByteVeil.Lua51.Names
import ByteVeil.Naming.Fresh

/-!
# The texts of constants and registers

What is printed for a constant, for a register, and for a register that closures share. The printing
of numbers is a parameter.
-/

namespace ByteVeil.Lua51

open Naming

/-! ## Constants -/

/-- The digit of a number below ten. -/
def digit (n : ℕ) : Char := Char.ofNat (48 + n)

/-- A byte between quotation marks. -/
def quoteByte (b : UInt8) : List Char :=
  let escape := fun c => ['\\', c]
  match b.toNat with
  | 92 => escape '\\'
  | 34 => escape '"'
  | 7 => escape 'a'
  | 8 => escape 'b'
  | 12 => escape 'f'
  | 10 => escape 'n'
  | 13 => escape 'r'
  | 9 => escape 't'
  | 11 => escape 'v'
  | n =>
    if 32 ≤ n ∧ n ≤ 126 then [Char.ofNat n]
    else ['\\', digit (n / 100), digit (n / 10 % 10), digit (n % 10)]

/-- `luaQuote`. -/
def luaQuote (bytes : List UInt8) : List Char := '"' :: bytes.flatMap quoteByte ++ ['"']

/-- The text of a constant; `format` prints numbers. -/
def Constant.text (format : Double → List Char) : Constant → List Char
  | nil => ['n', 'i', 'l']
  | boolean true => ['t', 'r', 'u', 'e']
  | boolean false => ['f', 'a', 'l', 's', 'e']
  | number d => format d
  | string bytes => luaQuote bytes

/-! ## Registers -/

/-- `managedCapturedLocal`. -/
def managedCapturedLocal (p : Proto) (r : ℕ) : Bool := p.managedCapturedRegisters.getD r false

/-- The identifiers among the names of the debug table. -/
def debugNames (p : Proto) : List (List Char) :=
  (p.locals.filter fun entry => validIdentifier entry.name).map fun entry => characters entry.name

/-- `capturedCellName`. -/
def capturedCellName (p : Proto) (r : ℕ) : List Char :=
  avoid (debugNames p) '_'
    (byteveil (['u', 'p', 'c', 'e', 'l', 'l', '_', 'f'] ++ decimal p.id ++ ['_', 'r'] ++ decimal r))

/-- The content of a cell. -/
def content (cell : List Char) : List Char := cell ++ ['[', '1', ']']

/-- `renderedLocal`. -/
def renderedLocal (p : Proto) (r pc : ℕ) (context : RenderContext) : List Char :=
  if managedCapturedLocal p r then content (capturedCellName p r)
  else renderedRegisterName p r pc context

/-- The text of a rendered value. -/
def Rendered.text (format : Double → List Char) (p : Proto) (context : RenderContext) :
    Rendered → List Char
  | constant c => c.text format
  | register r pc => renderedLocal p r pc context

end ByteVeil.Lua51
