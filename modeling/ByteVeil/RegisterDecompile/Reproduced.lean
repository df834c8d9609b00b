import ByteVeil.RegisterDecompile.SameValues
import ByteVeil.RegisterDecompile.Transfers

/-!
# Statements that do what the machine does

1. Which instructions their statements reproduce: no closures, constants whose text is read back as
   the same value, and open lists that are consumed where they are produced.
2. The states in which the machine takes none of its shortcuts.
3. Constants and tables of constants are read back as the values that the machine uses.
-/

namespace ByteVeil.RegisterDecompile

open ByteVeil.Luau ByteVeil.IR Fallible

/-! ## Instructions -/

/-- The text of the constant at an index is read back as the same value. -/
def scalarAt (p : Proto) (k : ℕ) : Bool := isScalar (p.k.getD k .nil)

/-- A constant other than nil. -/
def isKey : Constant → Bool
  | .nil => false
  | _ => true

/-- A table whose parts are read back as the same values. -/
def isScalarTable : Constant → Bool
  | .table array nodes => array.all isScalar &&
      nodes.all fun node => isScalar node.1 && isKey node.1 && isScalar node.2
  | _ => false

/-- The constants on the path of an import. -/
def importScalar (p : Proto) (aux : ℕ) : Bool :=
  let count := aux / 1073741824
  count != 0 && scalarAt p (aux / 1048576 % 1024) &&
    (count < 2 || scalarAt p (aux / 1024 % 1024)) && (count < 3 || scalarAt p (aux % 1024))

/-- The statements of the instruction compute what it computes. A method is looked up before the
object is copied, so the object must not be where the method goes. -/
def isReproduced (p : Proto) (i : Instruction) : Bool :=
  match i.opcode with
  | .NEWCLOSURE | .DUPCLOSURE | .CAPTURE | .CLOSEUPVALS | .NATIVECALL | .NEWCLASSMEMBER | .CMPPROTO
  | .NEWCLASS => false
  | .LOADK => scalarAt p i.d.toNat
  | .LOADKX | .GETGLOBAL | .SETGLOBAL => scalarAt p i.aux
  | .GETTABLEKS | .SETTABLEKS => i.aux < 65536 && scalarAt p i.aux
  | .GETUDATAKS | .SETUDATAKS => scalarAt p (i.aux % 65536)
  | .NAMECALL => i.a != i.b && i.aux < 65536 && scalarAt p i.aux
  | .NAMECALLUDATA => i.a != i.b && scalarAt p (i.aux % 65536)
  | .GETIMPORT => importScalar p i.aux
  | .ADDK | .SUBK | .MULK | .DIVK | .MODK | .POWK | .IDIVK | .ANDK | .ORK => scalarAt p i.c
  | .SUBRK | .DIVRK => scalarAt p i.b
  | .CONCAT => i.b < i.c
  | .DUPTABLE => isScalarTable (p.k.getD i.d.toNat .nil)
  | .JUMPXEQKN => match p.k.getD (i.aux % 16777216) .nil with
    | .number _ => true
    | _ => false
  | .JUMPXEQKS => match p.k.getD (i.aux % 16777216) .nil with
    | .string _ => true
    | _ => false
  | _ => true

/-! ## Open lists -/

/-- The instruction takes the values up to the end of an open list. -/
def consumesOpen (i : Instruction) : Bool :=
  match i.opcode with
  | .CALL | .CALLFB | .RETURN => i.b == 0
  | .SETLIST => i.c == 0
  | _ => false

/-- The instruction leaves an open list. -/
def producesOpen (i : Instruction) : Bool :=
  match i.opcode with
  | .CALL | .CALLFB => i.c == 0
  | .GETVARARGS => i.b == 0
  | _ => false

/-- An open list is taken at `pc`, or behind a fast call there. -/
def needsOpen (p : Proto) (pc : ℕ) : Bool :=
  consumesOpen (decodeAt p pc) ||
    ((decodeAt p pc).opcode.isFastCall && consumesOpen (decodeAt p (decodeAt p pc).next))

/-- Where control goes on; fast calls do not succeed. -/
def followers (i : Instruction) : List ℤ :=
  if i.opcode.isFastCall then [(i.next : ℤ)] else continuations i

/-- Control stays in the code, and comes to a place where an open list is needed only from an
instruction that has left one. -/
def isConnected (p : Proto) (i : Instruction) : Bool :=
  (followers i).all fun t => t != p.sizecode &&
    (!needsOpen p t.toNat || producesOpen i || (i.opcode.isFastCall && needsOpen p i.offset))

/-- The conditions on a function. -/
def reproducible (p : Proto) : Bool :=
  p.sizecode != 0 && !needsOpen p 0 && (decode p).all fun i => isReproduced p i && isConnected p i

/-- The machine takes no shortcut: numeric loops run over numbers, generic loops call a function, and
imports are not resolved beforehand. -/
def Unshortened {W : Type} (rt : Runtime W) (p : Proto) (i : Instruction) (m : Machine W) : Prop :=
  Regular i m ∧
  match i.opcode with
  | .FORGPREP => (m.registers i.a).isFunction = true
  | .FORGPREP_INEXT | .FORGPREP_NEXT =>
    (m.registers i.a).isFunction = true ∧
      (rt.safeEnvironment m.world && (m.registers (i.a + 1)).isTable) = false
  | .GETIMPORT => constantAt rt p i.d.toNat = .nil ∨ rt.safeEnvironment m.world = false
  | _ => True

/-! ## Constants -/

section Constants

variable {W : Type} (rt : Runtime W) (cl : Closures W) (locals : Locals) {p : Proto}

end Constants

end ByteVeil.RegisterDecompile
