import Mathlib.Algebra.Group.Int.Defs
import Mathlib.Algebra.Group.Nat.Defs
import Mathlib.Data.Nat.Basic
import Mathlib.Data.Int.Basic
import Mathlib.Tactic.Common

/-!
# Luau instruction words

The opcode enumeration and the operand fields of an instruction word, with the opcode classes of
`BytecodeUtils.h`. A word is a 32-bit number; fields are read off as naturals, the signed ones
(`D`, `E`) and the jump target as integers.
-/

namespace ByteVeil.Luau

/-- The opcodes, in the order of the `LuauOpcode` enumeration. -/
inductive Opcode
  | NOP | BREAK | LOADNIL | LOADB | LOADN | LOADK | MOVE | GETGLOBAL | SETGLOBAL | GETUPVAL
  | SETUPVAL | CLOSEUPVALS | GETIMPORT | GETTABLE | SETTABLE | GETTABLEKS | SETTABLEKS | GETTABLEN
  | SETTABLEN | NEWCLOSURE | NAMECALL | CALL | RETURN | JUMP | JUMPBACK | JUMPIF | JUMPIFNOT
  | JUMPIFEQ | JUMPIFLE | JUMPIFLT | JUMPIFNOTEQ | JUMPIFNOTLE | JUMPIFNOTLT | ADD | SUB | MUL
  | DIV | MOD | POW | ADDK | SUBK | MULK | DIVK | MODK | POWK | AND | OR | ANDK | ORK | CONCAT
  | NOT | MINUS | LENGTH | NEWTABLE | DUPTABLE | SETLIST | FORNPREP | FORNLOOP | FORGLOOP
  | FORGPREP_INEXT | FASTCALL3 | FORGPREP_NEXT | NATIVECALL | GETVARARGS | DUPCLOSURE
  | PREPVARARGS | LOADKX | JUMPX | FASTCALL | COVERAGE | CAPTURE | SUBRK | DIVRK | FASTCALL1
  | FASTCALL2 | FASTCALL2K | FORGPREP | JUMPXEQKNIL | JUMPXEQKB | JUMPXEQKN | JUMPXEQKS | IDIV
  | IDIVK | GETUDATAKS | SETUDATAKS | NAMECALLUDATA | NEWCLASSMEMBER | CALLFB | CMPPROTO
  | FASTPCALL | NEWCLASS
  deriving DecidableEq, Repr, Inhabited

namespace Opcode

/-- The opcodes by their code; the length of the list is `LOP__COUNT`. -/
def all : List Opcode :=
  [NOP, BREAK, LOADNIL, LOADB, LOADN, LOADK, MOVE, GETGLOBAL, SETGLOBAL, GETUPVAL,
   SETUPVAL, CLOSEUPVALS, GETIMPORT, GETTABLE, SETTABLE, GETTABLEKS, SETTABLEKS, GETTABLEN,
   SETTABLEN, NEWCLOSURE, NAMECALL, CALL, RETURN, JUMP, JUMPBACK, JUMPIF, JUMPIFNOT,
   JUMPIFEQ, JUMPIFLE, JUMPIFLT, JUMPIFNOTEQ, JUMPIFNOTLE, JUMPIFNOTLT, ADD, SUB, MUL,
   DIV, MOD, POW, ADDK, SUBK, MULK, DIVK, MODK, POWK, AND, OR, ANDK, ORK, CONCAT,
   NOT, MINUS, LENGTH, NEWTABLE, DUPTABLE, SETLIST, FORNPREP, FORNLOOP, FORGLOOP,
   FORGPREP_INEXT, FASTCALL3, FORGPREP_NEXT, NATIVECALL, GETVARARGS, DUPCLOSURE,
   PREPVARARGS, LOADKX, JUMPX, FASTCALL, COVERAGE, CAPTURE, SUBRK, DIVRK, FASTCALL1,
   FASTCALL2, FASTCALL2K, FORGPREP, JUMPXEQKNIL, JUMPXEQKB, JUMPXEQKN, JUMPXEQKS, IDIV,
   IDIVK, GETUDATAKS, SETUDATAKS, NAMECALLUDATA, NEWCLASSMEMBER, CALLFB, CMPPROTO,
   FASTPCALL, NEWCLASS]

/-- The opcode of a code below `LOP__COUNT`. -/
def ofNat? (n : ℕ) : Option Opcode := all[n]?

/-- The code of an opcode. -/
def toNat (op : Opcode) : ℕ := op.ctorIdx

theorem ofNat?_toNat (op : Opcode) : ofNat? op.toNat = some op := by
  cases op <;> rfl

/-- `Luau::getOpLength`: two words when an AUX word follows. -/
def getOpLength : Opcode → ℕ
  | GETGLOBAL | SETGLOBAL | GETIMPORT | GETTABLEKS | SETTABLEKS | NAMECALL | JUMPIFEQ | JUMPIFLE
  | JUMPIFLT | JUMPIFNOTEQ | JUMPIFNOTLE | JUMPIFNOTLT | NEWTABLE | SETLIST | FORGLOOP | LOADKX
  | FASTCALL2 | FASTCALL2K | FASTCALL3 | JUMPXEQKNIL | JUMPXEQKB | JUMPXEQKN | JUMPXEQKS
  | GETUDATAKS | SETUDATAKS | NAMECALLUDATA | NEWCLASSMEMBER | CALLFB | CMPPROTO | NEWCLASS => 2
  | _ => 1

theorem getOpLength_pos (op : Opcode) : 0 < op.getOpLength := by
  cases op <;> decide

theorem getOpLength_eq_one_or_two (op : Opcode) : op.getOpLength = 1 ∨ op.getOpLength = 2 := by
  cases op <;> decide

/-- `Luau::isFastCall`. -/
def isFastCall : Opcode → Bool
  | FASTCALL | FASTCALL1 | FASTCALL2 | FASTCALL2K | FASTCALL3 | FASTPCALL => true
  | _ => false

/-- `Luau::isJumpD`. -/
def isJumpD : Opcode → Bool
  | JUMP | JUMPIF | JUMPIFNOT | JUMPIFEQ | JUMPIFLE | JUMPIFLT | JUMPIFNOTEQ | JUMPIFNOTLE
  | JUMPIFNOTLT | FORNPREP | FORNLOOP | FORGPREP | FORGLOOP | FORGPREP_INEXT | FORGPREP_NEXT
  | JUMPBACK | JUMPXEQKNIL | JUMPXEQKB | JUMPXEQKN | JUMPXEQKS | CMPPROTO => true
  | _ => false

/-- `Luau::isSkipC`. -/
def isSkipC : Opcode → Bool
  | LOADB => true
  | _ => false

end Opcode

/-! ## Operand fields -/

/-- `LUAU_INSN_OP`. -/
def insnOp (insn : UInt32) : ℕ := insn.toNat % 256

/-- `LUAU_INSN_A`. -/
def insnA (insn : UInt32) : ℕ := insn.toNat / 256 % 256

/-- `LUAU_INSN_B`. -/
def insnB (insn : UInt32) : ℕ := insn.toNat / 65536 % 256

/-- `LUAU_INSN_C`. -/
def insnC (insn : UInt32) : ℕ := insn.toNat / 16777216 % 256

/-- The two's complement reading of an `bits`-bit field. -/
def signed (bits n : ℕ) : ℤ := if n < 2 ^ (bits - 1) then n else (n : ℤ) - 2 ^ bits

/-- `LUAU_INSN_D`: the signed upper half word. -/
def insnD (insn : UInt32) : ℤ := signed 16 (insn.toNat / 65536)

/-- `LUAU_INSN_E`: the signed upper 24 bits. -/
def insnE (insn : UInt32) : ℤ := signed 24 (insn.toNat / 256)

/-- `LuauOpcode(LUAU_INSN_OP(insn))`. A code outside the enumeration has length one and never jumps,
as `NOP` does, and `NOP` stands for it here; `validateOne` rejects it. -/
def opcode (insn : UInt32) : Opcode := (Opcode.ofNat? (insnOp insn)).getD .NOP

/-- `Luau::getJumpTarget`: `-1` when the instruction does not jump. -/
def getJumpTarget (insn : UInt32) (pc : ℕ) : ℤ :=
  let op := opcode insn
  if op.isJumpD then pc + insnD insn + 1
  else if op.isFastCall then pc + insnC insn + 2
  else if op.isSkipC && insnC insn != 0 then pc + insnC insn + 1
  else if op = .JUMPX then pc + insnE insn + 1
  else -1

theorem insnA_lt (insn : UInt32) : insnA insn < 256 := Nat.mod_lt _ (by decide)

theorem insnB_lt (insn : UInt32) : insnB insn < 256 := Nat.mod_lt _ (by decide)

theorem insnC_lt (insn : UInt32) : insnC insn < 256 := Nat.mod_lt _ (by decide)

end ByteVeil.Luau
