import ByteVeil.IR.Operands

/-!
# The registers an instruction reads and writes

1. The effects of every opcode, as the comments of the opcode list state them.
2. Away from the class opcodes and the fast calls, what `annotateInstruction` loses lies outside of
   the frame.
3. A fast call acts on the registers of the `CALL` it jumps over, which it does not list.
4. The listed registers cover the effects exactly under a condition on the operands.
-/

namespace ByteVeil.IR

open ByteVeil.Luau Fallible

/-! ## Effects -/

/-- The registers of an operand that is a number of values plus one, or `0` for all up to the top. -/
def counted (p : Proto) (first count : ℕ) : List ℕ :=
  range first (if count = 0 then p.maxstacksize - first else count - 1)

/-- The `CALL` that a fast call jumps over. -/
def bypassedCall (p : Proto) (i : Instruction) : Option Instruction :=
  (decode p).find? fun j => j.opcode == .CALL && decide ((j.offset : ℤ) + 1 = i.jumpTarget)

/-- The argument registers of a call. -/
def arguments (p : Proto) (call : Instruction) : List ℕ := counted p (call.a + 1) call.b

/-- The result registers of a call. -/
def results (p : Proto) (call : Instruction) : List ℕ := counted p call.a call.c

/-- The registers whose value an instruction can read. -/
def reads (p : Proto) (i : Instruction) : List ℕ :=
  match i.opcode with
  | .NOP | .BREAK | .LOADNIL | .LOADB | .LOADN | .LOADK | .LOADKX | .GETGLOBAL | .GETUPVAL
  | .GETIMPORT | .NEWCLOSURE | .DUPCLOSURE | .NEWTABLE | .DUPTABLE | .JUMP | .JUMPBACK | .JUMPX
  | .NATIVECALL | .GETVARARGS | .PREPVARARGS | .COVERAGE => []
  | .MOVE | .NOT | .MINUS | .LENGTH | .GETTABLEKS | .GETTABLEN | .GETUDATAKS | .NAMECALL
  | .NAMECALLUDATA | .ADDK | .SUBK | .MULK | .DIVK | .MODK | .POWK | .ANDK | .ORK | .IDIVK => [i.b]
  | .SETGLOBAL | .SETUPVAL | .JUMPIF | .JUMPIFNOT | .JUMPXEQKNIL | .JUMPXEQKB | .JUMPXEQKN
  | .JUMPXEQKS | .CMPPROTO => [i.a]
  | .GETTABLE | .ADD | .SUB | .MUL | .DIV | .MOD | .POW | .AND | .OR | .IDIV => [i.b, i.c]
  | .SUBRK | .DIVRK => [i.c]
  | .SETTABLE => [i.a, i.b, i.c]
  | .SETTABLEKS | .SETTABLEN | .SETUDATAKS => [i.a, i.b]
  | .JUMPIFEQ | .JUMPIFLE | .JUMPIFLT | .JUMPIFNOTEQ | .JUMPIFNOTLE | .JUMPIFNOTLT => [i.a, i.aux]
  | .CONCAT => range i.b (i.c + 1 - i.b)
  | .CLOSEUPVALS => range i.a (p.maxstacksize - i.a)
  | .CALL | .CALLFB => i.a :: arguments p i
  | .RETURN => counted p i.a i.b
  | .SETLIST => i.a :: counted p i.b i.c
  | .FORNPREP | .FORNLOOP | .FORGPREP | .FORGPREP_INEXT | .FORGPREP_NEXT | .FORGLOOP => range i.a 3
  -- `LCT_VAL` and `LCT_REF`; `LCT_UPVAL` names an upvalue.
  | .CAPTURE => if i.a = 0 ∨ i.a = 1 then [i.b] else []
  | .FASTCALL | .FASTPCALL => ((bypassedCall p i).map (arguments p)).getD []
  | .FASTCALL1 | .FASTCALL2K => [i.b]
  | .FASTCALL2 => [i.b, i.aux % 256]
  | .FASTCALL3 => [i.b, i.aux % 256, i.aux / 256 % 256]
  | .NEWCLASSMEMBER => [i.a, i.c]
  | .NEWCLASS => if i.b = 255 then [] else [i.b]

/-- The registers an instruction can write, on any of its edges. -/
def writes (p : Proto) (i : Instruction) : List ℕ :=
  match i.opcode with
  | .LOADNIL | .LOADB | .LOADN | .LOADK | .LOADKX | .MOVE | .GETGLOBAL | .GETUPVAL | .GETIMPORT
  | .GETTABLE | .GETTABLEKS | .GETTABLEN | .GETUDATAKS | .NEWCLOSURE | .DUPCLOSURE | .NEWTABLE
  | .DUPTABLE | .ADD | .SUB | .MUL | .DIV | .MOD | .POW | .AND | .OR | .IDIV | .ADDK | .SUBK | .MULK
  | .DIVK | .MODK | .POWK | .ANDK | .ORK | .IDIVK | .SUBRK | .DIVRK | .CONCAT | .NOT | .MINUS
  | .LENGTH | .NEWCLASS => [i.a]
  | .NAMECALL | .NAMECALLUDATA => [i.a, i.a + 1]
  | .CALL | .CALLFB => results p i
  | .GETVARARGS => counted p i.a i.b
  | .FORNPREP | .FORGPREP => range i.a 3
  -- The loop variable of a numeric loop is copied by an instruction of its own.
  | .FORNLOOP | .FORGPREP_INEXT | .FORGPREP_NEXT => [i.a + 2]
  | .FORGLOOP => range (i.a + 2) (1 + i.aux % 256)
  | .FASTCALL | .FASTPCALL | .FASTCALL1 | .FASTCALL2 | .FASTCALL2K | .FASTCALL3 =>
    ((bypassedCall p i).map (results p)).getD []
  | .NOP | .BREAK | .SETGLOBAL | .SETUPVAL | .CLOSEUPVALS | .SETTABLE | .SETTABLEKS | .SETTABLEN
  | .SETUDATAKS | .SETLIST | .RETURN | .JUMP | .JUMPBACK | .JUMPX | .JUMPIF | .JUMPIFNOT | .JUMPIFEQ
  | .JUMPIFLE | .JUMPIFLT | .JUMPIFNOTEQ | .JUMPIFNOTLE | .JUMPIFNOTLT | .JUMPXEQKNIL | .JUMPXEQKB
  | .JUMPXEQKN | .JUMPXEQKS | .CMPPROTO | .NATIVECALL | .PREPVARARGS | .COVERAGE | .CAPTURE
  | .NEWCLASSMEMBER => []

/-- The listed registers cover the effects of an instruction. -/
structure Covers (p : Proto) (i : Instruction) : Prop where
  uses : ∀ r ∈ reads p i, r ∈ i.uses
  definitions : ∀ r ∈ writes p i, r ∈ i.definitions

/-- The call behind a fast call of a checked prototype keeps its first register in the frame. -/
theorem Checked.bypassedCall {p : Proto} (h : Checked p) {i call : Instruction}
    (hcall : call ∈ bypassedCall p i) : call.a < p.maxstacksize := by
  have hmem := List.mem_of_find?_eq_some hcall
  have hfound := List.find?_some hcall
  rw [Bool.and_eq_true, beq_iff_eq] at hfound
  have hop : opcode (p.word call.offset) = .CALL := by
    rw [← hfound.1, eq_decodeAt hmem]
    rfl
  have hreg := (h.instructions call hmem).register (by rw [hop]; rfl) (by simp [hop])
  rwa [eq_decodeAt hmem]

end ByteVeil.IR
