import ByteVeil.IR.Instruction

/-!
# Structural validation of prototypes

`validateProto`: the walk over the instruction words, the operand checks of each opcode, the check
that jumps land on instruction boundaries, and the recursion over the child prototypes. Errors carry
the source's texts.
-/

namespace ByteVeil.IR

open ByteVeil.Luau

/-- An error located in a function. -/
def errorIn (functionId : ℕ) (message : String) : Except String Unit :=
  throw ("function " ++ toString functionId ++ ": " ++ message)

/-- An error located at an instruction. -/
def errorAt (functionId pc : ℕ) (message : String) : Except String Unit :=
  throw ("function " ++ toString functionId ++ " offset " ++ toString pc ++ ": " ++ message)

/-- Reject with `error` when `bad` holds. -/
def check (bad : Bool) (error : Except String Unit) : Except String Unit :=
  if bad then error else pure ()

@[simp] theorem check_eq_ok {bad : Bool} {error : Except String Unit} {u : Unit}
    (he : error ≠ .ok u) : check bad error = .ok u ↔ bad = false := by
  unfold check
  cases bad <;> simp_all [pure, Except.pure]

def isDirectConstant (op : Opcode) : Bool :=
  op == .LOADK || op == .DUPCLOSURE || op == .DUPTABLE || op == .GETIMPORT

def isCConstant (op : Opcode) : Bool :=
  op == .ADDK || op == .SUBK || op == .MULK || op == .DIVK || op == .MODK || op == .POWK ||
    op == .ANDK || op == .ORK || op == .IDIVK

def isBConstant (op : Opcode) : Bool := op == .SUBRK || op == .DIVRK

def isAuxConstant (op : Opcode) : Bool :=
  op == .GETGLOBAL || op == .SETGLOBAL || op == .GETTABLEKS || op == .SETTABLEKS ||
    op == .NAMECALL || op == .LOADKX || op == .FASTCALL2K || op == .NEWCLASSMEMBER || op == .NEWCLASS

def isLow16Constant (op : Opcode) : Bool :=
  op == .GETUDATAKS || op == .SETUDATAKS || op == .NAMECALLUDATA

def isLow24Constant (op : Opcode) : Bool := op == .JUMPXEQKN || op == .JUMPXEQKS

/-- The auxiliary word as a constant index. -/
def auxIndex (op : Opcode) (aux : ℕ) : ℕ :=
  if isLow16Constant op then aux % 65536 else if isLow24Constant op then aux % 16777216 else aux

/-- The operand switch of `validateOne`. -/
def checkOperands (p : Proto) (functionId pc : ℕ) (op : Opcode) : Except String Unit :=
  let raw := p.word pc
  let aux := (p.word (pc + 1)).toNat
  let a := insnA raw
  let checkReg (reg : ℕ) (field : String) : Except String Unit :=
    check (p.maxstacksize ≤ reg)
      (errorAt functionId pc ("register " ++ field ++ " out of range"))
  match op with
  | .MOVE | .GETTABLE | .SETTABLE | .ADD | .SUB | .MUL | .DIV | .MOD | .POW | .AND | .OR | .CONCAT
  | .IDIV => do
    checkReg (insnB raw) "B"
    checkReg (insnC raw) "C"
  | .GETTABLEKS | .SETTABLEKS | .GETTABLEN | .SETTABLEN | .GETUDATAKS | .SETUDATAKS | .NOT | .MINUS
  | .LENGTH | .IDIVK => checkReg (insnB raw) "B"
  | .SUBRK | .DIVRK => checkReg (insnC raw) "C"
  | .JUMPIFEQ | .JUMPIFLE | .JUMPIFLT | .JUMPIFNOTEQ | .JUMPIFNOTLE | .JUMPIFNOTLT =>
    checkReg aux "AUX"
  | .FASTCALL1 | .FASTCALL2K => checkReg (insnB raw) "B"
  | .FASTCALL2 => do
    checkReg (insnB raw) "B"
    checkReg (aux % 256) "AUX"
  | .FASTCALL3 => do
    checkReg (insnB raw) "B"
    checkReg (aux % 256) "AUX1"
    checkReg (aux / 256 % 256) "AUX2"
  | .NAMECALL | .NAMECALLUDATA =>
    check (p.maxstacksize ≤ insnB raw || p.maxstacksize ≤ a + 1)
      (errorAt functionId pc "NAMECALL result range out of range")
  | .FORNPREP | .FORNLOOP =>
    check (p.maxstacksize ≤ a + 2)
      (errorAt functionId pc "numeric-for register range out of range")
  | .FORGPREP | .FORGPREP_INEXT | .FORGPREP_NEXT =>
    check (p.maxstacksize ≤ a + 2)
      (errorAt functionId pc "generic-for register range out of range")
  | .NEWCLASSMEMBER => checkReg (insnC raw) "C"
  | .NEWCLASS => if insnB raw = 255 then pure () else checkReg (insnB raw) "B"
  | .FORGLOOP =>
    let count := aux % 256
    check (count == 0 || p.maxstacksize ≤ a + 2 + count)
      (errorAt functionId pc ("generic-for result range out of range (A=" ++ toString a ++
        ", count=" ++ toString count ++ ", max=" ++ toString p.maxstacksize ++ ")"))
  | _ => pure ()

/-- The checks `validateOne` makes at the instruction at `pc`, in their order. -/
def checkInstruction (p : Proto) (functionId pc : ℕ) : Except String Unit := do
  let raw := p.word pc
  let some op := Opcode.ofNat? (insnOp raw)
    | errorAt functionId pc ("unknown opcode " ++ toString (insnOp raw))
  check (p.sizecode < pc + op.getOpLength) (errorAt functionId pc "missing AUX instruction")
  let zeroValueReturn := op == .RETURN && insnB raw == 1
  check (hasRegisterA op && !zeroValueReturn && p.maxstacksize ≤ insnA raw)
    (errorAt functionId pc ("register A out of range (" ++ toString (insnA raw) ++ " >= " ++
      toString p.maxstacksize ++ ", opcode " ++ toString op.toNat ++ ")"))
  check ((isDirectConstant op && (insnD raw < 0 || (p.sizek : ℤ) ≤ insnD raw)) ||
      (isCConstant op && p.sizek ≤ insnC raw) || (isBConstant op && p.sizek ≤ insnB raw))
    (errorAt functionId pc "constant index out of range")
  check ((isAuxConstant op || isLow16Constant op || isLow24Constant op) &&
      p.sizek ≤ auxIndex op (p.word (pc + 1)).toNat)
    (errorAt functionId pc "auxiliary constant index out of range")
  check (op == .NEWCLOSURE && (p.sizep : ℤ) ≤ insnD raw)
    (errorAt functionId pc "prototype index out of range")
  let target := getJumpTarget raw pc
  let optionalSkip := op == .LOADB && insnC raw == 0
  check (isJump op && !optionalSkip && (target < 0 || (p.sizecode : ℤ) ≤ target))
    (errorAt functionId pc "jump target out of range")
  -- `LCT_UPVAL` is 2.
  check (op == .CAPTURE && p.maxstacksize ≤ insnB raw && insnA raw != 2)
    (errorAt functionId pc "capture register out of range")
  checkOperands p functionId pc op

/-- The jump recorded for the boundary check. -/
def recordedJump (p : Proto) (pc : ℕ) : List (ℕ × ℤ) :=
  let raw := p.word pc
  let op := opcode raw
  if isJump op && !(op == .LOADB && insnC raw == 0) then [(pc, getJumpTarget raw pc)] else []

/-- What the decoding loop of `validateOne` accumulates. -/
structure Walk where
  boundaries : List ℕ := []
  jumpTargets : List (ℕ × ℤ) := []
  total : ℕ

/-- The decoding loop of `validateOne` from `pc` on. -/
def walkFrom (p : Proto) (functionId maxInstructions : ℕ) : ℕ → ℕ → Walk → Except String Walk
  | 0, _, w => pure w
  | fuel + 1, pc, w =>
    if pc < p.sizecode then do
      let total := w.total + 1
      if maxInstructions < total then throw "instruction limit exceeded"
      checkInstruction p functionId pc
      walkFrom p functionId maxInstructions fuel (pc + (opcode (p.word pc)).getOpLength)
        ⟨w.boundaries ++ [pc], w.jumpTargets ++ recordedJump p pc, total⟩
    else pure w

/-- `validateOne` with `levels` further nesting levels allowed; returns the running instruction
total. -/
def validateOne (maxInstructions : ℕ) : ℕ → Proto → ℕ → ℕ → Except String ℕ
  | 0, _, _, functionId =>
    throw ("function " ++ toString functionId ++ ": prototype nesting exceeds limit")
  | levels + 1, p, total, functionId => do
    check (maxInstructions < p.sizecode || 100000 < p.sizep || 1000000 < p.sizek)
      (errorIn functionId "prototype size exceeds safe limits")
    check (p.maxstacksize < p.numparams)
      (errorIn functionId "invalid register or parameter metadata")
    let w ← walkFrom p functionId maxInstructions p.sizecode 0 { total := total }
    for edge in w.jumpTargets do
      check (!(w.boundaries.any fun b => (b : ℤ) == edge.2))
        (errorAt functionId edge.1 "jump target is not an instruction boundary")
    (p.p.zipIdx).foldlM (fun total child =>
      validateOne maxInstructions levels child.1 total (functionId + child.2 + 1)) w.total

/-- `validateProto` with its default limits. -/
def validateProto (root : Proto) : Except String Unit := do
  let _ ← validateOne 1000000 129 root 0 0

end ByteVeil.IR
