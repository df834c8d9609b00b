import ByteVeil.Luau.Proto

/-!
# Instructions of the neutral IR

The decoded instruction record and `annotateInstruction`: the constant index, the registers an
instruction uses and the registers it defines, filtered to the frame and without repetition.
-/

namespace ByteVeil.IR

open ByteVeil.Luau

/-- A decoded instruction. -/
structure Instruction where
  offset : ℕ
  opcode : Opcode
  length : ℕ
  a : ℕ
  b : ℕ
  c : ℕ
  d : ℤ
  e : ℤ
  aux : ℕ
  hasAux : Bool
  jumpTarget : ℤ
  constantIndex : ℤ := -1
  uses : List ℕ := []
  definitions : List ℕ := []
  hasSideEffects : Bool := false
  isPure : Bool := false
  deriving Inhabited

/-- `isJump`. -/
def isJump (op : Opcode) : Bool :=
  op.isJumpD || op.isFastCall || op.isSkipC || op == .JUMPX

/-- `isConditional`: the opcodes that may also fall through. -/
def isConditional : Opcode → Bool
  | .JUMPIF | .JUMPIFNOT | .JUMPIFEQ | .JUMPIFLE | .JUMPIFLT | .JUMPIFNOTEQ | .JUMPIFNOTLE
  | .JUMPIFNOTLT | .JUMPXEQKNIL | .JUMPXEQKB | .JUMPXEQKN | .JUMPXEQKS | .CMPPROTO | .FORNPREP
  | .FORNLOOP | .FORGLOOP | .FASTCALL | .FASTCALL1 | .FASTCALL2 | .FASTCALL2K | .FASTCALL3
  | .FASTPCALL | .LOADB => true
  | _ => false

/-- `isReturn`. -/
def isReturn (op : Opcode) : Bool := op == .RETURN

/-- `hasRegisterA`. -/
def hasRegisterA : Opcode → Bool
  | .NOP | .BREAK | .JUMP | .JUMPBACK | .JUMPX | .FASTCALL | .FASTCALL1 | .FASTCALL2 | .FASTCALL2K
  | .FASTCALL3 | .FASTPCALL | .NATIVECALL | .COVERAGE | .CAPTURE | .PREPVARARGS => false
  | _ => true

/-- The value of a 32-bit word read as a signed `int`. -/
def asInt (n : ℕ) : ℤ := signed 32 n

/-- The constant index of an instruction, `-1` when it names no constant. -/
def constantIndexOf (i : Instruction) : ℤ :=
  match i.opcode with
  | .LOADK | .DUPCLOSURE | .DUPTABLE | .GETIMPORT => i.d
  | .GETGLOBAL | .SETGLOBAL | .GETTABLEKS | .SETTABLEKS | .NAMECALL | .LOADKX | .FASTCALL2K
  | .NEWCLASSMEMBER | .NEWCLASS => asInt i.aux
  | .GETUDATAKS | .SETUDATAKS | .NAMECALLUDATA => (i.aux % 65536 : ℕ)
  | .JUMPXEQKN | .JUMPXEQKS => (i.aux % 16777216 : ℕ)
  | .ADDK | .SUBK | .MULK | .DIVK | .MODK | .POWK | .ANDK | .ORK | .IDIVK => i.c
  | .SUBRK | .DIVRK => i.b
  | _ => -1

/-- The `count` registers from `first` on. -/
def range (first count : ℕ) : List ℕ := (List.range count).map (first + ·)

/-- The registers `annotateInstruction` hands to `addUse`, in order. -/
def useOperands (i : Instruction) (registerCount : ℕ) : List ℕ :=
  match i.opcode with
  | .MOVE => [i.b]
  | .GETTABLE => [i.b, i.c]
  | .SETTABLE => [i.a, i.b, i.c]
  | .ADD | .SUB | .MUL | .DIV | .MOD | .POW | .AND | .OR | .IDIV => [i.b, i.c]
  | .SUBRK | .DIVRK => [i.c]
  | .CONCAT => if i.b ≤ i.c then range i.b (i.c - i.b + 1) else []
  | .GETTABLEKS | .GETTABLEN | .GETUDATAKS => [i.b]
  | .SETTABLEKS | .SETTABLEN | .SETUDATAKS => [i.a, i.b]
  | .NOT | .MINUS | .LENGTH => [i.b]
  | .ADDK | .SUBK | .MULK | .DIVK | .MODK | .POWK | .ANDK | .ORK | .IDIVK => [i.b]
  | .NAMECALL | .NAMECALLUDATA => [i.b]
  | .CALL | .CALLFB => range i.a (if i.b = 0 then registerCount - i.a else i.b)
  | .RETURN => range i.a (if i.b = 0 then registerCount - i.a else i.b - 1)
  | .JUMPIF | .JUMPIFNOT | .JUMPXEQKNIL | .JUMPXEQKB | .JUMPXEQKN | .JUMPXEQKS | .CMPPROTO => [i.a]
  | .JUMPIFEQ | .JUMPIFLE | .JUMPIFLT | .JUMPIFNOTEQ | .JUMPIFNOTLE | .JUMPIFNOTLT => [i.a, i.aux]
  | .FORNPREP | .FORNLOOP | .FORGPREP | .FORGPREP_INEXT | .FORGPREP_NEXT | .FORGLOOP => range i.a 3
  | .SETGLOBAL | .SETUPVAL => [i.a]
  | .CLOSEUPVALS => range i.a (registerCount - i.a)
  | .SETLIST => i.a :: range i.b (if i.c = 0 then registerCount - i.b else i.c - 1)
  -- `LCT_VAL` is 0 and `LCT_REF` is 1; an upvalue capture reads no register.
  | .CAPTURE => if i.a = 0 ∨ i.a = 1 then [i.b] else []
  | .FASTCALL1 | .FASTCALL2K => [i.b]
  | .FASTCALL2 => [i.b, i.aux % 256]
  | .FASTCALL3 => [i.b, i.aux % 256, i.aux / 256 % 256]
  | _ => []

/-- The registers `annotateInstruction` hands to `addDef`, in order. -/
def definitionOperands (i : Instruction) (registerCount : ℕ) : List ℕ :=
  match i.opcode with
  | .MOVE | .GETTABLE | .ADD | .SUB | .MUL | .DIV | .MOD | .POW | .AND | .OR | .IDIV | .SUBRK
  | .DIVRK | .CONCAT | .GETTABLEKS | .GETTABLEN | .GETUDATAKS | .NOT | .MINUS | .LENGTH | .ADDK
  | .SUBK | .MULK | .DIVK | .MODK | .POWK | .ANDK | .ORK | .IDIVK => [i.a]
  | .NAMECALL | .NAMECALLUDATA => [i.a, i.a + 1]
  | .CALL | .CALLFB =>
    if i.c = 0 then range i.a (registerCount - i.a)
    else if 1 < i.c then range i.a (i.c - 1)
    else []
  | .FORNPREP | .FORGPREP => range i.a 3
  | .FORNLOOP | .FORGPREP_INEXT | .FORGPREP_NEXT => [i.a + 2]
  | .FORGLOOP => (i.a + 2) :: range (i.a + 3) (max 1 (i.aux % 256))
  | .GETVARARGS => range i.a (if i.b = 0 then registerCount - i.a else i.b - 1)
  | .GETGLOBAL | .GETIMPORT | .GETUPVAL | .LOADNIL | .LOADB | .LOADN | .LOADK | .LOADKX | .NEWTABLE
  | .DUPTABLE | .NEWCLOSURE | .DUPCLOSURE => [i.a]
  | _ => []

/-- `addUse`, `addDef`: registers outside the frame and repeated ones are dropped. -/
def addRegister (registerCount : ℕ) (l : List ℕ) (r : ℕ) : List ℕ :=
  if r < registerCount ∧ r ∉ l then l ++ [r] else l

/-- The opcodes without a case of their own in `annotateInstruction`. -/
def isUnannotated : Opcode → Bool
  | .FASTPCALL | .NATIVECALL | .NEWCLASSMEMBER | .NEWCLASS => true
  | _ => false

/-- The opcodes whose effect reaches beyond the registers. -/
def writesBeyondRegisters (op : Opcode) : Bool :=
  match op with
  | .CALL | .CALLFB | .NAMECALL | .NAMECALLUDATA | .RETURN | .SETGLOBAL | .SETUPVAL | .SETTABLE
  | .SETTABLEKS | .SETTABLEN | .SETLIST | .SETUDATAKS | .CLOSEUPVALS => true
  | _ => isJump op

/-- `annotateInstruction`. -/
def annotateInstruction (i : Instruction) (registerCount : ℕ) : Instruction :=
  let hasSideEffects := isUnannotated i.opcode || writesBeyondRegisters i.opcode
  { i with
    constantIndex := constantIndexOf i
    uses := (useOperands i registerCount).foldl (addRegister registerCount) []
    definitions := (definitionOperands i registerCount).foldl (addRegister registerCount) []
    hasSideEffects := hasSideEffects
    isPure := !hasSideEffects && i.opcode != .GETTABLE && i.opcode != .GETTABLEKS &&
      i.opcode != .GETUDATAKS }

/-- The instruction at `pc`, as `addFunction` decodes it. -/
def decodeAt (p : Proto) (pc : ℕ) : Instruction :=
  let raw := p.word pc
  let op := opcode raw
  let hasAux := op.getOpLength == 2
  annotateInstruction
    { offset := pc, opcode := op, length := op.getOpLength
      a := insnA raw, b := insnB raw, c := insnC raw, d := insnD raw, e := insnE raw
      aux := if hasAux then (p.word (pc + 1)).toNat else 0
      hasAux := hasAux, jumpTarget := getJumpTarget raw pc } p.maxstacksize

/-- The decoding loop from `pc` on; every instruction is at least one word long, so `sizecode` rounds
suffice. -/
def decodeFrom (p : Proto) : ℕ → ℕ → List Instruction
  | 0, _ => []
  | fuel + 1, pc =>
    if pc < p.sizecode then decodeAt p pc :: decodeFrom p fuel (pc + (decodeAt p pc).length) else []

/-- The instructions of a prototype. -/
def decode (p : Proto) : List Instruction := decodeFrom p p.sizecode 0

theorem mem_addRegister {registerCount r x : ℕ} (l : List ℕ) :
    r ∈ addRegister registerCount l x ↔ r ∈ l ∨ (r < registerCount ∧ r = x) := by
  unfold addRegister
  split_ifs with h
  · rw [List.mem_append, List.mem_singleton]
    constructor
    · rintro (h' | rfl)
      · exact Or.inl h'
      · exact Or.inr ⟨h.1, rfl⟩
    · rintro (h' | ⟨_, rfl⟩)
      · exact Or.inl h'
      · exact Or.inr rfl
  · refine ⟨Or.inl, ?_⟩
    rintro (h' | ⟨hr, rfl⟩)
    · exact h'
    · exact by_contra fun hl => h ⟨hr, hl⟩

theorem mem_addRegisters {registerCount r : ℕ} (l acc : List ℕ) :
    r ∈ l.foldl (addRegister registerCount) acc ↔ r ∈ acc ∨ (r < registerCount ∧ r ∈ l) := by
  induction l generalizing acc with
  | nil => simp
  | cons x l ih =>
    rw [List.foldl_cons, ih, mem_addRegister, List.mem_cons]
    tauto

/-- A use is a register of the frame. -/
theorem lt_of_mem_uses {p : Proto} {pc r : ℕ} (h : r ∈ (decodeAt p pc).uses) :
    r < p.maxstacksize := by
  have h' := (mem_addRegisters _ []).1 h
  simp only [List.not_mem_nil, false_or] at h'
  exact h'.1

/-- A definition is a register of the frame. -/
theorem lt_of_mem_definitions {p : Proto} {pc r : ℕ} (h : r ∈ (decodeAt p pc).definitions) :
    r < p.maxstacksize := by
  have h' := (mem_addRegisters _ []).1 h
  simp only [List.not_mem_nil, false_or] at h'
  exact h'.1

end ByteVeil.IR
