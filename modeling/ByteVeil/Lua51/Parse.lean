import ByteVeil.Lua51.Proto

/-!
# Reading Lua 5.1 chunks

The byte reader, the header, the constants, the decoding of instruction words, the association of
closure bindings, the validation of a prototype and the recursion over the nested prototypes, with
the source's error texts.
-/

namespace ByteVeil.Lua51

/-! ## Reader -/

/-- The reader; `rest` is what has not been read. -/
structure Reader where
  rest : List UInt8
  little : Bool := true
  sizeT : ℕ := 4
  totalInstructions : ℕ := 0
  totalConstants : ℕ := 0
  totalDebugEntries : ℕ := 0
  totalPrototypes : ℕ := 0

/-- Reading steps. -/
abbrev Read := StateT Reader (Except String)

/-- Fails with the text when `bad` holds. -/
def failIf (bad : Prop) [Decidable bad] (error : String) : Read Unit :=
  if bad then throw error else pure ()

/-- `bytes`. -/
def bytes (n : ℕ) : Read (List UInt8) := do
  let r ← get
  failIf (r.rest.length < n) "truncated Lua 5.1 chunk"
  set { r with rest := r.rest.drop n }
  return r.rest.take n

/-- A number of `n` bytes in the byte order of the chunk. -/
def unsigned (n : ℕ) : Read ℕ := do
  let bs ← bytes n
  let r ← get
  let bigEndian := if r.little then bs.reverse else bs
  return bigEndian.foldl (fun v b => v * 256 + b.toNat) 0

/-- `u8`. -/
def u8 : Read ℕ := unsigned 1

/-- `u32`. -/
def u32 : Read ℕ := unsigned 4

/-- `u64`. -/
def u64 : Read ℕ := unsigned 8

/-- The signed reading of 32 bits. -/
def signed32 (n : ℕ) : ℤ := if n < 2147483648 then n else n - 4294967296

/-- `i32`. -/
def i32 : Read ℤ := do return signed32 (← u32)

/-- `luaString`; the length counts a final zero byte, and strings are limited to 64 MiB. -/
def luaString : Read (List UInt8) := do
  let n ← if (← get).sizeT = 4 then u32 else u64
  if n = 0 then return []
  failIf (67108864 < n) "invalid Lua 5.1 string length"
  let s ← bytes (n - 1)
  let _ ← u8
  return s

/-- The elements of a counted list. -/
def many {α : Type} (n : ℕ) (item : Read α) : Read (List α) := (List.replicate n item).mapM id

/-- `header`. -/
def header : Read Unit := do
  failIf ((← bytes 4) ≠ [0x1b, 0x4c, 0x75, 0x61]) "not a Lua 5.1 chunk"
  failIf ((← u8) ≠ 0x51) "unsupported Lua version; expected 5.1"
  failIf ((← u8) ≠ 0) "unsupported Lua binary format"
  let endian ← u8
  failIf (endian ≠ 0 ∧ endian ≠ 1) "invalid Lua endianness"
  modify fun r => { r with little := endian == 1 }
  failIf ((← u8) ≠ 4) "unsupported Lua integer width"
  let sizeT ← u8
  modify fun r => { r with sizeT := sizeT }
  failIf (sizeT ≠ 4 ∧ sizeT ≠ 8) "unsupported Lua size_t width"
  failIf ((← u8) ≠ 4) "unsupported Lua instruction width"
  failIf ((← u8) ≠ 8) "unsupported Lua number width"
  failIf ((← u8) ≠ 0) "integral Lua number chunks are unsupported"

/-- `constant`. -/
def constant : Read Constant := do
  match ← u8 with
  | 0 => return .nil
  | 1 => return .boolean ((← u8) != 0)
  | 3 => return .number (.ofBits (← u64))
  | 4 => return .string (← luaString)
  | _ => throw "unsupported Lua constant tag"

/-! ## Instruction words -/

/-- The pc an instruction may jump to, `-1` if it has none. -/
def targetOf (op : Op) (pc c : ℕ) (sbx : ℤ) : ℤ :=
  match op with
  | .JMP | .FORLOOP | .FORPREP => pc + sbx + 1
  | .EQ | .LT | .LE | .TEST | .TESTSET | .TFORLOOP => pc + 2
  | .LOADBOOL => if c ≠ 0 then pc + 2 else -1
  | _ => -1

/-- The last producer among the instructions decoded so far. -/
def lastProducer (code : List Instr) : Option ℕ :=
  (List.range code.length).reverse.find? fun prev => (code.getD prev default).op.producesResults

/-- The opcodes whose `B = 0` takes its operands from an open result. -/
def consumesOpenResults : Op → Bool
  | .SETLIST | .CALL | .TAILCALL | .RETURN => true
  | _ => false

/-- The instruction in the word at `pc`, after the instructions `code`. -/
def decodeWord (rawCode : List ℕ) (code : List Instr) (pc : ℕ) : Instr :=
  let raw := rawCode.getD pc 0
  let op := Op.ofCode (raw % 64)
  let b := raw / 8388608 % 512
  let c := raw / 16384 % 512
  let bx := raw / 16384 % 262144
  let sbx : ℤ := bx - 131071
  { raw := raw, pc := pc, op := op, a := raw / 64 % 256, b := b, c := c, bx := bx, sbx := sbx
    target := targetOf op pc c sbx
    openProducer := if b = 0 ∧ consumesOpenResults op then lastProducer code else none
    setlistBlock :=
      if op = .SETLIST then if c = 0 then signed32 (rawCode.getD (pc + 1) 0) else c else -1 }

/-- The extra word of a `SETLIST`. -/
def extraWordAt (rawCode : List ℕ) (pc : ℕ) : Instr :=
  let raw := rawCode.getD pc 0
  { raw := raw, pc := pc, op := .EXTRAARG, extraWord := true, setlistBlock := signed32 raw }

/-- One round of the decoding loop; the flag says that the word is an extra word. -/
def decodeStep (rawCode : List ℕ) (s : List Instr × Bool) (pc : ℕ) :
    Except String (List Instr × Bool) :=
  if s.2 then pure (s.1 ++ [extraWordAt rawCode pc], false)
  else
    let i := decodeWord rawCode s.1 pc
    let nextIsExtra := i.op = .SETLIST ∧ i.c = 0
    if nextIsExtra ∧ rawCode.length ≤ pc + 1 then
      throw "Lua SETLIST is missing its extra block word"
    else pure (s.1 ++ [i], nextIsExtra)

/-- The decoding loop. -/
def decodeCode (rawCode : List ℕ) : Except String (List Instr) := do
  return (← (List.range rawCode.length).foldlM (decodeStep rawCode) ([], false)).1

/-! ## Closure bindings -/

/-- An error located at an instruction. -/
def failureAt (id pc : ℕ) (message : String) : Except String Unit :=
  throw ("Lua function " ++ toString id ++ " pc " ++ toString pc ++ ": " ++ message)

/-- Fails with the error when `bad` holds. -/
def reject (bad : Bool) (error : Except String Unit) : Except String Unit :=
  if bad then error else pure ()

/-- What the association pass updates. -/
structure Association where
  code : List Instr
  capturedRegisters : List Bool

/-- One binding of the `CLOSURE` at `pc`. -/
def associateBinding (id maxstack pc : ℕ) (s : Association) (slot : ℕ) :
    Except String Association := do
  let binding := s.code.getD (pc + slot + 1) default
  reject (binding.extraWord || (binding.op != .MOVE && binding.op != .GETUPVAL))
    (failureAt id binding.pc "CLOSURE capture binding must be MOVE or GETUPVAL")
  let bound := { binding with closureBindingFor := some pc, captureSlot := some slot }
  let closure := s.code.getD pc default
  let extended := { closure with
    captures := closure.captures ++ [⟨binding.pc, binding.b, binding.op == .GETUPVAL⟩] }
  return {
    code := (s.code.set (pc + slot + 1) bound).set pc extended
    capturedRegisters :=
      if binding.op = .MOVE ∧ binding.b < maxstack then s.capturedRegisters.set binding.b true
      else s.capturedRegisters }

/-- The loop of `associateClosureCaptures` from `pc` on; it moves forward in every round. -/
def associateFrom (p : Proto) : ℕ → ℕ → Association → Except String Association
  | 0, _, s => pure s
  | fuel + 1, pc, s =>
    if pc < s.code.length then
      let closure := s.code.getD pc default
      if closure.op = .CLOSURE ∧ closure.bx < p.children.length then do
        let expected := (p.children.getD closure.bx default).nups
        reject (decide (s.code.length < pc + 1 + expected))
          (failureAt p.id pc "CLOSURE capture bindings truncated")
        let s ← (List.range expected).foldlM (associateBinding p.id p.maxstack pc) s
        associateFrom p fuel (pc + expected + 1) s
      else associateFrom p fuel (pc + 1) s
    else pure s

/-- `managedCapturedRegisters`: the captured registers that some `CLOSE` detaches. -/
def managedRegisters (maxstack : ℕ) (code : List Instr) (captured : List Bool) : List Bool :=
  (List.range maxstack).map fun r =>
    captured.getD r false && code.any fun i => i.op == .CLOSE && decide (i.a ≤ r)

/-- `associateClosureCaptures`. -/
def associateClosureCaptures (p : Proto) : Except String Proto := do
  let s ← associateFrom p p.code.length 0
    { code := p.code, capturedRegisters := List.replicate p.maxstack false }
  return { p with
    code := s.code
    capturedRegisters := s.capturedRegisters
    managedCapturedRegisters := managedRegisters p.maxstack s.code s.capturedRegisters }

/-! ## Validation -/

section Validation

variable (p : Proto) (i : Instr)

/-- `failure`. -/
def failure (message : String) : Except String Unit := failureAt p.id i.pc message

/-- `checkReg`. -/
def checkReg (reg : ℕ) (field : String) : Except String Unit :=
  reject (decide (p.maxstack ≤ reg)) (failure p i ("register " ++ field ++ " out of range"))

/-- `checkRange`. -/
def checkRange (first count : ℕ) (field : String) : Except String Unit :=
  reject (decide (p.maxstack < first + count))
    (failure p i ("register range " ++ field ++ " out of range"))

/-- The constant bit of an operand. -/
def isConstantOperand (operand : ℕ) : Bool := operand / 256 % 2 == 1

/-- `checkRK`. -/
def checkRK (operand : ℕ) (field : String) : Except String Unit :=
  if isConstantOperand operand then
    reject (decide (p.constants.length ≤ operand % 256))
      (failure p i ("constant " ++ field ++ " out of range"))
  else checkReg p i operand field

/-- `checkConstant`. -/
def checkConstant (index : ℕ) : Except String Unit :=
  reject (decide (p.constants.length ≤ index)) (failure p i "constant index out of range")

/-- `checkUpvalue`. -/
def checkUpvalue (index : ℕ) : Except String Unit :=
  reject (decide (p.nups ≤ index)) (failure p i "upvalue index out of range")

/-- A pc that an instruction may jump to. -/
def isBoundary (target : ℤ) : Bool :=
  decide (0 ≤ target) && decide (target < p.code.length) &&
    !(p.instr target.toNat).extraWord && (p.instr target.toNat).closureBindingFor.isNone

/-- `checkTarget`. -/
def checkTarget : Except String Unit :=
  reject (!isBoundary p i.target) (failure p i "jump target is not an instruction boundary")

/-- The operand checks of one instruction. -/
def checkOperands : Except String Unit :=
  match i.op with
  | .MOVE => do checkReg p i i.a "A"; checkReg p i i.b "B"
  | .LOADK => do checkReg p i i.a "A"; checkConstant p i i.bx
  | .LOADBOOL => do
    checkReg p i i.a "A"
    reject (decide (1 < i.b)) (failure p i "LOADBOOL boolean operand out of range")
    if i.c ≠ 0 then checkTarget p i
  | .LOADNIL => do
    checkReg p i i.a "A"
    checkReg p i i.b "B"
    reject (decide (i.b < i.a)) (failure p i "LOADNIL range is reversed")
  | .GETUPVAL | .SETUPVAL => do checkReg p i i.a "A"; checkUpvalue p i i.b
  | .GETGLOBAL | .SETGLOBAL => do checkReg p i i.a "A"; checkConstant p i i.bx
  | .GETTABLE => do checkReg p i i.a "A"; checkReg p i i.b "B"; checkRK p i i.c "C"
  | .SETTABLE => do checkReg p i i.a "A"; checkRK p i i.b "B"; checkRK p i i.c "C"
  | .NEWTABLE => checkReg p i i.a "A"
  | .SELF => do
    checkRange p i i.a 2 "SELF results"
    checkReg p i i.b "B"
    checkRK p i i.c "C"
  | .ADD | .SUB | .MUL | .DIV | .MOD | .POW => do
    checkReg p i i.a "A"
    checkRK p i i.b "B"
    checkRK p i i.c "C"
  | .UNM | .NOT | .LEN => do checkReg p i i.a "A"; checkReg p i i.b "B"
  | .CONCAT => do
    checkReg p i i.a "A"
    checkReg p i i.b "B"
    checkReg p i i.c "C"
    reject (decide (i.c < i.b)) (failure p i "CONCAT range is reversed")
  | .JMP => do checkReg p i i.a "A"; checkTarget p i
  | .EQ | .LT | .LE => do
    reject (decide (1 < i.a)) (failure p i "comparison inversion flag out of range")
    checkRK p i i.b "B"
    checkRK p i i.c "C"
    checkTarget p i
  | .TEST => do
    checkReg p i i.a "A"
    reject (decide (1 < i.c)) (failure p i "TEST boolean operand out of range")
    checkTarget p i
  | .TESTSET => do
    checkReg p i i.a "A"
    checkReg p i i.b "B"
    reject (decide (1 < i.c)) (failure p i "TESTSET boolean operand out of range")
    checkTarget p i
  | .CALL => do
    checkReg p i i.a "A"
    if 1 < i.b then checkRange p i (i.a + 1) (i.b - 1) "call arguments"
    if 1 < i.c then checkRange p i i.a (i.c - 1) "call results"
  | .TAILCALL => do
    checkReg p i i.a "A"
    if 1 < i.b then checkRange p i (i.a + 1) (i.b - 1) "call arguments"
  | .RETURN => do
    checkReg p i i.a "A"
    if 0 < i.b then checkRange p i i.a (i.b - 1) "return values"
  | .FORLOOP | .FORPREP => do checkRange p i i.a 4 "numeric for"; checkTarget p i
  | .TFORLOOP => do
    reject (i.c == 0) (failure p i "TFORLOOP result count is zero")
    checkRange p i i.a (3 + i.c) "generic for"
    checkTarget p i
  | .SETLIST => do
    checkReg p i i.a "A"
    if 0 < i.b then checkRange p i (i.a + 1) i.b "SETLIST values"
    reject (decide (i.setlistBlock ≤ 0)) (failure p i "SETLIST block index is zero")
  | .CLOSE => reject (decide (p.maxstack < i.a)) (failure p i "CLOSE register out of range")
  | .CLOSURE => do
    checkReg p i i.a "A"
    reject (decide (p.children.length ≤ i.bx))
      (failure p i "child prototype index out of range")
    reject (i.captures.length != (p.children.getD i.bx default).nups)
      (failure p i "CLOSURE capture binding count does not match child upvalues")
  | .VARARG => do
    checkReg p i i.a "A"
    if 1 < i.b then checkRange p i i.a (i.b - 1) "vararg results"
  | .EXTRAARG => pure ()
  | .UNKNOWN code => failure p i ("unknown opcode " ++ toString code)

/-- The checks of one instruction; a closure binding is checked as a capture only. -/
def checkInstr : Except String Unit :=
  if i.extraWord then pure ()
  else if i.closureBindingFor.isSome then
    if i.op = .MOVE then checkReg p i i.b "CLOSURE local capture B" else checkUpvalue p i i.b
  else checkOperands p i

/-- `validateProtoData`. -/
def validateProtoData : Except String Unit := do
  p.code.forM (checkInstr p)
  reject (!p.lines.isEmpty && p.lines.length != p.code.length)
    (throw ("Lua function " ++ toString p.id ++ ": lineinfo count does not match code size"))
  reject (decide (p.nups < p.upvalues.length))
    (throw ("Lua function " ++ toString p.id ++ ": upvalue debug count exceeds upvalue count"))
  reject (p.locals.any fun l => decide (l.start < 0) || decide (l.stop < l.start) ||
      decide ((p.code.length : ℤ) < l.stop))
    (throw ("Lua function " ++ toString p.id ++ ": invalid local debug range"))

end Validation

/-! ## Prototypes -/

/-- The instruction list of `parseProto`. -/
def readCode : Read (List Instr) := do
  let ncode ← u32
  let r ← get
  failIf (1000000 < r.totalInstructions + ncode) "Lua instruction limit exceeded"
  set { r with totalInstructions := r.totalInstructions + ncode }
  let rawCode ← many ncode u32
  decodeCode rawCode

/-- The constant list of `parseProto`. -/
def readConstants : Read (List Constant) := do
  let nk ← u32
  let r ← get
  failIf (1000000 < r.totalConstants + nk) "Lua constant limit exceeded"
  set { r with totalConstants := r.totalConstants + nk }
  many nk constant

/-- The part of `parseProto` before the children. -/
def readPrologue (levels : ℕ) (parent : ℤ) : Read Proto := do
  failIf (levels = 0) "Lua prototype nesting exceeds 128"
  let r ← get
  let id := r.totalPrototypes
  failIf (100000 < id + 1) "Lua prototype limit exceeded"
  set { r with totalPrototypes := id + 1 }
  let source ← luaString
  let linedefined ← i32
  let lastline ← i32
  let nups ← u8
  let params ← u8
  let vararg ← u8
  let maxstack ← u8
  failIf (maxstack = 0) "Lua prototype has zero maxstack"
  let code ← readCode
  let constants ← readConstants
  return {
    id := id, parent := parent, source := source, linedefined := linedefined
    lastline := lastline, nups := nups, params := params, vararg := vararg, maxstack := maxstack
    code := code, constants := constants, children := [], lines := [], locals := []
    upvalues := [], capturedRegisters := [], managedCapturedRegisters := [] }

/-- A counted debug list. -/
def debugList {α : Type} (error : String) (item : Read α) : Read (List α) := do
  let n ← u32
  let r ← get
  failIf (1000000 < r.totalDebugEntries + n) error
  set { r with totalDebugEntries := r.totalDebugEntries + n }
  many n item

/-- The part of `parseProto` after the children. -/
def readEpilogue (p : Proto) : Read Proto := do
  let lines ← debugList "Lua lineinfo limit exceeded" i32
  let locals ← debugList "Lua local debug limit exceeded" do
    return { name := ← luaString, start := signed32 (← u32), stop := signed32 (← u32) }
  let upvalues ← debugList "Lua upvalue debug limit exceeded" luaString
  return { p with lines := lines, locals := locals, upvalues := upvalues }

/-- The end of `parseProto`. -/
def finishProto (p : Proto) : Except String Proto := do
  let p ← associateClosureCaptures p
  validateProtoData p
  return p

/-- `parseProto` with `levels` more nesting levels allowed. -/
def parseProto : ℕ → ℤ → Read Proto
  | levels, parent => do
    let p ← readPrologue levels parent
    let np ← u32
    failIf (100000 < np) "Lua child prototype limit exceeded"
    let children ← match levels with
      | 0 => pure []
      | levels + 1 => many np (parseProto levels p.id)
    let p ← readEpilogue { p with children := children }
    finishProto p

/-- `parse`. -/
def parse (data : List UInt8) : Except String Proto := do
  let (p, r) ← (do header; parseProto 129 (-1) : Read Proto).run { rest := data }
  if r.rest ≠ [] then throw "trailing bytes after Lua chunk"
  return p

end ByteVeil.Lua51
