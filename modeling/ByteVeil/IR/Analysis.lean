import ByteVeil.IR.Components
import ByteVeil.IR.ImmediateDominators
import ByteVeil.IR.Liveness
import ByteVeil.IR.Loops
import ByteVeil.IR.PostDominators
import ByteVeil.IR.Ssa
import Mathlib.Data.Finset.Sort

/-!
# The analysed module and its self-check

1. The records of a module with everything that `validateAnalysis` and the plan printer read. A
   module need not come from `addFunction`, so numbers are integers here.
2. `validateAnalysis`, with the source's texts.
3. The module that `buildModule` fills from a prototype and its debug tables.
-/

namespace ByteVeil.IR

open ByteVeil.Luau

/-! ## Records -/

/-- `ConstantInfo`. -/
structure ConstantInfo where
  index : ℤ

/-- `LocalInfo`. -/
structure LocalInfo where
  name : List UInt8
  registerIndex : ℤ
  start : ℤ
  stop : ℤ

/-- `Instruction` of an analysed function. -/
structure InstructionFacts where
  offset : ℤ
  opcode : ℤ
  uses : List ℤ
  definitions : List ℤ
  definitionVersions : List ℤ
  destinationRegister : ℤ
  sourceBlock : ℤ
  hasSideEffects : Bool
  isPure : Bool
  deriving Inhabited

/-- `BasicBlock` of an analysed function. -/
structure BlockFacts where
  id : ℤ
  instructions : List ℤ
  successors : List ℤ
  predecessors : List ℤ
  deriving Inhabited

/-- `Loop` of an analysed function. -/
structure LoopFacts where
  header : ℤ
  preheader : ℤ
  blocks : List ℤ
  latches : List ℤ
  exits : List ℤ

/-- `PhiNode` of an analysed function. -/
structure PhiFacts where
  block : ℤ
  reg : ℤ
  incomingBlocks : List ℤ
  incomingVersions : List ℤ

/-- `Function` of a module, its children apart. -/
structure FunctionFacts where
  id : ℤ
  parentId : ℤ
  registers : ℤ
  constants : ℤ
  upvalues : ℤ
  constantTable : List ConstantInfo
  debugLocals : List LocalInfo
  upvalueNames : List (List UInt8)
  instructions : List InstructionFacts
  basicBlocks : List BlockFacts
  immediateDominators : List ℤ
  immediatePostDominators : List ℤ
  postDominators : List (List ℤ)
  backEdges : List (ℤ × ℤ)
  stronglyConnectedComponents : List (List ℤ)
  loops : List LoopFacts
  liveIn : List (List ℤ)
  liveOut : List (List ℤ)
  blockLiveRegisterCount : List ℤ
  phiNodes : List PhiFacts

/-- `Function` of a module. -/
structure ModuleFunction where
  facts : FunctionFacts
  children : List ModuleFunction

/-! ## The self-check -/

/-- Reject with a message. -/
def rejectIf (bad : Bool) (message : String) : Except String Unit := check bad (throw message)

/-- Not an index below the count. -/
def outOfRange (count n : ℤ) : Bool := n < 0 || count ≤ n

namespace FunctionFacts

variable (f : FunctionFacts)

/-- `blocks`. -/
def blocks : ℤ := f.basicBlocks.length

/-- `f.basicBlocks[n]`. -/
def blockAt (n : ℤ) : BlockFacts := f.basicBlocks.getD n.toNat default

/-- `f.instructions[n]`. -/
def instructionAt (n : ℤ) : InstructionFacts := f.instructions.getD n.toNat default

/-- The constant table, the names of the upvalues and the debug locals. -/
def checkTables : Except String Unit := do
  rejectIf ((f.constantTable.length : ℤ) != f.constants)
    "IR constant table does not match constant count"
  rejectIf ((f.upvalueNames.length : ℤ) != f.upvalues)
    "IR upvalue names do not match upvalue count"
  f.constantTable.zipIdx.forM fun entry =>
    rejectIf (entry.1.index != entry.2) "IR constant table index mismatch"
  f.debugLocals.forM fun info =>
    rejectIf (outOfRange f.registers info.registerIndex || info.start < 0 || info.stop < info.start)
      "IR contains invalid debug-local metadata"

/-- The lengths of the vectors and the registers in the liveness sets. -/
def checkVectors : Except String Unit := do
  rejectIf (f.blocks == 0) "IR function has no basic blocks"
  rejectIf ((f.immediateDominators.length : ℤ) != f.blocks)
    "IR dominator vector does not match block count"
  rejectIf ((f.immediatePostDominators.length : ℤ) != f.blocks)
    "IR post-dominator vector does not match block count"
  rejectIf ((f.liveIn.length : ℤ) != f.blocks || (f.liveOut.length : ℤ) != f.blocks ||
      (f.blockLiveRegisterCount.length : ℤ) != f.blocks)
    "IR liveness vectors do not match block count"
  (List.range f.basicBlocks.length).forM fun block => do
    (f.liveIn.getD block []).forM fun reg =>
      rejectIf (outOfRange f.registers reg) "IR liveness contains an invalid live-in register"
    (f.liveOut.getD block []).forM fun reg =>
      rejectIf (outOfRange f.registers reg) "IR liveness contains an invalid live-out register"

/-- A block, its edges and its instructions. -/
def checkBlock (block : BlockFacts) : Except String Unit := do
  rejectIf (outOfRange f.blocks block.id) "IR contains an invalid basic-block id"
  block.successors.forM fun target => do
    rejectIf (outOfRange f.blocks target) "IR contains an out-of-range CFG successor"
    rejectIf (!(f.blockAt target).predecessors.contains block.id)
      "IR CFG successor/predecessor mismatch"
  block.predecessors.forM fun predecessor => do
    rejectIf (outOfRange f.blocks predecessor) "IR contains an out-of-range CFG predecessor"
    rejectIf (!(f.blockAt predecessor).successors.contains block.id)
      "IR CFG predecessor/successor mismatch"
  block.instructions.forM fun instruction => do
    rejectIf (outOfRange f.instructions.length instruction)
      "IR block references an invalid instruction"
    rejectIf ((f.instructionAt instruction).sourceBlock != block.id)
      "IR instruction has the wrong source block"

/-- The registers and versions of an instruction. -/
def checkRegisters (instruction : InstructionFacts) : Except String Unit := do
  rejectIf (instruction.definitions.length != instruction.definitionVersions.length)
    "IR instruction definition/version mismatch"
  instruction.uses.forM fun reg =>
    rejectIf (outOfRange f.registers reg) "IR instruction contains an invalid register use"
  instruction.definitions.forM fun reg =>
    rejectIf (outOfRange f.registers reg) "IR instruction contains an invalid register definition"
  rejectIf (instruction.definitions.head?.any (instruction.destinationRegister != ·))
    "IR primary destination does not match definitions"

/-- The dominators, the back-edges and the loop regions. -/
def checkRegions : Except String Unit := do
  f.immediateDominators.forM fun idom =>
    rejectIf (idom < -1 || f.blocks ≤ idom) "IR contains an invalid immediate dominator"
  f.immediatePostDominators.forM fun ipdom =>
    rejectIf (ipdom < -1 || f.blocks ≤ ipdom) "IR contains an invalid immediate post-dominator"
  f.backEdges.forM fun edge =>
    rejectIf (outOfRange f.blocks edge.1 || outOfRange f.blocks edge.2)
      "IR contains an invalid back-edge"
  f.loops.forM fun loop => do
    rejectIf (outOfRange f.blocks loop.header || f.blocks ≤ loop.preheader)
      "IR contains an invalid loop region"
    loop.blocks.forM fun block =>
      rejectIf (outOfRange f.blocks block) "IR loop contains an invalid member"
    loop.latches.forM fun latch =>
      rejectIf (outOfRange f.blocks latch) "IR loop contains an invalid latch"
    loop.exits.forM fun exit =>
      rejectIf (outOfRange f.blocks exit) "IR loop contains an invalid exit"

/-- The phi nodes. -/
def checkPhis : Except String Unit :=
  f.phiNodes.forM fun phi => do
    rejectIf (outOfRange f.blocks phi.block || outOfRange f.registers phi.reg)
      "IR contains an invalid phi node"
    rejectIf (phi.incomingVersions.length != (f.blockAt phi.block).predecessors.length)
      "IR phi node has the wrong number of incoming versions"
    rejectIf (phi.incomingBlocks.length != phi.incomingVersions.length)
      "IR phi node has the wrong number of incoming blocks"
    phi.incomingBlocks.forM fun predecessor =>
      rejectIf (outOfRange f.blocks predecessor) "IR phi node contains an invalid incoming block"

/-- `validateFunctionAnalysis`, the children apart. -/
def checkFacts : Except String Unit := do
  f.checkTables
  f.checkVectors
  f.basicBlocks.forM f.checkBlock
  f.instructions.forM f.checkRegisters
  f.checkRegions
  f.checkPhis

end FunctionFacts

mutual

/-- `validateFunctionAnalysis`. -/
def validateFunctionAnalysis : ModuleFunction → Except String Unit
  | ⟨facts, children⟩ => do
    facts.checkFacts
    validateChildren facts.id children

/-- The loop over the children. -/
def validateChildren (id : ℤ) : List ModuleFunction → Except String Unit
  | [] => pure ()
  | child :: children => do
    rejectIf (child.facts.parentId != id) "IR child has the wrong parent id"
    validateFunctionAnalysis child
    validateChildren id children

end

mutual

/-- `collect`: the ids met so far. -/
def collectIds : ModuleFunction → List ℤ → Except String (List ℤ)
  | ⟨facts, children⟩, ids => do
    rejectIf (ids.contains facts.id) "IR contains duplicate function ids"
    collectChildren children (ids ++ [facts.id])

/-- The loop over the children. -/
def collectChildren : List ModuleFunction → List ℤ → Except String (List ℤ)
  | [], ids => pure ids
  | child :: children, ids => do
    let ids ← collectIds child ids
    collectChildren children ids

end

/-- `validateAnalysis`. -/
def validateAnalysis (root : ModuleFunction) : Except String Unit := do
  validateFunctionAnalysis root
  let _ ← collectIds root []

/-! ## Building a module -/

/-- `LocVar`. -/
structure LocVar where
  varname : List UInt8
  reg : ℕ
  startpc : ℤ
  endpc : ℤ

/-- The debug tables of a prototype. -/
structure DebugTables where
  locvars : List LocVar
  upvalues : List (List UInt8)

/-- Naturals as integers. -/
def ints (l : List ℕ) : List ℤ := l.map fun n : ℕ => (n : ℤ)

/-- The content of a `std::set<int>` as a list of integers. -/
def setInts (s : Finset ℕ) : List ℤ := ints (s.sort (· ≤ ·))

/-- The instruction of index `k` at the end of `addFunction`. -/
def instructionFacts (f : Function) (k : ℕ) : InstructionFacts :=
  let i := f.instruction k
  { offset := i.offset, opcode := i.opcode.toNat, uses := ints i.uses
    definitions := ints i.definitions
    definitionVersions :=
      if 0 < f.blockCount ∧ 0 < f.registers then i.definitions.map (f.definitionVersion k) else []
    destinationRegister := match i.definitions with
      | [] => -1
      | reg :: _ => reg
    -- The last block that lists the instruction has written its number last.
    sourceBlock := match ((f.basicBlocks.filter fun b => k ∈ b.instructions).getLast?) with
      | none => -1
      | some b => b.id
    hasSideEffects := i.hasSideEffects, isPure := i.isPure }

/-- The record that `addFunction` fills for a prototype with its debug tables. -/
def functionFacts (debug : DebugTables) (p : Proto) (f : Function) : FunctionFacts :=
  { id := f.id, parentId := f.parentId, registers := f.registers, constants := f.constants
    upvalues := f.upvalues
    constantTable := (List.range p.sizek).map fun constant : ℕ => ⟨(constant : ℤ)⟩
    debugLocals := debug.locvars.map fun v : LocVar => ⟨v.varname, (v.reg : ℤ), v.startpc, v.endpc⟩
    upvalueNames := (List.range p.nups).map fun upvalue => debug.upvalues.getD upvalue []
    instructions := (List.range f.instructions.length).map (instructionFacts f)
    basicBlocks := f.basicBlocks.map fun b : BasicBlock =>
      ⟨(b.id : ℤ), ints b.instructions, ints b.successors, ints b.predecessors⟩
    immediateDominators := f.immediateDominators
    immediatePostDominators := f.immediatePostDominators
    postDominators := f.postDominators.map setInts
    backEdges := f.backEdges.map fun edge : ℕ × ℕ => ((edge.1 : ℤ), (edge.2 : ℤ))
    stronglyConnectedComponents := f.stronglyConnectedComponents.map ints
    loops := f.loops.map fun loop : Loop =>
      ⟨(loop.header : ℤ), loop.preheader, ints loop.blocks, ints loop.latches, ints loop.exits⟩
    liveIn := f.liveness.liveIn.map setInts
    liveOut := f.liveness.liveOut.map setInts
    blockLiveRegisterCount := (List.range f.blockCount).map fun b : ℕ => (f.blockLiveRegisterCount b : ℤ)
    phiNodes := f.phiNodes.map fun phi : PhiNode =>
      ⟨(phi.block : ℤ), (phi.reg : ℤ), ints phi.incomingBlocks, phi.incomingVersions⟩ }

mutual

/-- `addFunction` with everything it stores; `debug` gives the debug tables of a prototype by its
address. The second component is the next free function id. -/
def buildFunction (debug : ℕ → DebugTables) : Proto → ℕ → ℤ → ℕ → ModuleFunction × ℕ
  | ⟨ident, nups, numparams, maxstacksize, code, k, children⟩, nextId, parentId, protoIndex =>
    let p : Proto := ⟨ident, nups, numparams, maxstacksize, code, k, children⟩
    let rest := buildChildren debug children (nextId + 1) nextId 0
    (⟨functionFacts (debug ident) p (addFunction p nextId parentId protoIndex).1, rest.1⟩, rest.2)

/-- The loop over the child prototypes at the end of `addFunction`. -/
def buildChildren (debug : ℕ → DebugTables) :
    List Proto → ℕ → ℕ → ℕ → List ModuleFunction × ℕ
  | [], nextId, _, _ => ([], nextId)
  | child :: children, nextId, parent, index =>
    let first := buildFunction debug child nextId parent index
    let rest := buildChildren debug children first.2 parent (index + 1)
    (first.1 :: rest.1, rest.2)

end

/-- `buildModule`. -/
def buildModule (debug : ℕ → DebugTables) (root : Proto) : Except String ModuleFunction := do
  validateProto root
  let module := (buildFunction debug root 0 (-1) 0).1
  validateAnalysis module
  pure module

end ByteVeil.IR
