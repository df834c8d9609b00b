import ByteVeil.IR.Analysis

/-!
# The structured control-flow plan

`renderFunction` of the restructurer: the header of a function, and for each block its kind, the
construct chosen for its edges, and its instructions. The plan names the successors of a block exactly
when it has at most two of them and is no loop header with a single one.
-/

namespace ByteVeil.Restructure

open ByteVeil.IR

/-! ## The printer -/

/-- `OpcodeNames.inc`. -/
def opcodeNames : List String :=
  ["NOP", "BREAK", "LOADNIL", "LOADB", "LOADN", "LOADK", "MOVE", "GETGLOBAL", "SETGLOBAL",
   "GETUPVAL", "SETUPVAL", "CLOSEUPVALS", "GETIMPORT", "GETTABLE", "SETTABLE", "GETTABLEKS",
   "SETTABLEKS", "GETTABLEN", "SETTABLEN", "NEWCLOSURE", "NAMECALL", "CALL", "RETURN", "JUMP",
   "JUMPBACK", "JUMPIF", "JUMPIFNOT", "JUMPIFEQ", "JUMPIFLE", "JUMPIFLT", "JUMPIFNOTEQ",
   "JUMPIFNOTLE", "JUMPIFNOTLT", "ADD", "SUB", "MUL", "DIV", "MOD", "POW", "ADDK", "SUBK",
   "MULK", "DIVK", "MODK", "POWK", "AND", "OR", "ANDK", "ORK", "CONCAT", "NOT", "MINUS",
   "LENGTH", "NEWTABLE", "DUPTABLE", "SETLIST", "FORNPREP", "FORNLOOP", "FORGLOOP",
   "FORGPREP_INEXT", "FASTCALL3", "FORGPREP_NEXT", "NATIVECALL", "GETVARARGS", "DUPCLOSURE",
   "PREPVARARGS", "LOADKX", "JUMPX", "FASTCALL", "COVERAGE", "CAPTURE", "SUBRK", "DIVRK",
   "FASTCALL1", "FASTCALL2", "FASTCALL2K", "FORGPREP", "JUMPXEQKNIL", "JUMPXEQKB", "JUMPXEQKN",
   "JUMPXEQKS", "IDIV", "IDIVK", "GETUDATAKS", "SETUDATAKS", "NAMECALLUDATA", "NEWCLASSMEMBER",
   "CALLFB", "CMPPROTO", "FASTPCALL", "NEWCLASS"]

/-- `opcodeName`. -/
def opcodeName (opcode : ℤ) : String :=
  if 0 ≤ opcode ∧ opcode < opcodeNames.length then opcodeNames.getD opcode.toNat "" else "UNKNOWN"

/-- `indent`. -/
def indent (n : ℕ) : String := String.ofList (List.replicate (n * 2) ' ')

section Printer

variable (f : FunctionFacts)

/-- `headers`: the targets of the back-edges. -/
def headers : List ℤ := f.backEdges.map (·.2)

/-- `kind`. -/
def kind (id : ℤ) : String :=
  let b := f.blockAt id
  if id = 0 then "entry"
  else if id ∈ headers f then "loop-header"
  else if b.successors.isEmpty then "exit"
  else if 1 < b.successors.length then "conditional"
  else if 1 < b.predecessors.length then "join"
  else "linear"

/-- `commonPostdom`. -/
def commonPostdom (left right : ℤ) : ℤ :=
  if outOfRange f.postDominators.length left || outOfRange f.postDominators.length right then -1
  else
    let sets := fun n : ℤ => f.postDominators.getD n.toNat []
    let candidates := (sets left).filter fun block => (sets right).contains block
    ((candidates.insertionSort fun a b => (sets a).length ≤ (sets b).length).head?).getD (-1)

/-- The construct that is printed for the edges of a block. -/
inductive Construct
  /-- `if` with both arms, and the join behind it. -/
  | branch (yes no join : ℤ)
  /-- `while true`, with the sizes of the loops that the block heads. -/
  | loop (sizes : List ℕ)
  | exit
  | goto (target : ℤ)
  | irreducible

/-- The chain of cases on a block. -/
def construct (block : BlockFacts) : Construct :=
  if block.successors.length = 2 then
    let yes := block.successors.getD 0 0
    let no := block.successors.getD 1 0
    .branch yes no (commonPostdom f yes no)
  else if block.id ∈ headers f then
    .loop ((f.loops.filter fun loop => loop.header == block.id).map fun loop => loop.blocks.length)
  else if block.successors.isEmpty then .exit
  else if block.successors.length = 1 then .goto (block.successors.getD 0 0)
  else .irreducible

/-- The lines of a construct. -/
def Construct.lines (level : ℕ) (id : ℤ) : Construct → List String
  | .branch yes no join =>
    [indent level ++ "    if <condition from block_" ++ toString id ++ "> then",
      indent level ++ "      -- true -> block_" ++ toString yes,
      indent level ++ "    else",
      indent level ++ "      -- false -> block_" ++ toString no,
      indent level ++ "    end" ++ if 0 ≤ join then " -- join=block_" ++ toString join else ""]
  | .loop sizes =>
    [indent level ++ "    while true do -- natural loop header"] ++
      sizes.map (fun n => indent level ++ "      -- loop blocks: " ++ toString n) ++
      [indent level ++ "    end"]
  | .exit => [indent level ++ "    return"]
  | .goto target => [indent level ++ "    goto block_" ++ toString target]
  | .irreducible =>
    [indent level ++ "    -- irreducible edge set; preserved as explicit CFG edges"]

/-- The lines of an instruction; an index outside of the function prints nothing. -/
def instructionLines (level : ℕ) (index : ℤ) : List String :=
  if outOfRange f.instructions.length index then []
  else
    let i := f.instructionAt index
    [indent level ++ "    -- @" ++ toString i.offset ++ " " ++ opcodeName i.opcode ++
      (if 0 ≤ i.destinationRegister then " r" ++ toString i.destinationRegister ++ " <-" else "") ++
      if i.hasSideEffects then " [side-effect]" else if i.isPure then " [pure]" else ""]

/-- The lines of a block. -/
def renderBlock (level : ℕ) (block : BlockFacts) : List String :=
  [indent level ++ "  block_" ++ toString block.id ++ " -- " ++ kind f block.id ++
    if block.id < f.immediateDominators.length then
      ", idom=block_" ++ toString (f.immediateDominators.getD block.id.toNat 0) else ""] ++
    (construct f block).lines level block.id ++
    block.instructions.flatMap (instructionLines f level)

/-- The lines of a function, its children apart. -/
def renderFacts (level : ℕ) : List String :=
  [indent level ++ "function " ++ toString f.id ++ " -- structured CFG plan",
    indent level ++ "  -- blocks=" ++ toString f.basicBlocks.length ++ ", loops=" ++
      toString f.loops.length ++ ", sccs=" ++ toString f.stronglyConnectedComponents.length ++
      ", phis=" ++ toString f.phiNodes.length] ++
    f.basicBlocks.flatMap (renderBlock f level)

end Printer

mutual

/-- `renderFunction`. -/
def renderFunction (level : ℕ) : ModuleFunction → List String
  | ⟨facts, children⟩ => renderFacts facts level ++ renderChildren level children

/-- The loop over the children. -/
def renderChildren (level : ℕ) : List ModuleFunction → List String
  | [] => []
  | child :: children => renderFunction level child ++ renderChildren level children

end

/-- `render`. -/
def render (root : ModuleFunction) : List String :=
  ["-- ByteVeil structured control-flow reconstruction",
    "-- This output preserves unsafe regions explicitly; it is not executed."] ++
    renderFunction 0 root

mutual

/-- The functions of a module in the order in which they are printed. -/
def functions : ModuleFunction → List FunctionFacts
  | ⟨facts, children⟩ => facts :: functionsOf children

/-- The functions below several functions. -/
def functionsOf : List ModuleFunction → List FunctionFacts
  | [] => []
  | child :: children => functions child ++ functionsOf children

end

/-! ## The edges -/

/-- The blocks that a construct names as the continuation. -/
def Construct.targets : Construct → List ℤ
  | .branch yes no _ => [yes, no]
  | .goto target => [target]
  | .loop _ | .exit | .irreducible => []

end ByteVeil.Restructure
