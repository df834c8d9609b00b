import ByteVeil.IR.Blocks
import ByteVeil.RegisterDecompile.Statements

/-!
# The register-state renderer

`Renderer`: the functions of a prototype tree, the blocks of a prototype, and the statements that
`renderFunction` writes into the arms of the dispatcher.
-/

namespace ByteVeil.RegisterDecompile

open ByteVeil.Luau ByteVeil.IR

/-! ## Functions -/

/-- `FunctionInfo`. -/
structure FunctionInfo where
  proto : Proto
  id : ℕ
  childIds : List ℕ
  deriving Inhabited

mutual

/-- `collect`, with the next free id. -/
def collect : Proto → ℕ → List FunctionInfo
  | ⟨ident, nups, numparams, maxstacksize, code, k, children⟩, id =>
    let below := collectAll children (id + 1)
    ⟨⟨ident, nups, numparams, maxstacksize, code, k, children⟩, id, below.2⟩ :: below.1

/-- `collect` over the children; their functions and their ids. -/
def collectAll : List Proto → ℕ → List FunctionInfo × List ℕ
  | [], _ => ([], [])
  | p :: ps, id =>
    let first := collect p id
    let rest := collectAll ps (id + first.length)
    (first ++ rest.1, id :: rest.2)

end

/-- `protoIds`: the id assigned last to a prototype. -/
def protoId? (functions : List FunctionInfo) (ident : ℕ) : Option ℕ :=
  (functions.filter fun f => f.proto.ident == ident).getLast?.map (·.id)

/-! ## Constants -/

mutual

/-- `constantValue`, with the number of nesting levels left. -/
def constantValue : ℕ → Constant → Literal
  | _, .nil => .nil
  | _, .boolean b => .boolean b
  | _, .number bits => .number bits
  | _, .integer l => .integer l
  | _, .string bytes => .string bytes
  | 0, .table _ _ => .table []
  | levels + 1, .table array nodes =>
    .table (arrayFields levels 1 array ++ nodeFields levels nodes)
  | _, .vector _ | _, .function _ | _, .other => .nil

/-- The fields of the array part of a table, from index `n` on. -/
def arrayFields (levels n : ℕ) : List Constant → List (Literal × Literal)
  | [] => []
  | .nil :: items => arrayFields levels (n + 1) items
  | item :: items =>
    (.integer n, constantValue levels item) :: arrayFields levels (n + 1) items

/-- The fields of the hash part of a table. -/
def nodeFields (levels : ℕ) : List (Constant × Constant) → List (Literal × Literal)
  | [] => []
  | (_, .nil) :: nodes => nodeFields levels nodes
  | (key, value) :: nodes =>
    (constantValue levels key, constantValue levels value) :: nodeFields levels nodes

end

/-- `constant`. -/
def constant (p : Proto) (index : ℤ) : Expr :=
  .literal (if index < 0 ∨ (p.sizek : ℤ) ≤ index then .nil
    else constantValue 16 (p.k.getD index.toNat .nil))

/-- `importExpression`. -/
def importExpression (p : Proto) (aux : ℕ) : Expr :=
  let count := aux / 1073741824
  let id (shift : ℕ) := constant p (aux / shift % 1024 : ℕ)
  if count < 1 then .literal .nil
  else
    let first := Expr.index .getfenv (id 1048576)
    if count < 2 then first
    else if count < 3 then .index first (id 1024)
    else .index (.index first (id 1024)) (id 1)

/-- `closureId`. -/
def closureId (functions : List FunctionInfo) (p : Proto) (index : ℤ) : Option ℕ :=
  if index < 0 ∨ (p.sizek : ℤ) ≤ index then none
  else match p.k.getD index.toNat .nil with
    | .function (some target) => protoId? functions target
    | _ => none

/-! ## Blocks -/

/-- The loop of `blocks` that collects the block starts, from `pc` on. -/
def startsFrom (p : Proto) : ℕ → ℕ → List ℕ
  | 0, _ => []
  | fuel + 1, pc =>
    if pc < p.sizecode then
      let raw := p.word pc
      let length := (opcode raw).getOpLength
      let target := getJumpTarget raw pc
      (if 0 ≤ target ∧ target < p.sizecode then [target.toNat] else []) ++
        (if (0 ≤ target ∨ opcode raw = .RETURN) ∧ pc + length < p.sizecode then [pc + length]
          else []) ++
        startsFrom p fuel (pc + length)
    else []

/-- The starts of the blocks. -/
def starts (p : Proto) : List ℕ := sortUnique (0 :: startsFrom p p.sizecode 0)

/-- `blocks`: the starts and the ends of the blocks. -/
def blocks (p : Proto) : List (ℕ × ℕ) :=
  if p.sizecode = 0 then []
  else
    (List.range (starts p).length).map fun n =>
      ((starts p).getD n 0, (starts p).getD (n + 1) p.sizecode)

/-! ## Instructions -/

/-- `emitCall`. -/
def emitCall (a b c : ℕ) : List Stmt :=
  .packArguments (a + 1) (if b = 0 then none else some (a + b - 1)) :: .call a ::
    if c = 0 then [.spreadResults a]
    else (List.range (c - 1)).map fun result => .set (a + result) (.callResult result)

/-- The condition under which a numeric loop goes on. -/
def loopCondition (a : ℕ) : Expr :=
  let positive := Expr.binary .gt (.get (a + 1)) (.integer 0)
  .binary .or (.binary .and positive (.binary .le (.get (a + 2)) (.get a)))
    (.binary .and (.not positive) (.binary .le (.get a) (.get (a + 2))))

/-- `captureName` and `captureIndex`: the pc of the closure that captures belong to and the number
of captures so far. -/
abbrev Pending := Option (ℕ × ℕ)

/-- The statements of an instruction, whether it ends the block, and the captures pending. -/
structure Rendered where
  stmts : List Stmt
  terminated : Bool := false
  pending : Pending

/-- The text `next`. -/
def nextPc (fallthrough : Option ℕ) : ℤ :=
  match fallthrough with
  | some n => n
  | none => -1

section Instruction

variable (functions : List FunctionInfo) (f : FunctionInfo) (fallthrough : Option ℕ)

/-- A closure that is created at `pc`. -/
def renderClosure (pc a : ℕ) (child : Option ℕ) : Rendered :=
  { stmts := [.newCaptures pc,
      .set a (match child with
        | some id => .closure id pc
        | none => .literal .nil)]
    pending := some (pc, 0) }

/-- `CAPTURE`. -/
def renderCapture (pending : Pending) (a b : ℕ) : Rendered :=
  match pending with
  | none => { stmts := [.comment (.orphanCapture a b)], pending := none }
  | some (pc, n) =>
    if a = 0 then { stmts := [.captureValue pc n b], pending := some (pc, n + 1) }
    else if a = 1 then
      { stmts := [.shareCell b, .captureCell pc n b], pending := some (pc, n + 1) }
    else if a = 2 then { stmts := [.captureUpvalue pc n b], pending := some (pc, n + 1) }
    else { stmts := [.comment (.unknownCapture a)], pending := pending }

/-- The switch of `renderFunction` on the opcode at `pc`. -/
def renderInstruction (pc : ℕ) (pending : Pending) : Rendered :=
  let p := f.proto
  let raw := p.word pc
  let op := opcode raw
  let a := insnA raw
  let b := insnB raw
  let c := insnC raw
  let d := insnD raw
  let aux := if op.getOpLength = 2 then (p.word (pc + 1)).toNat else 0
  let target := getJumpTarget raw pc
  let next := nextPc fallthrough
  let plain (stmts : List Stmt) : Rendered := { stmts := stmts, pending := pending }
  let closing (stmts : List Stmt) : Rendered :=
    { stmts := stmts, terminated := true, pending := pending }
  let set (value : Expr) : Rendered := plain [.set a value]
  let branch (condition : Expr) : Rendered := closing [.branch condition target next]
  match op with
  | .NOP | .COVERAGE | .PREPVARARGS => plain []
  | .BREAK => plain [.comment .breakRetained]
  | .LOADNIL => set (.literal .nil)
  | .LOADB =>
    if c = 0 then set (.literal (.boolean (b != 0)))
    else closing [.set a (.literal (.boolean (b != 0))), .jump target]
  | .LOADN => set (.integer d)
  | .LOADK => set (constant p d)
  | .LOADKX => set (constant p (asInt aux))
  | .MOVE => set (.get b)
  | .GETGLOBAL => set (.index .getfenv (constant p (asInt aux)))
  | .SETGLOBAL => plain [.setIndex .getfenv (constant p (asInt aux)) a]
  | .GETUPVAL => set (.upvalue b)
  | .SETUPVAL => plain [.setUpvalue b a]
  | .CLOSEUPVALS => plain [.comment (.closeUpvalues a)]
  | .GETIMPORT => set (importExpression p aux)
  | .GETTABLE => set (.index (.get b) (.get c))
  | .SETTABLE => plain [.setIndex (.get b) (.get c) a]
  | .GETTABLEKS | .GETUDATAKS => set (.index (.get b) (constant p (aux % 65536 : ℕ)))
  | .SETTABLEKS | .SETUDATAKS => plain [.setIndex (.get b) (constant p (aux % 65536 : ℕ)) a]
  | .GETTABLEN => set (.index (.get b) (.integer (c + 1)))
  | .SETTABLEN => plain [.setIndex (.get b) (.integer (c + 1)) a]
  | .NEWCLOSURE =>
    renderClosure pc a (if 0 ≤ d then f.childIds[d.toNat]? else none)
  | .DUPCLOSURE => renderClosure pc a (closureId functions p d)
  | .CAPTURE => renderCapture pending a b
  | .NAMECALL | .NAMECALLUDATA =>
    plain [.set a (.index (.get b) (constant p (aux % 65536 : ℕ))), .set (a + 1) (.get b)]
  | .CALL | .CALLFB => plain (emitCall a b c)
  | .RETURN =>
    closing (if b = 1 then [.returnNone]
      else [.returnRange a (if b = 0 then none else some (a + b - 2))])
  | .JUMP | .JUMPBACK | .JUMPX | .FORGPREP_INEXT | .FORGPREP_NEXT => closing [.jump target]
  | .FORGPREP => closing [.comment .iteratorPreparation, .jump target]
  | .JUMPIF => branch (.get a)
  | .JUMPIFNOT => branch (.not (.get a))
  | .JUMPIFEQ => branch (.binary .eq (.get a) (.get aux))
  | .JUMPIFLE => branch (.binary .le (.get a) (.get aux))
  | .JUMPIFLT => branch (.binary .lt (.get a) (.get aux))
  | .JUMPIFNOTEQ => branch (.binary .ne (.get a) (.get aux))
  | .JUMPIFNOTLE => branch (.not (.binary .le (.get a) (.get aux)))
  | .JUMPIFNOTLT => branch (.not (.binary .lt (.get a) (.get aux)))
  | .JUMPXEQKNIL | .JUMPXEQKB | .JUMPXEQKN | .JUMPXEQKS =>
    let value :=
      if op = .JUMPXEQKNIL then .literal .nil
      else if op = .JUMPXEQKB then .literal (.boolean (aux % 2 == 1))
      else constant p (aux % 16777216 : ℕ)
    branch (.binary (if 2147483648 ≤ aux then .ne else .eq) (.get a) value)
  | .ADD | .SUB | .MUL | .DIV | .MOD | .POW | .IDIV =>
    set (.binary (.arith (op.arith?.getD .add)) (.get b) (.get c))
  | .AND => set (.binary .and (.get b) (.get c))
  | .OR => set (.binary .or (.get b) (.get c))
  | .ADDK | .SUBK | .MULK | .DIVK | .MODK | .POWK | .IDIVK =>
    set (.binary (.arith (op.arith?.getD .add)) (.get b) (constant p c))
  | .ANDK => set (.binary .and (.get b) (constant p c))
  | .ORK => set (.binary .or (.get b) (constant p c))
  | .SUBRK | .DIVRK => set (.binary (.arith (op.arith?.getD .add)) (constant p b) (.get c))
  | .CONCAT => set (.concat (List.range' b (c + 1 - b)))
  | .NOT => set (.not (.get b))
  | .MINUS => set (.minus (.get b))
  | .LENGTH => set (.length (.get b))
  | .NEWTABLE => set .newTable
  | .DUPTABLE => set (constant p d)
  | .SETLIST => plain [.setList a b (if c = 0 then none else some (b + c - 2)) aux]
  | .FORNPREP => closing [.branch (loopCondition a) next target]
  | .FORNLOOP =>
    closing [.set (a + 2) (.binary (.arith .add) (.get (a + 2)) (.get (a + 1))),
      .branch (loopCondition a) target next]
  | .FORGLOOP =>
    closing (.iterate a ::
      ((List.range (aux % 256)).map fun n => .set (a + 3 + n) (.iteratorResult n)) ++
      [.set (a + 2) (.iteratorResult 0),
        .branch (.binary .ne (.iteratorResult 0) (.literal .nil)) target next])
  | .GETVARARGS =>
    plain (if b = 0 then [.spreadVarargs a p.numparams]
      else (List.range (b - 1)).map fun n => .set (a + n) (.argument (p.numparams + n)))
  | .FASTCALL | .FASTCALL1 | .FASTCALL2 | .FASTCALL2K | .FASTCALL3 | .FASTPCALL =>
    if 0 ≤ target then closing [.comment .fastCallOmitted, .jump next]
    else plain [.comment .fastCallOmitted]
  | .NATIVECALL | .NEWCLASSMEMBER | .CMPPROTO | .NEWCLASS =>
    plain [.comment (.unsupported pc op)]

/-- The end of an arm. -/
def blockEnd (terminated : Bool) : List Stmt :=
  if terminated then []
  else match fallthrough with
    | some n => [.jump n]
    | none => [.returnNone]

/-- The loop over the instructions of a block, from `pc` on. -/
def renderFrom (stop : ℕ) : ℕ → ℕ → Bool → Pending → List Stmt
  | 0, _, terminated, _ => blockEnd fallthrough terminated
  | fuel + 1, pc, terminated, pending =>
    if pc < stop then
      let r := renderInstruction functions f fallthrough pc pending
      r.stmts ++ renderFrom stop fuel (pc + (opcode (f.proto.word pc)).getOpLength)
        (terminated || r.terminated) r.pending
    else blockEnd fallthrough terminated

end Instruction

/-- An arm of the dispatcher. -/
structure Arm where
  start : ℕ
  body : List Stmt

/-- The arms that `renderFunction` emits. -/
def arms (functions : List FunctionInfo) (f : FunctionInfo) : List Arm :=
  (blocks f.proto).zipIdx.map fun (block, n) =>
    let fallthrough := (blocks f.proto)[n + 1]?.map (·.1)
    { start := block.1
      body := renderFrom functions f fallthrough block.2 (block.2 - block.1) block.1 false none }

/-- The statements before the dispatcher: the parameters. -/
def prologue (f : FunctionInfo) : List Stmt :=
  (List.range f.proto.numparams).map fun n => .set n (.argument n)

end ByteVeil.RegisterDecompile
