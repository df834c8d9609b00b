import ByteVeil.IR.Validate
import ByteVeil.Lua51.Value
import Mathlib.Logic.Function.Basic
import Mathlib.Control.Monad.Basic

/-!
# The Luau virtual machine

The effect of one instruction on the registers and on the world outside them: upvalues, globals and
tables. Operations on tables, calls, metamethods and the arithmetic of numbers are parameters; they
may change the registers too, since a closure may share them. So are closures and their captures,
which are not interpreted here.
-/

namespace ByteVeil.Luau

open ByteVeil.IR
open ByteVeil.Lua51 (Double)

/-! ## Values -/

/-- The types of values other than nil, booleans, numbers and strings. -/
inductive Kind
  | lightuserdata | vector | integer | table | function | userdata | thread | buffer | other
  deriving DecidableEq, Inhabited

/-- A value. -/
inductive Value
  | nil
  | boolean (b : Bool)
  | number (d : Double)
  | string (bytes : List UInt8)
  | object (kind : Kind) (id : ℕ)
  deriving DecidableEq, Inhabited

/-- Everything except `nil` and `false` counts as true. -/
def Value.truthy : Value → Bool
  | .nil => false
  | .boolean b => b
  | _ => true

/-- A function. -/
def Value.isFunction : Value → Bool
  | .object .function _ => true
  | _ => false

/-- A table. -/
def Value.isTable : Value → Bool
  | .object .table _ => true
  | _ => false

/-- A number. -/
def Value.isNumber : Value → Bool
  | .number _ => true
  | _ => false

/-- A string. -/
def Value.isString : Value → Bool
  | .string _ => true
  | _ => false

/-- The registers, the index of the last value of an open list, and the world. -/
structure Machine (W : Type) where
  registers : ℕ → Value
  top : ℤ
  world : W

/-- The machine with one register changed. -/
def Machine.set {W : Type} (m : Machine W) (r : ℕ) (v : Value) : Machine W :=
  { m with registers := Function.update m.registers r v }

/-- Computations that change the machine or raise an error. -/
abbrev Exec (W : Type) := StateT (Machine W) Option

/-- The arithmetic operators. -/
inductive Arith
  | add | sub | mul | div | mod | pow | idiv
  deriving DecidableEq

/-- The operations that are not interpreted. -/
structure Runtime (W : Type) where
  compute : Arith → Double → Double → Double
  ofInteger : ℤ → Double
  ofInteger_zero : ofInteger 0 = Double.zero
  parseNumber : List UInt8 → Option Double
  compareStrings : List UInt8 → List UInt8 → Ordering
  constantObject : Constant → ℕ
  iterator : ℕ → ℕ
  environment : Value
  arguments : List Value
  safeEnvironment : W → Bool
  arith : Arith → Value → Value → Exec W Value
  minus : Value → Exec W Value
  length : Value → Exec W Value
  concat : List Value → Exec W Value
  equal : Kind → ℕ → ℕ → Exec W Bool
  less : Value → Value → Exec W Bool
  lessEqual : Value → Value → Exec W Bool
  index : Value → Value → Exec W Value
  setIndex : Value → Value → Value → Exec W Unit
  upvalue : ℕ → Exec W Value
  setUpvalue : ℕ → Value → Exec W Unit
  newTable : List (Value × Value) → Exec W Value
  call : Value → List Value → Exec W (List Value)
  iterMethod : Value → Exec W (Option Value)
  hasCallMethod : Value → Exec W Bool
  tableNext : ℕ → Value → Bool → Exec W (Option (Value × Value × Value))
  closure : Opcode → ℕ → ℤ → Exec W Unit

variable {W : Type}

/-- An error. -/
def raise {α : Type} : Exec W α := fun _ => none

/-! ## Operators -/

namespace Runtime

variable (rt : Runtime W)

/-- The arithmetic operators on values. -/
def binary (op : Arith) : Value → Value → Exec W Value
  | .number d, .number e => pure (.number (rt.compute op d e))
  | x, y => rt.arith op x y

/-- Unary minus. -/
def negate : Value → Exec W Value
  | .number d => pure (.number d.neg)
  | x => rt.minus x

/-- `luaV_equalval`: values of different types are different. -/
def eq : Value → Value → Exec W Bool
  | .number d, .number e => pure (d.eq e)
  | .object k m, .object l n => if k = l then (if m = n then pure true else rt.equal k m n)
    else pure false
  | x, y => pure (decide (x = y))

/-- `luaV_lessthan`: values of different types raise an error. -/
def lt : Value → Value → Exec W Bool
  | .number d, .number e => pure (d.lt e)
  | .string x, .string y => pure (rt.compareStrings x y == .lt)
  | .nil, .nil => rt.less .nil .nil
  | .boolean b, .boolean c => rt.less (.boolean b) (.boolean c)
  | .object k m, .object l n => if k = l then rt.less (.object k m) (.object l n) else raise
  | _, _ => raise

/-- `luaV_lessequal`: values of different types raise an error. -/
def le : Value → Value → Exec W Bool
  | .number d, .number e => pure (d.le e)
  | .string x, .string y => pure (rt.compareStrings x y != .gt)
  | .nil, .nil => rt.lessEqual .nil .nil
  | .boolean b, .boolean c => rt.lessEqual (.boolean b) (.boolean c)
  | .object k m, .object l n => if k = l then rt.lessEqual (.object k m) (.object l n) else raise
  | _, _ => raise

/-- `luaV_tonumber`. -/
def toNumber : Value → Option Double
  | .number d => some d
  | .string bytes => rt.parseNumber bytes
  | _ => none

/-- A constant as a value. -/
def constant : Constant → Value
  | .nil => .nil
  | .boolean b => .boolean b
  | .number bits => .number (Double.ofBits bits.toNat)
  | .string bytes => .string bytes
  | .integer l => .object .integer (rt.constantObject (.integer l))
  | .vector lanes => .object .vector (rt.constantObject (.vector lanes))
  | .table array nodes => .object .table (rt.constantObject (.table array nodes))
  | .function target => .object .function (rt.constantObject (.function target))
  | .other => .object .other (rt.constantObject .other)

/-- The entries of a table constant that are not nil, the array part first. -/
def entries (array : List Constant) (nodes : List (Constant × Constant)) : List (Value × Value) :=
  let items := (array.zipIdx : List (Constant × ℕ)).map fun item =>
    (Value.number (rt.ofInteger (item.2 + 1)), rt.constant item.1)
  let fields := nodes.map fun node => (rt.constant node.1, rt.constant node.2)
  (items ++ fields).filter fun entry => entry.2 != Value.nil

end Runtime

/-! ## Registers -/

/-- An error unless the condition holds. -/
def require (condition : Bool) : Exec W Unit := if condition then pure () else raise

/-- Reading a register. -/
def reg (r : ℕ) : Exec W Value := do return (← get).registers r

/-- Writing a register. -/
def setReg (r : ℕ) (v : Value) : Exec W Unit := modify fun m => m.set r v

/-- The end of an open list. -/
def getTop : Exec W ℤ := do return (← get).top

/-- Moving the end of an open list. -/
def setTop (top : ℤ) : Exec W Unit := modify fun m => { m with top := top }

/-- Writing values into the registers from `r` on. -/
def setRegs (r : ℕ) : List Value → Exec W Unit
  | [] => pure ()
  | v :: vs => do
    setReg r v
    setRegs (r + 1) vs

/-- The registers from `first` to `last`. -/
def span (first : ℕ) (last : ℤ) : List ℕ := List.range' first (last + 1 - first).toNat

/-- The first `n` values, missing ones as nil. -/
def adjust (n : ℕ) (values : List Value) : List Value :=
  (List.range n).map fun k => values.getD k .nil

@[simp] theorem run_reg_bind {α : Type} (r : ℕ) (f : Value → Exec W α) (m : Machine W) :
    (reg r >>= f).run m = (f (m.registers r)).run m := rfl

@[simp] theorem run_setReg_bind {α : Type} (r : ℕ) (v : Value) (f : Unit → Exec W α)
    (m : Machine W) : (setReg r v >>= f).run m = (f ()).run (m.set r v) := rfl

/-! ## Instructions -/

/-- Where an instruction ends. -/
inductive Next
  | goto (pc : ℤ)
  | done (values : List Value)

/-- The constant of an instruction. -/
def constantAt (rt : Runtime W) (p : Proto) (k : ℕ) : Value := rt.constant (p.k.getD k .nil)

/-- The opcodes with an arithmetic operator between two registers. -/
def Opcode.arith? : Opcode → Option Arith
  | ADD | ADDK => some .add
  | SUB | SUBK | SUBRK => some .sub
  | MUL | MULK => some .mul
  | DIV | DIVK | DIVRK => some .div
  | MOD | MODK => some .mod
  | POW | POWK => some .pow
  | IDIV | IDIVK => some .idiv
  | _ => none

section Step

variable (rt : Runtime W) (p : Proto) (i : Instruction)

/-- Where a jump by the signed field `D` leads. -/
def jumpD : Next := .goto (i.offset + 1 + i.d)

/-- A conditional jump by `D`. -/
def branchD (condition : Bool) : Next :=
  if condition then jumpD i else .goto (i.offset + i.length)

/-- The test of a numeric loop. -/
def continues (limit step index : Double) : Bool :=
  if Double.zero.lt step then index.le limit else limit.le index

/-- `luaV_getimport`: a path of up to three strings from the environment. -/
def getImport : Exec W Value := do
  let count := i.aux / 1073741824
  let key (shift : ℕ) := constantAt rt p (i.aux / shift % 1024)
  require (count != 0)
  let first ← rt.index rt.environment (key 1048576)
  if count < 2 then return first
  let second ← rt.index first (key 1024)
  if count < 3 then return second
  rt.index second (key 1)

/-- `FORNPREP`; the three control values are converted to numbers. -/
def vmForNPrep : Exec W Next := do
  let limit := rt.toNumber (← reg i.a)
  let step := rt.toNumber (← reg (i.a + 1))
  let index := rt.toNumber (← reg (i.a + 2))
  match limit, step, index with
  | some limit, some step, some index =>
    setReg i.a (.number limit)
    setReg (i.a + 1) (.number step)
    setReg (i.a + 2) (.number index)
    return if continues limit step index then .goto (i.offset + 1) else jumpD i
  | _, _, _ => raise

/-- `FORNLOOP` on numbers. -/
def vmForNLoop : Exec W Next := do
  match ← reg i.a, ← reg (i.a + 1), ← reg (i.a + 2) with
  | .number limit, .number step, .number index =>
    let index := rt.compute .add index step
    setReg (i.a + 2) (.number index)
    return if continues limit step index then jumpD i else .goto (i.offset + 1)
  | _, _, _ => raise

/-- The registers for the iteration that is built in: nil marks it. -/
def setBuiltin (state : Value) : Exec W Unit := do
  setReg i.a .nil
  setReg (i.a + 1) state
  setReg (i.a + 2) (.object .lightuserdata (rt.iterator 0))

/-- `FORGPREP`: functions stay, `__iter` is called, tables are iterated by the machine itself. -/
def vmForGPrep : Exec W Next := do
  let v ← reg i.a
  if v.isFunction then return jumpD i
  match ← rt.iterMethod v with
  | some method =>
    let results := adjust 3 (← rt.call method [v])
    setRegs i.a results
    require (results.headD .nil != .nil)
    return jumpD i
  | none =>
    if ← rt.hasCallMethod v then return jumpD i
    require v.isTable
    setBuiltin rt i v
    return jumpD i

/-- `FORGPREP_INEXT` and `FORGPREP_NEXT`; `fresh` says that the iteration is at its start. -/
def vmForGPrepNext (fresh : Value → Bool) : Exec W Next := do
  let m ← get
  if rt.safeEnvironment m.world && (m.registers (i.a + 1)).isTable &&
      fresh (m.registers (i.a + 2)) then
    setBuiltin rt i (m.registers (i.a + 1))
    return jumpD i
  require (m.registers i.a).isFunction
  return jumpD i

/-- `FORGLOOP`: nil before a table marks the iteration that is built in. -/
def vmForGLoop : Exec W Next := do
  let m ← get
  match m.registers i.a, m.registers (i.a + 1) with
  | .nil, .object .table t =>
    let ipairs := decide (2147483648 ≤ i.aux)
    setRegs (i.a + 5) (List.replicate (if ipairs then 0 else i.aux - 2) .nil)
    match ← rt.tableNext t (m.registers (i.a + 2)) ipairs with
    | some (index, key, value) =>
      setReg (i.a + 2) index
      setRegs (i.a + 3) [key, value]
      return jumpD i
    | none => return .goto (i.offset + i.length)
  | generator, state =>
    let results := adjust (i.aux % 256) (← rt.call generator [state, m.registers (i.a + 2)])
    setRegs (i.a + 3) results
    setReg (i.a + 2) (results.headD .nil)
    return branchD i (results.headD .nil != .nil)

/-- `CALL`. -/
def vmCall : Exec W Next := do
  let function ← reg i.a
  let last : ℤ ← if i.b = 0 then getTop else pure (i.a + i.b - 1)
  let results ← rt.call function (← (span (i.a + 1) last).mapM reg)
  if i.c = 0 then
    setRegs i.a results
    setTop (i.a + results.length - 1)
  else setRegs i.a (adjust (i.c - 1) results)
  return .goto (i.offset + i.length)

/-- `SETLIST`. -/
def vmSetList : Exec W Next := do
  let table ← reg i.a
  let last : ℤ ← if i.c = 0 then getTop else pure (i.b + i.c - 2)
  for source in span i.b last do
    rt.setIndex table (.number (rt.ofInteger (i.aux + source - i.b))) (← reg source)
  return .goto (i.offset + i.length)

/-- `GETVARARGS`. -/
def vmGetVarargs : Exec W Next := do
  let varargs := rt.arguments.drop p.numparams
  if i.b = 0 then
    setRegs i.a varargs
    setTop (i.a + varargs.length - 1)
  else setRegs i.a (adjust (i.b - 1) varargs)
  return .goto (i.offset + i.length)

/-- A register or, for an instruction with a constant, the constant at `C`. -/
def operandC : Exec W Value := if isCConstant i.opcode then pure (constantAt rt p i.c) else reg i.c

/-- The effect of an instruction; fast calls do not succeed. -/
def vmStep : Exec W Next := do
  let next : Next := .goto (i.offset + i.length)
  match i.opcode with
  | .NOP | .BREAK | .COVERAGE | .PREPVARARGS => return next
  | .LOADNIL => setReg i.a .nil; return next
  | .LOADB =>
    setReg i.a (.boolean (i.b != 0))
    return .goto (i.offset + 1 + i.c)
  | .LOADN => setReg i.a (.number (rt.ofInteger i.d)); return next
  | .LOADK => setReg i.a (constantAt rt p i.d.toNat); return next
  | .LOADKX => setReg i.a (constantAt rt p i.aux); return next
  | .MOVE => setReg i.a (← reg i.b); return next
  | .GETGLOBAL => setReg i.a (← rt.index rt.environment (constantAt rt p i.aux)); return next
  | .SETGLOBAL =>
    rt.setIndex rt.environment (constantAt rt p i.aux) (← reg i.a)
    return next
  | .GETUPVAL => setReg i.a (← rt.upvalue i.b); return next
  | .SETUPVAL => rt.setUpvalue i.b (← reg i.a); return next
  | .GETIMPORT =>
    let resolved := constantAt rt p i.d.toNat
    if resolved != .nil && rt.safeEnvironment (← get).world then setReg i.a resolved
    else setReg i.a (← getImport rt p i)
    return next
  | .GETTABLE => setReg i.a (← rt.index (← reg i.b) (← reg i.c)); return next
  | .SETTABLE => rt.setIndex (← reg i.b) (← reg i.c) (← reg i.a); return next
  | .GETTABLEKS => setReg i.a (← rt.index (← reg i.b) (constantAt rt p i.aux)); return next
  | .SETTABLEKS => rt.setIndex (← reg i.b) (constantAt rt p i.aux) (← reg i.a); return next
  | .GETUDATAKS =>
    setReg i.a (← rt.index (← reg i.b) (constantAt rt p (i.aux % 65536)))
    return next
  | .SETUDATAKS =>
    rt.setIndex (← reg i.b) (constantAt rt p (i.aux % 65536)) (← reg i.a)
    return next
  | .GETTABLEN =>
    setReg i.a (← rt.index (← reg i.b) (.number (rt.ofInteger (i.c + 1))))
    return next
  | .SETTABLEN =>
    rt.setIndex (← reg i.b) (.number (rt.ofInteger (i.c + 1))) (← reg i.a)
    return next
  | .NEWCLOSURE | .DUPCLOSURE | .CAPTURE | .CLOSEUPVALS =>
    rt.closure i.opcode i.a i.d
    return next
  | .NAMECALL | .NAMECALLUDATA =>
    let object ← reg i.b
    let key := if i.opcode = .NAMECALL then i.aux else i.aux % 65536
    let method ← rt.index object (constantAt rt p key)
    setReg (i.a + 1) object
    setReg i.a method
    return next
  | .CALL | .CALLFB => vmCall rt i
  | .RETURN =>
    let last : ℤ ← if i.b = 0 then getTop else pure (i.a + i.b - 2)
    return .done (← (span i.a last).mapM reg)
  | .JUMP | .JUMPBACK => return jumpD i
  | .JUMPX => return .goto (i.offset + 1 + i.e)
  | .JUMPIF => return branchD i (← reg i.a).truthy
  | .JUMPIFNOT => return branchD i !(← reg i.a).truthy
  | .JUMPIFEQ => return branchD i (← rt.eq (← reg i.a) (← reg i.aux))
  | .JUMPIFLE => return branchD i (← rt.le (← reg i.a) (← reg i.aux))
  | .JUMPIFLT => return branchD i (← rt.lt (← reg i.a) (← reg i.aux))
  | .JUMPIFNOTEQ => return branchD i !(← rt.eq (← reg i.a) (← reg i.aux))
  | .JUMPIFNOTLE => return branchD i !(← rt.le (← reg i.a) (← reg i.aux))
  | .JUMPIFNOTLT => return branchD i !(← rt.lt (← reg i.a) (← reg i.aux))
  | .JUMPXEQKNIL =>
    return branchD i (((← reg i.a) == .nil) != decide (2147483648 ≤ i.aux))
  | .JUMPXEQKB =>
    return branchD i
      (((← reg i.a) == .boolean (i.aux % 2 == 1)) != decide (2147483648 ≤ i.aux))
  | .JUMPXEQKN | .JUMPXEQKS =>
    -- asserted: a number for the one, a string for the other
    let key := constantAt rt p (i.aux % 16777216)
    require (if i.opcode = .JUMPXEQKN then key.isNumber else key.isString)
    return branchD i ((← rt.eq (← reg i.a) key) != decide (2147483648 ≤ i.aux))
  | .ADD | .SUB | .MUL | .DIV | .MOD | .POW | .IDIV | .ADDK | .SUBK | .MULK | .DIVK | .MODK | .POWK
  | .IDIVK =>
    let x ← reg i.b
    setReg i.a (← rt.binary (i.opcode.arith?.getD .add) x (← operandC rt p i))
    return next
  | .SUBRK | .DIVRK =>
    let y ← reg i.c
    setReg i.a (← rt.binary (i.opcode.arith?.getD .add) (constantAt rt p i.b) y)
    return next
  | .AND | .ANDK =>
    let x ← reg i.b
    if x.truthy then setReg i.a (← operandC rt p i) else setReg i.a x
    return next
  | .OR | .ORK =>
    let x ← reg i.b
    if x.truthy then setReg i.a x else setReg i.a (← operandC rt p i)
    return next
  | .CONCAT =>
    setReg i.a (← rt.concat (← (span i.b i.c).mapM reg))
    return next
  | .NOT => setReg i.a (.boolean !(← reg i.b).truthy); return next
  | .MINUS => setReg i.a (← rt.negate (← reg i.b)); return next
  | .LENGTH => setReg i.a (← rt.length (← reg i.b)); return next
  | .NEWTABLE => setReg i.a (← rt.newTable []); return next
  | .DUPTABLE =>
    match p.k.getD i.d.toNat .nil with
    | .table array nodes => setReg i.a (← rt.newTable (rt.entries array nodes)); return next
    | _ => raise
  | .SETLIST => vmSetList rt i
  | .FORNPREP => vmForNPrep rt i
  | .FORNLOOP => vmForNLoop rt i
  | .FORGLOOP => vmForGLoop rt i
  | .FORGPREP => vmForGPrep rt i
  | .FORGPREP_INEXT => vmForGPrepNext rt i fun index => index == .number Double.zero
  | .FORGPREP_NEXT => vmForGPrepNext rt i fun index => index == .nil
  | .GETVARARGS => vmGetVarargs rt p i
  | .FASTCALL | .FASTCALL1 | .FASTCALL2 | .FASTCALL2K | .FASTCALL3 | .FASTPCALL => return next
  | .NATIVECALL | .NEWCLASSMEMBER | .CMPPROTO | .NEWCLASS => raise

end Step

end ByteVeil.Luau
