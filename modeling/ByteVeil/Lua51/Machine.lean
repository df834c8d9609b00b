import ByteVeil.Lua51.ControlFlow
import ByteVeil.Lua51.Value
import Mathlib.Logic.Function.Basic
import Mathlib.Control.Monad.Basic

/-!
# The virtual machine

The effect of one instruction on the registers and on the world outside them: upvalues, globals and
tables. Operations on tables, calls, metamethods and the arithmetic of numbers are parameters; they
may change the registers too, since a closure may share them. Instructions with an open operand list
and `CLOSURE` are not executed here.
-/

namespace ByteVeil.Lua51

/-- The registers and the world. -/
structure Machine (W : Type) where
  regs : ℕ → Value
  world : W

/-- The machine with one register changed. -/
def Machine.set {W : Type} (m : Machine W) (r : ℕ) (v : Value) : Machine W :=
  { m with regs := Function.update m.regs r v }

@[simp] theorem Machine.set_regs {W : Type} (m : Machine W) (r s : ℕ) (v : Value) :
    (m.set r v).regs s = if s = r then v else m.regs s := by
  show Function.update m.regs r v s = _
  rw [Function.update_apply]

/-- Computations that change the machine or raise an error. -/
abbrev Exec (W : Type) := StateT (Machine W) Option

/-- The arithmetic operators. -/
inductive Arith
  | add | sub | mul | div | mod | pow
  deriving DecidableEq

/-- The operations that are not interpreted. -/
structure Runtime (W : Type) where
  compute : Arith → Double → Double → Double
  compute_nan : ∀ d e, e.isNan = true → (compute .add d e).isNan = true
  ofInteger : ℤ → Double
  parseNumber : List UInt8 → Option Double
  varargs : List Value
  arith : Arith → Value → Value → Exec W Value
  minus : Value → Exec W Value
  length : Value → Exec W Value
  concat : Value → Value → Exec W Value
  equal : ℕ → ℕ → Exec W Bool
  less : Value → Value → Exec W Bool
  lessEqual : Value → Value → Exec W Bool
  index : Value → Value → Exec W Value
  setIndex : Value → Value → Value → Exec W Unit
  global : Value → Exec W Value
  setGlobal : Value → Value → Exec W Unit
  upvalue : ℕ → Exec W Value
  setUpvalue : ℕ → Value → Exec W Unit
  newTable : Exec W Value
  call : Value → List Value → Exec W (List Value)
  detach : ℕ → Exec W Unit

variable {W : Type}

/-! ## Operators -/

namespace Runtime

variable (rt : Runtime W)

/-- The arithmetic operators on values. -/
def binary (op : Arith) : Value → Value → Exec W Value
  | .number d, .number e => pure (.number (rt.compute op d e))
  | x, y => rt.arith op x y

/-- Unary minus. -/
def negate : Value → Exec W Value
  | .number d => pure (.number d.neg)
  | x => rt.minus x

/-- `==`. -/
def eq : Value → Value → Exec W Bool
  | .number d, .number e => pure (d.eq e)
  | .object m, .object n => if m = n then pure true else rt.equal m n
  | x, y => pure (decide (x = y))

/-- `<`. -/
def lt : Value → Value → Exec W Bool
  | .number d, .number e => pure (d.lt e)
  | x, y => rt.less x y

/-- `<=`. -/
def le : Value → Value → Exec W Bool
  | .number d, .number e => pure (d.le e)
  | x, y => rt.lessEqual x y

/-- `..` over several values, from the right. -/
def concatAll : List Value → Exec W Value
  | [] => pure .nil
  | [x] => pure x
  | x :: xs => do rt.concat x (← concatAll xs)

/-- The conversion to a number. -/
def toNumber : Value → Option Double
  | .number d => some d
  | .string bytes => rt.parseNumber bytes
  | _ => none

end Runtime

/-! ## Registers -/

/-- An error. -/
def raise {α : Type} : Exec W α := fun _ => none

/-- An error unless the condition holds. -/
def require (condition : Bool) : Exec W Unit := if condition then pure () else raise

/-- Reading a register. -/
def reg (r : ℕ) : Exec W Value := do return (← get).regs r

/-- Writing a register. -/
def setReg (r : ℕ) (v : Value) : Exec W Unit := modify fun m => m.set r v

@[simp] theorem run_reg (r : ℕ) (m : Machine W) : (reg r).run m = some (m.regs r, m) := rfl

@[simp] theorem run_setReg (r : ℕ) (v : Value) (m : Machine W) :
    (setReg r v).run m = some ((), m.set r v) := rfl

@[simp] theorem run_reg_bind {α : Type} (r : ℕ) (f : Value → Exec W α) (m : Machine W) :
    (reg r >>= f).run m = (f (m.regs r)).run m := rfl

@[simp] theorem run_setReg_bind {α : Type} (r : ℕ) (v : Value) (f : Unit → Exec W α)
    (m : Machine W) : (setReg r v >>= f).run m = (f ()).run (m.set r v) := rfl

/-- Writing several registers; missing values are nil. -/
def setRegs : List ℕ → List Value → Exec W Unit
  | [], _ => pure ()
  | r :: rs, vs => do
    setReg r (vs.headD .nil)
    setRegs rs vs.tail

/-- A register or constant operand. -/
def rk (p : Proto) (operand : ℕ) : Exec W Value :=
  if isConstantOperand operand then pure (p.constants.getD (operand % 256) .nil).value
  else reg operand

/-! ## Instructions -/

/-- Where an instruction ends. -/
inductive Next
  | goto (pc : ℤ)
  | done (values : List Value)

/-- The index of the first entry that a `SETLIST` stores, minus one. -/
def setlistBase (i : Instr) : ℤ := (i.setlistBlock - 1) * 50

/-- The arithmetic opcodes. -/
def Op.arith? : Op → Option Arith
  | ADD => some .add
  | SUB => some .sub
  | MUL => some .mul
  | DIV => some .div
  | MOD => some .mod
  | POW => some .pow
  | _ => none

section Step

variable (rt : Runtime W) (p : Proto) (i : Instr)

/-- The tests: they jump as the next word says, or skip it. -/
def branch (jump : Bool) : Next := .goto (if jump then followingControlTarget p i else i.pc + 2)

/-- `FORLOOP` on numbers. -/
def vmForLoop : Exec W Next := do
  match ← reg i.a, ← reg (i.a + 1), ← reg (i.a + 2) with
  | .number index, .number limit, .number step =>
    let index := rt.compute .add index step
    setReg i.a (.number index)
    if (if Double.zero.lt step then index.le limit else limit.le index) then
      setReg (i.a + 3) (.number index)
      return .goto i.target
    else return .goto (i.pc + 1)
  | _, _, _ => raise

/-- `FORPREP`; the three control values are converted to numbers. -/
def vmForPrep : Exec W Next := do
  match rt.toNumber (← reg i.a), rt.toNumber (← reg (i.a + 1)), rt.toNumber (← reg (i.a + 2)) with
  | some index, some limit, some step =>
    setReg i.a (.number index)
    setReg (i.a + 1) (.number limit)
    setReg (i.a + 2) (.number step)
    setReg i.a (.number (rt.compute .sub index step))
    return .goto i.target
  | _, _, _ => raise

/-- The effect of an instruction. -/
def vmStep : Exec W Next := do
  let next : Next := .goto (i.pc + 1)
  match i.op with
  | .MOVE => setReg i.a (← reg i.b); return next
  | .LOADK => setReg i.a (p.constants.getD i.bx .nil).value; return next
  | .LOADBOOL =>
    setReg i.a (.boolean (i.b != 0))
    return if i.c ≠ 0 then .goto (i.pc + 2) else next
  | .LOADNIL =>
    setRegs (List.range' i.a (i.b + 1 - i.a)) []
    return next
  | .GETUPVAL => setReg i.a (← rt.upvalue i.b); return next
  | .GETGLOBAL => setReg i.a (← rt.global (p.constants.getD i.bx .nil).value); return next
  | .GETTABLE => setReg i.a (← rt.index (← reg i.b) (← rk p i.c)); return next
  | .SETGLOBAL => rt.setGlobal (p.constants.getD i.bx .nil).value (← reg i.a); return next
  | .SETUPVAL => rt.setUpvalue i.b (← reg i.a); return next
  | .SETTABLE => rt.setIndex (← reg i.a) (← rk p i.b) (← rk p i.c); return next
  | .NEWTABLE => setReg i.a (← rt.newTable); return next
  | .SELF =>
    setReg (i.a + 1) (← reg i.b)
    setReg i.a (← rt.index (← reg i.b) (← rk p i.c))
    return next
  | .ADD | .SUB | .MUL | .DIV | .MOD | .POW =>
    setReg i.a (← rt.binary (i.op.arith?.getD .add) (← rk p i.b) (← rk p i.c))
    return next
  | .UNM => setReg i.a (← rt.negate (← reg i.b)); return next
  | .NOT => setReg i.a (.boolean !(← reg i.b).truthy); return next
  | .LEN => setReg i.a (← rt.length (← reg i.b)); return next
  | .CONCAT =>
    let values ← (List.range' i.b (i.c + 1 - i.b)).mapM reg
    setReg i.a (← rt.concatAll values)
    return next
  | .JMP => return .goto i.target
  | .EQ => return branch p i ((← rt.eq (← rk p i.b) (← rk p i.c)) == (i.a != 0))
  | .LT => return branch p i ((← rt.lt (← rk p i.b) (← rk p i.c)) == (i.a != 0))
  | .LE => return branch p i ((← rt.le (← rk p i.b) (← rk p i.c)) == (i.a != 0))
  | .TEST => return branch p i ((← reg i.a).truthy == (i.c != 0))
  | .TESTSET =>
    let v ← reg i.b
    if v.truthy == (i.c != 0) then setReg i.a v
    return branch p i (v.truthy == (i.c != 0))
  | .CALL =>
    require (i.b != 0 && i.c != 0)
    let function ← reg i.a
    let arguments ← (List.range' (i.a + 1) (i.b - 1)).mapM reg
    setRegs (List.range' i.a (i.c - 1)) (← rt.call function arguments)
    return next
  | .TAILCALL =>
    require (i.b != 0)
    let function ← reg i.a
    let arguments ← (List.range' (i.a + 1) (i.b - 1)).mapM reg
    return .done (← rt.call function arguments)
  | .RETURN =>
    require (i.b != 0)
    return .done (← (List.range' i.a (i.b - 1)).mapM reg)
  | .FORLOOP => vmForLoop rt i
  | .FORPREP => vmForPrep rt i
  | .TFORLOOP =>
    let values ← rt.call (← reg i.a) [← reg (i.a + 1), ← reg (i.a + 2)]
    setRegs (List.range' (i.a + 3) i.c) values
    let control ← reg (i.a + 3)
    if control ≠ .nil then setReg (i.a + 2) control
    return branch p i (decide (control ≠ .nil))
  | .SETLIST =>
    require (i.b != 0)
    (List.range' 1 i.b).forM fun k => do
      let key := rt.ofInteger (setlistBase i + k)
      rt.setIndex (← reg i.a) (.number key) (← reg (i.a + k))
    return .goto (if i.c = 0 then i.pc + 2 else i.pc + 1)
  | .CLOSE =>
    ((List.range p.maxstack).filter fun r =>
      decide (i.a ≤ r) && p.capturedRegisters.getD r false).forM rt.detach
    return next
  | .VARARG =>
    require (i.b != 0)
    setRegs (List.range' i.a (i.b - 1)) rt.varargs
    return next
  | .CLOSURE | .EXTRAARG | .UNKNOWN _ => raise

end Step

end ByteVeil.Lua51
