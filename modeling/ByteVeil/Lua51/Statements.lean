import ByteVeil.Lua51.Machine

/-!
# Emitted statements

The statements that the dispatcher's blocks are made of, as Lua parses the emitted text, and their
execution on the machine. Registers and upvalues stand for the variables they are rendered as.
-/

namespace ByteVeil.Lua51

/-! ## Syntax -/

/-- Expressions; `global` is `_G[key]`. -/
inductive Expr
  | constant (c : Constant)
  | integer (n : ℤ)
  | name (bytes : List UInt8)
  | register (r : ℕ)
  | upvalue (n : ℕ)
  | global (key : Expr)
  | index (table key : Expr)
  | newTable
  | negate (e : Expr)
  | notE (e : Expr)
  | length (e : Expr)
  | binary (op : Arith) (lhs rhs : Expr)
  | concat (lhs rhs : Expr)
  | eq (lhs rhs : Expr)
  | ne (lhs rhs : Expr)
  | lt (lhs rhs : Expr)
  | le (lhs rhs : Expr)
  | andE (lhs rhs : Expr)
  | orE (lhs rhs : Expr)
  | toNumber (e : Expr)

/-- Statements; `setPc` assigns the dispatcher's variable and `detach` is `cell = {cell[1]}`. -/
inductive Stmt
  | assign (r : ℕ) (value : Expr)
  | assignUpvalue (n : ℕ) (value : Expr)
  | assignGlobal (key value : Expr)
  | assignIndex (table key value : Expr)
  | assignCall (rs : List ℕ) (function : Expr) (arguments : List Expr)
  | assignMethodCall (rs : List ℕ) (object : Expr) (name : List UInt8) (arguments : List Expr)
  | assignVarargs (rs : List ℕ)
  | setPc (pc : ℤ)
  | ifElse (condition : Expr) (yes no : List Stmt)
  | returnValues (values : List Expr)
  | returnCall (function : Expr) (arguments : List Expr)
  | returnMethodCall (object : Expr) (name : List UInt8) (arguments : List Expr)
  | detach (r : ℕ)
  | comment

/-! ## Execution -/

variable {W : Type} (rt : Runtime W)

/-- The value of an expression. -/
def Expr.eval : Expr → Exec W Value
  | constant c => pure c.value
  | integer n => pure (.number (rt.ofInteger n))
  | name bytes => rt.global (.string bytes)
  | register r => reg r
  | upvalue n => rt.upvalue n
  | global key => do rt.global (← key.eval)
  | index table key => do
    let t ← table.eval
    rt.index t (← key.eval)
  | newTable => rt.newTable
  | negate e => do rt.negate (← e.eval)
  | notE e => do return .boolean !(← e.eval).truthy
  | length e => do rt.length (← e.eval)
  | binary op lhs rhs => do
    let x ← lhs.eval
    rt.binary op x (← rhs.eval)
  | concat lhs rhs => do
    let x ← lhs.eval
    rt.concat x (← rhs.eval)
  | eq lhs rhs => do
    let x ← lhs.eval
    return .boolean (← rt.eq x (← rhs.eval))
  | ne lhs rhs => do
    let x ← lhs.eval
    return .boolean !(← rt.eq x (← rhs.eval))
  | lt lhs rhs => do
    let x ← lhs.eval
    return .boolean (← rt.lt x (← rhs.eval))
  | le lhs rhs => do
    let x ← lhs.eval
    return .boolean (← rt.le x (← rhs.eval))
  | andE lhs rhs => do
    let x ← lhs.eval
    if x.truthy then rhs.eval else pure x
  | orE lhs rhs => do
    let x ← lhs.eval
    if x.truthy then pure x else rhs.eval
  | toNumber e => do
    match rt.toNumber (← e.eval) with
    | some d => return .number d
    | none => return .nil

/-- What a statement list did: the last pc it assigned, or the values it returned. -/
inductive Flow
  | next (pc : Option ℤ)
  | returned (values : List Value)

/-- A method call: the lookup and the call with the object in front. -/
def callMethod (object : Expr) (name : List UInt8) (arguments : List Expr) :
    Exec W (List Value) := do
  let o ← object.eval rt
  let f ← rt.index o (.string name)
  rt.call f (o :: (← arguments.mapM (Expr.eval rt)))

/-- A call. -/
def callFunction (function : Expr) (arguments : List Expr) : Exec W (List Value) := do
  let f ← function.eval rt
  rt.call f (← arguments.mapM (Expr.eval rt))

mutual

/-- Executing a statement. -/
def Stmt.exec : Stmt → Exec W Flow
  | .assign r value => do setReg r (← value.eval rt); return .next none
  | .assignUpvalue n value => do rt.setUpvalue n (← value.eval rt); return .next none
  | .assignGlobal key value => do
    let k ← key.eval rt
    rt.setGlobal k (← value.eval rt)
    return .next none
  | .assignIndex table key value => do
    let t ← table.eval rt
    let k ← key.eval rt
    rt.setIndex t k (← value.eval rt)
    return .next none
  | .assignCall rs function arguments => do
    setRegs rs (← callFunction rt function arguments)
    return .next none
  | .assignMethodCall rs object name arguments => do
    setRegs rs (← callMethod rt object name arguments)
    return .next none
  | .assignVarargs rs => do setRegs rs rt.varargs; return .next none
  | .setPc pc => return .next (some pc)
  | .ifElse condition yes no => do
    if (← condition.eval rt).truthy then execAll yes else execAll no
  | .returnValues values => return .returned (← values.mapM (Expr.eval rt))
  | .returnCall function arguments => return .returned (← callFunction rt function arguments)
  | .returnMethodCall object name arguments =>
    return .returned (← callMethod rt object name arguments)
  | .detach r => do rt.detach r; return .next none
  | .comment => return .next none

/-- Executing statements in order. -/
def execAll : List Stmt → Exec W Flow
  | [] => return .next none
  | s :: ss => do
    match ← s.exec with
    | .returned values => return .returned values
    | .next none => execAll ss
    | .next (some pc) =>
      match ← execAll ss with
      | .next none => return .next (some pc)
      | flow => return flow

end

theorem Stmt.exec_setPc (pc : ℤ) : (Stmt.setPc pc).exec rt = pure (.next (some pc)) := by
  rw [Stmt.exec]

theorem execAll_nil : execAll rt [] = pure (.next none) := by rw [execAll]

end ByteVeil.Lua51
