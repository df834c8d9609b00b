import ByteVeil.Luau.Machine

/-!
# Emitted statements

The lines that the register-state renderer writes into the arms of its dispatcher, and their
execution on the machine. `get` and `set` stand for the functions that every emitted function
begins with.
-/

namespace ByteVeil.RegisterDecompile

open ByteVeil.Luau
open ByteVeil.Lua51 (Double)

/-! ## Syntax -/

/-- The text of a constant. A constant that is written as `nil` with a comment is `nil`. -/
inductive Literal
  | nil
  | boolean (b : Bool)
  | number (bits : BitVec 64)
  | integer (l : ℤ)
  | string (bytes : List UInt8)
  | table (fields : List (Literal × Literal))
  deriving Inhabited

/-- The operators between two expressions. -/
inductive Binary
  | arith (op : Arith)
  | and | or | eq | ne | lt | le | gt

/-- Expressions; `upvalue n` is `upvalue(n).value`, `argument n` is `select(n, ...)`, and `closure`
is a function that calls the emitted function of a child with the captures of a pc. -/
inductive Expr
  | literal (l : Literal)
  | integer (n : ℤ)
  | get (reg : ℕ)
  | getfenv
  | upvalue (n : ℕ)
  | index (table key : Expr)
  | binary (op : Binary) (lhs rhs : Expr)
  | not (e : Expr)
  | minus (e : Expr)
  | length (e : Expr)
  | concat (regs : List ℕ)
  | callResult (n : ℕ)
  | iteratorResult (n : ℕ)
  | argument (n : ℕ)
  | closure (child pc : ℕ)
  | newTable

/-- The comments. -/
inductive Comment
  | breakRetained
  | closeUpvalues (a : ℕ)
  | orphanCapture (a b : ℕ)
  | unknownCapture (a : ℕ)
  | iteratorPreparation
  | fastCallOmitted
  | unresolvedChild
  | unsupported (pc : ℕ) (op : Opcode)

/-- Statements. The last register of a range is `top` when it is `none`. -/
inductive Stmt
  | comment (text : Comment)
  | set (reg : ℕ) (value : Expr)
  | setUpvalue (n reg : ℕ)
  | setIndex (table key : Expr) (reg : ℕ)
  | newCaptures (pc : ℕ)
  | captureValue (pc n reg : ℕ)
  | shareCell (reg : ℕ)
  | captureCell (pc n reg : ℕ)
  | captureUpvalue (pc n up : ℕ)
  | packArguments (first : ℕ) (last : Option ℤ)
  | call (reg : ℕ)
  | spreadResults (reg : ℕ)
  | iterate (reg : ℕ)
  | spreadVarargs (reg params : ℕ)
  | setList (table first : ℕ) (last : Option ℤ) (start : ℕ)
  | jump (pc : ℤ)
  | branch (condition : Expr) (yes no : ℤ)
  | returnNone
  | returnRange (first : ℕ) (last : Option ℤ)

/-! ## Execution -/

/-- The locals of an emitted function other than its registers. -/
structure Locals where
  arguments : List Value := []
  results : List Value := []
  iteratorResults : List Value := []
  pc : ℤ := 0
  returned : Option (List Value) := none

/-- The lines about closures, which are not interpreted here. -/
structure Closures (W : Type) where
  create : ℕ → ℕ → Exec W Value
  capture : Stmt → Exec W Unit

section Execution

variable {W : Type} (rt : Runtime W) (cl : Closures W)

mutual

/-- The value of a constant's text. -/
def Literal.eval : Literal → Exec W Value
  | .nil => pure .nil
  | .boolean b => pure (.boolean b)
  | .number bits => pure (.number (Double.ofBits bits.toNat))
  | .integer l => pure (.number (rt.ofInteger l))
  | .string bytes => pure (.string bytes)
  | .table fields => do rt.newTable (← Literal.evalFields fields)

/-- The values of the fields of a table. -/
def Literal.evalFields : List (Literal × Literal) → Exec W (List (Value × Value))
  | [] => pure []
  | (key, value) :: fields => do
    let k ← key.eval
    let v ← value.eval
    require (k != .nil)
    return (k, v) :: (← Literal.evalFields fields)

end

/-- The operators that evaluate both sides. -/
def Binary.apply (x y : Value) : Binary → Exec W Value
  | .arith op => rt.binary op x y
  | .eq => do return .boolean (← rt.eq x y)
  | .ne => do return .boolean !(← rt.eq x y)
  | .lt => do return .boolean (← rt.lt x y)
  | .le => do return .boolean (← rt.le x y)
  | .gt => do return .boolean (← rt.lt y x)
  | .and => pure (if x.truthy then y else x)
  | .or => pure (if x.truthy then x else y)

/-- The value of an expression. -/
def Expr.eval (locals : Locals) : Expr → Exec W Value
  | literal l => l.eval rt
  | integer n => pure (.number (rt.ofInteger n))
  | get r => reg r
  | getfenv => pure rt.environment
  | upvalue n => rt.upvalue n
  | index table key => do
    let t ← table.eval locals
    rt.index t (← key.eval locals)
  | binary .and lhs rhs => do
    let x ← lhs.eval locals
    if x.truthy then rhs.eval locals else pure x
  | binary .or lhs rhs => do
    let x ← lhs.eval locals
    if x.truthy then pure x else rhs.eval locals
  | binary op lhs rhs => do
    let x ← lhs.eval locals
    op.apply rt x (← rhs.eval locals)
  | not e => do return .boolean !(← e.eval locals).truthy
  | minus e => do rt.negate (← e.eval locals)
  | length e => do rt.length (← e.eval locals)
  | concat [] => raise
  | concat [r] => reg r
  | concat regs => do rt.concat (← regs.mapM reg)
  | callResult n => pure (locals.results.getD n .nil)
  | iteratorResult n => pure (locals.iteratorResults.getD n .nil)
  | argument n => pure (rt.arguments.getD n .nil)
  | closure child pc => cl.create child pc
  | newTable => rt.newTable []

/-- `set`. -/
def setTopped (r : ℕ) (v : Value) : Exec W Unit := do
  setReg r v
  if (← getTop) < r then setTop r

/-- `set` for the values of a list, from `r` on. -/
def setAll (r : ℕ) : List Value → Exec W Unit
  | [] => pure ()
  | v :: vs => do
    setTopped r v
    setAll (r + 1) vs

/-- The values of a range of registers. -/
def range (first : ℕ) (last : Option ℤ) : Exec W (List Value) := do
  let last : ℤ ← match last with
    | some n => pure n
    | none => getTop
  (span first last).mapM reg

/-- Executing a statement. -/
def Stmt.exec (locals : Locals) : Stmt → Exec W Locals
  | .comment _ => return locals
  | .set r value => do setTopped r (← value.eval rt cl locals); return locals
  | .setUpvalue n r => do rt.setUpvalue n (← reg r); return locals
  | .setIndex table key r => do
    let t ← table.eval rt cl locals
    let k ← key.eval rt cl locals
    rt.setIndex t k (← reg r)
    return locals
  | .newCaptures pc => do cl.capture (.newCaptures pc); return locals
  | .captureValue pc n r => do cl.capture (.captureValue pc n r); return locals
  | .shareCell r => do cl.capture (.shareCell r); return locals
  | .captureCell pc n r => do cl.capture (.captureCell pc n r); return locals
  | .captureUpvalue pc n up => do cl.capture (.captureUpvalue pc n up); return locals
  | .packArguments first last => do return { locals with arguments := ← range first last }
  | .call r => do return { locals with results := ← rt.call (← reg r) locals.arguments }
  | .spreadResults r => do
    setAll r locals.results
    setTop (r + locals.results.length - 1)
    return locals
  | .iterate r => do
    let generator ← reg r
    let state ← reg (r + 1)
    return { locals with iteratorResults := ← rt.call generator [state, ← reg (r + 2)] }
  | .spreadVarargs r params => do
    let values := rt.arguments.drop params
    setAll r values
    setTop (r + values.length - 1)
    return locals
  | .setList table first last start => do
    let last : ℤ ← match last with
      | some n => pure n
      | none => getTop
    for source in span first last do
      let t ← reg table
      rt.setIndex t (.number (rt.ofInteger (start + source - first))) (← reg source)
    return locals
  | .jump pc => return { locals with pc := pc }
  | .branch condition yes no => do
    let v ← condition.eval rt cl locals
    return { locals with pc := if v.truthy then yes else no }
  | .returnNone => return { locals with returned := some [] }
  | .returnRange first last => do return { locals with returned := some (← range first last) }

/-- Executing statements in order; nothing follows a return. -/
def execAll : List Stmt → Locals → Exec W Locals
  | [], locals => return locals
  | s :: rest, locals => do
    let locals ← s.exec rt cl locals
    if locals.returned.isSome then return locals else execAll rest locals

end Execution

end ByteVeil.RegisterDecompile
