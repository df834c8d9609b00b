import ByteVeil.Luau.Continuations
import ByteVeil.RegisterDecompile.Blocks

/-!
# The statements of a jump

1. Execution of statements in a row; only a return ends it.
2. A jump agrees with its statements when these assign the pc at which the machine goes on.
3. The comparisons, the constants and the loops.
-/

namespace ByteVeil.RegisterDecompile

open ByteVeil.Luau ByteVeil.IR
open ByteVeil.Lua51 (Double)

/-! ## Executing statements -/

/-- The statements that return. -/
def Stmt.returns : Stmt → Bool
  | .returnNone | .returnRange .. => true
  | _ => false

section Statements

variable {W : Type} {rt : Runtime W} {cl : Closures W}

end Statements

/-! ## Agreement -/

section Agreement

variable {W : Type} {rt : Runtime W} {cl : Closures W} {p : Proto}

/-- The value that the dispatcher assigns for a pc; what lies behind the code is `-1`. -/
def dispatched (p : Proto) (t : ℤ) : ℤ := if t = p.sizecode then -1 else t

end Agreement

/-! ## The conditions of the jumps -/

section Conditions

variable {W : Type} {rt : Runtime W} {cl : Closures W}

end Conditions

section Loops

variable {W : Type} (rt : Runtime W) (cl : Closures W) (locals : Locals) {m : Machine W}

variable {rt cl locals} {x y : Expr} {b c : Bool}

end Loops

/-- The constants whose text is read back as the same value. -/
def isScalar : Constant → Bool
  | .nil | .boolean _ | .number _ | .string _ => true
  | _ => false

theorem eval_constant {W : Type} (rt : Runtime W) (cl : Closures W) (locals : Locals) {p : Proto}
    {k : ℕ} (hk : k < p.sizek) (hscalar : isScalar (p.k.getD k .nil) = true) :
    (constant p k).eval rt cl locals = pure (constantAt rt p k) := by
  unfold constant constantAt
  rw [if_neg (by omega), Int.toNat_natCast]
  generalize p.k.getD k .nil = c at *
  cases c with
  | nil => rfl
  | boolean b => rfl
  | number bits => rfl
  | string bytes => rfl
  | integer l => cases hscalar
  | vector lanes => cases hscalar
  | table array nodes => cases hscalar
  | function target => cases hscalar
  | other => cases hscalar

/-- Three registers from `a` on hold numbers. -/
def NumericAt {W : Type} (m : Machine W) (a : ℕ) : Prop :=
  (m.registers a).isNumber = true ∧ (m.registers (a + 1)).isNumber = true ∧
    (m.registers (a + 2)).isNumber = true

section Jumps

variable {W : Type} {rt : Runtime W} {cl : Closures W} {locals : Locals} {p : Proto}
  {i : Instruction} {m : Machine W} {target next : ℤ}

theorem run_setRegs (r : ℕ) (values : List Value) (m : Machine W) :
    ∃ m', (setRegs r values).run m = some ((), m') := by
  induction values generalizing r m with
  | nil => exact ⟨m, rfl⟩
  | cons v values ih =>
    obtain ⟨m', h⟩ := ih (r + 1) (m.set r v)
    exact ⟨m', h⟩

end Jumps

end ByteVeil.RegisterDecompile
