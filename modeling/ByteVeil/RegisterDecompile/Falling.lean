import ByteVeil.RegisterDecompile.Reproduced

/-!
# Instructions that go on behind themselves

1. The statements that write registers, from a list of values too.
2. Calls, argument lists and table constructors.
3. Every instruction that neither jumps nor returns.
-/

namespace ByteVeil.RegisterDecompile

open ByteVeil.Luau ByteVeil.IR Fallible

variable {W : Type} {rt : Runtime W} {cl : Closures W} {locals : Locals}

/-! ## Statements -/

section Simple

variable (hrt : Private rt) (hr : locals.returned = none)
include hr

include hrt

end Simple

theorem run_mapM_reg (l : List ℕ) (m : Machine W) :
    (l.mapM reg).run m = some (l.map m.registers, m) := by
  induction l with
  | nil => rfl
  | cons r l ih =>
    rw [List.mapM_cons, run_reg_bind]
    exact exec_bind_ok.2 ⟨l.map m.registers, m, ih, rfl⟩

/-- The values of the registers from `first` to the end of an open list, or to a fixed one. -/
def operands (m : Machine W) (first : ℕ) (last : Option ℤ) : List Value :=
  (span first (last.getD m.top)).map m.registers

theorem Alike.operands {m m' : Machine W} (h : Alike m m') (first : ℕ) {last : Option ℤ}
    (htop : last = none → m'.top = m.top) : operands m' first last = operands m first last := by
  unfold RegisterDecompile.operands
  rw [h.1]
  cases last with
  | none => rw [htop rfl]
  | some n => rfl

section Call

variable {i : Instruction}

/-- The last argument of a call. -/
abbrev lastArgument (a b : ℕ) : Option ℤ := if b = 0 then none else some (a + b - 1)

/-- What a call does with its results. -/
def putResults (i : Instruction) (results : List Value) : Exec W Next := do
  if i.c = 0 then
    setRegs i.a results
    setTop (i.a + results.length - 1)
  else setRegs i.a (adjust (i.c - 1) results)
  return .goto (i.offset + i.length)

end Call

section Lists

variable {i : Instruction}

end Lists

/-! ## Instructions -/

/-- From where the machine and the statements of an instruction start. -/
def Before (rt : Runtime W) (p : Proto) (i : Instruction) (m m' : Machine W) : Prop :=
  Alike m m' ∧ (consumesOpen i = true → m'.top = m.top) ∧ Unshortened rt p i m

section Plain

variable {p : Proto} {i : Instruction} {vm : Exec W Next} {l : List Stmt}

end Plain

section Instructions

variable {functions : List FunctionInfo} {f : FunctionInfo} (hc : Checked f.proto) {pc : ℕ}
  (hb : Boundary f.proto pc)
include hc hb

end Instructions

end ByteVeil.RegisterDecompile
