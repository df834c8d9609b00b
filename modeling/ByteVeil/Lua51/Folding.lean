import ByteVeil.Lua51.Definitions

/-!
# Value folding

`renderedValueAt` replaces a register by the constant, or by the register, that the code before the
use assigns to it. It reads the code in its textual order: the last instruction with the right `A`
counts as the definition. The fold is right exactly when the definitions that reach the use along
the control flow agree with it.
-/

namespace ByteVeil.Lua51

open FlowGraph

/-! ## The fold -/

/-- `RenderContext`. -/
structure RenderContext where
  capturedUpvalues : List String := []
  capturedUpvalueCells : List String := []
  stateMachine : Bool := false

/-- What a rendered value stands for: a constant, or the name of a register at a pc. -/
inductive Rendered
  | constant (c : Constant)
  | register (r pc : ℕ)
  deriving DecidableEq

/-- `writesRegister`. -/
def writesRegister (i : Instr) (r maxstack : ℕ) : Bool :=
  let contains := fun first last => decide (first ≤ r) && decide (r ≤ last)
  if i.extraWord ∨ i.closureBindingFor.isSome then false
  else
    match i.op with
    | .MOVE | .LOADK | .LOADBOOL | .GETUPVAL | .GETGLOBAL | .GETTABLE | .NEWTABLE | .ADD | .SUB
    | .MUL | .DIV | .MOD | .POW | .UNM | .NOT | .LEN | .CONCAT | .CLOSURE => r == i.a
    | .LOADNIL => contains i.a i.b
    | .SELF => r == i.a || r == i.a + 1
    | .TESTSET => r == i.a
    | .CALL =>
      if i.c = 0 then decide (i.a ≤ r) && decide (r < maxstack)
      else decide (1 < i.c) && contains i.a (i.a + i.c - 2)
    | .FORLOOP => r == i.a || r == i.a + 3
    | .FORPREP => r == i.a
    | .TFORLOOP => contains (i.a + 3) (i.a + 2 + i.c)
    | .VARARG =>
      if i.b = 0 then decide (i.a ≤ r) && decide (r < maxstack)
      else decide (1 < i.b) && contains i.a (i.a + i.b - 2)
    | _ => false

/-- Some edge jumps over the definition at `n` to a pc up to the use. -/
def bypassed (p : Proto) (n pc : ℕ) : Bool :=
  p.code.any fun edge => decide (edge.pc < n) && decide (n < edge.target) && decide (edge.target ≤ pc)

/-- Some instruction between the copy at `n` and the use writes the copied register. -/
def sourceChanged (p : Proto) (n pc source : ℕ) : Bool :=
  (List.range' (n + 1) (pc - (n + 1))).any fun between =>
    writesRegister (p.instr between) source p.maxstack

/-- The loop of `renderedValueAt`: `n` instructions before the use are left. -/
def foldFrom (p : Proto) : ℕ → ℕ → ℕ → Rendered
  | 0, r, pc => .register r pc
  | n + 1, r, pc =>
    let definition := p.instr n
    if definition.closureBindingFor.isSome ∨ definition.a ≠ r then foldFrom p n r pc
    else if bypassed p n pc then .register r pc
    else
      match definition.op with
      | .LOADK => .constant (p.constants.getD definition.bx .nil)
      | .MOVE =>
        if sourceChanged p n pc definition.b then .register r pc else foldFrom p n definition.b n
      | .LOADNIL => .constant .nil
      | _ => .register r pc

/-- `renderedValueAt`. -/
def renderedValueAt (p : Proto) (r pc : ℕ) (context : RenderContext) : Rendered :=
  if context.stateMachine then .register r pc else foldFrom p pc r pc

/-! ## The textual definition -/

end ByteVeil.Lua51
