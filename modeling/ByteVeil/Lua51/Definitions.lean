import ByteVeil.FlowGraph.Copies
import ByteVeil.Lua51.ControlFlow
import ByteVeil.Lua51.Value

/-!
# What the instructions do to the registers

Every instruction of the virtual machine has outcomes: the pc it goes to, and for each register that
it writes whether the new content is a copy, a constant or a result. Together they make the copy
graph of a prototype. Tests are not interpreted, and neither are results; a call, or an operation
that may run a metamethod, may also assign the registers that a closure shares.
-/

namespace ByteVeil.Lua51

open FlowGraph

/-! ## Registers that a closure may assign -/

mutual

/-- The upvalues that a function, or a closure it creates, may assign. -/
def assigns : Proto → ℕ → Bool
  | ⟨_, _, _, _, _, _, _, _, _, code, _, children, _, _, _, _, _⟩ => fun slot =>
    let below := assignsEach children
    code.any fun i =>
      (i.op == .SETUPVAL && i.b == slot) ||
        (i.op == .CLOSURE && i.captures.zipIdx.any fun capture =>
          capture.1.fromUpvalue && capture.1.sourceIndex == slot &&
            (below.getD i.bx fun _ => false) capture.2)

/-- The same for each of several functions. -/
def assignsEach : List Proto → List (ℕ → Bool)
  | [] => []
  | p :: ps => assigns p :: assignsEach ps

end

/-- One way in which an instruction may end. -/
structure Outcome where
  next : ℤ
  written : ℕ → Option (Source ℕ Constant)
  deriving Inhabited

/-- Register `a` is written. -/
def put (a : ℕ) (source : Source ℕ Constant) (r : ℕ) : Option (Source ℕ Constant) :=
  if r = a then some source else none

/-- The registers of a range hold results. -/
def putResults (first stop r : ℕ) : Option (Source ℕ Constant) :=
  if first ≤ r ∧ r < stop then some (.fresh r) else none

/-- The outcomes of an instruction. -/
def outcomes (p : Proto) (i : Instr) : List Outcome :=
  let next : ℤ := i.pc + 1
  let skip : ℤ := i.pc + 2
  match i.op with
  | .MOVE => [⟨next, put i.a (.old i.b)⟩]
  | .LOADK => [⟨next, put i.a (.literal (p.constants.getD i.bx .nil))⟩]
  | .LOADBOOL => [⟨if i.c ≠ 0 then skip else next, put i.a (.literal (.boolean (i.b != 0)))⟩]
  | .LOADNIL =>
    [⟨next, fun r => if i.a ≤ r ∧ r ≤ i.b then some (.literal .nil) else none⟩]
  | .GETUPVAL | .GETGLOBAL | .GETTABLE | .NEWTABLE | .ADD | .SUB | .MUL | .DIV | .MOD | .POW
  | .UNM | .NOT | .LEN | .CONCAT => [⟨next, put i.a (.fresh i.a)⟩]
  | .SETGLOBAL | .SETUPVAL | .SETTABLE | .CLOSE => [⟨next, fun _ => none⟩]
  | .SELF =>
    [⟨next, fun r => if r = i.a then some (.fresh i.a) else put (i.a + 1) (.old i.b) r⟩]
  | .JMP => [⟨i.target, fun _ => none⟩]
  | .EQ | .LT | .LE | .TEST =>
    [⟨followingControlTarget p i, fun _ => none⟩, ⟨skip, fun _ => none⟩]
  | .TESTSET => [⟨followingControlTarget p i, put i.a (.old i.b)⟩, ⟨skip, fun _ => none⟩]
  | .CALL => [⟨next, putResults i.a (if i.c = 0 then p.maxstack else i.a + i.c - 1)⟩]
  | .TAILCALL | .RETURN => []
  | .FORLOOP =>
    [⟨i.target, fun r => if r = i.a ∨ r = i.a + 3 then some (.fresh i.a) else none⟩,
      ⟨next, put i.a (.fresh i.a)⟩]
  | .FORPREP => [⟨i.target, put i.a (.fresh i.a)⟩]
  | .TFORLOOP =>
    let results := putResults (i.a + 3) (i.a + 3 + i.c)
    [⟨followingControlTarget p i, fun r => if r = i.a + 2 then some (.fresh (i.a + 3))
        else results r⟩, ⟨skip, results⟩]
  | .SETLIST => [⟨if i.c = 0 then skip else next, fun _ => none⟩]
  | .CLOSURE => [⟨i.pc + 1 + i.captures.length, put i.a (.fresh i.a)⟩]
  | .VARARG => [⟨next, putResults i.a (if i.b = 0 then p.maxstack else i.a + i.b - 1)⟩]
  | .EXTRAARG | .UNKNOWN _ => []

/-- A pc with the registers that other code may assign there. -/
structure Point where
  pc : ℕ
  exposed : ℕ → Bool

end ByteVeil.Lua51
