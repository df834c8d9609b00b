import Mathlib.Data.Nat.Basic
import Mathlib.Data.Int.Basic
import Mathlib.Data.List.GetD
import Mathlib.Tactic.Common

/-!
# Lua 5.1 prototypes

The records that the Lua 5.1 reader builds: decoded instructions with their jump targets, open-result
producers and closure bindings, constants, and the tree of prototypes.
-/

namespace ByteVeil.Lua51

/-- The opcodes; `EXTRAARG` marks the extra word of a `SETLIST`. -/
inductive Op
  | MOVE | LOADK | LOADBOOL | LOADNIL | GETUPVAL | GETGLOBAL | GETTABLE | SETGLOBAL | SETUPVAL
  | SETTABLE | NEWTABLE | SELF | ADD | SUB | MUL | DIV | MOD | POW | UNM | NOT | LEN | CONCAT | JMP
  | EQ | LT | LE | TEST | TESTSET | CALL | TAILCALL | RETURN | FORLOOP | FORPREP | TFORLOOP
  | SETLIST | CLOSE | CLOSURE | VARARG | EXTRAARG | UNKNOWN (code : ℕ)
  deriving DecidableEq, Inhabited

namespace Op

/-- `ops`. -/
def all : List Op :=
  [MOVE, LOADK, LOADBOOL, LOADNIL, GETUPVAL, GETGLOBAL, GETTABLE, SETGLOBAL, SETUPVAL, SETTABLE,
   NEWTABLE, SELF, ADD, SUB, MUL, DIV, MOD, POW, UNM, NOT, LEN, CONCAT, JMP, EQ, LT, LE, TEST,
   TESTSET, CALL, TAILCALL, RETURN, FORLOOP, FORPREP, TFORLOOP, SETLIST, CLOSE, CLOSURE, VARARG]

/-- The opcode of a six-bit code. -/
def ofCode (code : ℕ) : Op := all.getD code (UNKNOWN code)

/-- The instructions that end a search for an open-result producer. -/
def producesResults : Op → Bool
  | CALL | TAILCALL | VARARG => true
  | _ => false

end Op

/-- A 64-bit floating-point number: its sign bit and its other bits. -/
structure Double where
  negative : Bool
  magnitude : ℕ
  deriving DecidableEq, Inhabited

/-- The number with a 64-bit pattern. -/
def Double.ofBits (bits : ℕ) : Double :=
  ⟨decide (9223372036854775808 ≤ bits), bits % 9223372036854775808⟩

/-- A constant. -/
inductive Constant
  | nil
  | boolean (b : Bool)
  | number (d : Double)
  | string (bytes : List UInt8)
  deriving DecidableEq, Inhabited

/-- The name and the pc range of a local variable. -/
structure LocalInfo where
  name : List UInt8
  start : ℤ
  stop : ℤ
  deriving DecidableEq, Inhabited

/-- One captured variable of a `CLOSURE`. -/
structure CaptureInfo where
  bindingPc : ℕ
  sourceIndex : ℕ
  fromUpvalue : Bool
  deriving DecidableEq, Inhabited

/-- A decoded instruction; `target` is `-1` for an instruction without one. -/
structure Instr where
  raw : ℕ
  pc : ℕ
  op : Op
  a : ℕ := 0
  b : ℕ := 0
  c : ℕ := 0
  bx : ℕ := 0
  sbx : ℤ := 0
  target : ℤ := -1
  openProducer : Option ℕ := none
  setlistBlock : ℤ := -1
  closureBindingFor : Option ℕ := none
  captureSlot : Option ℕ := none
  extraWord : Bool := false
  captures : List CaptureInfo := []
  deriving DecidableEq, Inhabited

/-- A prototype. -/
structure Proto where
  id : ℕ
  parent : ℤ
  source : List UInt8
  linedefined : ℤ
  lastline : ℤ
  nups : ℕ
  params : ℕ
  vararg : ℕ
  maxstack : ℕ
  code : List Instr
  constants : List Constant
  children : List Proto
  lines : List ℤ
  locals : List LocalInfo
  upvalues : List (List UInt8)
  capturedRegisters : List Bool
  managedCapturedRegisters : List Bool
  deriving Inhabited

namespace Proto

/-- `p.code[pc]`. -/
def instr (p : Proto) (pc : ℕ) : Instr := p.code.getD pc default

/-- `p.code.size()`. -/
def size (p : Proto) : ℕ := p.code.length

mutual

/-- A prototype with everything nested in it. -/
def tree : Proto → List Proto
  | ⟨id, parent, source, linedefined, lastline, nups, params, vararg, maxstack, code, constants,
      children, lines, locals, upvalues, capturedRegisters, managedCapturedRegisters⟩ =>
    ⟨id, parent, source, linedefined, lastline, nups, params, vararg, maxstack, code, constants,
      children, lines, locals, upvalues, capturedRegisters, managedCapturedRegisters⟩ ::
      trees children

/-- The trees of several prototypes. -/
def trees : List Proto → List Proto
  | [] => []
  | p :: ps => tree p ++ trees ps

end

theorem tree_eq (p : Proto) : p.tree = p :: trees p.children := by
  cases p
  rw [tree]

theorem mem_trees {ps : List Proto} {q : Proto} : q ∈ trees ps ↔ ∃ p ∈ ps, q ∈ p.tree := by
  induction ps with
  | nil => simp [trees]
  | cons p ps ih => simp [trees, ih]

end Proto

end ByteVeil.Lua51
