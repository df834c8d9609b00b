import ByteVeil.Lua51.Conditions
import ByteVeil.Lua51.SimpleInstr

/-!
# Where constants are printed

The expressions into which `emitSimple`, `emitPcBlock` and `conditionExpr` print constants. Registers
and constants stand in them without parentheses.

1. Reads of tables, also of tables that are read themselves.
2. Calls and open results.
3. The expressions of an instruction.
4. Their texts.
-/

namespace ByteVeil.Lua51

open LuaSyntax Naming

/-! ## Table reads -/

/-- A valid identifier. -/
structure Identifier where
  name : List UInt8
  valid : validIdentifier name = true

/-- The key of a read: a name behind a dot, or a value in brackets. -/
inductive Key
  | field (name : Identifier)
  | element (key : Rendered)

/-- What is read or called; behind 33 reads, `nil` stands for the rest. -/
inductive Target
  | register (r pc : ℕ)
  | global
  | cut
  | read (base : Target) (key : Key)

section Reads

variable (p : Proto) (context : RenderContext)

end Reads

/-! ## Calls -/

/-- What is called. -/
inductive Callee
  | constant (c : Constant)
  | target (t : Target)

/-- The register or constant that is called. -/
def Rendered.callee : Rendered → Callee
  | constant c => .constant c
  | register r pc => .target (.register r pc)

/-- The text of a call or of an open result. -/
inductive Results
  | varargs
  | call (callee : Callee) (arguments : List Rendered)
  | openCall (callee : Callee) (arguments : List Rendered) (tail : Results)
  | methodCall (r pc : ℕ) (name : Identifier) (arguments : List Rendered)

theorem methodName_valid {p : Proto} {self : Instr} {name : List UInt8}
    (h : methodName p self = some name) : validIdentifier name = true := by
  unfold methodName at h
  split_ifs at h
  split at h
  · split_ifs at h with hvalid
    obtain rfl := Option.some.inj h
    exact hvalid
  · cases h

section Calls

variable (p : Proto) (context : RenderContext)

/-- A call of `colonMethodTarget` with the arguments. -/
def colonMethod (call : Instr) (arguments : List Rendered) : Results :=
  match colonMethodSelfForCall p call.pc with
  | some selfPc =>
    let self := p.instr selfPc
    match h : methodName p self with
    | some name => .methodCall self.b self.pc ⟨name, methodName_valid h⟩ arguments
    | none => .call (.target (.register call.a call.pc)) arguments
  | none => .call (.target (.register call.a call.pc)) arguments

/-- The call that an open result is printed as. -/
def OpenText.results : OpenText → Results
  | varargs _ => .varargs
  | call _ function arguments => .call function.callee arguments
  | methodCall pc arguments => colonMethod p (p.instr pc) arguments
  | openCall _ function arguments tail => .openCall function.callee arguments tail.results

end Calls

/-! ## The expressions of an instruction -/

/-- An expression with constants, or the list of a return or of a table's elements. -/
inductive Place
  | values (vs : List Rendered) (tail : Option Results)
  | arith (op : Arith) (lhs rhs : Rendered)
  | condition (op : Op) (negated : Bool) (lhs rhs : Rendered)
  | branch (op : Op) (expected : Bool) (lhs rhs : Rendered)
  | read (base : Target) (key : Key)

section Places

variable (p : Proto) (context : RenderContext) (i : Instr)

end Places

/-! ## Texts -/

section Texts

variable (format : Double → List Char) (p : Proto) (context : RenderContext)

/-- The text of a key with its dot or its brackets. -/
def Key.text : Key → List Char
  | field name => '.' :: characters name.name
  | element key => '[' :: (key.text format p context ++ [']'])

/-- The text of what is read or called. -/
def Target.text : Target → List Char
  | register r pc => renderedLocal p r pc context
  | global => ['_', 'G']
  | cut => ['n', 'i', 'l']
  | read base key => base.text ++ key.text format p context

/-- The text of what is called. -/
def Callee.text : Callee → List Char
  | constant c => c.text format
  | target t => t.text format p context

/-- Texts in the parentheses of a call. -/
def argumentText (arguments : List (List Char)) : List Char := '(' :: (commaText arguments ++ [')'])

/-- The text of a call or of an open result. -/
def Results.text : Results → List Char
  | varargs => ['.', '.', '.']
  | call callee arguments =>
    callee.text format p context ++ argumentText (arguments.map (Rendered.text format p context))
  | openCall callee arguments tail => callee.text format p context ++
      argumentText (arguments.map (Rendered.text format p context) ++ [tail.text])
  | methodCall r pc name arguments =>
    renderedLocal p r pc context ++ ':' :: characters name.name ++
      argumentText (arguments.map (Rendered.text format p context))

/-- The mark of an arithmetic operator. -/
def Arith.mark : Arith → Char
  | add => '+'
  | sub => '-'
  | mul => '*'
  | div => '/'
  | mod => '%'
  | pow => '^'

/-- A comparison in parentheses. -/
def comparisonExpr (op : Op) (lhs rhs : Rendered) : List Char :=
  '(' :: (lhs.text format p context ++ comparisonText op ++ rhs.text format p context ++ [')'])

/-- The text of an expression. -/
def Place.text : Place → List Char
  | values vs tail => commaText (vs.map (Rendered.text format p context) ++
      (tail.map (Results.text format p context)).toList)
  | arith op lhs rhs =>
    lhs.text format p context ++ [' ', op.mark, ' '] ++ rhs.text format p context
  | condition op negated lhs rhs =>
    (if negated then ['n', 'o', 't', ' '] else []) ++ comparisonExpr format p context op lhs rhs
  | branch op expected lhs rhs => comparisonExpr format p context op lhs rhs ++ [' ', '=', '=', ' '] ++
      (Constant.boolean expected).text format
  | read base key => (Target.read base key).text format p context

/-- The text of a comparison is that of `conditionExpr`. -/
theorem conditionExpr_eq (i : Instr) (h : i.op ≠ .TEST) : conditionExpr format p context i =
    (Place.condition i.op (i.a != 0) (renderedOperand p i i.b) (renderedOperand p i i.c)).text
      format p context := by
  unfold conditionExpr Place.text comparisonExpr
  rw [if_neg h]
  by_cases ha : i.a = 0 <;> simp [ha]

end Texts

end ByteVeil.Lua51
