import ByteVeil.Lua51.ConstantReading

/-!
# What printed constants denote

1. What an expression should mean: its operator, applied to the values of its constants and to what
   its variables hold.
2. Plain expressions mean that.
3. In a world that tells infinities and undefined numbers from everything else, and in one that tells
   signs, other expressions mean something else.
-/

namespace ByteVeil.Lua51

open LuaSyntax

/-! ## Meaning -/

section Meaning

variable (numbers : NumberText) (w : World Value) (p : Proto) (context : RenderContext)

/-- The value of a constant, or what a register's variable holds. -/
def Rendered.value : Rendered → Value
  | constant c => c.value
  | register r pc => w.eval (luaValues numbers) (localTree p context r pc)

/-- The value of a key. -/
def Key.value : Key → Value
  | field name => .string name.name
  | element key => key.value numbers w p context

/-- The value that is read or called. -/
def Target.value : Target → Value
  | register r pc => w.eval (luaValues numbers) (localTree p context r pc)
  | global => w.lookup ['_', 'G']
  | cut => .nil
  | read base key => w.element base.value (key.value numbers w p context)

/-- The value that is called. -/
def Callee.value : Callee → Value
  | constant c => c.value
  | target t => t.value numbers w p context

/-- The value of a call or of an open result. -/
def Results.value : Results → Value
  | varargs => w.varargs
  | call callee arguments => w.call (callee.value numbers w p context)
      (arguments.map (Rendered.value numbers w p context))
  | openCall callee arguments tail => w.call (callee.value numbers w p context)
      (arguments.map (Rendered.value numbers w p context) ++ [tail.value])
  | methodCall r pc name arguments => w.method (w.eval (luaValues numbers) (localTree p context r pc))
      (characters name.name) (arguments.map (Rendered.value numbers w p context))

/-- The truth of a comparison. -/
def comparisonHolds (op : Op) (lhs rhs : Rendered) : Bool :=
  compare w op (lhs.value numbers w p context) (rhs.value numbers w p context)

/-- The values of an expression or of a list. -/
def Place.value : Place → List Value
  | values vs tail => vs.map (Rendered.value numbers w p context) ++
      (tail.map (Results.value numbers w p context)).toList
  | arith op lhs rhs =>
    [w.arith op.binaryOp (lhs.value numbers w p context) (rhs.value numbers w p context)]
  | condition op negated lhs rhs =>
    [.boolean (comparisonHolds numbers w p context op lhs rhs != negated)]
  | branch op expected lhs rhs =>
    [.boolean (w.equal (.boolean (comparisonHolds numbers w p context op lhs rhs))
      (.boolean expected))]
  | read base key => [(Target.read base key).value numbers w p context]

end Meaning

/-- A variable or a finite constant. -/
def Rendered.plain : Rendered → Bool
  | constant c => c.finite
  | register _ _ => true

/-- The key is plain. -/
def Key.plain : Key → Bool
  | field _ => true
  | element key => key.plain

/-- Plain keys of a variable. -/
def Target.plain : Target → Bool
  | register _ _ | global => true
  | cut => false
  | read base key => base.plain && key.plain

/-- No constant is called. -/
def Callee.plain : Callee → Bool
  | constant _ => false
  | target t => t.plain

/-- Plain values are passed to what is plain. -/
def Results.plain : Results → Bool
  | varargs => true
  | call callee arguments => callee.plain && arguments.all Rendered.plain
  | openCall callee arguments tail =>
    callee.plain && arguments.all Rendered.plain && tail.plain
  | methodCall _ _ _ arguments => arguments.all Rendered.plain

/-- Constants are finite, none is called, and no negative one is the base of a power. -/
def Place.plain : Place → Bool
  | values vs tail => vs.all Rendered.plain && tail.all Results.plain
  | arith op lhs rhs => lhs.plain && rhs.plain && !(op == .pow && lhs.negative)
  | condition _ _ lhs rhs | branch _ _ lhs rhs => lhs.plain && rhs.plain
  | read base key => base.plain && key.plain

section Plain

variable {numbers : NumberText} {p : Proto} {context : RenderContext} (w : World Value)

end Plain

/-! ## Telling infinities -/

section Taint

variable {numbers : Numerals} {p : Proto} {context : RenderContext}

end Taint

/-! ## Telling signs -/

section Exact

variable {numbers : Numerals} {p : Proto} {context : RenderContext}

end Exact

end ByteVeil.Lua51
