import ByteVeil.LuaSyntax.Phrases

/-!
# The meaning of expressions

Values are a parameter, and so is what an expression finds in the running program: its variables, the
elements of its tables, calls, arithmetic and comparisons. Only the logical operators are interpreted.

1. Evaluation.
2. The truth of parentheses, negations, conjunctions and disjunctions.
3. Texts that keep their meaning between `and` and `or`.
-/

namespace LuaSyntax

/-! ## Evaluation -/

/-- The values that literals stand for, those that count as true, and the fixed negations. -/
structure Values (V : Type) where
  truthy : V → Bool
  nil : V
  boolean : Bool → V
  number : List Char → V
  string : List Char → V
  negated : V → Option V
  truthy_boolean : ∀ b, truthy (boolean b) = b

/-- What an expression finds in the running program. -/
structure World (V : Type) where
  lookup : List Char → V
  element : V → V → V
  varargs : V
  call : V → List V → V
  method : V → List Char → List V → V
  minus : V → V
  length : V → V
  arith : BinaryOp → V → V → V
  equal : V → V → Bool
  less : V → V → Bool
  lessEqual : V → V → Bool

section Eval

variable {V : Type} (k : Values V) (w : World V)

/-- An operator in front of its operand. -/
def World.unary : UnaryOp → V → V
  | .neg, v => (k.negated v).getD (w.minus v)
  | .not, v => k.boolean (!k.truthy v)
  | .len, v => w.length v

/-- An operator between its operands. -/
def World.binary : BinaryOp → V → V → V
  | .or, u, v => if k.truthy u then u else v
  | .and, u, v => if k.truthy u then v else u
  | .eq, u, v => k.boolean (w.equal u v)
  | .ne, u, v => k.boolean (!w.equal u v)
  | .lt, u, v => k.boolean (w.less u v)
  | .gt, u, v => k.boolean (w.less v u)
  | .le, u, v => k.boolean (w.lessEqual u v)
  | .ge, u, v => k.boolean (w.lessEqual v u)
  | op, u, v => w.arith op u v

mutual

/-- The value of an expression. -/
def World.eval : Expr → V
  | .nil => k.nil
  | .boolean b => k.boolean b
  | .varargs => w.varargs
  | .number text => k.number text
  | .string content => k.string content
  | .name text => w.lookup text
  | .index table key => w.element (World.eval table) (World.eval key)
  | .call function arguments => w.call (World.eval function) (World.evals arguments)
  | .methodCall object name arguments => w.method (World.eval object) name (World.evals arguments)
  | .unary op e => w.unary k op (World.eval e)
  | .binary op lhs rhs => w.binary k op (World.eval lhs) (World.eval rhs)
  | .paren e => World.eval e

/-- The values of arguments. -/
def World.evals : List Expr → List V
  | [] => []
  | e :: es => World.eval e :: World.evals es

end

/-- The expression counts as true. -/
def World.holds (e : Expr) : Bool := k.truthy (w.eval k e)

end Eval

/-! ## Truth -/

section Truth

variable {V : Type} (k : Values V) (w : World V) (e e' : Expr)

@[simp] theorem World.holds_paren : w.holds k (.paren e) = w.holds k e := by
  unfold World.holds
  rw [World.eval]

@[simp] theorem World.holds_not : w.holds k (.unary .not e) = !w.holds k e := by
  unfold World.holds
  rw [World.eval]
  exact k.truthy_boolean _

@[simp] theorem World.holds_and :
    w.holds k (.binary .and e e') = (w.holds k e && w.holds k e') := by
  unfold World.holds
  rw [World.eval]
  show k.truthy (if k.truthy (w.eval k e) then w.eval k e' else w.eval k e) = _
  cases h : k.truthy (w.eval k e)
  · exact h
  · rfl

@[simp] theorem World.holds_or : w.holds k (.binary .or e e') = (w.holds k e || w.holds k e') := by
  unfold World.holds
  rw [World.eval]
  show k.truthy (if k.truthy (w.eval k e) then w.eval k e else w.eval k e') = _
  cases h : k.truthy (w.eval k e)
  · rfl
  · exact h

end Truth

end LuaSyntax
