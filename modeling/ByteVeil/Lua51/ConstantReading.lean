import ByteVeil.Lua51.OperandPlaces

/-!
# How printed constants are read

A constant is printed without parentheses, so what it denotes depends on where it stands.

1. The syntax tree of each expression.
2. An expression in which a literal is called or read is blocked.
3. Every other expression is read as its tree.
-/

namespace ByteVeil.Lua51

open LuaSyntax

/-! ## Syntax trees -/

section Trees

variable (numbers : NumberText) (p : Proto) (context : RenderContext)

/-- What a read is read as. -/
def Key.apply (base : LuaSyntax.Expr) : Key → LuaSyntax.Expr
  | field name => .index base (.string (characters name.name))
  | element key => .index base (key.tree numbers p context)

/-- What a target is read as. -/
def Target.tree : Target → LuaSyntax.Expr
  | register r pc => localTree p context r pc
  | global => .name ['_', 'G']
  | cut => .nil
  | read base key => key.apply numbers p context base.tree

/-- What a call is read as; the sign of a called constant is read last. -/
def Callee.apply (arguments : List LuaSyntax.Expr) : Callee → LuaSyntax.Expr
  | constant (.number d) =>
    let call := LuaSyntax.Expr.call (numbers.operand d.magnitude) arguments
    if d.negative then .unary .neg call else call
  | constant c => .call (c.tree numbers) arguments
  | target t => .call (t.tree numbers p context) arguments

/-- What a call or an open result is read as. -/
def Results.tree : Results → LuaSyntax.Expr
  | varargs => .varargs
  | call callee arguments =>
    callee.apply numbers p context (arguments.map (Rendered.tree numbers p context))
  | openCall callee arguments tail =>
    callee.apply numbers p context (arguments.map (Rendered.tree numbers p context) ++ [tail.tree])
  | methodCall r pc name arguments => .methodCall (localTree p context r pc)
      (characters name.name) (arguments.map (Rendered.tree numbers p context))

/-- The operator that is printed. -/
def Arith.binaryOp : Arith → BinaryOp
  | add => .add
  | sub => .sub
  | mul => .mul
  | div => .div
  | mod => .mod
  | pow => .pow

/-- What an operation is read as; the sign of the base of a power is read last. -/
def arithTree (op : Arith) (lhs rhs : Rendered) : LuaSyntax.Expr :=
  let other := LuaSyntax.Expr.binary op.binaryOp (lhs.tree numbers p context)
    (rhs.tree numbers p context)
  match op, lhs with
  | .pow, .constant (.number d) =>
    if d.negative then
      .unary .neg (.binary .pow (numbers.operand d.magnitude) (rhs.tree numbers p context))
    else other
  | _, _ => other

/-- What a comparison in parentheses is read as. -/
def comparisonTree (op : Op) (lhs rhs : Rendered) : LuaSyntax.Expr :=
  .paren (.binary (comparisonOp op) (lhs.tree numbers p context) (rhs.tree numbers p context))

/-- What the expressions are read as. -/
def Place.trees : Place → List LuaSyntax.Expr
  | values vs tail => vs.map (Rendered.tree numbers p context) ++
      (tail.map (Results.tree numbers p context)).toList
  | arith op lhs rhs => [arithTree numbers p context op lhs rhs]
  | condition op negated lhs rhs =>
    let comparison := comparisonTree numbers p context op lhs rhs
    [if negated then .unary .not comparison else comparison]
  | branch op expected lhs rhs =>
    [.binary .eq (comparisonTree numbers p context op lhs rhs) (.boolean expected)]
  | read base key => [(Target.read base key).tree numbers p context]

end Trees

/-- A constant with a minus sign. -/
def Rendered.negative : Rendered → Bool
  | constant c => c.negative
  | register _ _ => false

/-! ## Literals in front of suffixes -/

/-- The reads are cut off. -/
def Target.isCut : Target → Bool
  | register _ _ | global => false
  | cut => true
  | read base _ => base.isCut

/-- A literal is called. -/
def Callee.isLiteral : Callee → Bool
  | constant c => c.finite
  | target t => t.isCut

/-- A literal is called or read in the text. -/
def Results.isBlocked : Results → Bool
  | varargs | methodCall .. => false
  | call callee _ => callee.isLiteral
  | openCall callee _ tail => callee.isLiteral || tail.isBlocked

/-- The text makes no list of expressions. -/
def Place.isBlocked : Place → Bool
  | values _ (some tail) => tail.isBlocked
  | read base _ => base.isCut
  | _ => false

section Reading

variable {numbers : NumberText} {p : Proto} {context : RenderContext}

theorem Identifier.isName (name : Identifier) : IsName (characters name.name) :=
  isName_identifier name.valid

theorem closes_rendered (v : Rendered) :
    Closes (v.text numbers.format p context) (v.tree numbers p context) :=
  (operand_rendered numbers p context v).closes

theorem closes_arguments (vs : List Rendered) :
    List.Forall₂ Closes (vs.map (Rendered.text numbers.format p context))
      (vs.map (Rendered.tree numbers p context)) := by
  rw [List.forall₂_map_left_iff, List.forall₂_map_right_iff]
  exact List.forall₂_same.2 fun v _ => closes_rendered v

theorem Target.heads {t : Target} (h : t.isCut = false) :
    Heads (t.text numbers.format p context) (t.tree numbers p context) := by
  induction t with
  | register r pc => exact heads_local p context r pc
  | global =>
    have hname : IsName ['_', 'G'] := ⟨isWord_of_all rfl, by decide⟩
    exact heads_name hname
  | cut => cases h
  | read base key ih =>
    cases key with
    | field name => exact (ih h).field name.isName
    | element key => exact (ih h).element (closes_rendered key)

theorem Target.bars {t : Target} (h : t.isCut = true) :
    Bars inName (t.text numbers.format p context) := by
  induction t with
  | register | global => cases h
  | cut =>
    have hnil : literal (wordToken ['n', 'i', 'l']) = some .nil := rfl
    have hprints : Prints inName ['n', 'i', 'l'] _ := prints_word (isWord_of_all rfl)
    exact (isLiteral_literal hnil).bars (isOperand_literal hnil).closed hprints
  | read base key ih =>
    cases key with
    | field name => exact ((ih h).field name.isName).bars
    | element key => exact ((ih h).element (closes_rendered key)).bars

theorem Target.blocked {base : Target} (h : base.isCut = true) (key : Key) :
    Blocked inName ((Target.read base key).text numbers.format p context) := by
  cases key with
  | field name => exact (Target.bars h).field name.isName
  | element key => exact (Target.bars h).element (closes_rendered key)

theorem bars_word {text : List Char} {e : LuaSyntax.Expr} (hform : IsWord text)
    (hliteral : literal (wordToken text) = some e) : Bars inName text :=
  (isLiteral_literal hliteral).bars (isOperand_literal hliteral).closed (prints_word hform)

theorem NumberText.ne_minus (numbers : NumberText) (m : ℕ) :
    (∀ c ∈ (numbers.magnitude m).head?, c ≠ '-') ∧ numbers.magnitude m ≠ [] := by
  obtain ⟨c, cs, htext, hc⟩ := numbers.exists_cons m
  rw [htext]
  exact ⟨by simpa using hc, List.cons_ne_nil c cs⟩

theorem bars_number {d : Double} (h : d.magnitude < Double.infinite) :
    Bars inNumeral (numbers.format d) := by
  have hliteral : literal (.number (numbers.magnitude d.magnitude)) =
      some (.number (numbers.magnitude d.magnitude)) := rfl
  have hprints := prints_numeral (numbers.finite _ h).1
  have hsign : unaryOp (.mark ['-']) = some .neg := rfl
  unfold NumberText.format
  cases d.negative
  · exact (isLiteral_literal hliteral).bars (isOperand_literal hliteral).closed hprints
  · obtain ⟨hminus, hne⟩ := numbers.ne_minus d.magnitude
    exact ((isLiteral_literal hliteral).unary hsign).bars
      ((isOperand_literal hliteral).unary hsign).closed (hprints.minus hminus hne)

/-- A finite constant is a literal. -/
theorem bars_constant {c : Constant} (h : c.finite = true) :
    Bars inNumeral (c.text numbers.format) := by
  cases c with
  | nil => exact (bars_word (isWord_of_all rfl) rfl).weaken
  | boolean b => cases b <;> exact (bars_word (isWord_of_all rfl) rfl).weaken
  | number d => exact bars_number (of_decide_eq_true h)
  | string bytes =>
    have hliteral : literal (.string (characters bytes)) = some (.string (characters bytes)) := rfl
    exact (isLiteral_literal hliteral).bars (isOperand_literal hliteral).closed
      (prints_anything (prints_luaQuote bytes))

/-! ## Calls -/

/-- A magnitude that is not finite is a name, which can be called. -/
theorem NumberText.heads {m : ℕ} (h : ¬m < Double.infinite) :
    Heads (numbers.magnitude m) (numbers.operand m) := by
  unfold NumberText.operand
  rw [if_neg h]
  exact heads_name (numbers.isName h)

theorem Callee.bars {callee : Callee} (h : callee.isLiteral = true) :
    Bars inNumeral (callee.text numbers.format p context) := by
  cases callee with
  | constant c => exact bars_constant h
  | target t => exact (Target.bars h).weaken

/-- A name is called, or a target; there is a sign in front of a negative name. -/
theorem Callee.calls {callee : Callee} (h : callee.isLiteral = false) {texts : List (List Char)}
    {es : List LuaSyntax.Expr} (hes : List.Forall₂ Closes texts es) :
    Closes (callee.text numbers.format p context ++ argumentText texts)
      (callee.apply numbers p context es) := by
  cases callee with
  | target t => exact ((Target.heads h).call hes).closes
  | constant c =>
    cases c with
    | number d =>
      have hcall := (numbers.heads (of_decide_eq_false h)).call hes
      obtain ⟨negative, m⟩ := d
      cases negative
      · exact hcall.closes
      · obtain ⟨hminus, hne⟩ := numbers.ne_minus m
        refine (hcall.tight.neg ?_ (List.append_ne_nil_of_left_ne_nil hne _)).closes
        rwa [List.head?_append_of_ne_nil _ hne]
    | _ => cases h

theorem Callee.blocked {callee : Callee} (h : callee.isLiteral = false)
    {texts : List (List Char)} {es : List LuaSyntax.Expr} {text : List Char}
    (hes : List.Forall₂ Closes texts es) (htext : Blocked inNumeral text) :
    Blocked inNumeral (callee.text numbers.format p context ++ argumentText (texts ++ [text])) := by
  cases callee with
  | target t => exact (Target.heads h).blocked_call hes htext
  | constant c =>
    cases c with
    | number d =>
      have hcall := (numbers.heads (of_decide_eq_false h)).blocked_call hes htext
      obtain ⟨negative, m⟩ := d
      cases negative
      · exact hcall
      · obtain ⟨hminus, hne⟩ := numbers.ne_minus m
        refine hcall.neg ?_ (List.append_ne_nil_of_left_ne_nil hne _)
        rwa [List.head?_append_of_ne_nil _ hne]
    | _ => cases h

/-- A call is read as its tree, unless it calls a literal. -/
theorem Results.reads (r : Results) :
    (r.isBlocked = false →
      Closes (r.text numbers.format p context) (r.tree numbers p context)) ∧
    (r.isBlocked = true → Blocked inNumeral (r.text numbers.format p context)) := by
  induction r with
  | varargs =>
    refine ⟨fun _ => ?_, fun h => by cases h⟩
    have hliteral : literal (.mark ['.', '.', '.']) = some .varargs := rfl
    have hprints : Prints inNumeral ['.', '.', '.'] [.mark ['.', '.', '.']] :=
      fun _ _ _ hus => lexes_longMark (by decide) hus
    exact ⟨_, hprints, (isOperand_literal hliteral).closed⟩
  | call callee arguments =>
    have hes := @closes_arguments numbers p context arguments
    refine ⟨fun h => Callee.calls h hes, fun h => (Callee.bars h).call ?_⟩
    intro text htext
    obtain ⟨v, -, rfl⟩ := List.mem_map.1 htext
    exact (closes_rendered v).printable
  | openCall callee arguments tail ih =>
    have hes := @closes_arguments numbers p context arguments
    unfold Results.isBlocked
    cases hcallee : callee.isLiteral
    · refine ⟨fun h => ?_, fun h => Callee.blocked hcallee hes (ih.2 h)⟩
      exact Callee.calls hcallee (List.rel_append hes (.cons (ih.1 h) .nil))
    · refine ⟨fun h => absurd h (by simp), fun _ => (Callee.bars hcallee).call ?_⟩
      intro text htext
      rcases List.mem_append.1 htext with htext | htext
      · obtain ⟨v, -, rfl⟩ := List.mem_map.1 htext
        exact (closes_rendered v).printable
      · obtain rfl := List.mem_singleton.1 htext
        cases htail : tail.isBlocked
        · exact (ih.1 htail).printable
        · exact (ih.2 htail).printable
  | methodCall r pc name arguments =>
    refine ⟨fun _ => ?_, fun h => by cases h⟩
    exact ((heads_local p context r pc).methodCall name.isName (closes_arguments arguments)).closes

/-! ## Operators -/

theorem heads_comparison (op : Op) (lhs rhs : Rendered) :
    Heads (comparisonExpr numbers.format p context op lhs rhs)
      (comparisonTree numbers p context op lhs rhs) :=
  (stands_comparison numbers p context op lhs rhs).closes.paren

/-- A value without a sign in front binds tight. -/
theorem tight_rendered {v : Rendered} (h : v.negative = false) :
    Tight (v.text numbers.format p context) (v.tree numbers p context) := by
  cases v with
  | constant c => exact tight_constant numbers h
  | register r pc => exact (heads_local p context r pc).tight

/-- A power; the sign of its base is read last. -/
theorem closes_pow (lhs rhs : Rendered) :
    Closes (lhs.text numbers.format p context ++ [' ', '^', ' '] ++
      rhs.text numbers.format p context) (arithTree numbers p context .pow lhs rhs) := by
  have hrhs := operand_rendered numbers p context rhs
  cases lhs with
  | register r pc => exact Tight.pow (tight_rendered rfl) hrhs
  | constant c =>
    cases c with
    | number d =>
      obtain ⟨negative, m⟩ := d
      cases negative
      · exact (numbers.tight m).pow hrhs
      · obtain ⟨hminus, hne⟩ := numbers.ne_minus m
        exact (numbers.tight m).neg_pow hminus hne hrhs
    | _ => exact Tight.pow (tight_rendered rfl) hrhs

theorem closes_arith (op : Arith) (lhs rhs : Rendered) :
    Closes (lhs.text numbers.format p context ++ [' ', op.mark, ' '] ++
      rhs.text numbers.format p context) (arithTree numbers p context op lhs rhs) := by
  have hlhs := operand_rendered numbers p context lhs
  have hrhs := operand_rendered numbers p context rhs
  have hmark : IsMark [op.mark] := by cases op <;> exact isMark_one (by decide) rfl
  cases op with
  | pow => exact closes_pow lhs rhs
  | _ => exact (hlhs.binary hrhs hmark rfl (by decide) (by decide)).closes

/-! ## Expressions -/

/-- An expression is read as its tree, unless it calls or reads a literal. -/
theorem Place.reads {place : Place} (h : place.isBlocked = false) :
    ReadsList (place.text numbers.format p context) (place.trees numbers p context) := by
  cases place with
  | values vs tail =>
    refine readsList_commaText (List.rel_append (closes_arguments vs) ?_)
    cases tail with
    | none => exact .nil
    | some tail => exact .cons ((Results.reads tail).1 h) .nil
  | arith op lhs rhs => exact (closes_arith op lhs rhs).readsList
  | condition op negated lhs rhs =>
    cases negated
    · exact (heads_comparison op lhs rhs).closes.readsList
    · exact (stands_comparison numbers p context op lhs rhs).not.closes.readsList
  | branch op expected lhs rhs =>
    have hmark : IsMark ['=', '='] := isMark_long (by decide)
    have hrhs := operand_constant numbers (.boolean expected)
    have hlhs := @heads_comparison numbers p context op lhs rhs
    exact (hlhs.tight.operand.binary hrhs hmark rfl (by decide) (by decide)).closes.readsList
  | read base key =>
    have hheads : Heads ((Target.read base key).text numbers.format p context) _ := Target.heads h
    exact hheads.closes.readsList

end Reading

end ByteVeil.Lua51
