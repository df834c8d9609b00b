import ByteVeil.Json.Utf8
import ByteVeil.Lua51.Machine
import ByteVeil.Lua51.Ranges
import ByteVeil.Lua51.Reading

/-!
# Branch conditions

`conditionExpr` prints the condition under which the machine skips the jump behind a test, and
`negateConditionExpr` works on its text. The printing of numbers, the values of variables and the
comparisons are parameters.

1. Texts of conditions and of chains.
2. What a condition should say, and what the texts mean.
3. Conditions and their negations are read as they are meant, also between `and` and `or`.
4. A condition says what the machine does exactly when its constants are finite and different
   registers in it are printed differently.
-/

namespace ByteVeil.Lua51

open LuaSyntax

/-! ## Texts -/

section Texts

variable (format : Double → List Char) (p : Proto) (context : RenderContext) (i : Instr)

/-- `renderedValue` of an operand. -/
def renderedOperand (operand : ℕ) : Rendered :=
  if isConstantOperand operand then .constant (p.constants.getD (operand % 256) .nil)
  else .register operand i.pc

/-- `op` of `conditionExpr`. -/
def comparisonText : Op → List Char
  | .EQ => [' ', '=', '=', ' ']
  | .LT => [' ', '<', ' ']
  | _ => [' ', '<', '=', ' ']

/-- `conditionExpr`. -/
def conditionExpr : List Char :=
  if i.op = .TEST then
    let test := renderedLocal p i.a i.pc context
    if i.c ≠ 0 then ['n', 'o', 't', ' ', '('] ++ test ++ [')'] else test
  else
    let lhs := (renderedOperand p i i.b).text format p context
    let rhs := (renderedOperand p i i.c).text format p context
    let comparison := '(' :: (lhs ++ comparisonText i.op ++ rhs ++ [')'])
    if i.a ≠ 0 then ['n', 'o', 't', ' '] ++ comparison else comparison

/-- `negateConditionExpr`. -/
def negateConditionExpr (condition : List Char) : List Char :=
  if ['n', 'o', 't', ' ', '('].isPrefixOf condition ∧ 6 < condition.length ∧
      condition.getLast? = some ')' then (condition.drop 5).take (condition.length - 6)
  else ['n', 'o', 't', ' ', '('] ++ condition ++ [')']

/-- A condition in a chain. -/
structure Link where
  pc : ℕ
  negated : Bool

/-- The text of a condition in a chain. -/
def Link.text (l : Link) : List Char :=
  let fallthrough := conditionExpr format p context (p.instr l.pc)
  if l.negated then negateConditionExpr fallthrough else fallthrough

end Texts

/-! ## Meaning -/

/-- The value of the bytes that a string's characters stand for. -/
def bytesOf (content : List Char) : List UInt8 := content.map fun c => UInt8.ofNat c.toNat

/-- The values of Lua. -/
def luaValues (numbers : NumberText) : Values Value where
  truthy := Value.truthy
  nil := .nil
  boolean := .boolean
  number text := ((numbers.value text).map Value.number).getD .nil
  string content := .string (bytesOf content)
  negated
    | .number d => some (.number d.neg)
    | _ => none
  truthy_boolean _ := rfl

section Meaning

variable (numbers : NumberText) (w : World Value) (p : Proto) (context : RenderContext) (i : Instr)

/-- The text is read as an expression with the value. -/
def HasValue (text : List Char) (v : Value) : Prop :=
  ∃ e, Reads text e ∧ w.eval (luaValues numbers) e = v

/-- The text is read as an expression with the truth value. -/
def Says (text : List Char) (b : Bool) : Prop := ∃ v, HasValue numbers w text v ∧ v.truthy = b

/-- The constants of a test. -/
def testedConstants : List Constant :=
  if i.op = .TEST then []
  else ([i.b, i.c].filter isConstantOperand).map fun x => p.constants.getD (x % 256) .nil

/-- The registers of a test. -/
def testedRegisters : List ℕ :=
  if i.op = .TEST then [i.a] else [i.b, i.c].filter fun x => !isConstantOperand x

/-- The value of an operand. -/
def operandValue (regs : ℕ → Value) (operand : ℕ) : Value :=
  if isConstantOperand operand then (p.constants.getD (operand % 256) .nil).value else regs operand

/-- The machine skips the jump behind the test. -/
def skipsJump (regs : ℕ → Value) : Bool :=
  let lhs := operandValue p regs i.b
  let rhs := operandValue p regs i.c
  match i.op with
  | .EQ => w.equal lhs rhs != (i.a != 0)
  | .LT => w.less lhs rhs != (i.a != 0)
  | .LE => w.lessEqual lhs rhs != (i.a != 0)
  | _ => (regs i.a).truthy != (i.c != 0)

/-- The variables of the test's registers have the registers' values. -/
def Carries (regs : ℕ → Value) : Prop :=
  ∀ r ∈ testedRegisters i, HasValue numbers w (renderedLocal p r i.pc context) (regs r)

/-- Whatever the registers hold, the variables can hold it, and then the condition is true exactly
when the machine skips the jump. -/
def ConditionExact : Prop :=
  ∀ regs : ℕ → Value, (∃ w, Carries numbers w p context i regs) ∧
    ∀ w, Carries numbers w p context i regs →
      Says numbers w (conditionExpr numbers.format p context i) (skipsJump w p i regs)

/-- Conditions have truth values, and any of them, some negated, can be joined. -/
def NegationExact : Prop :=
  ∀ w, ∃ truth : ℕ → Bool,
    (∀ pc, isCondition (p.instr pc).op = true →
      Says numbers w (conditionExpr numbers.format p context (p.instr pc)) (truth pc)) ∧
    ∀ j : Joiner, ∀ ls : List Link, ls ≠ [] → (∀ l ∈ ls, isCondition (p.instr l.pc).op = true) →
      Says numbers w (j.text (ls.map (Link.text numbers.format p context)))
        (j.truth (ls.map fun l => l.negated != truth l.pc))

/-- Constants are finite, and different registers are printed differently. -/
structure PlainTest : Prop where
  finite : ∀ c ∈ testedConstants p i, c.finite = true
  apart : ∀ r ∈ testedRegisters i, ∀ s ∈ testedRegisters i,
    renderedLocal p r i.pc context = renderedLocal p s i.pc context → r = s

end Meaning

/-- The machine decides a test by its comparison of the operands. -/
theorem run_vmStep_test {W : Type} {rt : Runtime W} {w : World Value} {p : Proto} {i : Instr}
    {m : Machine W} (hop : isCondition i.op = true)
    (heq : ∀ x y, (rt.eq x y).run m = some (w.equal x y, m))
    (hlt : ∀ x y, (rt.lt x y).run m = some (w.less x y, m))
    (hle : ∀ x y, (rt.le x y).run m = some (w.lessEqual x y, m)) :
    (vmStep rt p i).run m = some (branch p i (!skipsJump w p i m.regs), m) := by
  have hrk : ∀ x, (rk p x).run m = some (operandValue p m.regs x, m) := by
    intro x
    unfold rk operandValue
    split_ifs <;> rfl
  have hcompare : ∀ compare : Value → Value → Exec W Bool, ∀ b : Value → Value → Bool,
      (∀ x y, (compare x y).run m = some (b x y, m)) →
      StateT.run (do
        return branch p i ((← compare (← rk p i.b) (← rk p i.c)) == (i.a != 0))) m =
        some (branch p i (b (operandValue p m.regs i.b) (operandValue p m.regs i.c) == (i.a != 0)),
          m) := by
    intro compare b hb
    simp only [StateT.run_bind, hrk, hb, Option.bind_eq_bind, Option.bind_some]
    rfl
  have hjump : ∀ x y : Bool, (!(x != y)) = (x == y) := by decide
  unfold vmStep skipsJump
  cases hi : i.op <;> rw [hi] at hop <;> first
    | exact absurd hop Bool.false_ne_true
    | skip
  all_goals dsimp only
  all_goals rw [hjump]
  · exact hcompare _ _ heq
  · exact hcompare _ _ hlt
  · exact hcompare _ _ hle
  · rfl

/-! ## The expressions that are read -/

section Trees

variable (numbers : NumberText) (p : Proto) (context : RenderContext) (i : Instr)

/-- The comparison without its parentheses, or the tested register. -/
def coreText : List Char :=
  if i.op = .TEST then renderedLocal p i.a i.pc context
  else (renderedOperand p i i.b).text numbers.format p context ++ comparisonText i.op ++
    (renderedOperand p i i.c).text numbers.format p context

/-- The operator that is printed. -/
def comparisonOp : Op → BinaryOp
  | .EQ => .eq
  | .LT => .lt
  | _ => .le

/-- What `coreText` is read as. -/
def coreTree : LuaSyntax.Expr :=
  if i.op = .TEST then localTree p context i.a i.pc
  else .binary (comparisonOp i.op) ((renderedOperand p i i.b).tree numbers p context)
    ((renderedOperand p i i.c).tree numbers p context)

/-- The condition is printed with `not`. -/
def reversed : Bool := if i.op = .TEST then i.c != 0 else i.a != 0

/-- What the condition is read as. -/
def conditionTree : LuaSyntax.Expr :=
  let core := coreTree numbers p context i
  if reversed i then .unary .not (.paren core) else if i.op = .TEST then core else .paren core

/-- What the negated condition is read as. -/
def negatedTree : LuaSyntax.Expr :=
  if reversed i then coreTree numbers p context i
  else .unary .not (.paren (conditionTree numbers p context i))

/-- What a condition in a chain is read as. -/
def Link.tree (l : Link) : LuaSyntax.Expr :=
  if l.negated then negatedTree numbers p context (p.instr l.pc)
  else conditionTree numbers p context (p.instr l.pc)

/-! ## Reading conditions -/

/-- Operands with a comparison between them. -/
theorem stands_comparison (op : Op) (lhs rhs : Rendered) :
    Stands (lhs.text numbers.format p context ++ comparisonText op ++
      rhs.text numbers.format p context)
      (.binary (comparisonOp op) (lhs.tree numbers p context) (rhs.tree numbers p context)) := by
  have hlhs := operand_rendered numbers p context lhs
  have hrhs := operand_rendered numbers p context rhs
  unfold comparisonText comparisonOp
  split
  · have hmark : IsMark ['=', '='] := isMark_long (by decide)
    exact hlhs.binary hrhs hmark rfl (by decide) (by decide)
  · have hmark : IsMark ['<'] := isMark_one (by decide) rfl
    exact hlhs.binary hrhs hmark rfl (by decide) (by decide)
  · have hmark : IsMark ['<', '='] := isMark_long (by decide)
    exact hlhs.binary hrhs hmark rfl (by decide) (by decide)

theorem stands_core : Stands (coreText numbers p context i) (coreTree numbers p context i) := by
  unfold coreText coreTree
  split_ifs with htest
  · exact (operand_local p context i.a i.pc).stands
  · exact stands_comparison numbers p context i.op (renderedOperand p i i.b)
      (renderedOperand p i i.c)

theorem conditionExpr_reversed (h : reversed i = true) :
    conditionExpr numbers.format p context i = notText (coreText numbers p context i) := by
  unfold reversed at h
  unfold conditionExpr coreText
  split_ifs at h ⊢ with htest hzero hzero
  · rfl
  · exact absurd (bne_iff_ne.1 h) hzero
  · rfl
  · exact absurd (bne_iff_ne.1 h) hzero

theorem conditionExpr_test (h : reversed i = false) (htest : i.op = .TEST) :
    conditionExpr numbers.format p context i = coreText numbers p context i := by
  unfold reversed at h
  rw [if_pos htest] at h
  unfold conditionExpr coreText
  rw [if_pos htest, if_pos htest]
  exact if_neg (by simpa using h)

theorem conditionExpr_comparison (h : reversed i = false) (htest : i.op ≠ .TEST) :
    conditionExpr numbers.format p context i = '(' :: (coreText numbers p context i ++ [')']) := by
  unfold reversed at h
  rw [if_neg htest] at h
  unfold conditionExpr coreText
  rw [if_neg htest, if_neg htest]
  exact if_neg (by simpa using h)

theorem stands_condition :
    Stands (conditionExpr numbers.format p context i) (conditionTree numbers p context i) := by
  have hcore := stands_core numbers p context i
  unfold conditionTree
  cases h : reversed i
  · by_cases htest : i.op = .TEST
    · rw [conditionExpr_test numbers p context i h htest]
      simpa [htest] using hcore
    · rw [conditionExpr_comparison numbers p context i h htest]
      simpa [htest] using hcore.paren
  · rw [conditionExpr_reversed numbers p context i h]
    exact hcore.not

/-! ## Negating conditions -/

theorem negateConditionExpr_notText {text : List Char} (h : text ≠ []) :
    negateConditionExpr (notText text) = text := by
  have hlength : (notText text).length = text.length + 6 := by simp [notText]
  have hpos := List.length_pos_iff.2 h
  unfold negateConditionExpr
  rw [if_pos, hlength]
  · simp [notText]
  · refine ⟨by simp [notText], by omega, ?_⟩
    unfold notText
    exact List.getLast?_concat

theorem negateConditionExpr_other {text : List Char}
    (h : ['n', 'o', 't', ' ', '('].isPrefixOf text = false) :
    negateConditionExpr text = notText text := by
  unfold negateConditionExpr
  rw [if_neg (by simp [h])]
  rfl

/-- A register's variable has no blank. -/
theorem blank_not_mem_local (r pc : ℕ) : ' ' ∉ renderedLocal p r pc context := by
  have hname {text : List Char} (h : IsName text) : ' ' ∉ text := fun hmem =>
    absurd (h.word.inName _ hmem) (by decide)
  unfold renderedLocal content
  split_ifs
  · rw [List.mem_append]
    rintro (hmem | hmem)
    · exact hname (isName_capturedCellName p r) hmem
    · exact absurd hmem (by decide)
  · exact hname (isName_renderedRegisterName p r pc context)

/-- Only a condition with `not` begins with `not (`. -/
theorem not_isPrefixOf_condition (h : reversed i = false) :
    ['n', 'o', 't', ' ', '('].isPrefixOf (conditionExpr numbers.format p context i) = false := by
  by_cases htest : i.op = .TEST
  · rw [conditionExpr_test numbers p context i h htest]
    unfold coreText
    rw [if_pos htest, Bool.eq_false_iff]
    intro hbegins
    have hmem := (List.isPrefixOf_iff_prefix.1 hbegins).subset (show ' ' ∈ _ by decide)
    exact blank_not_mem_local p context i.a i.pc hmem
  · rw [conditionExpr_comparison numbers p context i h htest]
    rfl

theorem stands_negated : Stands (negateConditionExpr (conditionExpr numbers.format p context i))
    (negatedTree numbers p context i) := by
  have hcore := stands_core numbers p context i
  unfold negatedTree
  cases h : reversed i
  · rw [negateConditionExpr_other (not_isPrefixOf_condition numbers p context i h)]
    exact (stands_condition numbers p context i).not
  · rw [conditionExpr_reversed numbers p context i h, negateConditionExpr_notText hcore.reads.ne_nil]
    exact hcore

theorem Link.stands (l : Link) :
    Stands (l.text numbers.format p context) (l.tree numbers p context) := by
  unfold Link.text Link.tree
  cases l.negated
  · exact stands_condition numbers p context (p.instr l.pc)
  · exact stands_negated numbers p context (p.instr l.pc)

/-! ## Truth -/

section Truth

variable (k : Values Value) (w : World Value)

theorem holds_condition : w.holds k (conditionTree numbers p context i) =
    (w.holds k (coreTree numbers p context i) != reversed i) := by
  unfold conditionTree
  cases h : reversed i
  · by_cases htest : i.op = .TEST <;> simp [htest]
  · simp

/-- The negation of a condition has the opposite truth value. -/
theorem holds_negated : w.holds k (negatedTree numbers p context i) =
    !w.holds k (conditionTree numbers p context i) := by
  unfold negatedTree
  cases h : reversed i
  · simp
  · rw [holds_condition, h]
    simp

theorem Link.holds (l : Link) : w.holds k (l.tree numbers p context) =
    (l.negated != w.holds k (conditionTree numbers p context (p.instr l.pc))) := by
  unfold Link.tree
  cases l.negated
  · simp
  · simp [holds_negated]

end Truth

theorem says_of_reads {text : List Char} {e : LuaSyntax.Expr} (w : World Value)
    (h : Reads text e) : Says numbers w text (w.holds (luaValues numbers) e) :=
  ⟨_, ⟨e, h, rfl⟩, rfl⟩

/-- Conditions and their negations are read as they are meant. -/
theorem negationExact : NegationExact numbers p context := by
  intro w
  refine ⟨fun pc => w.holds (luaValues numbers) (conditionTree numbers p context (p.instr pc)),
    fun pc _ => says_of_reads numbers w (stands_condition numbers p context (p.instr pc)).reads, ?_⟩
  intro j ls hne _
  obtain ⟨l, ls, rfl⟩ := List.exists_cons_of_ne_nil hne
  have hstands : List.Forall₂ Stands (ls.map (Link.text numbers.format p context))
      (ls.map (Link.tree numbers p context)) := by
    rw [List.forall₂_map_left_iff, List.forall₂_map_right_iff]
    exact List.forall₂_same.2 fun l _ => l.stands numbers p context
  have hreads := reads_chain j (l.stands numbers p context) hstands
  have hsays := says_of_reads numbers w hreads
  rw [World.holds_chain] at hsays
  have htruth : ((l.tree numbers p context) :: ls.map (Link.tree numbers p context)).map
      (w.holds (luaValues numbers)) = (l :: ls).map fun l => l.negated !=
        w.holds (luaValues numbers) (conditionTree numbers p context (p.instr l.pc)) := by
    rw [← List.map_cons, List.map_map]
    exact List.map_congr_left fun l _ => l.holds numbers p context _ w
  rw [htruth] at hsays
  exact hsays

/-! ## Operands -/

theorem hasValue_iff {w : World Value} {text : List Char} {e : LuaSyntax.Expr} {v : Value}
    (h : Reads text e) : HasValue numbers w text v ↔ w.eval (luaValues numbers) e = v := by
  constructor
  · rintro ⟨e', hread, hv⟩
    rw [h.unique hread]
    exact hv
  · intro hv
    exact ⟨e, h, hv⟩

theorem hasValue_local {w : World Value} {r pc : ℕ} {v : Value} :
    HasValue numbers w (renderedLocal p r pc context) v ↔
      w.eval (luaValues numbers) (localTree p context r pc) = v :=
  hasValue_iff numbers (operand_local p context r pc).stands.reads

theorem bytesOf_characters (bytes : List UInt8) : bytesOf (characters bytes) = bytes := by
  unfold bytesOf characters
  rw [List.map_map]
  conv_rhs => rw [← List.map_id bytes]
  apply List.map_congr_left
  intro b _
  show UInt8.ofNat (Json.byteChar b).toNat = b
  rw [Json.toNat_byteChar, UInt8.ofNat_toNat]

/-- A finite constant denotes itself. -/
theorem eval_constant (w : World Value) {c : Constant} (h : c.finite = true) :
    w.eval (luaValues numbers) (c.tree numbers) = c.value := by
  cases c with
  | nil => rw [Constant.tree, World.eval]; rfl
  | boolean b => rw [Constant.tree, World.eval]; rfl
  | string bytes =>
    rw [Constant.tree, World.eval]
    show Value.string (bytesOf (characters bytes)) = _
    rw [bytesOf_characters]
    rfl
  | number d =>
    have hfinite : d.magnitude < Double.infinite := of_decide_eq_true h
    have hmagnitude : w.eval (luaValues numbers) (numbers.operand d.magnitude) =
        .number ⟨false, d.magnitude⟩ := by
      unfold NumberText.operand
      rw [if_pos hfinite, World.eval]
      show ((numbers.value _).map Value.number).getD .nil = _
      rw [(numbers.finite _ hfinite).2]
      rfl
    obtain ⟨negative, magnitude⟩ := d
    cases negative
    · exact hmagnitude
    · show w.eval _ (.unary .neg (numbers.operand magnitude)) = _
      rw [World.eval, hmagnitude]
      rfl

/-- An operand has its value if its variable has it. -/
theorem eval_operand (w : World Value) {regs : ℕ → Value} {x : ℕ}
    (hfinite : isConstantOperand x = true →
      (p.constants.getD (x % 256) .nil).finite = true)
    (hregs : isConstantOperand x = false →
      HasValue numbers w (renderedLocal p x i.pc context) (regs x)) :
    w.eval (luaValues numbers) ((renderedOperand p i x).tree numbers p context) =
      operandValue p regs x := by
  unfold renderedOperand operandValue
  cases hx : isConstantOperand x
  · exact (hasValue_local numbers p context).1 (hregs hx)
  · exact eval_constant numbers w (hfinite hx)

/-- The comparison of an instruction. -/
def compare (w : World Value) : Op → Value → Value → Bool
  | .EQ => w.equal
  | .LT => w.less
  | _ => w.lessEqual

/-- The operand of a comparison is read as an expression with the value. -/
def operandRead (w : World Value) (x : ℕ) : Value :=
  w.eval (luaValues numbers) ((renderedOperand p i x).tree numbers p context)

theorem holds_core_comparison (w : World Value) (htest : i.op ≠ .TEST) :
    w.holds (luaValues numbers) (coreTree numbers p context i) =
      compare w i.op (operandRead numbers p context i w i.b)
        (operandRead numbers p context i w i.c) := by
  unfold coreTree World.holds
  rw [if_neg htest, World.eval]
  cases i.op <;> rfl

theorem skipsJump_comparison (w : World Value) (regs : ℕ → Value) (hop : isCondition i.op = true)
    (htest : i.op ≠ .TEST) : skipsJump w p i regs =
      (compare w i.op (operandValue p regs i.b) (operandValue p regs i.c) != reversed i) := by
  unfold skipsJump reversed
  rw [if_neg htest]
  cases hi : i.op <;> rw [hi] at hop htest <;> first
    | exact absurd hop Bool.false_ne_true
    | exact absurd rfl htest
    | rfl

/-- The machine's decision about a comparison, when the operands have their values. -/
theorem skipsJump_of_operands (w : World Value) {regs : ℕ → Value} (hop : isCondition i.op = true)
    (htest : i.op ≠ .TEST)
    (h : ∀ x ∈ [i.b, i.c], operandRead numbers p context i w x = operandValue p regs x) :
    skipsJump w p i regs = w.holds (luaValues numbers) (conditionTree numbers p context i) := by
  rw [holds_condition, holds_core_comparison numbers p context i w htest,
    skipsJump_comparison p i w regs hop htest, h i.b (by simp), h i.c (by simp)]

/-- The machine's decision about a register, when its variable has its value. -/
theorem skipsJump_of_local (w : World Value) {regs : ℕ → Value} (htest : i.op = .TEST)
    (h : HasValue numbers w (renderedLocal p i.a i.pc context) (regs i.a)) :
    skipsJump w p i regs = w.holds (luaValues numbers) (conditionTree numbers p context i) := by
  rw [holds_condition]
  unfold skipsJump coreTree reversed World.holds
  rw [if_pos htest, if_pos htest, (hasValue_local numbers p context).1 h, htest]
  rfl

/-! ## Exact conditions -/

section Exact

variable {numbers p context i}

/-- With plain operands a condition says what the machine does. -/
theorem says_condition {w : World Value} {regs : ℕ → Value} (hop : isCondition i.op = true)
    (hfinite : ∀ c ∈ testedConstants p i, c.finite = true)
    (hcarries : Carries numbers w p context i regs) :
    Says numbers w (conditionExpr numbers.format p context i) (skipsJump w p i regs) := by
  have hskips : skipsJump w p i regs =
      w.holds (luaValues numbers) (conditionTree numbers p context i) := by
    unfold testedConstants at hfinite
    unfold Carries testedRegisters at hcarries
    by_cases htest : i.op = .TEST
    · rw [if_pos htest] at hcarries
      exact skipsJump_of_local numbers p context i w htest (hcarries i.a (by simp))
    · rw [if_neg htest] at hfinite hcarries
      apply skipsJump_of_operands numbers p context i w hop htest
      intro x hx
      apply eval_operand numbers p context i w
      · intro hconstant
        exact hfinite _ (List.mem_map_of_mem (List.mem_filter.2 ⟨hx, hconstant⟩))
      · intro hregister
        exact hcarries x (List.mem_filter.2 ⟨hx, by simp [hregister]⟩)
  rw [hskips]
  exact says_of_reads numbers w (stands_condition numbers p context i).reads

/-- A world in which variables and elements have given values, and everything else is nil. -/
def stillWorld (lookup : List Char → Value) (element : Value → Value → Value) : World Value where
  lookup := lookup
  element := element
  varargs := .nil
  call _ _ := .nil
  method _ _ _ := .nil
  minus _ := .nil
  length _ := .nil
  arith _ _ _ := .nil
  equal _ _ := false
  less _ _ := false
  lessEqual _ _ := false

theorem hasValue_name {w : World Value} {r pc : ℕ} {v : Value}
    (h : managedCapturedLocal p r = false)
    (hv : w.lookup (renderedRegisterName p r pc context) = v) :
    HasValue numbers w (renderedLocal p r pc context) v := by
  apply (hasValue_local numbers p context).2
  unfold localTree
  rw [h, if_neg Bool.false_ne_true, World.eval]
  exact hv

theorem hasValue_cell {w : World Value} {r pc : ℕ} {v : Value} (h : managedCapturedLocal p r = true)
    (hv : w.element (w.lookup (capturedCellName p r)) ((luaValues numbers).number ['1']) = v) :
    HasValue numbers w (renderedLocal p r pc context) v := by
  apply (hasValue_local numbers p context).2
  unfold localTree
  rw [h, if_pos rfl, World.eval, World.eval, World.eval]
  exact hv

/-- Two variables that are printed differently can have any values. -/
theorem exists_world {r s pc : ℕ} {u v : Value} (hsame : r = s → u = v)
    (hapart : renderedLocal p r pc context = renderedLocal p s pc context → r = s) :
    ∃ w, HasValue numbers w (renderedLocal p r pc context) u ∧
      HasValue numbers w (renderedLocal p s pc context) v := by
  by_cases hrs : r = s
  · obtain rfl := hsame hrs
    subst hrs
    refine ⟨stillWorld (fun _ => u) (fun _ _ => u), ?_⟩
    rw [and_self]
    cases hr : managedCapturedLocal p r
    · exact hasValue_name hr rfl
    · exact hasValue_cell hr rfl
  have hne : renderedLocal p s pc context ≠ renderedLocal p r pc context := fun h => hrs (hapart h.symm)
  unfold renderedLocal at hne
  cases hr : managedCapturedLocal p r <;> cases hs : managedCapturedLocal p s <;> rw [hr, hs] at hne
  · have hnames : renderedRegisterName p s pc context ≠ renderedRegisterName p r pc context := hne
    let lookup := fun name => if name = renderedRegisterName p r pc context then u else v
    exact ⟨stillWorld lookup fun _ _ => .nil, hasValue_name hr (if_pos rfl),
      hasValue_name hs (if_neg hnames)⟩
  · exact ⟨stillWorld (fun _ => u) (fun _ _ => v), hasValue_name hr rfl, hasValue_cell hs rfl⟩
  · exact ⟨stillWorld (fun _ => v) (fun _ _ => u), hasValue_cell hr rfl, hasValue_name hs rfl⟩
  · have hcells : capturedCellName p s ≠ capturedCellName p r := fun heq =>
      hne (congrArg content heq)
    -- the two cells are different objects, and one element of each is read
    let lookup := fun name => if name = capturedCellName p r then Value.object 0 else .object 1
    let element := fun cell (_ : Value) => if cell = Value.object 0 then u else v
    have hother : lookup (capturedCellName p s) = .object 1 := if_neg hcells
    refine ⟨stillWorld lookup element, hasValue_cell hr ?_, hasValue_cell hs ?_⟩
    · show element (lookup (capturedCellName p r)) ((luaValues numbers).number ['1']) = u
      rw [show lookup (capturedCellName p r) = .object 0 from if_pos rfl]
      exact if_pos rfl
    · show element (lookup (capturedCellName p s)) ((luaValues numbers).number ['1']) = v
      rw [hother]
      exact if_neg (by decide)

/-- The registers of a test are two at most. -/
theorem exists_testedRegisters : ∃ r s, (∀ x ∈ testedRegisters i, x = r ∨ x = s) ∧
    (r ≠ s → r ∈ testedRegisters i ∧ s ∈ testedRegisters i) := by
  unfold testedRegisters
  split_ifs
  · exact ⟨i.a, i.a, by simp, fun h => absurd rfl h⟩
  · cases hb : isConstantOperand i.b <;> cases hc : isConstantOperand i.c
    · exact ⟨i.b, i.c, by simp [hb, hc], by simp [hb, hc]⟩
    · exact ⟨i.b, i.b, by simp [hb, hc], fun h => absurd rfl h⟩
    · exact ⟨i.c, i.c, by simp [hb, hc], fun h => absurd rfl h⟩
    · exact ⟨0, 0, by simp [hb, hc], fun h => absurd rfl h⟩

theorem PlainTest.exact (hop : isCondition i.op = true) (h : PlainTest p context i) :
    ConditionExact numbers p context i := by
  intro regs
  refine ⟨?_, fun w hcarries => says_condition hop h.finite hcarries⟩
  obtain ⟨r, s, htested, hboth⟩ := exists_testedRegisters (i := i)
  have hapart : renderedLocal p r i.pc context = renderedLocal p s i.pc context → r = s := by
    intro heq
    by_contra hrs
    obtain ⟨hr, hs⟩ := hboth hrs
    exact hrs (h.apart r hr s hs heq)
  have hworld : ∃ w, HasValue numbers w (renderedLocal p r i.pc context) (regs r) ∧
      HasValue numbers w (renderedLocal p s i.pc context) (regs s) :=
    exists_world (congrArg regs) hapart
  obtain ⟨w, hr, hs⟩ := hworld
  refine ⟨w, fun x hx => ?_⟩
  obtain rfl | rfl := htested x hx
  · exact hr
  · exact hs

/-- Different registers that are printed alike cannot hold different values. -/
theorem ConditionExact.apart (h : ConditionExact numbers p context i) : ∀ r ∈ testedRegisters i,
    ∀ s ∈ testedRegisters i,
      renderedLocal p r i.pc context = renderedLocal p s i.pc context → r = s := by
  intro r hr s hs heq
  by_contra hrs
  obtain ⟨⟨w, hcarries⟩, -⟩ := h fun x => .boolean (x == r)
  have hvalue := hcarries r hr
  have hvalue' := hcarries s hs
  rw [heq, hasValue_local] at hvalue
  rw [hasValue_local, hvalue] at hvalue'
  have hbool : (r == r) = (s == r) := Value.boolean.inj hvalue'
  rw [beq_self_eq_true] at hbool
  exact hrs (eq_of_beq hbool.symm).symm

/-- A constant that is not finite is read as a variable. -/
theorem eval_constant_of_not_finite {w : World Value} {c : Constant} (h : c.finite = false)
    (hlookup : ∀ name, w.lookup name = .nil) (hminus : w.minus .nil = .nil) :
    w.eval (luaValues numbers) (c.tree numbers) = .nil := by
  cases c with
  | number d =>
    have hfinite : ¬ d.magnitude < Double.infinite := of_decide_eq_false h
    have hmagnitude : w.eval (luaValues numbers) (numbers.operand d.magnitude) = .nil := by
      unfold NumberText.operand
      rw [if_neg hfinite, World.eval]
      exact hlookup _
    obtain ⟨negative, magnitude⟩ := d
    cases negative
    · exact hmagnitude
    · show w.eval _ (.unary .neg (numbers.operand magnitude)) = _
      rw [World.eval, hmagnitude]
      exact hminus
  | _ => cases h

theorem value_ne_nil {c : Constant} (h : c.finite = false) : c.value ≠ .nil := by
  cases c with
  | number d => exact Value.noConfusion
  | _ => cases h

/-- Comparisons see whether a constant is there or nil, which its text denotes as a variable. -/
theorem ConditionExact.finite (hop : isCondition i.op = true)
    (h : ConditionExact numbers p context i) : ∀ c ∈ testedConstants p i, c.finite = true := by
  intro c hc
  by_contra hfinite
  rw [Bool.not_eq_true] at hfinite
  unfold testedConstants at hc
  split_ifs at hc with htest
  · cases hc
  obtain ⟨x, hx, rfl⟩ := List.mem_map.1 hc
  obtain ⟨hx, hconstant⟩ := List.mem_filter.1 hx
  let c := p.constants.getD (x % 256) .nil
  let test := fun u v : Value => decide ((if x = i.b then u else v) = c.value)
  let w := { stillWorld (fun _ => .nil) (fun _ _ => .nil) with
    equal := test, less := test, lessEqual := test }
  have hcompare : compare w i.op = test := by
    unfold compare
    split <;> rfl
  have hcarries : Carries numbers w p context i fun _ => .nil := by
    intro r _
    cases hr : managedCapturedLocal p r
    · exact hasValue_name hr rfl
    · exact hasValue_cell hr rfl
  obtain ⟨v, hv, hskips⟩ := (h fun _ => .nil).2 w hcarries
  have hreads := (stands_condition numbers p context i).reads
  rw [hasValue_iff numbers hreads] at hv
  have hholds : w.holds (luaValues numbers) (conditionTree numbers p context i) =
      skipsJump w p i fun _ => .nil := by
    rw [← hskips, ← hv]
    rfl
  rw [holds_condition, holds_core_comparison numbers p context i w htest,
    skipsJump_comparison p i w _ hop htest, hcompare] at hholds
  have hread : operandRead numbers p context i w x = .nil := by
    unfold operandRead renderedOperand
    rw [if_pos hconstant]
    exact eval_constant_of_not_finite hfinite (fun _ => rfl) rfl
  have hvalue : operandValue p (fun _ => .nil) x = c.value := if_pos hconstant
  have hside : (if x = i.b then i.b else i.c) = x := by
    split_ifs with hb
    · exact hb.symm
    · simpa [hb, eq_comm] using hx
  have hfalse : test (operandRead numbers p context i w i.b)
      (operandRead numbers p context i w i.c) = false := by
    apply decide_eq_false
    rw [← apply_ite (operandRead numbers p context i w), hside, hread]
    exact (value_ne_nil hfinite).symm
  have htrue : test (operandValue p (fun _ => .nil) i.b)
      (operandValue p (fun _ => .nil) i.c) = true := by
    apply decide_eq_true
    rw [← apply_ite (operandValue p fun _ => .nil), hside, hvalue]
  rw [hfalse, htrue] at hholds
  cases hr : reversed i <;> rw [hr] at hholds <;> cases hholds

end Exact

/-! ## When conditions are exact -/

/-- The condition of a test says what the machine does, and it and its negation are read as they are
meant in every chain, exactly when its constants are finite and different registers in it are printed
differently. -/
theorem branchConditions_exact_iff (hop : isCondition i.op = true) :
    ConditionExact numbers p context i ∧ NegationExact numbers p context ↔
      PlainTest p context i := by
  constructor
  · rintro ⟨h, -⟩
    exact ⟨h.finite hop, h.apart⟩
  · intro h
    exact ⟨h.exact hop, negationExact numbers p context⟩

end Trees

/-- Numerals that count the magnitudes. -/
def countingNumbers : NumberText where
  magnitude m :=
    if m < Double.infinite then decimal m
    else if m = Double.infinite then ['i', 'n', 'f'] else ['n', 'a', 'n']
  value text := some ⟨false, Nat.ofDigitChars 10 text 0⟩
  finite m hm := by
    have hdigits : Digits (decimal m) := ⟨Nat.toDigits_ne_nil, fun c hc =>
      Nat.isDigit_of_mem_toDigits (by decide) (by decide) hc⟩
    rw [if_pos hm]
    refine ⟨⟨decimal m, [], [], [], by simp, hdigits, Or.inl rfl, Or.inl ⟨rfl, rfl⟩⟩, ?_⟩
    unfold decimal
    rw [Nat.ofDigitChars_ten_toDigits]
  infinity := by rw [if_neg (lt_irrefl _), if_pos rfl]
  nan m hm := by rw [if_neg (by omega), if_neg (by omega)]

/-- `LT 1 0 1`, `JMP`, `RETURN 0 1`. -/
@[irreducible] def lessTest : Proto :=
  mainOf (chunkHeader ++ functionBytes 0 0 0 2 [16472, 2147467286, 30 + 8388608] [] [])

theorem lessTest_exact : ConditionExact countingNumbers lessTest {} (lessTest.instr 0) ∧
    NegationExact countingNumbers lessTest {} := by
  refine (branchConditions_exact_iff _ _ _ _ (by decide +kernel)).2 ⟨?_, ?_⟩
  · have hnone : testedConstants lessTest (lessTest.instr 0) = [] := by decide +kernel
    rw [hnone]
    simp
  · decide +kernel

/-- `EQ 0 0 inf`, `JMP`, `RETURN 0 1`. -/
@[irreducible] def infiniteTest : Proto :=
  mainOf (chunkHeader ++ functionBytes 0 0 0 2 [4194327, 2147467286, 30 + 8388608]
    [[3, 0, 0, 0, 0, 0, 0, 0xf0, 0x7f]] [])

/-- The infinity is printed as a variable. -/
theorem infiniteTest_not_exact : Accepted infiniteTest ∧
    isCondition (infiniteTest.instr 0).op = true ∧
    conditionExpr countingNumbers.format infiniteTest {} (infiniteTest.instr 0) =
      ['(', 'r', '0', ' ', '=', '=', ' ', 'i', 'n', 'f', ')'] ∧
    ¬(ConditionExact countingNumbers infiniteTest {} (infiniteTest.instr 0) ∧
      NegationExact countingNumbers infiniteTest {}) := by
  have hop : isCondition (infiniteTest.instr 0).op = true := by decide +kernel
  refine ⟨?_, hop, by decide +kernel, ?_⟩
  · unfold infiniteTest
    exact accepted_mainOf (by decide +kernel)
  · rintro ⟨hexact, -⟩
    have hmem : Constant.number ⟨false, Double.infinite⟩ ∈
        testedConstants infiniteTest (infiniteTest.instr 0) := by decide +kernel
    exact absurd (hexact.finite hop _ hmem) (by decide)

end ByteVeil.Lua51
