import ByteVeil.Lua51.Folding
import ByteVeil.Lua51.Statements

/-!
# The dispatcher's blocks

What `emitPcBlock` and `emitSimple` render for an instruction in state-machine mode, where every
register is a variable of its own and nothing is folded. A `SELF` directly before its `CALL` is
rendered together with it as a method call.
-/

namespace ByteVeil.Lua51

/-! ## Operands -/

/-- The text of a number: an infinity is printed as `inf`, which Lua reads as a name. -/
def Double.expr (d : Double) : Expr :=
  let magnitude :=
    if infinite < d.magnitude then .name [110, 97, 110]
    else if d.magnitude = infinite then .name [105, 110, 102]
    else .constant (.number ⟨false, d.magnitude⟩)
  if d.negative then .negate magnitude else magnitude

/-- The text of a constant. -/
def Constant.expr : Constant → Expr
  | .number d => d.expr
  | c => .constant c

/-- `renderedValue`. -/
def renderedValue (p : Proto) (operand : ℕ) : Expr :=
  if isConstantOperand operand then (p.constants.getD (operand % 256) .nil).expr
  else .register operand

/-- The text of a binary operation; a power binds tighter than the sign of its base. -/
def binaryText (op : Arith) (lhs rhs : Expr) : Expr :=
  match op, lhs with
  | .pow, .negate base => .negate (.binary .pow base rhs)
  | _, _ => .binary op lhs rhs

/-- The registers of a range. -/
def registers (first count : ℕ) : List Expr := (List.range' first count).map .register

/-! ## Method calls -/

/-- The keywords. -/
def keywords : List (List Char) :=
  [['a', 'n', 'd'], ['b', 'r', 'e', 'a', 'k'], ['d', 'o'], ['e', 'l', 's', 'e'],
   ['e', 'l', 's', 'e', 'i', 'f'], ['e', 'n', 'd'], ['f', 'a', 'l', 's', 'e'], ['f', 'o', 'r'],
   ['f', 'u', 'n', 'c', 't', 'i', 'o', 'n'], ['i', 'f'], ['i', 'n'], ['l', 'o', 'c', 'a', 'l'],
   ['n', 'i', 'l'], ['n', 'o', 't'], ['o', 'r'], ['r', 'e', 'p', 'e', 'a', 't'],
   ['r', 'e', 't', 'u', 'r', 'n'], ['t', 'h', 'e', 'n'], ['t', 'r', 'u', 'e'],
   ['u', 'n', 't', 'i', 'l'], ['w', 'h', 'i', 'l', 'e']]

/-- A letter or an underscore. -/
def isLetter (c : Char) : Bool :=
  ('a' ≤ c && c ≤ 'z') || ('A' ≤ c && c ≤ 'Z') || c == '_'

/-- `validIdentifier`. -/
def validIdentifier (name : List UInt8) : Bool :=
  match name.map fun b => Char.ofNat b.toNat with
  | [] => false
  | c :: cs =>
    isLetter c && cs.all (fun d => isLetter d || ('0' ≤ d && d ≤ '9')) &&
      !keywords.contains (c :: cs)

/-- `hasControlEntryAt`. -/
def hasControlEntryAt (p : Proto) (targetPc : ℕ) : Bool :=
  p.code.any fun i =>
    match i.op with
    | .JMP | .FORLOOP | .FORPREP => i.target == targetPc
    | .EQ | .LT | .LE | .TEST | .TESTSET | .TFORLOOP =>
      i.target == targetPc ||
        (decide (i.pc + 1 < p.size) && (p.instr (i.pc + 1)).op == .JMP &&
          (p.instr (i.pc + 1)).target == targetPc)
    | .LOADBOOL => i.c != 0 && i.target == targetPc
    | _ => false

/-- `safeArgumentSetup`. -/
def safeArgumentSetup (setup : Instr) (firstArgument lastArgument : ℕ) : Bool :=
  if lastArgument < firstArgument then false
  else
    let within := fun lastWritten => decide (firstArgument ≤ setup.a) && decide (lastWritten ≤ lastArgument)
    match setup.op with
    | .LOADNIL => !decide (setup.b < setup.a) && within setup.b
    | .LOADBOOL => setup.c == 0 && within setup.a
    | .MOVE | .LOADK => within setup.a
    | _ => false

/-- The name of the method that a `SELF` looks up. -/
def methodName (p : Proto) (self : Instr) : Option (List UInt8) :=
  if isConstantOperand self.c then
    match p.constants[self.c % 256]? with
    | some (.string name) => if validIdentifier name then some name else none
    | _ => none
  else none

/-- `colonMethodCall`. -/
def colonMethodCall (p : Proto) (selfPc callPc : ℕ) : Bool :=
  let self := p.instr selfPc
  let call := p.instr callPc
  let firstArgument := self.a + 2
  let lastArgument := self.a + call.b - 1
  decide (selfPc < callPc) && decide (callPc < p.size) && decide (callPc - selfPc ≤ 33) &&
    self.op == .SELF && (call.op == .CALL || call.op == .TAILCALL) && call.a == self.a &&
    decide (2 ≤ call.b) && (methodName p self).isSome && !hasControlEntryAt p callPc &&
    decide (lastArgument < p.maxstack) &&
    !(decide (firstArgument ≤ self.b) && decide (self.b ≤ lastArgument)) &&
    (List.range' (selfPc + 1) (callPc - (selfPc + 1))).all fun pc =>
      !hasControlEntryAt p pc && safeArgumentSetup (p.instr pc) firstArgument lastArgument &&
        !((p.instr pc).op == .MOVE && ((p.instr pc).b == self.a || (p.instr pc).b == self.a + 1))

/-- The `SELF` at `pc` is rendered with the `CALL` behind it. -/
def fusedAt (p : Proto) (pc : ℕ) : Bool :=
  colonMethodCall p pc (pc + 1) && !hasControlEntryAt p (pc + 1)

/-! ## Statements -/

/-- `emitCapturedCellClose`. -/
def emitCapturedCellClose (p : Proto) (firstRegister : ℕ) : List Stmt :=
  ((List.range p.maxstack).filter fun r =>
    decide (firstRegister ≤ r) && p.managedCapturedRegisters.getD r false).map .detach

/-- The call of `CALL` and `TAILCALL`, or the method call when it is rendered with its `SELF`. -/
def callText {α : Type} (p : Proto) (i : Instr) (colonCall : Bool)
    (call : Expr → List Expr → α) (methodCall : Expr → List UInt8 → List Expr → α) : α :=
  let self := p.instr (i.pc - 1)
  match colonCall, methodName p self with
  | true, some name => methodCall (.register self.b) name (registers (i.a + 2) (i.b - 2))
  | _, _ => call (.register i.a) (registers (i.a + 1) (i.b - 1))

/-- `emitSimple` for instructions without an open operand list and without `CLOSURE`. -/
def emitSimple (p : Proto) (i : Instr) (colonCall : Bool) : List Stmt :=
  match i.op with
  | .MOVE => [.assign i.a (.register i.b)]
  | .LOADK => [.assign i.a (p.constants.getD i.bx .nil).expr]
  | .LOADBOOL => [.assign i.a (.constant (.boolean (i.b != 0)))]
  | .LOADNIL => (List.range' i.a (i.b + 1 - i.a)).map fun r => .assign r (.constant .nil)
  | .GETUPVAL => [.assign i.a (.upvalue i.b)]
  | .GETGLOBAL => [.assign i.a (.global (p.constants.getD i.bx .nil).expr)]
  | .GETTABLE => [.assign i.a (.index (.register i.b) (renderedValue p i.c))]
  | .SETGLOBAL => [.assignGlobal (p.constants.getD i.bx .nil).expr (.register i.a)]
  | .SETUPVAL => [.assignUpvalue i.b (.register i.a)]
  | .SETTABLE => [.assignIndex (.register i.a) (renderedValue p i.b) (renderedValue p i.c)]
  | .NEWTABLE => [.assign i.a .newTable]
  | .SELF =>
    [.assign (i.a + 1) (.register i.b),
      .assign i.a (.index (.register i.b) (renderedValue p i.c))]
  | .ADD | .SUB | .MUL | .DIV | .MOD | .POW =>
    [.assign i.a (binaryText (i.op.arith?.getD .add) (renderedValue p i.b) (renderedValue p i.c))]
  | .UNM => [.assign i.a (.negate (.register i.b))]
  | .NOT => [.assign i.a (.notE (.register i.b))]
  | .LEN => [.assign i.a (.length (.register i.b))]
  | .CONCAT => [.assign i.a (.concat (.register i.b) (.register i.c))]
  | .CALL => [callText p i colonCall (.assignCall (List.range' i.a (i.c - 1)))
      (.assignMethodCall (List.range' i.a (i.c - 1)))]
  | .TAILCALL => [callText p i colonCall .returnCall .returnMethodCall]
  | .RETURN => [.returnValues (registers i.a (i.b - 1))]
  | .SETLIST => (List.range' 1 i.b).map fun k : ℕ =>
      .assignIndex (.register i.a) (.integer (setlistBase i + k)) (.register (i.a + k))
  | .CLOSE =>
    let detached := emitCapturedCellClose p i.a
    if detached.isEmpty then [.comment] else detached
  | .VARARG =>
    if p.vararg / 2 % 2 = 0 then [.comment, .assign i.a (.constant .nil)]
    else [.assignVarargs (i.a :: List.range' (i.a + 1) (i.b - 2))]
  | _ => [.comment]

/-- `PcBlock`. -/
structure PcBlock where
  start : ℕ
  stop : ℕ

/-- The text for one instruction and the pc whose text follows it, if any does. -/
structure PcText where
  stmts : List Stmt
  following : Option ℕ

/-- A condition and the two pcs. -/
def branchText (p : Proto) (i : Instr) (condition : Expr) : PcText :=
  ⟨[.ifElse condition [.setPc (followingControlTarget p i)] [.setPc (i.pc + 2)]], none⟩

/-- One round of `emitPcBlock`. -/
def emitPcInstr (p : Proto) (block : PcBlock) (pc : ℕ) : PcText :=
  let i := p.instr pc
  let polarity := Expr.constant (.boolean (i.a != 0))
  let index := Expr.register i.a
  let limit := Expr.register (i.a + 1)
  let step := Expr.register (i.a + 2)
  let zero := Expr.constant (.number .zero)
  if i.closureBindingFor.isSome ∨ i.extraWord then ⟨[], some (pc + 1)⟩
  else
    match i.op with
    | .JMP => ⟨[.setPc i.target], none⟩
    | .EQ => branchText p i (.eq (.eq (renderedValue p i.b) (renderedValue p i.c)) polarity)
    | .LT => branchText p i (.eq (.lt (renderedValue p i.b) (renderedValue p i.c)) polarity)
    | .LE => branchText p i (.eq (.le (renderedValue p i.b) (renderedValue p i.c)) polarity)
    | .TEST => branchText p i (.ne (.notE (.register i.a)) (.constant (.boolean (i.c != 0))))
    | .TESTSET =>
      ⟨[.ifElse (.ne (.notE (.register i.b)) (.constant (.boolean (i.c != 0))))
          [.assign i.a (.register i.b), .setPc (followingControlTarget p i)]
          [.setPc (i.pc + 2)]], none⟩
    | .FORLOOP =>
      -- `a > b` is `b < a`, and `a >= b` is `b <= a`
      ⟨[.assign i.a (.binary .add index step),
        .ifElse (.orE (.andE (.lt zero step) (.le index limit))
            (.andE (.le step zero) (.le limit index)))
          [.assign (i.a + 3) index, .setPc i.target] [.setPc (i.pc + 1)]], none⟩
    | .FORPREP =>
      ⟨[.assign i.a (.toNumber index), .assign (i.a + 1) (.toNumber limit),
        .assign (i.a + 2) (.toNumber step), .assign i.a (.binary .sub index step),
        .setPc i.target], none⟩
    | .TFORLOOP =>
      ⟨[.assignCall (List.range' (i.a + 3) i.c) index [limit, step],
        .ifElse (.ne (.register (i.a + 3)) (.constant .nil))
          [.assign (i.a + 2) (.register (i.a + 3)), .setPc (followingControlTarget p i)]
          [.setPc (i.pc + 2)]], none⟩
    | op =>
      let inlineSelf := decide (pc + 1 < block.stop) && fusedAt p pc
      let colonCall := decide (block.start < pc) && fusedAt p (pc - 1)
      let stmts := if inlineSelf then [] else emitSimple p i colonCall
      match op with
      | .TAILCALL | .RETURN => ⟨stmts, none⟩
      | .LOADBOOL => if i.c ≠ 0 then ⟨stmts ++ [.setPc (i.pc + 2)], none⟩ else ⟨stmts, some (pc + 1)⟩
      | .SETLIST => ⟨stmts, some (if i.c = 0 then pc + 2 else pc + 1)⟩
      | .CLOSURE => ⟨stmts, some (pc + 1 + i.captures.length)⟩
      | _ => ⟨stmts, some (pc + 1)⟩

end ByteVeil.Lua51
