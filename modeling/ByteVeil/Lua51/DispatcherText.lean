import ByteVeil.Fallible.Independent
import ByteVeil.Lua51.Dispatcher
import ByteVeil.Lua51.PcSimulation

/-!
# The dispatcher's text and the registers

The text of one instruction in state-machine mode with its closures and open operand lists, the
registers it assigns, and the registers its effect depends on.

1. What is emitted for an instruction, and what running it does.
2. The registers that a text mentions before it assigns them; its effect is independent of all others.
-/

namespace ByteVeil.Lua51

open Fallible

/-! ## Texts -/

/-- What the dispatcher emits for an instruction. An operand list ends in an open result; `create`
assigns a new function. -/
inductive InstrText
  | stmts (ss : List Stmt)
  | create (r pc : ℕ)
  | openCall (rs : List ℕ) (function : ℕ) (arguments : List Rendered) (tail : OpenText)
  | openTailCall (function : ℕ) (arguments : List Rendered) (tail : OpenText)
  | openReturn (values : List Rendered) (tail : OpenText)
  | openSetList (table : ℕ) (base : ℤ) (values : List Rendered) (skipped : ℕ) (tail : OpenText)

/-- The context of a dispatcher. -/
def dispatcherContext : RenderContext := { stateMachine := true }

/-- The text of an instruction that takes an open result. -/
def openText (p : Proto) (i : Instr) : InstrText :=
  match i.op with
  | .CALL =>
    let results := List.range' i.a (i.c - 1)
    match renderedOpenArgs p dispatcherContext 33 i with
    | some (arguments, tail) => .openCall results i.a arguments tail
    | none => .stmts [.comment, .assignCall results (.register i.a) []]
  | .TAILCALL =>
    match renderedOpenArgs p dispatcherContext 33 i with
    | some (arguments, tail) => .openTailCall i.a arguments tail
    | none => .stmts [.comment, .returnCall (.register i.a) []]
  | .RETURN =>
    match renderedOpenReturnValues p dispatcherContext i with
    | some (values, tail) => .openReturn values tail
    | none =>
      if p.vararg / 2 % 2 = 1 then .openReturn [.register i.a i.pc] (.varargs i.pc)
      else .stmts [.comment, .returnValues [.register i.a]]
  | .SETLIST =>
    match emitOpenSetList p dispatcherContext i with
    | some (values, skipped, tail) => .openSetList i.a (setlistBase i) values skipped tail
    | none => .stmts [.comment]
  | _ => .stmts [.comment]

/-- The text of the instruction at `pc`, which leaves no open result. -/
def instrText (p : Proto) (block : PcBlock) (pc : ℕ) : InstrText :=
  let i := p.instr pc
  if i.op = .CLOSURE then
    if i.bx < p.children.length then .create i.a i.pc else .stmts [.comment]
  else if consumesOpenResults i.op ∧ i.b = 0 then openText p (blockInstruction p block i)
  else .stmts (emitPcInstr p block pc).stmts

/-! ## Running a text -/

/-- The operations that are not interpreted, and the creation of functions. -/
structure Host (W : Type) extends Runtime W where
  newClosure : ℕ → Exec W Value

section Run

variable {W : Type} (host : Host W) (p : Proto)

/-- The value of an operand. -/
def Rendered.eval : Rendered → Exec W Value
  | constant c => pure c.value
  | register r _ => reg r

/-- The values of an open result. -/
def OpenText.eval : OpenText → Exec W (List Value)
  | varargs _ => pure host.varargs
  | call _ function arguments => do
    let f ← function.eval
    host.call f (← arguments.mapM Rendered.eval)
  | methodCall pc arguments => do
    let self := p.instr (pc - 1)
    let o ← reg self.b
    let f ← host.index o (.string ((methodName p self).getD []))
    host.call f (o :: (← arguments.mapM Rendered.eval))
  | openCall _ function arguments tail => do
    let f ← function.eval
    let values ← arguments.mapM Rendered.eval
    host.call f (values ++ (← tail.eval))

/-- The values of an operand list that ends in an open result. -/
def openValues (values : List Rendered) (tail : OpenText) : Exec W (List Value) := do
  let values ← values.mapM Rendered.eval
  return values ++ (← tail.eval host p)

/-- Running a text. -/
def InstrText.exec : InstrText → Exec W Flow
  | stmts ss => execAll host.toRuntime ss
  | create r pc => do setReg r (← host.newClosure pc); return .next none
  | openCall rs function arguments tail => do
    let f ← reg function
    setRegs rs (← host.call f (← openValues host p arguments tail))
    return .next none
  | openTailCall function arguments tail => do
    let f ← reg function
    return .returned (← host.call f (← openValues host p arguments tail))
  | openReturn values tail => do return .returned (← openValues host p values tail)
  | openSetList table base values skipped tail => do
    let t ← reg table
    let values ← openValues host p values tail
    (values.zipIdx.drop skipped).forM fun value =>
      host.setIndex t (.number (host.ofInteger (base + (value.2 + 1) - skipped))) value.1
    return .next none

end Run

/-! ## The registers of a text -/

/-- The registers that an expression reads. -/
def Expr.registers : Expr → List ℕ
  | constant _ | integer _ | name _ | upvalue _ | newTable => []
  | register r => [r]
  | global e | negate e | notE e | length e | toNumber e => e.registers
  | index lhs rhs | binary _ lhs rhs | concat lhs rhs | eq lhs rhs | ne lhs rhs | lt lhs rhs
  | le lhs rhs | andE lhs rhs | orE lhs rhs => lhs.registers ++ rhs.registers

/-- The registers that a statement on its own assigns. -/
def Stmt.assigned : Stmt → List ℕ
  | assign r _ => [r]
  | assignCall rs _ _ | assignMethodCall rs _ _ _ | assignVarargs rs => rs
  | _ => []

mutual

/-- The registers that a statement can assign; `detach` keeps the register's value. -/
def Stmt.targets : Stmt → List ℕ
  | .ifElse _ yes no => targetsOf yes ++ targetsOf no
  | s => s.assigned

/-- The registers that statements can assign. -/
def targetsOf : List Stmt → List ℕ
  | [] => []
  | s :: ss => s.targets ++ targetsOf ss

end

mutual

/-- The registers that a statement reads before it assigns them. -/
def Stmt.reads : Stmt → List ℕ
  | .assign _ e | .assignUpvalue _ e => e.registers
  | .assignGlobal key value => key.registers ++ value.registers
  | .assignIndex table key value => table.registers ++ key.registers ++ value.registers
  | .assignCall _ e es | .returnCall e es | .assignMethodCall _ e _ es | .returnMethodCall e _ es =>
    e.registers ++ es.flatMap Expr.registers
  | .returnValues es => es.flatMap Expr.registers
  | .ifElse e yes no => e.registers ++ readsOf yes ++ readsOf no
  | .assignVarargs _ | .setPc _ | .detach _ | .comment => []

/-- The registers that statements read before they assign them. -/
def readsOf : List Stmt → List ℕ
  | [] => []
  | s :: ss => s.reads ++ (readsOf ss).filter fun r => !s.assigned.contains r

end

/-- The registers of a rendered value. -/
def Rendered.registers : Rendered → List ℕ
  | constant _ => []
  | register r _ => [r]

/-- The registers that an open result reads. -/
def OpenText.registers (p : Proto) : OpenText → List ℕ
  | varargs _ => []
  | call _ function arguments => function.registers ++ arguments.flatMap Rendered.registers
  | methodCall pc arguments => (p.instr (pc - 1)).b :: arguments.flatMap Rendered.registers
  | openCall _ function arguments tail =>
    function.registers ++ arguments.flatMap Rendered.registers ++ tail.registers p

/-- The registers that a text can assign. -/
def InstrText.targets : InstrText → List ℕ
  | stmts ss => targetsOf ss
  | create r _ => [r]
  | openCall rs _ _ _ => rs
  | openTailCall _ _ _ | openReturn _ _ | openSetList _ _ _ _ _ => []

/-- The registers that a text reads before it assigns them. -/
def InstrText.reads (p : Proto) : InstrText → List ℕ
  | stmts ss => readsOf ss
  | create _ _ => []
  | openCall _ function arguments tail | openTailCall function arguments tail =>
    function :: (arguments.flatMap Rendered.registers ++ tail.registers p)
  | openReturn values tail => values.flatMap Rendered.registers ++ tail.registers p
  | openSetList table _ values _ tail =>
    table :: (values.flatMap Rendered.registers ++ tail.registers p)

/-! ## Independence -/

section Independence

variable {W : Type}

/-- A register as a location of the machine. -/
def registerLocation (r : ℕ) : Location (Machine W) Value where
  get m := m.regs r
  set m v := m.set r v
  get_set m v := by rw [Machine.set_regs, if_pos rfl]
  set_get m := by
    show Machine.mk (Function.update m.regs r (m.regs r)) m.world = m
    rw [Function.update_eq_self]
  set_set m v w := by
    show Machine.mk (Function.update (Function.update m.regs r v) r w) m.world = m.set r w
    rw [Function.update_idem]
    rfl

/-- Nothing outside the function shares the register. -/
structure Unshared (host : Host W) (r : ℕ) : Prop where
  arith : ∀ op x y, Ignores r (host.arith op x y)
  minus : ∀ x, Ignores r (host.minus x)
  length : ∀ x, Ignores r (host.length x)
  concat : ∀ x y, Ignores r (host.concat x y)
  equal : ∀ m n, Ignores r (host.equal m n)
  less : ∀ x y, Ignores r (host.less x y)
  lessEqual : ∀ x y, Ignores r (host.lessEqual x y)
  index : ∀ t k, Ignores r (host.index t k)
  setIndex : ∀ t k v, Ignores r (host.setIndex t k v)
  global : ∀ k, Ignores r (host.global k)
  setGlobal : ∀ k v, Ignores r (host.setGlobal k v)
  upvalue : ∀ n, Ignores r (host.upvalue n)
  setUpvalue : ∀ n v, Ignores r (host.setUpvalue n v)
  newTable : Ignores r host.newTable
  call : ∀ f vs, Ignores r (host.call f vs)
  detach : ∀ s, Ignores r (host.detach s)
  newClosure : ∀ pc, Ignores r (host.newClosure pc)

/-- The computation does not read the register. -/
abbrev Untouched {α : Type} (r : ℕ) (x : Exec W α) : Prop := Independent (registerLocation r) x

/-- The computation overwrites the register without reading it. -/
abbrev Overwrites {α : Type} (r : ℕ) (x : Exec W α) : Prop := Forgets (registerLocation r) x

variable {r : ℕ}

theorem Ignores.untouched {α : Type} {x : Exec W α} (h : Ignores r x) : Untouched r x :=
  independent_of_commutes h

theorem untouched_reg {s : ℕ} (h : r ≠ s) : Untouched r (reg (W := W) s) := by
  intro m v
  rw [run_reg, run_reg]
  show SameBut _ _ _ (some (m.regs s, m)) (some ((m.set r v).regs s, m.set r v))
  rw [Machine.set_regs, if_neg h.symm]
  exact .kept _ m rfl

theorem overwrites_setReg (v : Value) : Overwrites r (setReg (W := W) r v) := by
  intro m w
  rw [run_setReg, run_setReg]
  exact congrArg (fun m => some ((), m)) ((registerLocation r).set_set m w v)

theorem untouched_setReg (s : ℕ) (v : Value) : Untouched r (setReg (W := W) s v) := by
  by_cases h : s = r
  · subst h
    exact (overwrites_setReg v).independent
  · refine independent_of_commutes fun m w => ?_
    show some ((), Machine.mk (Function.update (Function.update m.regs r w) s v) m.world) =
      some ((), Machine.mk (Function.update (Function.update m.regs s v) r w) m.world)
    rw [Function.update_comm (Ne.symm h)]

theorem untouched_setRegs (rs : List ℕ) (vs : List Value) : Untouched r (setRegs (W := W) rs vs) := by
  induction rs generalizing vs with
  | nil => exact independent_pure ()
  | cons s rs ih => exact (untouched_setReg s _).bind fun _ => ih _

theorem overwrites_setRegs {rs : List ℕ} (vs : List Value) (h : r ∈ rs) :
    Overwrites r (setRegs (W := W) rs vs) := by
  induction rs generalizing vs with
  | nil => exact absurd h List.not_mem_nil
  | cons s rs ih =>
    rcases List.mem_cons.1 h with rfl | h
    · exact (overwrites_setReg _).bind _
    · exact (untouched_setReg s _).bind_forgets fun _ => ih _ h

variable {host : Host W} (hhost : Unshared host r)

include hhost

namespace Unshared

theorem binary (op : Arith) (x y : Value) : Untouched r (host.toRuntime.binary op x y) := by
  unfold Runtime.binary
  split
  · exact independent_pure _
  · exact (hhost.arith op x y).untouched

theorem negate (x : Value) : Untouched r (host.toRuntime.negate x) := by
  unfold Runtime.negate
  split
  · exact independent_pure _
  · exact (hhost.minus x).untouched

theorem eq (x y : Value) : Untouched r (host.toRuntime.eq x y) := by
  unfold Runtime.eq
  split
  · exact independent_pure _
  · split_ifs
    · exact independent_pure _
    · exact (hhost.equal _ _).untouched
  · exact independent_pure _

theorem lt (x y : Value) : Untouched r (host.toRuntime.lt x y) := by
  unfold Runtime.lt
  split
  · exact independent_pure _
  · exact (hhost.less x y).untouched

theorem le (x y : Value) : Untouched r (host.toRuntime.le x y) := by
  unfold Runtime.le
  split
  · exact independent_pure _
  · exact (hhost.lessEqual x y).untouched

end Unshared

/-- The value of an expression does not depend on a register that it does not mention. -/
theorem untouched_eval {e : Expr} (h : r ∉ e.registers) : Untouched r (e.eval host.toRuntime) := by
  induction e with
  | constant c | integer n => exact independent_pure _
  | name bytes => exact (hhost.global _).untouched
  | register s => exact untouched_reg fun hs => h (List.mem_singleton.2 hs)
  | upvalue n => exact (hhost.upvalue n).untouched
  | newTable => exact hhost.newTable.untouched
  | «global» key ih => exact (ih h).bind fun k => (hhost.global k).untouched
  | negate e ih => exact (ih h).bind fun v => hhost.negate v
  | notE e ih => exact (ih h).bind fun v => independent_pure _
  | length e ih => exact (ih h).bind fun v => (hhost.length v).untouched
  | toNumber e ih =>
    refine (ih h).bind fun v => ?_
    split <;> exact independent_pure _
  | index lhs rhs ihl ihr =>
    obtain ⟨hl, hr⟩ := not_or.1 (mt List.mem_append.2 h)
    exact (ihl hl).bind fun t => (ihr hr).bind fun k => (hhost.index t k).untouched
  | binary op lhs rhs ihl ihr =>
    obtain ⟨hl, hr⟩ := not_or.1 (mt List.mem_append.2 h)
    exact (ihl hl).bind fun x => (ihr hr).bind fun y => hhost.binary op x y
  | concat lhs rhs ihl ihr =>
    obtain ⟨hl, hr⟩ := not_or.1 (mt List.mem_append.2 h)
    exact (ihl hl).bind fun x => (ihr hr).bind fun y => (hhost.concat x y).untouched
  | eq lhs rhs ihl ihr | ne lhs rhs ihl ihr =>
    obtain ⟨hl, hr⟩ := not_or.1 (mt List.mem_append.2 h)
    exact (ihl hl).bind fun x => (ihr hr).bind fun y => (hhost.eq x y).bind fun _ =>
      independent_pure _
  | lt lhs rhs ihl ihr =>
    obtain ⟨hl, hr⟩ := not_or.1 (mt List.mem_append.2 h)
    exact (ihl hl).bind fun x => (ihr hr).bind fun y => (hhost.lt x y).bind fun _ =>
      independent_pure _
  | le lhs rhs ihl ihr =>
    obtain ⟨hl, hr⟩ := not_or.1 (mt List.mem_append.2 h)
    exact (ihl hl).bind fun x => (ihr hr).bind fun y => (hhost.le x y).bind fun _ =>
      independent_pure _
  | andE lhs rhs ihl ihr =>
    obtain ⟨hl, hr⟩ := not_or.1 (mt List.mem_append.2 h)
    refine (ihl hl).bind fun x => ?_
    split_ifs
    · exact ihr hr
    · exact independent_pure _
  | orE lhs rhs ihl ihr =>
    obtain ⟨hl, hr⟩ := not_or.1 (mt List.mem_append.2 h)
    refine (ihl hl).bind fun x => ?_
    split_ifs
    · exact independent_pure _
    · exact ihr hr

/-- The values of arguments. -/
theorem untouched_arguments {es : List Expr} (h : r ∉ es.flatMap Expr.registers) :
    Untouched r (es.mapM (Expr.eval host.toRuntime)) :=
  Independent.mapM fun e he => untouched_eval hhost fun hr => h (List.mem_flatMap.2 ⟨e, he, hr⟩)

theorem untouched_callFunction {e : Expr} {es : List Expr}
    (h : r ∉ e.registers ++ es.flatMap Expr.registers) :
    Untouched r (callFunction host.toRuntime e es) := by
  obtain ⟨he, hes⟩ := not_or.1 (mt List.mem_append.2 h)
  exact (untouched_eval hhost he).bind fun f => (untouched_arguments hhost hes).bind fun vs =>
    (hhost.call f vs).untouched

theorem untouched_callMethod {e : Expr} {name : List UInt8} {es : List Expr}
    (h : r ∉ e.registers ++ es.flatMap Expr.registers) :
    Untouched r (callMethod host.toRuntime e name es) := by
  obtain ⟨he, hes⟩ := not_or.1 (mt List.mem_append.2 h)
  exact (untouched_eval hhost he).bind fun o => (hhost.index o _).untouched.bind fun f =>
    (untouched_arguments hhost hes).bind fun vs => (hhost.call f _).untouched

/-- A statement overwrites the registers it assigns on its own. -/
theorem overwrites_exec {s : Stmt} (h : r ∉ s.reads) (ha : r ∈ s.assigned) :
    Overwrites r (s.exec host.toRuntime) := by
  cases s with
  | assign q e =>
    obtain rfl := List.mem_singleton.1 ha
    exact (untouched_eval hhost h).bind_forgets fun v => (overwrites_setReg v).bind _
  | assignCall rs e es =>
    exact (untouched_callFunction hhost h).bind_forgets fun vs => (overwrites_setRegs vs ha).bind _
  | assignMethodCall rs e name es =>
    exact (untouched_callMethod hhost h).bind_forgets fun vs => (overwrites_setRegs vs ha).bind _
  | assignVarargs rs => exact (overwrites_setRegs _ ha).bind _
  | _ => exact absurd ha List.not_mem_nil

mutual

/-- The effect of a statement does not depend on a register that it does not read. -/
theorem untouched_exec (s : Stmt) (h : r ∉ s.reads) : Untouched r (s.exec host.toRuntime) := by
  cases s with
  | assign q e =>
    exact (untouched_eval hhost h).bind fun v => (untouched_setReg q v).bind fun _ =>
      independent_pure _
  | assignUpvalue n e =>
    exact (untouched_eval hhost h).bind fun v => (hhost.setUpvalue n v).untouched.bind fun _ =>
      independent_pure _
  | assignGlobal key value =>
    obtain ⟨hk, hv⟩ := not_or.1 (mt List.mem_append.2 h)
    exact (untouched_eval hhost hk).bind fun k => (untouched_eval hhost hv).bind fun v =>
      (hhost.setGlobal k v).untouched.bind fun _ => independent_pure _
  | assignIndex table key value =>
    obtain ⟨htk, hv⟩ := not_or.1 (mt List.mem_append.2 h)
    obtain ⟨ht, hk⟩ := not_or.1 (mt List.mem_append.2 htk)
    exact (untouched_eval hhost ht).bind fun t => (untouched_eval hhost hk).bind fun k =>
      (untouched_eval hhost hv).bind fun v => (hhost.setIndex t k v).untouched.bind fun _ =>
        independent_pure _
  | assignCall rs e es =>
    exact (untouched_callFunction hhost h).bind fun vs => (untouched_setRegs rs vs).bind fun _ =>
      independent_pure _
  | assignMethodCall rs e name es =>
    exact (untouched_callMethod hhost h).bind fun vs => (untouched_setRegs rs vs).bind fun _ =>
      independent_pure _
  | assignVarargs rs => exact (untouched_setRegs rs _).bind fun _ => independent_pure _
  | setPc pc | comment => exact independent_pure _
  | ifElse e yes no =>
    obtain ⟨hey, hno⟩ := not_or.1 (mt List.mem_append.2 h)
    obtain ⟨he, hyes⟩ := not_or.1 (mt List.mem_append.2 hey)
    refine (untouched_eval hhost he).bind fun v => ?_
    split_ifs
    · exact untouched_execAll yes hyes
    · exact untouched_execAll no hno
  | returnValues es => exact (untouched_arguments hhost h).bind fun vs => independent_pure _
  | returnCall e es => exact (untouched_callFunction hhost h).bind fun vs => independent_pure _
  | returnMethodCall e name es =>
    exact (untouched_callMethod hhost h).bind fun vs => independent_pure _
  | detach s => exact (hhost.detach s).untouched.bind fun _ => independent_pure _

/-- The effect of statements does not depend on a register that they do not read. -/
theorem untouched_execAll (ss : List Stmt) (h : r ∉ readsOf ss) :
    Untouched r (execAll host.toRuntime ss) := by
  cases ss with
  | nil => exact independent_pure _
  | cons s ss =>
    obtain ⟨hs, hrest⟩ := not_or.1 (mt List.mem_append.2 h)
    by_cases ha : r ∈ s.assigned
    · exact ((overwrites_exec hhost hs ha).bind _).independent
    · have hss : r ∉ readsOf ss := fun hr => hrest (List.mem_filter.2 ⟨hr, by simpa using ha⟩)
      refine (untouched_exec s hs).bind fun flow => ?_
      split
      · exact independent_pure _
      · exact untouched_execAll ss hss
      · refine (untouched_execAll ss hss).bind fun flow => ?_
        split <;> exact independent_pure _

end

omit hhost in
theorem untouched_rendered {v : Rendered} (h : r ∉ v.registers) :
    Untouched r (v.eval (W := W)) := by
  cases v with
  | constant c => exact independent_pure _
  | register s pc => exact untouched_reg fun hs => h (List.mem_singleton.2 hs)

omit hhost in
theorem untouched_operands {vs : List Rendered} (h : r ∉ vs.flatMap Rendered.registers) :
    Untouched r (vs.mapM (Rendered.eval (W := W))) :=
  Independent.mapM fun v hv => untouched_rendered fun hr => h (List.mem_flatMap.2 ⟨v, hv, hr⟩)

theorem untouched_openText {p : Proto} (t : OpenText) (h : r ∉ t.registers p) :
    Untouched r (t.eval host p) := by
  induction t with
  | varargs pc => exact independent_pure _
  | call pc function arguments =>
    obtain ⟨hf, hes⟩ := not_or.1 (mt List.mem_append.2 h)
    exact (untouched_rendered hf).bind fun f => (untouched_operands hes).bind fun vs =>
      (hhost.call f vs).untouched
  | methodCall pc arguments =>
    obtain ⟨ho, hes⟩ := not_or.1 (mt List.mem_cons.2 h)
    exact (untouched_reg ho).bind fun o => (hhost.index o _).untouched.bind fun f =>
      (untouched_operands hes).bind fun vs => (hhost.call f _).untouched
  | openCall pc function arguments tail ih =>
    obtain ⟨hfes, ht⟩ := not_or.1 (mt List.mem_append.2 h)
    obtain ⟨hf, hes⟩ := not_or.1 (mt List.mem_append.2 hfes)
    exact (untouched_rendered hf).bind fun f => (untouched_operands hes).bind fun vs =>
      (ih ht).bind fun rest => (hhost.call f _).untouched

theorem untouched_openValues {p : Proto} {values : List Rendered} {tail : OpenText}
    (h : r ∉ values.flatMap Rendered.registers ++ tail.registers p) :
    Untouched r (openValues host p values tail) := by
  obtain ⟨hvs, ht⟩ := not_or.1 (mt List.mem_append.2 h)
  exact (untouched_operands hvs).bind fun vs => (untouched_openText hhost tail ht).bind fun rest =>
    independent_pure _

/-- The effect of a text does not depend on a register that it does not read. -/
theorem untouched_text {p : Proto} {t : InstrText} (h : r ∉ t.reads p) :
    Untouched r (t.exec host p) := by
  cases t with
  | stmts ss => exact untouched_execAll hhost ss h
  | create s pc =>
    exact (hhost.newClosure pc).untouched.bind fun v => (untouched_setReg s v).bind fun _ =>
      independent_pure _
  | openCall rs function arguments tail =>
    obtain ⟨hf, hes⟩ := not_or.1 (mt List.mem_cons.2 h)
    exact (untouched_reg hf).bind fun f => (untouched_openValues hhost hes).bind fun vs =>
      (hhost.call f vs).untouched.bind fun results => (untouched_setRegs rs results).bind fun _ =>
        independent_pure _
  | openTailCall function arguments tail =>
    obtain ⟨hf, hes⟩ := not_or.1 (mt List.mem_cons.2 h)
    exact (untouched_reg hf).bind fun f => (untouched_openValues hhost hes).bind fun vs =>
      (hhost.call f vs).untouched.bind fun results => independent_pure _
  | openReturn values tail =>
    exact (untouched_openValues hhost h).bind fun vs => independent_pure _
  | openSetList table base values skipped tail =>
    obtain ⟨ht, hes⟩ := not_or.1 (mt List.mem_cons.2 h)
    refine (untouched_reg ht).bind fun t => (untouched_openValues hhost hes).bind fun vs => ?_
    exact (Independent.forM fun value _ => (hhost.setIndex t _ _).untouched).bind fun _ =>
      independent_pure _

end Independence

end ByteVeil.Lua51
