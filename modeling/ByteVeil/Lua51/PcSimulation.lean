import ByteVeil.Lua51.PcBlock

/-!
# The dispatcher's statements simulate the machine

1. Statement lists run one statement after another.
2. Operands: a register or a finite constant is rendered as what the machine reads.
3. One lemma for each kind of instruction: the statements do what the instruction does.
4. The statements of every instruction that is rendered by itself; then `SELF` with its `CALL`.
-/

namespace ByteVeil.Lua51

variable {W : Type} (rt : Runtime W)

/-! ## Statement lists -/

/-- Running the text of an instruction: it assigns the next pc, returns, or goes on. -/
def PcText.run (text : PcText) : Exec W Next := do
  match ← execAll rt text.stmts with
  | .returned values => return .done values
  | .next (some pc) => return .goto pc
  | .next none =>
    match text.following with
    | some pc => return .goto pc
    | none => raise

theorem execAll_singleton (s : Stmt) : execAll rt [s] = s.exec rt := by
  rw [execAll]
  refine Eq.trans ?_ (bind_pure (s.exec rt))
  congr 1
  funext flow
  rcases flow with (_ | pc) | values
  · exact execAll_nil rt
  · simp [execAll_nil]
  · rfl

/-- The constant of an operand, if it is one. -/
def operandConstant (p : Proto) (operand : ℕ) : List Constant :=
  if isConstantOperand operand then [p.constants.getD (operand % 256) .nil] else []

theorem mapM_registers (first count : ℕ) :
    (registers first count).mapM (Expr.eval rt) = (List.range' first count).mapM (reg (W := W)) := by
  unfold registers
  rw [List.mapM_map]
  rfl

section Instructions

variable {p : Proto} {block : PcBlock} {pc : ℕ}

/-- An instruction in its own right, neither a closure binding nor an extra word. -/
structure Executed (p : Proto) (pc : ℕ) : Prop where
  pc_eq : (p.instr pc).pc = pc
  not_binding : (p.instr pc).closureBindingFor = none
  not_extra : (p.instr pc).extraWord = false

section Numbers

variable {rt} {m : Machine W} {e f : Expr}

/-- The expression has the value and changes nothing. -/
def Evaluates (rt : Runtime W) (m : Machine W) (e : Expr) (v : Value) : Prop :=
  (e.eval rt).run m = some (v, m)

theorem Evaluates.lt {d d' : Double} (he : Evaluates rt m e (.number d))
    (hf : Evaluates rt m f (.number d')) : Evaluates rt m (.lt e f) (.boolean (d.lt d')) := by
  unfold Evaluates at *
  simp [Expr.eval, he, hf, Runtime.lt]

theorem Evaluates.le {d d' : Double} (he : Evaluates rt m e (.number d))
    (hf : Evaluates rt m f (.number d')) : Evaluates rt m (.le e f) (.boolean (d.le d')) := by
  unfold Evaluates at *
  simp [Expr.eval, he, hf, Runtime.le]

theorem Evaluates.andE {a b : Bool} (he : Evaluates rt m e (.boolean a))
    (hf : Evaluates rt m f (.boolean b)) : Evaluates rt m (.andE e f) (.boolean (a && b)) := by
  unfold Evaluates at *
  cases a <;> simp [Expr.eval, he, hf, Value.truthy]

theorem Evaluates.orE {a b : Bool} (he : Evaluates rt m e (.boolean a))
    (hf : Evaluates rt m f (.boolean b)) : Evaluates rt m (.orE e f) (.boolean (a || b)) := by
  unfold Evaluates at *
  cases a <;> simp [Expr.eval, he, hf, Value.truthy]

end Numbers

/-- Only a `SELF` before a call is rendered with it. -/
theorem fusedAt_ops {pc : ℕ} (h : fusedAt p pc = true) : (p.instr pc).op = .SELF ∧
    ((p.instr (pc + 1)).op = .CALL ∨ (p.instr (pc + 1)).op = .TAILCALL) := by
  simp only [fusedAt, colonMethodCall, Bool.and_eq_true, Bool.or_eq_true, beq_iff_eq] at h
  exact ⟨by tauto, by tauto⟩

theorem require_bind {α : Type} {condition : Bool} (h : condition = true) (x : Exec W α) :
    (do require condition; x) = x := by
  unfold require
  rw [if_pos h, pure_bind]

end Instructions

/-! ## Every instruction that is rendered by itself -/

/-- The instructions without an open operand list, except `CLOSURE`. -/
def fixedOperands (i : Instr) : Bool :=
  match i.op with
  | .CALL => i.b != 0 && i.c != 0
  | .TAILCALL | .RETURN | .SETLIST | .VARARG => i.b != 0
  | .CLOSURE => false
  | _ => true

/-- The constants that an instruction reads. -/
def constantOperands (p : Proto) (i : Instr) : List Constant :=
  match i.op with
  | .LOADK | .GETGLOBAL | .SETGLOBAL => [p.constants.getD i.bx .nil]
  | .GETTABLE | .SELF => operandConstant p i.c
  | .SETTABLE | .ADD | .SUB | .MUL | .DIV | .MOD | .POW | .EQ | .LT | .LE =>
    operandConstant p i.b ++ operandConstant p i.c
  | _ => []

/-- The registers after `setRegs`. -/
def Machine.sets (m : Machine W) : List ℕ → List Value → Machine W
  | [], _ => m
  | r :: rs, vs => (m.set r (vs.headD .nil)).sets rs vs.tail

theorem run_setRegs (rs : List ℕ) (vs : List Value) (m : Machine W) :
    (setRegs rs vs).run m = some ((), m.sets rs vs) := by
  induction rs generalizing m vs with
  | nil => rfl
  | cons r rs ih =>
    rw [setRegs, run_setReg_bind, ih]
    rfl

theorem run_mapM_reg (rs : List ℕ) (m : Machine W) :
    (rs.mapM reg).run m = some (rs.map m.regs, m) := by
  induction rs with
  | nil => rfl
  | cons r rs ih => simp [ih]

/-- Equal worlds, and equal contents of some registers. -/
structure AgreesOn (rs : ℕ → Prop) (m n : Machine W) : Prop where
  world : m.world = n.world
  regs : ∀ r, rs r → m.regs r = n.regs r

theorem AgreesOn.sets {good : ℕ → Prop} {m n : Machine W} (h : AgreesOn good m n)
    (rs : List ℕ) (vs : List Value) :
    AgreesOn (fun r => good r ∨ r ∈ rs) (m.sets rs vs) (n.sets rs vs) := by
  induction rs generalizing m n good vs with
  | nil => exact ⟨h.world, fun r hr => h.regs r (hr.resolve_right List.not_mem_nil)⟩
  | cons r rs ih =>
    have hset : AgreesOn (fun s => good s ∨ s = r) (m.set r (vs.headD .nil))
        (n.set r (vs.headD .nil)) := by
      refine ⟨h.world, fun s hs => ?_⟩
      rw [Machine.set_regs, Machine.set_regs]
      by_cases hsr : s = r
      · rw [if_pos hsr, if_pos hsr]
      · rw [if_neg hsr, if_neg hsr]
        exact h.regs s (hs.resolve_right hsr)
    have hrest := ih hset vs.tail
    refine ⟨hrest.world, fun s hs => hrest.regs s ?_⟩
    rw [List.mem_cons] at hs
    tauto

/-- An operation neither reads nor changes a register. -/
def Ignores {α : Type} (r : ℕ) (x : Exec W α) : Prop :=
  ∀ m v, x.run (m.set r v) = (x.run m).map fun y => (y.1, y.2.set r v)

/-- No closure shares the register, so lookups and calls neither read nor change it. -/
structure Private (rt : Runtime W) (r : ℕ) : Prop where
  index : ∀ t k, Ignores r (rt.index t k)
  call : ∀ f vs, Ignores r (rt.call f vs)

section Fused

variable {p : Proto} {block : PcBlock} {pc : ℕ}

/-- A `SELF` in the block that is rendered with the `CALL` or `TAILCALL` behind it. -/
structure Fused (p : Proto) (block : PcBlock) (pc : ℕ) : Prop where
  self : Executed p pc
  call : Executed p (pc + 1)
  inside : block.start ≤ pc ∧ pc + 1 < block.stop
  fused : fusedAt p pc = true
  closed : fixedOperands (p.instr (pc + 1)) = true

theorem Fused.facts (h : Fused p block pc) : ∃ name,
    (p.instr pc).op = .SELF ∧
    ((p.instr (pc + 1)).op = .CALL ∨ (p.instr (pc + 1)).op = .TAILCALL) ∧
    (p.instr (pc + 1)).a = (p.instr pc).a ∧ 2 ≤ (p.instr (pc + 1)).b ∧
    methodName p (p.instr pc) = some name := by
  have hfused := h.fused
  obtain ⟨hself, hcall⟩ := fusedAt_ops hfused
  simp only [fusedAt, colonMethodCall, Bool.and_eq_true, beq_iff_eq, decide_eq_true_iff] at hfused
  obtain ⟨name, hname⟩ := Option.isSome_iff_exists.1 hfused.1.1.1.1.1.2
  exact ⟨name, hself, hcall, by tauto, by tauto, hname⟩

theorem rk_methodName {name : List UInt8} {operand : ℕ} {self : Instr} (hc : self.c = operand)
    (h : methodName p self = some name) : rk p operand = (pure (.string name) : Exec W Value) := by
  unfold methodName at h
  rw [hc] at h
  unfold rk
  by_cases hconst : isConstantOperand operand = true
  · rw [if_pos hconst] at h ⊢
    rw [List.getD_eq_getElem?_getD]
    split at h
    case h_1 bytes hget =>
      rw [hget]
      split_ifs at h
      obtain rfl := Option.some.inj h
      rfl
    case h_2 => cases h
  · rw [if_neg hconst] at h
    cases h

/-- The machine's `SELF`, with the lookup before the registers are written. -/
theorem run_self_machine {self : Instr} (hop : self.op = .SELF) {name : List UInt8}
    (hname : methodName p self = some name) (hprivate : Private rt (self.a + 1)) (m : Machine W) :
    (vmStep rt p self).run m = ((rt.index (m.regs self.b) (.string name)).run m).map fun x =>
      (.goto (self.pc + 1), (x.2.set (self.a + 1) (m.regs self.b)).set self.a x.1) := by
  have hobject : (m.set (self.a + 1) (m.regs self.b)).regs self.b = m.regs self.b := by
    rw [Machine.set_regs]
    split_ifs <;> rfl
  unfold vmStep
  rw [hop]
  simp only [run_reg_bind, run_setReg_bind, hobject, rk_methodName rfl hname, pure_bind]
  rw [StateT.run_bind, hprivate.index]
  cases (rt.index (m.regs self.b) (.string name)).run m <;> rfl

end Fused

/-! ## The dispatcher -/

end ByteVeil.Lua51
