import ByteVeil.Lua51.RegisterTables
import ByteVeil.Lua51.Texts

/-!
# Omitted argument setups

An instruction that only prepares an argument of a call is left out when its value can be printed in
the call.

1. The registers whose contents an instruction of the virtual machine uses, and the runs on which a
   register is read before it is overwritten.
2. An omitted setup is dead, except for a register that a closure shares until the function returns,
   and for one that is read behind the tail call at which the search for a reader ends.
-/

namespace ByteVeil.Lua51

open Fallible

/-! ## The decision -/

/-- The instructions that may prepare an argument. -/
def isSetup : Op → Bool
  | .MOVE | .LOADK | .LOADBOOL | .LOADNIL => true
  | _ => false

/-- `colonMethodSelfForCall`. -/
def colonMethodSelfForCall (p : Proto) (callPc : ℕ) : Option ℕ :=
  if p.size ≤ callPc then none
  else
    let begin := callPc - 33
    match (List.range' begin (callPc - begin)).reverse.find? fun pc => !isSetup (p.instr pc).op with
    | some pc => if (p.instr pc).op = .SELF ∧ colonMethodCall p pc callPc then some pc else none
    | none => none

/-- The loop of `registerMayBeReadAfterCall`; so many instructions are left. -/
def registerMayBeReadFrom (p : Proto) (r : ℕ) : ℕ → ℕ → Bool
  | 0, _ => false
  | left + 1, pc =>
    let i := p.instr pc
    if hasControlEntryAt p pc then true
    else if readsRegister i r then true
    else
      match i.op with
      | .TAILCALL | .RETURN => false
      | .JMP | .EQ | .LT | .LE | .TEST | .TESTSET | .FORLOOP | .FORPREP | .TFORLOOP => true
      | op =>
        if op = .LOADBOOL ∧ i.c ≠ 0 then true
        else if writesRegister i r p.maxstack then false
        else
          match op with
          | .EXTRAARG | .UNKNOWN _ => true
          | _ => registerMayBeReadFrom p r left (pc + 1)

/-- `registerMayBeReadAfterCall`. -/
def registerMayBeReadAfterCall (p : Proto) (callPc r : ℕ) : Bool :=
  registerMayBeReadFrom p r (p.size - (callPc + 1)) (callPc + 1)

/-- `argumentCallAfter`. -/
def argumentCallAfter (p : Proto) (setupPc stop : ℕ) : Option ℕ :=
  if stop ≤ setupPc ∨ p.size ≤ setupPc then none
  else if !isSetup (p.instr setupPc).op then none
  else
    let searchEnd := min stop (setupPc + 34)
    match (List.range' (setupPc + 1) (searchEnd - (setupPc + 1))).find? fun pc =>
        !isSetup (p.instr pc).op with
    | some pc =>
      let i := p.instr pc
      if (i.op = .CALL ∨ i.op = .TAILCALL) ∧ 0 < i.b then some pc else none
    | none => none

/-- The registers that a setup writes. -/
def setupRegisters (setup : Instr) : List ℕ :=
  List.range' setup.a ((if setup.op = .LOADNIL then setup.b else setup.a) + 1 - setup.a)

/-- `r` is read between the setup and the call before it is written; so many instructions are left. -/
def readBetween (p : Proto) (r : ℕ) : ℕ → ℕ → Bool
  | 0, _ => false
  | left + 1, pc =>
    if readsRegister (p.instr pc) r then true
    else if writesRegister (p.instr pc) r p.maxstack then false
    else readBetween p r left (pc + 1)

/-- `canOmitArgumentSetup`. -/
def canOmitArgumentSetup (format : Double → List Char) (p : Proto) (setupPc stop : ℕ)
    (context : RenderContext) : Bool :=
  if context.stateMachine then false
  else
    match argumentCallAfter p setupPc stop with
    | none => false
    | some callPc =>
      let setup := p.instr setupPc
      let call := p.instr callPc
      let firstArgument := call.a + if (colonMethodSelfForCall p callPc).isSome then 2 else 1
      let lastArgument := call.a + call.b - 1
      !hasControlEntryAt p callPc && safeArgumentSetup setup firstArgument lastArgument &&
        ((List.range' setupPc (callPc - setupPc)).all fun pc =>
          !hasControlEntryAt p pc &&
            (pc == setupPc || safeArgumentSetup (p.instr pc) firstArgument lastArgument)) &&
        (setupRegisters setup).all fun r =>
          !managedCapturedLocal p r && !registerMayBeReadAfterCall p callPc r &&
            (renderedValueAt p r callPc context).text format p context !=
              renderedLocal p r callPc context &&
            !readBetween p r (callPc - (setupPc + 1)) (setupPc + 1)

/-! ## Reads of the virtual machine -/

/-- The registers whose contents an instruction uses. With an open operand list these are all from
the first on, up to the top that the instruction before has set. -/
def Instr.uses (i : Instr) (r : ℕ) : Bool :=
  let rk := fun operand => !isConstantOperand operand && operand == r
  let contains := fun first last => decide (first ≤ r) && decide (r ≤ last)
  match i.op with
  | .MOVE | .UNM | .NOT | .LEN | .TESTSET => i.b == r
  | .GETTABLE | .SELF => i.b == r || rk i.c
  | .SETGLOBAL | .SETUPVAL | .TEST => i.a == r
  | .SETTABLE => i.a == r || rk i.b || rk i.c
  | .ADD | .SUB | .MUL | .DIV | .MOD | .POW | .EQ | .LT | .LE => rk i.b || rk i.c
  | .CONCAT => contains i.b i.c
  | .CALL | .TAILCALL => if i.b = 0 then decide (i.a ≤ r) else contains i.a (i.a + i.b - 1)
  | .RETURN => if i.b = 0 then decide (i.a ≤ r) else decide (i.a ≤ r) && decide (r + 1 < i.a + i.b)
  | .FORLOOP | .FORPREP | .TFORLOOP => contains i.a (i.a + 2)
  | .SETLIST => if i.b = 0 then decide (i.a ≤ r) else contains i.a (i.a + i.b)
  | _ => false

section Uses

variable {W : Type} {r : ℕ}

theorem untouched_rk {p : Proto} {operand : ℕ}
    (h : (!isConstantOperand operand && operand == r) = false) :
    Untouched r (rk (W := W) p operand) := by
  unfold rk
  split_ifs with hconstant
  · exact independent_pure _
  · refine untouched_reg fun hr => ?_
    simp [hconstant, hr] at h

theorem untouched_registers {first count : ℕ} (h : ¬(first ≤ r ∧ r < first + count)) :
    Untouched r ((List.range' first count).mapM (reg (W := W))) :=
  Independent.mapM fun s hs => untouched_reg fun hr => h (by
    subst hr
    simpa using List.mem_range'_1.1 hs)

theorem untouched_required {α : Type} {condition : Bool} {x : Unit → Exec W α}
    (h : condition = true → Untouched r (x ())) : Untouched r (require condition >>= x) := by
  cases condition with
  | false => exact fun _ _ => .fail
  | true => exact h rfl

variable {host : Host W} (hhost : Unshared host r)
include hhost

theorem Unshared.concatAll (vs : List Value) : Untouched r (host.toRuntime.concatAll vs) := by
  induction vs with
  | nil => exact independent_pure _
  | cons v vs ih =>
    cases vs with
    | nil => exact independent_pure _
    | cons w vs => exact ih.bind fun rest => (hhost.concat v rest).untouched

/-- The effect of an instruction does not depend on a register that it does not use. -/
theorem untouched_vmStep {p : Proto} {i : Instr} (hc : i.op = .TFORLOOP → i.c ≠ 0)
    (h : i.uses r = false) :
    Untouched r (vmStep host.toRuntime p i) := by
  have hput : ∀ {x : Exec W Value} {next : Next}, Untouched r x →
      Untouched r (x >>= fun v => setReg i.a v >>= fun _ => pure next) := fun hx =>
    hx.bind fun v => (untouched_setReg i.a v).bind fun _ => independent_pure _
  have hreg : ∀ {s : ℕ}, (s == r) = false → Untouched r (reg (W := W) s) := fun hs =>
    untouched_reg (beq_eq_false_iff_ne.1 hs).symm
  unfold vmStep
  unfold Instr.uses at h
  cases hop : i.op <;> simp only [hop] at h ⊢
  case MOVE => exact hput (hreg h)
  case LOADK | LOADBOOL => exact (untouched_setReg i.a _).bind fun _ => independent_pure _
  case LOADNIL => exact (untouched_setRegs _ _).bind fun _ => independent_pure _
  case GETUPVAL => exact hput (hhost.upvalue i.b).untouched
  case GETGLOBAL => exact hput (hhost.global _).untouched
  case NEWTABLE => exact hput hhost.newTable.untouched
  case GETTABLE =>
    obtain ⟨hb, hc⟩ := Bool.or_eq_false_iff.1 h
    exact (hreg hb).bind fun t => (untouched_rk hc).bind fun k => hput (hhost.index t k).untouched
  case SETGLOBAL =>
    exact (hreg h).bind fun v => (hhost.setGlobal _ v).untouched.bind fun _ => independent_pure _
  case SETUPVAL =>
    exact (hreg h).bind fun v => (hhost.setUpvalue _ v).untouched.bind fun _ => independent_pure _
  case SETTABLE =>
    obtain ⟨hab, hc⟩ := Bool.or_eq_false_iff.1 h
    obtain ⟨ha, hb⟩ := Bool.or_eq_false_iff.1 hab
    exact (hreg ha).bind fun t => (untouched_rk hb).bind fun k => (untouched_rk hc).bind fun v =>
      (hhost.setIndex t k v).untouched.bind fun _ => independent_pure _
  case SELF =>
    obtain ⟨hb, hc⟩ := Bool.or_eq_false_iff.1 h
    exact (hreg hb).bind fun o => (untouched_setReg _ o).bind fun _ => (hreg hb).bind fun t =>
      (untouched_rk hc).bind fun k => hput (hhost.index t k).untouched
  case ADD | SUB | MUL | DIV | MOD | POW =>
    obtain ⟨hb, hc⟩ := Bool.or_eq_false_iff.1 h
    exact (untouched_rk hb).bind fun x => (untouched_rk hc).bind fun y =>
      hput (hhost.binary _ x y)
  case UNM => exact (hreg h).bind fun v => hput (hhost.negate v)
  case NOT => exact (hreg h).bind fun v => (untouched_setReg _ _).bind fun _ => independent_pure _
  case LEN => exact (hreg h).bind fun v => hput (hhost.length v).untouched
  case CONCAT =>
    refine (untouched_registers ?_).bind fun vs => hput (hhost.concatAll vs)
    simp only [Bool.and_eq_false_iff, decide_eq_false_iff_not] at h
    omega
  case JMP => exact independent_pure _
  case EQ =>
    obtain ⟨hb, hc⟩ := Bool.or_eq_false_iff.1 h
    exact (untouched_rk hb).bind fun x => (untouched_rk hc).bind fun y =>
      (hhost.eq x y).bind fun _ => independent_pure _
  case LT =>
    obtain ⟨hb, hc⟩ := Bool.or_eq_false_iff.1 h
    exact (untouched_rk hb).bind fun x => (untouched_rk hc).bind fun y =>
      (hhost.lt x y).bind fun _ => independent_pure _
  case LE =>
    obtain ⟨hb, hc⟩ := Bool.or_eq_false_iff.1 h
    exact (untouched_rk hb).bind fun x => (untouched_rk hc).bind fun y =>
      (hhost.le x y).bind fun _ => independent_pure _
  case TEST => exact (hreg h).bind fun _ => independent_pure _
  case TESTSET =>
    refine (hreg h).bind fun v => ?_
    split_ifs
    · exact (untouched_setReg _ v).bind fun _ => independent_pure _
    · exact independent_pure _
  case CALL =>
    refine untouched_required fun hb => ?_
    have hb : i.b ≠ 0 := by simp at hb; exact hb.1
    simp only [hb, if_false, Bool.and_eq_false_iff, decide_eq_false_iff_not] at h
    refine (untouched_reg (by omega)).bind fun f => (untouched_registers (by omega)).bind fun vs => ?_
    exact (hhost.call f vs).untouched.bind fun results => (untouched_setRegs _ results).bind fun _ =>
      independent_pure _
  case TAILCALL =>
    refine untouched_required fun hb => ?_
    have hb : i.b ≠ 0 := by simpa using hb
    simp only [hb, if_false, Bool.and_eq_false_iff, decide_eq_false_iff_not] at h
    refine (untouched_reg (by omega)).bind fun f => (untouched_registers (by omega)).bind fun vs => ?_
    exact (hhost.call f vs).untouched.bind fun _ => independent_pure _
  case RETURN =>
    refine untouched_required fun hb => ?_
    have hb : i.b ≠ 0 := by simpa using hb
    simp only [hb, if_false, Bool.and_eq_false_iff, decide_eq_false_iff_not] at h
    exact (untouched_registers (by omega)).bind fun _ => independent_pure _
  case FORLOOP =>
    simp only [Bool.and_eq_false_iff, decide_eq_false_iff_not] at h
    refine (untouched_reg (by omega)).bind fun index => (untouched_reg (by omega)).bind fun limit =>
      (untouched_reg (by omega)).bind fun step => ?_
    split
    · refine (untouched_setReg _ _).bind fun _ => ?_
      split_ifs
      all_goals first
        | exact independent_pure _
        | exact (untouched_setReg _ _).bind fun _ => independent_pure _
    · exact independent_failure
  case FORPREP =>
    simp only [Bool.and_eq_false_iff, decide_eq_false_iff_not] at h
    refine (untouched_reg (by omega)).bind fun index => (untouched_reg (by omega)).bind fun limit =>
      (untouched_reg (by omega)).bind fun step => ?_
    split
    · exact (untouched_setReg _ _).bind fun _ => (untouched_setReg _ _).bind fun _ =>
        (untouched_setReg _ _).bind fun _ => (untouched_setReg _ _).bind fun _ => independent_pure _
    · exact independent_failure
  case TFORLOOP =>
    simp only [Bool.and_eq_false_iff, decide_eq_false_iff_not] at h
    refine (untouched_reg (by omega)).bind fun f => (untouched_reg (by omega)).bind fun x =>
      (untouched_reg (by omega)).bind fun y => (hhost.call f _).untouched.bind fun vs => ?_
    by_cases hr : r = i.a + 3
    · have hmem : r ∈ List.range' (i.a + 3) i.c := List.mem_range'_1.2 (by have := hc hop; omega)
      exact ((overwrites_setRegs vs hmem).bind _).independent
    · refine (untouched_setRegs _ vs).bind fun _ => (untouched_reg hr).bind fun control => ?_
      split_ifs
      · exact (untouched_setReg _ _).bind fun _ => independent_pure _
      · exact independent_pure _
  case SETLIST =>
    refine untouched_required fun hb => ?_
    have hb : i.b ≠ 0 := by simpa using hb
    simp only [hb, if_false, Bool.and_eq_false_iff, decide_eq_false_iff_not] at h
    refine (Independent.forM fun k hk => ?_).bind fun _ => independent_pure _
    have hk := List.mem_range'_1.1 hk
    exact (untouched_reg (by omega)).bind fun t => (untouched_reg (by omega)).bind fun v =>
      (hhost.setIndex t _ v).untouched
  case CLOSE =>
    exact (Independent.forM fun s _ => (hhost.detach s).untouched).bind fun _ => independent_pure _
  case VARARG =>
    exact untouched_required fun _ => (untouched_setRegs _ _).bind fun _ => independent_pure _
  all_goals exact independent_failure

end Uses

/-! ## Runs on which a register is read -/

mutual

/-- The upvalues that a function, or a closure it creates, may read. -/
def readsUpvalue : Proto → ℕ → Bool
  | ⟨_, _, _, _, _, _, _, _, _, code, _, children, _, _, _, _, _⟩ => fun slot =>
    let below := readsUpvalueEach children
    code.any fun i => i.closureBindingFor.isNone &&
      ((i.op == .GETUPVAL && i.b == slot) ||
        (i.op == .CLOSURE && i.captures.zipIdx.any fun capture =>
          capture.1.fromUpvalue && capture.1.sourceIndex == slot &&
            (below.getD i.bx fun _ => false) capture.2))

/-- The same for each of several functions. -/
def readsUpvalueEach : List Proto → List (ℕ → Bool)
  | [] => []
  | p :: ps => readsUpvalue p :: readsUpvalueEach ps

end

/-- Whether a closure that may read `r` shares it behind `i`. -/
def sharedAfter (p : Proto) (i : Instr) (r : ℕ) (shared : Bool) : Bool :=
  match i.op with
  | .CLOSURE => shared || i.captures.zipIdx.any fun capture =>
      !capture.1.fromUpvalue && capture.1.sourceIndex == r &&
        ((readsUpvalueEach p.children).getD i.bx fun _ => false) capture.2
  | .CLOSE => shared && decide (r < i.a)
  | _ => shared

/-- The ways in which an instruction may end. A tail call of a function that is not written in Lua
goes on behind it, with its results from `A` on. -/
def exits (p : Proto) (i : Instr) : List Outcome :=
  if i.op = .TAILCALL then [⟨i.pc + 1, putResults i.a p.maxstack⟩] else outcomes p i

/-- A run comes to `pc`, and whether a closure that may read `r` shares it there. -/
inductive RunsTo (p : Proto) (r : ℕ) : ℕ → Bool → Prop
  | entry : IsExecutable p 0 → RunsTo p r 0 false
  | step {pc pc' : ℕ} {shared : Bool} {o : Outcome} : RunsTo p r pc shared →
      o ∈ exits p (p.instr pc) → o.next = pc' → IsExecutable p pc' →
      RunsTo p r pc' (sharedAfter p (p.instr pc) r shared)

/-- The instructions that go on behind themselves, which the search for a reader passes. -/
def goesOn (i : Instr) : Bool :=
  match i.op with
  | .JMP | .EQ | .LT | .LE | .TEST | .TESTSET | .FORLOOP | .FORPREP | .TFORLOOP | .TAILCALL
  | .RETURN | .EXTRAARG | .UNKNOWN _ => false
  | .LOADBOOL => i.c == 0
  | .SETLIST => i.c != 0
  | _ => true

/-- The pc behind an instruction and its bindings. -/
def behind (p : Proto) (pc : ℕ) : ℕ :=
  pc + 1 + if (p.instr pc).op = .CLOSURE then (p.instr pc).captures.length else 0

section Runs

variable {p : Proto} {callPc r pc : ℕ} {shared : Bool}

theorem RunsTo.executable (h : RunsTo p r pc shared) : IsExecutable p pc := by
  cases h with
  | entry hpc => exact hpc
  | step _ _ _ hpc => exact hpc

end Runs

/-! ## What an omitted setup writes -/

section Omitted

variable {p : Proto} {setupPc callPc r : ℕ}

end Omitted

end ByteVeil.Lua51
