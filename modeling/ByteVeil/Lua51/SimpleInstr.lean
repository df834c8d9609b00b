import ByteVeil.Lua51.Ranges

/-!
# Single instructions

`emitRange` emits an instruction on its own, or leaves it out: the setup of a loop, of a return or of
an argument, an open result that the next instruction takes, and a read or a `SELF` whose text stands
in the instruction behind it.
-/

namespace ByteVeil.Lua51

open Fallible

/-! ## Instructions whose text stands elsewhere -/

/-- `GETGLOBAL` and `GETTABLE`. -/
def isRead (op : Op) : Bool := op == .GETGLOBAL || op == .GETTABLE

/-- `CALL` and `TAILCALL`. -/
def isCall (op : Op) : Bool := op == .CALL || op == .TAILCALL

/-- `colonMethodCallAfter`. -/
def colonMethodCallAfter (p : Proto) (selfPc : ℕ) : Option ℕ :=
  if p.size ≤ selfPc then none
  else
    let stop := min p.size (selfPc + 34)
    match (List.range' (selfPc + 1) (stop - (selfPc + 1))).find? fun pc => !isSetup (p.instr pc).op with
    | some pc =>
      if isCall (p.instr pc).op = true ∧ colonMethodCall p selfPc pc = true then some pc else none
    | none => none

/-- `canInlineReadProducer`. -/
def canInlineReadProducer (p : Proto) (producerPc stop : ℕ) (context : RenderContext) : Bool :=
  let producer := p.instr producerPc
  let consumer := p.instr (producerPc + 1)
  !context.stateMachine && decide (producerPc + 1 < stop) && decide (producerPc + 1 < p.size) &&
    isRead producer.op && consumer.op == .GETTABLE && producer.a == consumer.a &&
    consumer.b == producer.a && !hasControlEntryAt p consumer.pc

/-- `inlineReadUsesRegister`; at most so many reads are followed. -/
def inlineReadUsesRegister (p : Proto) (r : ℕ) : ℕ → ℕ → Bool
  | 0, _ => true
  | left + 1, producerPc =>
    let producer := p.instr producerPc
    if p.size ≤ producerPc then true
    else
      match producer.op with
      | .GETGLOBAL => false
      | .GETTABLE =>
        let previous := p.instr (producerPc - 1)
        let inlinedBase := producer.a == producer.b && decide (0 < producerPc) &&
          !hasControlEntryAt p producer.pc && isRead previous.op && previous.a == producer.a
        (!isConstantOperand producer.c && producer.c == r) ||
          (if inlinedBase = true then inlineReadUsesRegister p r left (producerPc - 1)
          else producer.b == r)
      | _ => true

/-- The instruction between a read and its call leaves the read's text as it is. -/
def keepsRead (p : Proto) (producerPc : ℕ) (call : Instr) (setupPc : ℕ) : Bool :=
  let setup := p.instr setupPc
  !hasControlEntryAt p setupPc && safeArgumentSetup setup (call.a + 1) (call.a + call.b - 1) &&
    !(setup.op == .MOVE && setup.b == call.a) &&
    (setupRegisters setup).all fun written => !inlineReadUsesRegister p written 33 producerPc

/-- `inlineCallTargetProducerFor`. -/
def inlineCallTargetProducerFor (p : Proto) (callPc : ℕ) : Option ℕ :=
  let call := p.instr callPc
  let begin := callPc - 33
  if p.size ≤ callPc ∨ isCall call.op = false ∨ call.b = 0 ∨ (call.op = .CALL ∧ call.c < 2) ∨
      managedCapturedLocal p call.a = true ∨ hasControlEntryAt p callPc = true ∨
      p.maxstack ≤ call.a + call.b - 1 then none
  else
    match (List.range' begin (callPc - begin)).reverse.find? fun pc =>
        isRead (p.instr pc).op || hasControlEntryAt p pc ||
          !safeArgumentSetup (p.instr pc) (call.a + 1) (call.a + call.b - 1) with
    | some pc =>
      if isRead (p.instr pc).op = true ∧ (p.instr pc).a = call.a ∧
          (List.range' (pc + 1) (callPc - (pc + 1))).all (keepsRead p pc call) = true then some pc
      else none
    | none => none

/-- `canInlineCallTargetProducer`. -/
def canInlineCallTargetProducer (p : Proto) (producerPc stop : ℕ) (context : RenderContext) : Bool :=
  if context.stateMachine = true ∨ stop ≤ producerPc ∨ p.size ≤ producerPc ∨
      isRead (p.instr producerPc).op = false then false
  else
    let searchEnd := min stop (producerPc + 34)
    match (List.range' (producerPc + 1) (searchEnd - (producerPc + 1))).find? fun pc =>
        !isSetup (p.instr pc).op with
    | some pc => isCall (p.instr pc).op && inlineCallTargetProducerFor p pc == some producerPc
    | none => false

/-! ## One instruction -/

/-- `loopSetup`: a `FORPREP` close behind takes the register. -/
def loopSetup (p : Proto) (stop pc : ℤ) : Search Bool := do
  let i ← codeAt p pc
  both (i.op = .LOADK ∨ i.op = .MOVE ∨ i.op = .LOADNIL) (anyOf (fun f => do
    let next ← codeAt p f
    return next.op == .FORPREP && decide (next.a ≤ i.a ∧ i.a ≤ next.a + 2))
    (interval (pc + 1) (min stop (pc + 5))))

/-- `returnSetup`: the constant is returned by the next instruction. -/
def returnSetup (p : Proto) (stop pc : ℤ) : Search Bool := do
  let i ← codeAt p pc
  both (i.op = .LOADK ∧ pc + 1 < stop) do
    let next ← codeAt p (pc + 1)
    return (next.op == .RETURN || next.op == .TAILCALL) && next.a == i.a

/-- `inlineSelf`: the method call behind prints the `SELF`. -/
def inlineSelf (p : Proto) (context : RenderContext) (stop pc : ℕ) : Bool :=
  if context.stateMachine = false ∧ (p.instr pc).op = .SELF then
    match colonMethodCallAfter p pc with
    | some methodCallPc =>
      decide (pc < methodCallPc) && decide (methodCallPc < stop) && !hasControlEntryAt p (pc + 1)
    | none => false
  else false

/-- `colonCall`: the call prints its `SELF`. -/
def colonCall (p : Proto) (context : RenderContext) (start pc : ℕ) : Bool :=
  if context.stateMachine = false ∧ start < pc ∧ isCall (p.instr pc).op = true then
    match colonMethodSelfForCall p pc with
    | some methodSelfPc => decide (start ≤ methodSelfPc) && !hasControlEntryAt p pc
    | none => false
  else false

/-- `inlineCallTarget`: the call prints the read of its function. -/
def inlineCallTarget (p : Proto) (context : RenderContext) (start pc : ℕ) : Bool :=
  if context.stateMachine = false ∧ isCall (p.instr pc).op = true then
    match inlineCallTargetProducerFor p pc with
    | some callTargetProducer => decide (start ≤ callTargetProducer)
    | none => false
  else false

/-- The instruction is printed where its value is used. -/
def leftToConsumer (format : Double → List Char) (p : Proto) (context : RenderContext)
    (stop pc : ℕ) : Bool :=
  let i := p.instr pc
  (!context.stateMachine && isRead i.op && canInlineCallTargetProducer p pc stop context) ||
    (!context.stateMachine && isSetup i.op && canOmitArgumentSetup format p pc stop context) ||
    (!context.stateMachine && canInlineReadProducer p pc stop context)

/-- Where the range goes on behind an instruction. -/
def nextOf (i : Instr) (pc : ℤ) : Option ℤ :=
  match i.op with
  | .TAILCALL | .RETURN => none
  | .LOADBOOL => some (if i.c = 0 then pc + 1 else if 0 ≤ i.target then i.target else pc + 2)
  | _ => some (pc + 1)

/-- An instruction on its own. -/
def simpleInstr (format : Double → List Char) (p : Proto) (context : RenderContext) (a : Activation)
    (pc : ℤ) : Search Step := do
  let i ← codeAt p pc
  let start := a.start.toNat
  let stop := a.stop.toNat
  let loopSetup ← loopSetup p a.stop pc
  let returnSetup ← returnSetup p a.stop pc
  let inlineOpenResults := openProducerConsumedInRange p pc.toNat stop
  let inlineSelf := inlineSelf p context stop pc.toNat
  if leftToConsumer format p context stop pc.toNat = true then
    return { parts := [], next := some (pc + 1) }
  else
    let inlineReadBase := !context.stateMachine && decide (start < pc.toNat) &&
      canInlineReadProducer p (pc.toNat - 1) stop context
    let instruction := Line.simple pc (colonCall p context start pc.toNat) inlineReadBase
      (inlineCallTarget p context start pc.toNat)
    let parts := if loopSetup = false ∧ returnSetup = false ∧ inlineOpenResults = false ∧
      inlineSelf = false then [line instruction] else []
    return { parts := parts, next := nextOf i pc }

/-! ## Only lines are emitted -/

section Finds

variable {p : Proto} {a : Activation} {pc stop : ℤ}

theorem finds_loopSetup {P : Bool → Prop} (hpc : 0 ≤ pc) (hlt : pc < p.size)
    (hstop : stop ≤ p.size) (hP : ∀ b, P b) : Finds (loopSetup p stop pc) P := by
  unfold loopSetup
  rw [finds_bind, finds_codeAt]
  refine ⟨hpc, hlt, ?_⟩
  rw [finds_both]
  exact ⟨fun _ => finds_anyInstr (by omega) (by omega) hP, fun _ => hP false⟩

theorem finds_returnSetup {P : Bool → Prop} (hpc : 0 ≤ pc) (hlt : pc < p.size)
    (hstop : stop ≤ p.size) (hP : ∀ b, P b) : Finds (returnSetup p stop pc) P := by
  unfold returnSetup
  simp only [finds_bind, finds_codeAt, finds_both, finds_pure]
  exact ⟨hpc, hlt, fun h => ⟨by omega, by omega, hP _⟩, fun _ => hP false⟩

theorem finds_simpleInstr {format : Double → List Char} {context : RenderContext}
    (ha : a.InRange p) (hpc : 0 ≤ pc) (hlt : pc < p.size) :
    FindsInner p a (simpleInstr format p context a pc) := by
  unfold FindsInner simpleInstr
  simp only [finds_bind, finds_codeAt]
  refine ⟨hpc, hlt, finds_loopSetup hpc hlt ha.stop_le fun loopSetup => ?_⟩
  refine finds_returnSetup hpc hlt ha.stop_le fun returnSetup => ?_
  rw [finds_ite]
  refine ⟨fun _ => allInner_nil, fun _ => ?_⟩
  simp [finds_pure, allInner_ite]

theorem settles_simpleInstr {format : Double → List Char} {context : RenderContext} :
    Settles (simpleInstr format p context a pc) := by
  have hpure {α : Type} {x : α} : Settles (pure x : Search α) := settles_ok
  have hloop : Settles (loopSetup p a.stop pc) :=
    settles_bind settles_fetch fun _ => settles_ite
      (settles_anyOf fun _ => settles_bind settles_fetch fun _ => hpure) hpure
  have hreturn : Settles (returnSetup p a.stop pc) :=
    settles_bind settles_fetch fun _ => settles_ite
      (settles_bind settles_fetch fun _ => hpure) hpure
  refine settles_bind settles_fetch fun _ => settles_bind hloop fun _ => settles_bind hreturn fun _ => ?_
  exact settles_ite hpure hpure

end Finds

end ByteVeil.Lua51
