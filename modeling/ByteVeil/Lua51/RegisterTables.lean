import ByteVeil.Lua51.Closed
import ByteVeil.Lua51.DispatcherText

/-!
# The read and write tables

`writesRegister` and `readsRegister` against the text that the dispatcher emits.

1. The text assigns what the table says, except for the loop instructions, a `VARARG` of no value or
   outside a variadic function, and a `SELF` that is rendered with its call.
2. The text reads what the table says, except for the object of a method call and for open results
   below the register that takes them.
-/

namespace ByteVeil.Lua51

open Fallible

/-- `readsRegister`. -/
def readsRegister (i : Instr) (r : ℕ) : Bool :=
  let rk := fun operand => !isConstantOperand operand && operand == r
  let contains := fun first last => decide (first ≤ r) && decide (r ≤ last)
  if i.extraWord then false
  else if i.closureBindingFor.isSome then i.op == .MOVE && i.b == r
  else
    match i.op with
    | .MOVE => i.b == r
    | .LOADK | .LOADBOOL | .LOADNIL | .GETUPVAL | .GETGLOBAL | .NEWTABLE | .CLOSURE | .VARARG =>
      false
    | .GETTABLE => i.b == r || rk i.c
    | .SETGLOBAL | .SETUPVAL => i.a == r
    | .SETTABLE => i.a == r || rk i.b || rk i.c
    | .SELF => i.b == r || rk i.c
    | .ADD | .SUB | .MUL | .DIV | .MOD | .POW => rk i.b || rk i.c
    | .UNM | .NOT | .LEN => i.b == r
    | .CONCAT => contains i.b i.c
    | .EQ | .LT | .LE => rk i.b || rk i.c
    | .TEST => i.a == r
    | .TESTSET => i.a == r || i.b == r
    | .CALL | .TAILCALL => if i.b = 0 then decide (i.a ≤ r) else contains i.a (i.a + i.b - 1)
    | .RETURN =>
      if i.b = 0 then decide (i.a ≤ r) else decide (1 < i.b) && contains i.a (i.a + i.b - 2)
    | .FORLOOP | .FORPREP | .TFORLOOP => contains i.a (i.a + 2)
    | .SETLIST => if i.b = 0 then decide (i.a ≤ r) else contains i.a (i.a + i.b)
    | .CLOSE => false
    | _ => true

/-! ## The operands of open results -/

/-- The open result at `n` is rendered inside its consumer, `levels` deep at most. -/
inductive Nested (p : Proto) : ℕ → ℕ → Prop
  | varargs {levels n : ℕ} : (p.instr n).op = .VARARG → Nested p (levels + 1) n
  | closed {levels n : ℕ} : (p.instr n).op = .CALL → (p.instr n).b ≠ 0 → Nested p (levels + 1) n
  | taking {levels n m : ℕ} : (p.instr n).op = .CALL → (p.instr n).b = 0 →
      openProducerFor p (p.instr n) = some m → (p.instr n).a < (p.instr m).a →
      Nested p levels m → Nested p (levels + 2) n

/-- `r` is an operand of the open result at `n`, or of an open result that it takes. -/
inductive OpenOperand (p : Proto) (r : ℕ) : ℕ → Prop
  | object {n : ℕ} : fusedAt p n = true → r = (p.instr n).b → OpenOperand p r (n + 1)
  | methodArgument {n : ℕ} : fusedAt p n = true → (p.instr (n + 1)).a + 2 ≤ r →
      r < (p.instr (n + 1)).a + (p.instr (n + 1)).b → OpenOperand p r (n + 1)
  | closed {n : ℕ} : (p.instr n).op = .CALL → (p.instr n).b ≠ 0 →
      (0 < n → fusedAt p (n - 1) = false) → (p.instr n).a ≤ r →
      r < (p.instr n).a + (p.instr n).b → OpenOperand p r n
  | before {n m : ℕ} : (p.instr n).op = .CALL → (p.instr n).b = 0 →
      openProducerFor p (p.instr n) = some m → (p.instr n).a ≤ r → r < (p.instr m).a →
      OpenOperand p r n
  | inside {n m : ℕ} : (p.instr n).op = .CALL → (p.instr n).b = 0 →
      openProducerFor p (p.instr n) = some m → OpenOperand p r m → OpenOperand p r n

/-- How deep a consumer's open result may be nested. -/
def openLevels : Op → ℕ
  | .CALL | .TAILCALL => 32
  | _ => 33

/-- The instruction takes an open result of its block, rendered with it, that reads `r`. -/
structure TakesOperand (p : Proto) (block : PcBlock) (i : Instr) (r : ℕ) : Prop where
  consumes : consumesOpenResults i.op = true
  b_eq : i.b = 0
  taken : ∃ m, openProducerFor p i = some m ∧ block.start ≤ m ∧ StartsBelow i (p.instr m) ∧
    Nested p (openLevels i.op) m ∧ OpenOperand p r m

/-! ## The tables and the text -/

/-- The effect of the instruction's text depends on what `r` holds. -/
def DependsOn (p : Proto) (block : PcBlock) (pc r : ℕ) : Prop :=
  ∃ (W : Type) (host : Host W), Unshared host r ∧ ¬Untouched r ((instrText p block pc).exec host p)

/-- For the instruction at `pc` the tables say about `r` what its text does. -/
structure TablesCover (p : Proto) (block : PcBlock) (pc r : ℕ) : Prop where
  assigned : r ∈ (instrText p block pc).targets → writesRegister (p.instr pc) r p.maxstack = true
  read : DependsOn p block pc r → readsRegister (p.instr pc) r = true
  written : writesRegister (p.instr pc) r p.maxstack = true → r ∈ (instrText p block pc).targets

/-- `r` is none of the registers that the write table has wrong for the instruction at `pc`. -/
structure WritesApply (p : Proto) (block : PcBlock) (pc r : ℕ) : Prop where
  forprep : (p.instr pc).op = .FORPREP → r ≠ (p.instr pc).a + 1 ∧ r ≠ (p.instr pc).a + 2
  tforloop : (p.instr pc).op = .TFORLOOP → r ≠ (p.instr pc).a + 2
  vararg_none : (p.instr pc).op = .VARARG → (p.instr pc).b = 1 → r ≠ (p.instr pc).a
  vararg_fixed : (p.instr pc).op = .VARARG → p.vararg / 2 % 2 = 0 →
    r ≤ (p.instr pc).a ∨ (p.instr pc).a + (p.instr pc).b < r + 2
  method : (p.instr pc).op = .SELF → pc + 1 < block.stop → fusedAt p pc = true →
    r ≠ (p.instr pc).a ∧ r ≠ (p.instr pc).a + 1

/-- `r` is none of the registers that the read table has wrong for the instruction at `pc`. -/
structure ReadsApply (p : Proto) (block : PcBlock) (pc r : ℕ) : Prop where
  object : block.start < pc → fusedAt p (pc - 1) = true → r = (p.instr (pc - 1)).b →
    r = (p.instr pc).a ∨ r = (p.instr pc).a + 1
  taken : TakesOperand p block (p.instr pc) r → (p.instr pc).a ≤ r

/-! ## Assigned registers -/

theorem mem_targetsOf {ss : List Stmt} {r : ℕ} : r ∈ targetsOf ss ↔ ∃ s ∈ ss, r ∈ s.targets := by
  induction ss with
  | nil => simp [targetsOf]
  | cons s ss ih => simp [targetsOf, ih]

theorem exists_of_mem_readsOf {ss : List Stmt} {r : ℕ} (h : r ∈ readsOf ss) :
    ∃ s ∈ ss, r ∈ s.reads := by
  induction ss with
  | nil => exact absurd h List.not_mem_nil
  | cons s ss ih =>
    rcases List.mem_append.1 h with h | h
    · exact ⟨s, List.mem_cons_self, h⟩
    · obtain ⟨t, ht, hr⟩ := ih (List.mem_filter.1 h).1
      exact ⟨t, List.mem_cons_of_mem s ht, hr⟩

section Tables

variable {p : Proto} {block : PcBlock} {pc r : ℕ}

theorem blockInstruction_cases (p : Proto) (block : PcBlock) (i : Instr) :
    blockInstruction p block i = i ∨
      blockInstruction p block i = { i with openProducer := none } := by
  unfold blockInstruction
  split
  · split_ifs
    · exact Or.inr rfl
    · exact Or.inl rfl
  · exact Or.inl rfl

/-- With an open operand list the registers that are assigned are the results of a `CALL`. -/
theorem targets_openText {i : Instr} : r ∈ (openText p i).targets ↔
    i.op = .CALL ∧ r ∈ List.range' i.a (i.c - 1) := by
  unfold openText
  cases hop : i.op <;> dsimp only
  case CALL =>
    split
    · simp [InstrText.targets]
    · simp [InstrText.targets, targetsOf, Stmt.targets, Stmt.assigned]
  case TAILCALL | SETLIST =>
    split <;> simp [InstrText.targets, targetsOf, Stmt.targets, Stmt.assigned]
  case RETURN =>
    split
    · simp [InstrText.targets]
    · split_ifs <;> simp [InstrText.targets, targetsOf, Stmt.targets, Stmt.assigned]
  all_goals simp [InstrText.targets, targetsOf, Stmt.targets, Stmt.assigned]

/-- The text of an instruction whose operand lists are closed. -/
theorem instrText_closed (hclosure : (p.instr pc).op ≠ .CLOSURE)
    (hopen : consumesOpenResults (p.instr pc).op = true → (p.instr pc).b ≠ 0) :
    instrText p block pc = .stmts (emitPcInstr p block pc).stmts := by
  unfold instrText
  dsimp only
  rw [if_neg hclosure, if_neg fun h => hopen h.1 h.2]

/-- The text of an instruction that takes an open result. -/
theorem instrText_open (hopen : consumesOpenResults (p.instr pc).op = true)
    (hb : (p.instr pc).b = 0) :
    instrText p block pc = openText p (blockInstruction p block (p.instr pc)) := by
  have hclosure : (p.instr pc).op ≠ .CLOSURE := by
    intro h
    rw [h] at hopen
    cases hopen
  unfold instrText
  dsimp only
  rw [if_neg hclosure, if_pos ⟨hopen, hb⟩]

theorem targetsOf_append (ss ts : List Stmt) : targetsOf (ss ++ ts) = targetsOf ss ++ targetsOf ts := by
  induction ss with
  | nil => rfl
  | cons s ss ih =>
    show s.targets ++ targetsOf (ss ++ ts) = s.targets ++ targetsOf ss ++ targetsOf ts
    rw [ih, List.append_assoc]

theorem readsOf_setPc (ss : List Stmt) (pc : ℤ) : readsOf (ss ++ [.setPc pc]) = readsOf ss := by
  induction ss with
  | nil => rfl
  | cons s ss ih =>
    show s.reads ++ (readsOf (ss ++ [.setPc pc])).filter _ = s.reads ++ (readsOf ss).filter _
    rw [ih]

/-- The statements of an instruction that is neither a jump nor a loop. -/
def plainStmts (p : Proto) (block : PcBlock) (pc : ℕ) : List Stmt :=
  if pc + 1 < block.stop ∧ fusedAt p pc = true then []
  else emitSimple p (p.instr pc) (decide (block.start < pc) && fusedAt p (pc - 1))

/-- Apart from assignments of the dispatcher's pc these are all. -/
theorem emitPcInstr_plain (hpc : IsExecutable p pc) (hop : isControl (p.instr pc).op = false) :
    targetsOf (emitPcInstr p block pc).stmts = targetsOf (plainStmts p block pc) ∧
      readsOf (emitPcInstr p block pc).stmts = readsOf (plainStmts p block pc) := by
  have hskip : ¬((p.instr pc).closureBindingFor.isSome = true ∨ (p.instr pc).extraWord = true) := by
    simp [hpc.not_extra, hpc.not_binding]
  have hstmts : (if (decide (pc + 1 < block.stop) && fusedAt p pc) = true then []
      else emitSimple p (p.instr pc) (decide (block.start < pc) && fusedAt p (pc - 1))) =
      plainStmts p block pc := by
    unfold plainStmts
    exact if_congr (by simp) rfl rfl
  unfold emitPcInstr
  dsimp only
  rw [if_neg hskip]
  cases h : (p.instr pc).op <;> rw [h] at hop <;> cases hop
  case LOADBOOL =>
    dsimp only
    rw [hstmts]
    split_ifs
    · refine ⟨?_, readsOf_setPc _ _⟩
      rw [targetsOf_append]
      exact List.append_nil _
    · exact ⟨rfl, rfl⟩
  all_goals
    dsimp only
    rw [hstmts]
    exact ⟨rfl, rfl⟩

/-- The table of a call with a fixed number of results. -/
theorem writesRegister_call (hpc : IsExecutable p pc) (hop : (p.instr pc).op = .CALL)
    (hopen : openResultProducer (p.instr pc) = false) :
    writesRegister (p.instr pc) r p.maxstack = true ↔
      r ∈ List.range' (p.instr pc).a ((p.instr pc).c - 1) := by
  have hc : (p.instr pc).c ≠ 0 := by
    intro hc
    simp [openResultProducer, hop, hc] at hopen
  simp only [writesRegister, hpc.not_extra, hpc.not_binding, hop, Option.isSome_none,
    Bool.false_eq_true, or_self, if_false, if_neg hc, Bool.and_eq_true, decide_eq_true_eq,
    List.mem_range'_1]
  omega

theorem targets_callText (i : Instr) (colonCall : Bool) (rs : List ℕ) :
    (callText p i colonCall (Stmt.assignCall rs) (Stmt.assignMethodCall rs)).targets = rs := by
  unfold callText
  dsimp only
  split <;> rfl

theorem targets_returnText (i : Instr) (colonCall : Bool) :
    (callText p i colonCall Stmt.returnCall Stmt.returnMethodCall).targets = [] := by
  unfold callText
  dsimp only
  split <;> rfl

theorem not_fused (h : (p.instr pc).op ≠ .SELF) : fusedAt p pc = false := by
  rw [← Bool.not_eq_true]
  exact fun hfused => h (fusedAt_cases hfused).1

/-- What a jump or a comparison assigns, and a `FORLOOP`. -/
theorem targets_control (hpc : IsExecutable p pc) (hcontrol : isControl (p.instr pc).op = true)
    (hprep : (p.instr pc).op ≠ .FORPREP) (hloop : (p.instr pc).op ≠ .TFORLOOP) :
    r ∈ targetsOf (emitPcInstr p block pc).stmts ↔
      writesRegister (p.instr pc) r p.maxstack = true := by
  cases hop : (p.instr pc).op
  case JMP | EQ | LT | LE | TEST | TESTSET | FORLOOP =>
    simp [emitPcInstr, writesRegister, hop, hpc.not_extra, hpc.not_binding, targetsOf, Stmt.targets,
      Stmt.assigned, branchText]
  case FORPREP => exact absurd hop hprep
  case TFORLOOP => exact absurd hop hloop
  all_goals
    rw [hop] at hcontrol
    cases hcontrol

/-- What the other instructions assign, when they are rendered on their own. -/
theorem targets_emitSimple (hpc : IsExecutable p pc) (colonCall : Bool)
    (hopen : openResultProducer (p.instr pc) = false) (hcontrol : isControl (p.instr pc).op = false)
    (hclosure : (p.instr pc).op ≠ .CLOSURE) (hvararg : (p.instr pc).op ≠ .VARARG) :
    r ∈ targetsOf (emitSimple p (p.instr pc) colonCall) ↔
      writesRegister (p.instr pc) r p.maxstack = true := by
  cases hop : (p.instr pc).op
  case CALL =>
    rw [writesRegister_call hpc hop hopen]
    simp [emitSimple, hop, targetsOf, targets_callText]
  case JMP | EQ | LT | LE | TEST | TESTSET | FORLOOP | FORPREP | TFORLOOP =>
    rw [hop] at hcontrol
    cases hcontrol
  case CLOSURE => exact absurd hop hclosure
  case VARARG => exact absurd hop hvararg
  case LOADNIL =>
    simp only [emitSimple, hop, mem_targetsOf, List.mem_map, List.mem_range'_1, writesRegister,
      hpc.not_extra, hpc.not_binding, Option.isSome_none, Bool.false_eq_true, or_self, if_false,
      Bool.and_eq_true, decide_eq_true_eq]
    constructor
    · rintro ⟨_, ⟨s, hs, rfl⟩, hr⟩
      obtain rfl := List.mem_singleton.1 hr
      omega
    · intro hr
      exact ⟨_, ⟨r, by omega, rfl⟩, List.mem_singleton_self r⟩
  case CLOSE =>
    have hdetach : ∀ s ∈ emitCapturedCellClose p (p.instr pc).a, r ∉ s.targets := by
      intro s hs
      obtain ⟨q, -, rfl⟩ := List.mem_map.1 hs
      exact List.not_mem_nil
    simp only [emitSimple, hop, writesRegister, hpc.not_extra, hpc.not_binding, Option.isSome_none,
      Bool.false_eq_true, or_self, if_false, iff_false, mem_targetsOf, not_exists, not_and]
    split_ifs
    · exact List.forall_mem_singleton.2 List.not_mem_nil
    · exact hdetach
  all_goals
    unfold emitSimple writesRegister
    rw [hop]
    simp [hpc.not_extra, hpc.not_binding, targetsOf, Stmt.targets, Stmt.assigned, targets_returnText,
      mem_targetsOf, or_comm]

/-- Only five kinds of instructions have exceptions. -/
theorem writesApply_of (hprep : (p.instr pc).op ≠ .FORPREP) (hloop : (p.instr pc).op ≠ .TFORLOOP)
    (hvararg : (p.instr pc).op ≠ .VARARG) (hself : (p.instr pc).op ≠ .SELF) :
    WritesApply p block pc r :=
  ⟨fun h => absurd h hprep, fun h => absurd h hloop, fun h => absurd h hvararg,
    fun h => absurd h hvararg, fun h => absurd h hself⟩

/-- What an instruction with an open operand list assigns. -/
theorem targets_open (hpc : IsExecutable p pc) (hopen : openResultProducer (p.instr pc) = false)
    (htakes : consumesOpenResults (p.instr pc).op = true) (hb : (p.instr pc).b = 0) :
    r ∈ (instrText p block pc).targets ↔ writesRegister (p.instr pc) r p.maxstack = true := by
  have hblock : (blockInstruction p block (p.instr pc)).op = (p.instr pc).op ∧
      (blockInstruction p block (p.instr pc)).a = (p.instr pc).a ∧
      (blockInstruction p block (p.instr pc)).c = (p.instr pc).c := by
    rcases blockInstruction_cases p block (p.instr pc) with h | h <;> rw [h] <;>
      exact ⟨rfl, rfl, rfl⟩
  obtain ⟨hblock, ha, hc⟩ := hblock
  rw [instrText_open htakes hb, targets_openText, hblock, ha, hc]
  cases hop : (p.instr pc).op
  case CALL => simp [writesRegister_call hpc hop hopen]
  case TAILCALL | RETURN | SETLIST =>
    simp [hop, writesRegister, hpc.not_extra, hpc.not_binding]
  all_goals
    rw [hop] at htakes
    cases htakes

/-- The table has only the index of a numeric loop. -/
theorem targets_forprep (hpc : IsExecutable p pc) (hop : (p.instr pc).op = .FORPREP) :
    (r ∈ targetsOf (emitPcInstr p block pc).stmts ↔
      writesRegister (p.instr pc) r p.maxstack = true) ↔ WritesApply p block pc r := by
  have htext : r ∈ targetsOf (emitPcInstr p block pc).stmts ↔
      r = (p.instr pc).a ∨ r = (p.instr pc).a + 1 ∨ r = (p.instr pc).a + 2 := by
    simp only [emitPcInstr, hop, hpc.not_extra, hpc.not_binding, Option.isSome_none,
      Bool.false_eq_true, or_self, if_false, targetsOf, Stmt.targets, Stmt.assigned,
      List.mem_append, List.mem_singleton, List.not_mem_nil, or_false]
    omega
  have htable : writesRegister (p.instr pc) r p.maxstack = true ↔ r = (p.instr pc).a := by
    simp [writesRegister, hop, hpc.not_extra, hpc.not_binding]
  rw [htext, htable]
  constructor
  · intro h
    exact ⟨fun _ => by omega, by simp [hop], by simp [hop], by simp [hop], by simp [hop]⟩
  · intro h
    have := h.forprep hop
    omega

/-- The table lacks the control variable of a generic loop. -/
theorem targets_tforloop (hpc : IsExecutable p pc) (hop : (p.instr pc).op = .TFORLOOP) :
    (r ∈ targetsOf (emitPcInstr p block pc).stmts ↔
      writesRegister (p.instr pc) r p.maxstack = true) ↔ WritesApply p block pc r := by
  have htext : r ∈ targetsOf (emitPcInstr p block pc).stmts ↔
      ((p.instr pc).a + 3 ≤ r ∧ r < (p.instr pc).a + 3 + (p.instr pc).c) ∨
        r = (p.instr pc).a + 2 := by
    simp [emitPcInstr, hop, hpc.not_extra, hpc.not_binding, targetsOf, Stmt.targets, Stmt.assigned,
      List.mem_range'_1]
  have htable : writesRegister (p.instr pc) r p.maxstack = true ↔
      (p.instr pc).a + 3 ≤ r ∧ r ≤ (p.instr pc).a + 2 + (p.instr pc).c := by
    simp [writesRegister, hop, hpc.not_extra, hpc.not_binding]
  rw [htext, htable]
  constructor
  · intro h
    exact ⟨by simp [hop], fun _ => by omega, by simp [hop], by simp [hop], by simp [hop]⟩
  · intro h
    have := h.tforloop hop
    omega

/-- The table counts the values of a `VARARG` as if they were all there. -/
theorem targets_vararg (hpc : IsExecutable p pc) (hop : (p.instr pc).op = .VARARG)
    (hb : (p.instr pc).b ≠ 0) : (r ∈ targetsOf (emitPcInstr p block pc).stmts ↔
      writesRegister (p.instr pc) r p.maxstack = true) ↔ WritesApply p block pc r := by
  have htext : r ∈ targetsOf (emitPcInstr p block pc).stmts ↔ r = (p.instr pc).a ∨
      (p.vararg / 2 % 2 ≠ 0 ∧ (p.instr pc).a < r ∧ r + 2 ≤ (p.instr pc).a + (p.instr pc).b) := by
    rw [(emitPcInstr_plain hpc (by rw [hop]; rfl)).1, plainStmts, not_fused (by simp [hop]),
      if_neg (by simp), emitSimple, hop]
    dsimp only
    split_ifs with hvararg
    · simp [hvararg, targetsOf, Stmt.targets, Stmt.assigned]
    · simp [hvararg, targetsOf, Stmt.targets, Stmt.assigned, List.mem_range'_1]
      omega
  have htable : writesRegister (p.instr pc) r p.maxstack = true ↔
      1 < (p.instr pc).b ∧ (p.instr pc).a ≤ r ∧ r + 2 ≤ (p.instr pc).a + (p.instr pc).b := by
    simp [writesRegister, hop, hpc.not_extra, hpc.not_binding, hb]
    omega
  rw [htext, htable]
  constructor
  · intro h
    exact ⟨by simp [hop], by simp [hop], fun _ _ => by omega, fun _ _ => by omega, by simp [hop]⟩
  · intro h
    have h₁ := h.vararg_none hop
    have h₂ := h.vararg_fixed hop
    by_cases hvararg : p.vararg / 2 % 2 = 0
    · have := h₂ hvararg
      omega
    · omega

/-- The table has both registers of a `SELF`. -/
theorem targets_self (hpc : IsExecutable p pc) (hop : (p.instr pc).op = .SELF) :
    (r ∈ targetsOf (emitPcInstr p block pc).stmts ↔
      writesRegister (p.instr pc) r p.maxstack = true) ↔ WritesApply p block pc r := by
  have htable : writesRegister (p.instr pc) r p.maxstack = true ↔
      r = (p.instr pc).a ∨ r = (p.instr pc).a + 1 := by
    simp [writesRegister, hop, hpc.not_extra, hpc.not_binding]
  rw [(emitPcInstr_plain hpc (by rw [hop]; rfl)).1, plainStmts, htable]
  by_cases hfused : pc + 1 < block.stop ∧ fusedAt p pc = true
  · rw [if_pos hfused]
    constructor
    · intro h
      refine ⟨by simp [hop], by simp [hop], by simp [hop], by simp [hop], fun _ _ _ => ?_⟩
      exact not_or.1 fun hr => absurd (h.2 hr) List.not_mem_nil
    · intro h
      have := h.method hop hfused.1 hfused.2
      exact iff_of_false List.not_mem_nil (by omega)
  · rw [if_neg hfused]
    refine iff_of_true ?_ ⟨by simp [hop], by simp [hop], by simp [hop], by simp [hop],
      fun _ h₁ h₂ => absurd ⟨h₁, h₂⟩ hfused⟩
    simp only [emitSimple, hop, targetsOf, Stmt.targets, Stmt.assigned, List.mem_append,
      List.mem_singleton, List.not_mem_nil, or_false]
    exact or_comm

/-- The text assigns what the table says exactly outside the exceptions. -/
theorem targets_iff (hp : Accepted p) (hpc : IsExecutable p pc)
    (hopen : openResultProducer (p.instr pc) = false) :
    (r ∈ (instrText p block pc).targets ↔ writesRegister (p.instr pc) r p.maxstack = true) ↔
      WritesApply p block pc r := by
  by_cases htakes : consumesOpenResults (p.instr pc).op = true ∧ (p.instr pc).b = 0
  · have hkind := htakes.1
    refine iff_of_true (targets_open hpc hopen htakes.1 htakes.2) (writesApply_of ?_ ?_ ?_ ?_) <;>
      intro h <;> rw [h] at hkind <;> cases hkind
  have hclosed : consumesOpenResults (p.instr pc).op = true → (p.instr pc).b ≠ 0 :=
    fun h hb => htakes ⟨h, hb⟩
  by_cases hclosure : (p.instr pc).op = .CLOSURE
  · refine iff_of_true ?_ (writesApply_of ?_ ?_ ?_ ?_)
    · unfold instrText
      dsimp only
      rw [if_pos hclosure, if_pos (hp.captures_length hpc hclosure).1]
      simp [InstrText.targets, writesRegister, hpc.not_extra, hpc.not_binding, hclosure]
    all_goals simp [hclosure]
  rw [instrText_closed hclosure hclosed]
  show (r ∈ targetsOf _ ↔ _) ↔ _
  by_cases hprep : (p.instr pc).op = .FORPREP
  · exact targets_forprep hpc hprep
  by_cases hloop : (p.instr pc).op = .TFORLOOP
  · exact targets_tforloop hpc hloop
  by_cases hvararg : (p.instr pc).op = .VARARG
  · exact targets_vararg hpc hvararg fun hb => by simp [openResultProducer, hvararg, hb] at hopen
  by_cases hself : (p.instr pc).op = .SELF
  · exact targets_self hpc hself
  refine iff_of_true ?_ (writesApply_of hprep hloop hvararg hself)
  by_cases hcontrol : isControl (p.instr pc).op = true
  · exact targets_control hpc hcontrol hprep hloop
  · rw [Bool.not_eq_true] at hcontrol
    rw [(emitPcInstr_plain hpc hcontrol).1, plainStmts, not_fused hself, if_neg (by simp)]
    exact targets_emitSimple hpc _ hopen hcontrol hclosure hvararg

/-! ## Open results -/

theorem mem_renderedRange {first stop n : ℕ} :
    r ∈ (renderedRange p first stop n dispatcherContext).flatMap Rendered.registers ↔
      first ≤ r ∧ r < stop := by
  have hrange : (renderedRange p first stop n dispatcherContext).flatMap Rendered.registers =
      List.range' first (stop - first) := by
    unfold renderedRange
    rw [List.flatMap_map]
    exact List.flatMap_singleton' _
  rw [hrange, List.mem_range'_1]
  omega

/-- The producer that an open `CALL` takes stands directly before it. -/
theorem producer_before (hp : p.IsDecoded) {n m : ℕ} (hn : n < p.size)
    (h : openProducerFor p (p.instr n) = some m) :
    m + 1 = n ∧ openResultProducer (p.instr m) = true := by
  obtain ⟨hm, hproducer⟩ := openProducerFor_some h
  rw [(hp n hn).pc_eq] at hm
  exact ⟨hm, hproducer⟩

/-- An open result is rendered exactly when it is nested in its consumer. -/
theorem openProducerExpression_some (hp : p.IsDecoded) {levels n : ℕ} (hn : n < p.size)
    (hproducer : openResultProducer (p.instr n) = true) :
    (∃ t, openProducerExpression p dispatcherContext levels n = some t) ↔ Nested p levels n := by
  induction n using Nat.strong_induction_on generalizing levels with
  | _ n ih =>
  cases levels with
  | zero =>
    refine iff_of_false ?_ fun h => nomatch h
    rintro ⟨t, ht⟩
    simp [openProducerExpression] at ht
  | succ levels =>
  unfold openProducerExpression
  dsimp only
  rw [if_neg (not_le.2 hn)]
  rcases openResultProducer_cases hproducer with ⟨hop, hc⟩ | ⟨hop, hb⟩
  · rw [if_neg (by simp [hop]), if_neg (by simp [hop, hc])]
    by_cases hmethod : 0 < n ∧ fusedAt p (n - 1) = true
    · rw [if_pos hmethod]
      have hb := (fusedAt_cases hmethod.2).2.2
      rw [Nat.sub_add_cancel hmethod.1] at hb
      exact iff_of_true ⟨_, rfl⟩ (.closed hop (by omega))
    · rw [if_neg hmethod]
      by_cases hb : (p.instr n).b = 0
      · rw [if_pos hb]
        cases levels with
        | zero =>
          refine iff_of_false ?_ ?_
          · simp [renderedOpenArgs]
          · intro h
            cases h with
            | varargs h => rw [hop] at h; cases h
            | closed _ h => exact h hb
        | succ levels =>
        cases hfor : openProducerFor p (p.instr n) with
        | none =>
          refine iff_of_false ?_ ?_
          · simp [renderedOpenArgs, hfor]
          · intro h
            cases h with
            | varargs h => rw [hop] at h; cases h
            | closed _ h => exact h hb
            | taking _ _ h => rw [hfor] at h; cases h
        | some m =>
          obtain ⟨hm, hproducer'⟩ := producer_before hp hn hfor
          have hinner := @ih m (by omega) levels (by omega) hproducer'
          constructor
          · rintro ⟨t, ht⟩
            unfold renderedOpenArgs at ht
            rw [hfor] at ht
            dsimp only at ht
            split_ifs at ht with ha
            cases htail : openProducerExpression p dispatcherContext levels m with
            | none =>
              rw [htail] at ht
              cases ht
            | some tail => exact .taking hop hb hfor (by omega) (hinner.1 ⟨tail, htail⟩)
          · intro h
            cases h with
            | varargs h => rw [hop] at h; cases h
            | closed _ h => exact absurd hb h
            | taking _ _ h ha hnested =>
              rw [hfor] at h
              obtain rfl := Option.some.inj h
              obtain ⟨tail, htail⟩ := hinner.2 hnested
              unfold renderedOpenArgs
              rw [hfor]
              dsimp only
              rw [if_neg (by omega), htail]
              exact ⟨_, rfl⟩
      · rw [if_neg hb]
        exact iff_of_true ⟨_, rfl⟩ (.closed hop hb)
  · rw [if_pos ⟨hop, hb⟩]
    exact iff_of_true ⟨_, rfl⟩ (.varargs hop)

/-- The registers of an open result's text are its operands. -/
theorem mem_openText_registers (hp : p.IsDecoded) {levels n : ℕ} {t : OpenText} (hn : n < p.size)
    (ht : openProducerExpression p dispatcherContext levels n = some t) :
    r ∈ t.registers p ↔ OpenOperand p r n := by
  induction n using Nat.strong_induction_on generalizing levels t with
  | _ n ih =>
  cases levels with
  | zero => simp [openProducerExpression] at ht
  | succ levels =>
  unfold openProducerExpression at ht
  dsimp only at ht
  rw [if_neg (not_le.2 hn)] at ht
  split_ifs at ht with hvararg hcall hmethod hb
  · obtain rfl := Option.some.inj ht
    refine iff_of_false List.not_mem_nil fun h => ?_
    cases h with
    | object hfused => have := (fusedAt_cases hfused).2.1; simp [hvararg.1] at this
    | methodArgument hfused => have := (fusedAt_cases hfused).2.1; simp [hvararg.1] at this
    | closed hop | before hop | inside hop => rw [hvararg.1] at hop; cases hop
  · -- the object and the arguments of a method
    obtain rfl := Option.some.inj ht
    obtain ⟨k, rfl⟩ : ∃ k, n = k + 1 := ⟨n - 1, by omega⟩
    have hb := (fusedAt_cases hmethod.2).2.2
    rw [Nat.add_sub_cancel] at hmethod hb
    show r ∈ (p.instr (k + 1 - 1)).b :: _ ↔ _
    rw [List.mem_cons, Nat.add_sub_cancel, colonMethodArguments, mem_renderedRange]
    constructor
    · rintro (rfl | ⟨h₁, h₂⟩)
      · exact .object hmethod.2 rfl
      · exact .methodArgument hmethod.2 h₁ h₂
    · intro h
      cases h with
      | object _ h => exact Or.inl h
      | methodArgument _ h₁ h₂ => exact Or.inr ⟨h₁, h₂⟩
      | closed _ _ h =>
        have hfused := hmethod.2
        rw [show fusedAt p k = false from h (Nat.succ_pos k)] at hfused
        cases hfused
      | before _ h | inside _ h => omega
  · -- an open result in front
    have hop : (p.instr n).op = .CALL := not_not.1 (not_or.1 hcall).1
    cases levels with
    | zero => simp [renderedOpenArgs] at ht
    | succ levels =>
    unfold renderedOpenArgs at ht
    cases hfor : openProducerFor p (p.instr n) with
    | none =>
      rw [hfor] at ht
      cases ht
    | some m =>
    obtain ⟨hm, -⟩ := producer_before hp hn hfor
    rw [hfor] at ht
    dsimp only at ht
    split_ifs at ht with ha
    cases htail : openProducerExpression p dispatcherContext levels m with
    | none =>
      rw [htail] at ht
      cases ht
    | some tail =>
    rw [htail] at ht
    obtain rfl := Option.some.inj ht
    have hinner := ih m (by omega) (by omega) htail
    show r ∈ _ ++ _ ++ _ ↔ _
    rw [List.mem_append, List.mem_append, mem_renderedRange, hinner]
    have hfunction : r ∈ (renderedValueAt p (p.instr n).a (p.instr n).pc dispatcherContext).registers ↔
        r = (p.instr n).a := List.mem_singleton
    rw [hfunction]
    constructor
    · rintro ((h | ⟨h₁, h₂⟩) | h)
      · exact .before hop hb hfor (by omega) (by omega)
      · exact .before hop hb hfor (by omega) h₂
      · exact .inside hop hb hfor h
    · intro h
      cases h with
      | object hfused | methodArgument hfused => exact absurd ⟨Nat.succ_pos _, hfused⟩ hmethod
      | closed _ h => exact absurd hb h
      | before _ _ h h₁ h₂ =>
        rw [hfor] at h
        obtain rfl := Option.some.inj h
        by_cases hr : r = (p.instr n).a
        · exact Or.inl (Or.inl hr)
        · exact Or.inl (Or.inr ⟨by omega, h₂⟩)
      | inside _ _ h h' =>
        rw [hfor] at h
        obtain rfl := Option.some.inj h
        exact Or.inr h'
  · obtain rfl := Option.some.inj ht
    have hop : (p.instr n).op = .CALL := not_not.1 (not_or.1 hcall).1
    have hnofused : 0 < n → fusedAt p (n - 1) = false := fun hpos =>
      Bool.not_eq_true _ ▸ fun hfused => hmethod ⟨hpos, hfused⟩
    show r ∈ _ ++ _ ↔ _
    rw [List.mem_append, renderedArgs, mem_renderedRange]
    have hfunction : r ∈ (renderedValueAt p (p.instr n).a (p.instr n).pc dispatcherContext).registers ↔
        r = (p.instr n).a := List.mem_singleton
    rw [hfunction]
    constructor
    · intro h
      exact .closed hop hb hnofused (by omega) (by omega)
    · intro h
      cases h with
      | object hfused | methodArgument hfused => exact absurd ⟨Nat.succ_pos _, hfused⟩ hmethod
      | closed _ _ _ h₁ h₂ => omega
      | before _ h | inside _ h => exact absurd h hb

/-! ## Registers that are read -/

theorem Double.registers_expr (d : Double) : d.expr.registers = [] := by
  unfold Double.expr
  split_ifs <;> rfl

theorem Constant.registers_expr (c : Constant) : c.expr.registers = [] := by
  unfold Constant.expr
  split
  · exact Double.registers_expr _
  · rfl

theorem mem_renderedValue {operand : ℕ} : r ∈ (renderedValue p operand).registers ↔
    isConstantOperand operand = false ∧ operand = r := by
  unfold renderedValue
  by_cases hconst : isConstantOperand operand = true
  · rw [if_pos hconst, hconst]
    refine iff_of_false ?_ (by simp)
    rw [Constant.registers_expr]
    exact List.not_mem_nil
  · rw [if_neg hconst]
    simp [Expr.registers, hconst, eq_comm]

theorem mem_binaryText {op : Arith} {lhs rhs : Expr} :
    r ∈ (binaryText op lhs rhs).registers ↔ r ∈ lhs.registers ∨ r ∈ rhs.registers := by
  unfold binaryText
  split <;> exact List.mem_append

theorem mem_registers {first count : ℕ} :
    r ∈ (registers first count).flatMap Expr.registers ↔ first ≤ r ∧ r < first + count := by
  unfold registers
  rw [List.flatMap_map, ← List.mem_range'_1]
  exact Iff.of_eq (congrArg (r ∈ ·) (List.flatMap_singleton' _))

/-- The registers that a call reads. -/
theorem mem_callText {i : Instr} {colonCall : Bool}
    (h : (∃ rs, r ∈ (callText p i colonCall (Stmt.assignCall rs) (Stmt.assignMethodCall rs)).reads) ∨
      r ∈ (callText p i colonCall Stmt.returnCall Stmt.returnMethodCall).reads) :
    r = i.a ∨ (i.a < r ∧ r < i.a + i.b) ∨ (colonCall = true ∧ r = (p.instr (i.pc - 1)).b) := by
  unfold callText at h
  dsimp only at h
  split at h
  · have h : r ∈ (p.instr (i.pc - 1)).b :: (registers (i.a + 2) (i.b - 2)).flatMap Expr.registers :=
      h.elim (fun ⟨_, h⟩ => h) id
    rw [List.mem_cons, mem_registers] at h
    rcases h with h | h
    · exact Or.inr (Or.inr ⟨rfl, h⟩)
    · omega
  · have h : r ∈ i.a :: (registers (i.a + 1) (i.b - 1)).flatMap Expr.registers := h.elim (fun ⟨_, h⟩ => h) id
    rw [List.mem_cons, mem_registers] at h
    omega

theorem Accepted.concat_range (hp : Accepted p) (hpc : IsExecutable p pc)
    (hop : (p.instr pc).op = .CONCAT) : (p.instr pc).b ≤ (p.instr pc).c := by
  have h := hp.checkOperands hpc
  unfold Lua51.checkOperands at h
  rw [hop] at h
  obtain ⟨⟨⟩, -, h⟩ := except_bind_ok.1 h
  obtain ⟨⟨⟩, -, h⟩ := except_bind_ok.1 h
  obtain ⟨⟨⟩, -, h⟩ := except_bind_ok.1 h
  rw [reject_ok (failure_ne _ _ _)] at h
  simpa using h

theorem Accepted.tforloop_results (hp : Accepted p) (hpc : IsExecutable p pc)
    (hop : (p.instr pc).op = .TFORLOOP) : (p.instr pc).c ≠ 0 := by
  have h := hp.checkOperands hpc
  unfold Lua51.checkOperands at h
  rw [hop] at h
  obtain ⟨⟨⟩, hc, -⟩ := except_bind_ok.1 h
  rw [reject_ok (failure_ne _ _ _)] at hc
  simpa using hc

/-- What the jumps, tests and loops read. -/
theorem reads_control (hp : Accepted p) (hpc : IsExecutable p pc)
    (hcontrol : isControl (p.instr pc).op = true)
    (h : r ∈ readsOf (emitPcInstr p block pc).stmts) : readsRegister (p.instr pc) r = true := by
  cases hop : (p.instr pc).op
  case JMP => simp [readsRegister, hop, hpc.not_extra, hpc.not_binding]
  case EQ | LT | LE =>
    simp [emitPcInstr, hop, hpc.not_extra, hpc.not_binding, branchText, readsOf, Stmt.reads,
      Expr.registers, mem_renderedValue] at h
    simp [readsRegister, hop, hpc.not_extra, hpc.not_binding]
    tauto
  case TEST | TESTSET | FORLOOP | FORPREP =>
    simp [emitPcInstr, hop, hpc.not_extra, hpc.not_binding, branchText, readsOf, Stmt.reads,
      Expr.registers, Stmt.assigned] at h
    simp [readsRegister, hop, hpc.not_extra, hpc.not_binding]
    omega
  case TFORLOOP =>
    have hc := hp.tforloop_results hpc hop
    simp [emitPcInstr, hop, hpc.not_extra, hpc.not_binding, readsOf, Stmt.reads, Expr.registers,
      Stmt.assigned, List.mem_range'_1] at h
    simp [readsRegister, hop, hpc.not_extra, hpc.not_binding]
    omega
  all_goals
    rw [hop] at hcontrol
    cases hcontrol

/-- What the other instructions read, when they are rendered on their own. -/
theorem reads_emitSimple (hp : Accepted p) (hpc : IsExecutable p pc) {colonCall : Bool}
    (hclosed : consumesOpenResults (p.instr pc).op = true → (p.instr pc).b ≠ 0)
    (hcontrol : isControl (p.instr pc).op = false)
    (h : r ∈ readsOf (emitSimple p (p.instr pc) colonCall)) :
    readsRegister (p.instr pc) r = true ∨
      (colonCall = true ∧ r = (p.instr ((p.instr pc).pc - 1)).b) := by
  unfold emitSimple at h
  cases hop : (p.instr pc).op
  case JMP | EQ | LT | LE | TEST | TESTSET | FORLOOP | FORPREP | TFORLOOP =>
    rw [hop] at hcontrol
    cases hcontrol
  case CALL =>
    have hb := hclosed (by rw [hop]; rfl)
    rw [hop] at h
    rcases mem_callText (Or.inl ⟨_, (List.append_nil _).subst h⟩) with h | h | h
    · left
      simp [readsRegister, hop, hpc.not_extra, hpc.not_binding, hb]
      omega
    · left
      simp [readsRegister, hop, hpc.not_extra, hpc.not_binding, hb]
      omega
    · exact Or.inr h
  case TAILCALL =>
    have hb := hclosed (by rw [hop]; rfl)
    rw [hop] at h
    rcases mem_callText (Or.inr ((List.append_nil _).subst h)) with h | h | h
    · left
      simp [readsRegister, hop, hpc.not_extra, hpc.not_binding, hb]
      omega
    · left
      simp [readsRegister, hop, hpc.not_extra, hpc.not_binding, hb]
      omega
    · exact Or.inr h
  case CONCAT =>
    have hrange := hp.concat_range hpc hop
    rw [hop] at h
    simp [readsOf, Stmt.reads, Expr.registers] at h
    simp [readsRegister, hop, hpc.not_extra, hpc.not_binding]
    omega
  case RETURN =>
    have hb := hclosed (by rw [hop]; rfl)
    rw [hop] at h
    have hvalues := mem_registers.1 ((List.append_nil _).subst h)
    simp [readsRegister, hop, hpc.not_extra, hpc.not_binding, hb]
    omega
  case SETLIST =>
    have hb := hclosed (by rw [hop]; rfl)
    rw [hop] at h
    obtain ⟨_, hs, hr⟩ := exists_of_mem_readsOf h
    obtain ⟨k, hk, rfl⟩ := List.mem_map.1 hs
    rw [List.mem_range'_1] at hk
    simp [Stmt.reads, Expr.registers] at hr
    simp [readsRegister, hop, hpc.not_extra, hpc.not_binding, hb]
    omega
  case LOADNIL =>
    rw [hop] at h
    obtain ⟨_, hs, hr⟩ := exists_of_mem_readsOf h
    obtain ⟨k, -, rfl⟩ := List.mem_map.1 hs
    exact absurd hr List.not_mem_nil
  case CLOSE =>
    rw [hop] at h
    dsimp only at h
    split_ifs at h
    · exact absurd h List.not_mem_nil
    · obtain ⟨_, hs, hr⟩ := exists_of_mem_readsOf h
      obtain ⟨k, -, rfl⟩ := List.mem_map.1 hs
      exact absurd hr List.not_mem_nil
  case VARARG =>
    rw [hop] at h
    dsimp only at h
    split_ifs at h <;> exact absurd h List.not_mem_nil
  case LOADBOOL | GETUPVAL | NEWTABLE | CLOSURE | EXTRAARG | UNKNOWN =>
    rw [hop] at h
    exact absurd h List.not_mem_nil
  case LOADK | GETGLOBAL =>
    rw [hop] at h
    simp [readsOf, Stmt.reads, Expr.registers, Constant.registers_expr] at h
  all_goals
    rw [hop] at h
    simp [readsOf, Stmt.reads, Expr.registers, mem_renderedValue, mem_binaryText,
      Constant.registers_expr] at h
    simp [readsRegister, hop, hpc.not_extra, hpc.not_binding]
    tauto

/-- In a block only the open results of the block are taken. -/
theorem openProducerFor_block {i : Instr} {m : ℕ} :
    openProducerFor p (blockInstruction p block i) = some m ↔
      openProducerFor p i = some m ∧ block.start ≤ m := by
  unfold blockInstruction
  cases hfor : openProducerFor p i with
  | none => simp [hfor]
  | some n =>
    dsimp only
    split_ifs with hn
    · refine iff_of_false (by simp [openProducerFor]) ?_
      rintro ⟨h, hm⟩
      obtain rfl := Option.some.inj h
      omega
    · rw [hfor]
      constructor
      · intro h
        obtain rfl := Option.some.inj h
        exact ⟨rfl, by omega⟩
      · exact fun h => h.1

/-- The open result that an instruction takes, and its text. -/
structure TakenText (p : Proto) (i : Instr) (m : ℕ) (tail : OpenText) : Prop where
  producer : openProducerFor p i = some m
  below : StartsBelow i (p.instr m)
  text : openProducerExpression p dispatcherContext (openLevels i.op) m = some tail

theorem TakenText.unique {i : Instr} {m m' : ℕ} {tail tail' : OpenText}
    (h : TakenText p i m tail) (h' : TakenText p i m' tail') : tail = tail' := by
  have hm := h.producer.symm.trans h'.producer
  obtain rfl := Option.some.inj hm
  exact Option.some.inj (h.text.symm.trans h'.text)

theorem renderedOpenArgs_some {i : Instr} {values : List Rendered} {tail : OpenText}
    (hop : i.op = .CALL ∨ i.op = .TAILCALL) :
    renderedOpenArgs p dispatcherContext 33 i = some (values, tail) ↔ ∃ m, TakenText p i m tail ∧
      values = renderedRange p (i.a + 1) (p.instr m).a i.pc dispatcherContext := by
  have hlevels : openLevels i.op = 32 := by rcases hop with h | h <;> rw [h] <;> rfl
  have hbelow (m : ℕ) : StartsBelow i (p.instr m) ↔ i.a < (p.instr m).a := by
    unfold StartsBelow
    rcases hop with h | h <;> rw [h]
  unfold renderedOpenArgs
  constructor
  · intro h
    split at h
    case h_1 => cases h
    case h_2 m hfor =>
    split_ifs at h with ha
    split at h
    case h_2 => cases h
    case h_1 t ht =>
    obtain ⟨rfl, rfl⟩ := Prod.mk.inj (Option.some.inj h)
    exact ⟨m, ⟨hfor, (hbelow m).2 (by omega), by rw [hlevels]; exact ht⟩, rfl⟩
  · rintro ⟨m, h, rfl⟩
    have ha := (hbelow m).1 h.below
    have ht := h.text
    rw [hlevels] at ht
    rw [h.producer]
    dsimp only
    rw [if_neg (by omega), ht]

theorem renderedOpenReturnValues_some {i : Instr} {values : List Rendered} {tail : OpenText}
    (hop : i.op = .RETURN) :
    renderedOpenReturnValues p dispatcherContext i = some (values, tail) ↔ ∃ m, TakenText p i m tail ∧
      values = renderedRange p i.a (p.instr m).a i.pc dispatcherContext := by
  have hlevels : openLevels i.op = 33 := by rw [hop]; rfl
  have hbelow (m : ℕ) : StartsBelow i (p.instr m) ↔ i.a ≤ (p.instr m).a := by
    unfold StartsBelow
    rw [hop]
  unfold renderedOpenReturnValues
  constructor
  · intro h
    split at h
    case h_1 => cases h
    case h_2 m hfor =>
    split_ifs at h with ha
    split at h
    case h_2 => cases h
    case h_1 t ht =>
    obtain ⟨rfl, rfl⟩ := Prod.mk.inj (Option.some.inj h)
    exact ⟨m, ⟨hfor, (hbelow m).2 (by omega), by rw [hlevels]; exact ht⟩, rfl⟩
  · rintro ⟨m, h, rfl⟩
    have ha := (hbelow m).1 h.below
    have ht := h.text
    rw [hlevels] at ht
    rw [h.producer]
    dsimp only
    rw [if_neg (by omega), ht]

theorem emitOpenSetList_some {i : Instr} {values : List Rendered} {skipped : ℕ} {tail : OpenText}
    (hop : i.op = .SETLIST) :
    emitOpenSetList p dispatcherContext i = some (values, skipped, tail) ↔ ∃ m,
      TakenText p i m tail ∧ skipped = i.a + 1 - (p.instr m).a ∧ values =
        renderedRange p (i.a + 1) (max (i.a + 1) (p.instr m).a) i.pc dispatcherContext := by
  have hlevels : openLevels i.op = 33 := by rw [hop]; rfl
  have hbelow (m : ℕ) : StartsBelow i (p.instr m) := by
    unfold StartsBelow
    rw [hop]
    trivial
  unfold emitOpenSetList
  constructor
  · intro h
    split at h
    case h_1 => cases h
    case h_2 m hfor =>
    split at h
    case h_2 => cases h
    case h_1 t ht =>
    simp only [Option.some.injEq, Prod.mk.injEq] at h
    obtain ⟨rfl, rfl, rfl⟩ := h
    exact ⟨m, ⟨hfor, hbelow m, by rw [hlevels]; exact ht⟩, rfl, rfl⟩
  · rintro ⟨m, h, rfl, rfl⟩
    have ht := h.text
    rw [hlevels] at ht
    rw [h.producer]
    dsimp only
    rw [ht]

/-- Below its own registers an instruction reads what the text of its open result reads. -/
theorem mem_reads_openText {i : Instr} (hop : consumesOpenResults i.op = true) (hr : r < i.a) :
    r ∈ (openText p i).reads p ↔ ∃ m tail, TakenText p i m tail ∧ r ∈ tail.registers p := by
  have hnone {ss : List Stmt} (hss : readsOf ss = [i.a] ∨ readsOf ss = [])
      (hall : ∀ m tail, ¬TakenText p i m tail) :
      r ∈ readsOf ss ↔ ∃ m tail, TakenText p i m tail ∧ r ∈ tail.registers p := by
    refine iff_of_false ?_ fun ⟨m, tail, h, _⟩ => hall m tail h
    rcases hss with h | h <;> rw [h]
    · exact fun h => by have := List.mem_singleton.1 h; omega
    · exact List.not_mem_nil
  have hsome {m : ℕ} {tail : OpenText} {first stop : ℕ} (htaken : TakenText p i m tail)
      (hfirst : i.a ≤ first) :
      r ∈ (renderedRange p first stop i.pc dispatcherContext).flatMap Rendered.registers ++
          tail.registers p ↔
        ∃ m tail, TakenText p i m tail ∧ r ∈ tail.registers p := by
    rw [List.mem_append, mem_renderedRange]
    constructor
    · rintro (h | h)
      · omega
      · exact ⟨m, tail, htaken, h⟩
    · rintro ⟨m', tail', h, hmem⟩
      rw [h.unique htaken] at hmem
      exact Or.inr hmem
  unfold openText
  cases hkind : i.op <;> dsimp only
  case CALL =>
    split
    case h_1 values tail hargs =>
      obtain ⟨m, htaken, rfl⟩ := (renderedOpenArgs_some (Or.inl hkind)).1 hargs
      show r ∈ i.a :: _ ↔ _
      rw [List.mem_cons, or_iff_right (by omega), hsome htaken (by omega)]
    case h_2 hargs =>
      refine hnone (Or.inl rfl) fun m tail h => ?_
      rw [(renderedOpenArgs_some (Or.inl hkind)).2 ⟨m, h, rfl⟩] at hargs
      cases hargs
  case TAILCALL =>
    split
    case h_1 values tail hargs =>
      obtain ⟨m, htaken, rfl⟩ := (renderedOpenArgs_some (Or.inr hkind)).1 hargs
      show r ∈ i.a :: _ ↔ _
      rw [List.mem_cons, or_iff_right (by omega), hsome htaken (by omega)]
    case h_2 hargs =>
      refine hnone (Or.inl rfl) fun m tail h => ?_
      rw [(renderedOpenArgs_some (Or.inr hkind)).2 ⟨m, h, rfl⟩] at hargs
      cases hargs
  case RETURN =>
    split
    case h_1 values tail hargs =>
      obtain ⟨m, htaken, rfl⟩ := (renderedOpenReturnValues_some hkind).1 hargs
      exact hsome htaken (by omega)
    case h_2 hargs =>
      have hall : ∀ m tail, ¬TakenText p i m tail := by
        intro m tail h
        rw [(renderedOpenReturnValues_some hkind).2 ⟨m, h, rfl⟩] at hargs
        cases hargs
      split_ifs
      · exact @hnone [.returnValues [.register i.a]] (Or.inl rfl) hall
      · exact hnone (Or.inl rfl) hall
  case SETLIST =>
    split
    case h_1 values skipped tail hargs =>
      obtain ⟨m, htaken, -, rfl⟩ := (emitOpenSetList_some hkind).1 hargs
      show r ∈ i.a :: _ ↔ _
      rw [List.mem_cons, or_iff_right (by omega), hsome htaken (by omega)]
    case h_2 hargs =>
      refine hnone (Or.inr rfl) fun m tail h => ?_
      rw [(emitOpenSetList_some hkind).2 ⟨m, h, rfl, rfl⟩] at hargs
      cases hargs
  all_goals
    rw [hkind] at hop
    cases hop

/-- An operand below its own registers is read by an instruction that takes it with an open result. -/
theorem takesOperand_iff (hp : p.IsDecoded) (hpc : pc < p.size)
    (htakes : consumesOpenResults (p.instr pc).op = true) (hb : (p.instr pc).b = 0)
    (hr : r < (p.instr pc).a) :
    r ∈ (instrText p block pc).reads p ↔ TakesOperand p block (p.instr pc) r := by
  have hblock : (blockInstruction p block (p.instr pc)).op = (p.instr pc).op ∧
      (blockInstruction p block (p.instr pc)).a = (p.instr pc).a := by
    rcases blockInstruction_cases p block (p.instr pc) with h | h <;> rw [h] <;> exact ⟨rfl, rfl⟩
  obtain ⟨hop, ha⟩ := hblock
  have hbelow (m : ℕ) : StartsBelow (blockInstruction p block (p.instr pc)) (p.instr m) ↔
      StartsBelow (p.instr pc) (p.instr m) := by
    unfold StartsBelow
    rw [hop, ha]
  rw [instrText_open htakes hb, mem_reads_openText (by rw [hop]; exact htakes) (by rw [ha]; exact hr)]
  constructor
  · rintro ⟨m, tail, htaken, hmem⟩
    obtain ⟨hfor, hstart⟩ := openProducerFor_block.1 htaken.producer
    obtain ⟨hm, hproducer⟩ := producer_before hp hpc hfor
    have htext := htaken.text
    rw [hop] at htext
    refine ⟨htakes, hb, m, hfor, hstart, (hbelow m).1 htaken.below, ?_, ?_⟩
    · exact (openProducerExpression_some hp (by omega) hproducer).1 ⟨tail, htext⟩
    · exact (mem_openText_registers hp (by omega) htext).1 hmem
  · rintro ⟨-, -, m, hfor, hstart, hm, hnested, hoperand⟩
    obtain ⟨hlt, hproducer⟩ := producer_before hp hpc hfor
    obtain ⟨tail, htext⟩ := (openProducerExpression_some hp (by omega) hproducer).2 hnested
    refine ⟨m, tail, ⟨openProducerFor_block.2 ⟨hfor, hstart⟩, (hbelow m).2 hm, ?_⟩, ?_⟩
    · rw [hop]
      exact htext
    · exact (mem_openText_registers hp (by omega) htext).2 hoperand

/-- Outside the exceptions the text reads only what the table says. -/
theorem reads_sound (hp : Accepted p) (hpc : IsExecutable p pc) (happly : ReadsApply p block pc r)
    (h : r ∈ (instrText p block pc).reads p) : readsRegister (p.instr pc) r = true := by
  by_cases htakes : consumesOpenResults (p.instr pc).op = true ∧ (p.instr pc).b = 0
  · have ha : (p.instr pc).a ≤ r := by
      by_contra hlt
      have htaken := (takesOperand_iff hp.valid.decoded hpc.lt htakes.1 htakes.2 (by omega)).1 h
      exact hlt (happly.taken htaken)
    have hkind := htakes.1
    cases hop : (p.instr pc).op
    case CALL | TAILCALL | RETURN | SETLIST =>
      simp [readsRegister, hop, hpc.not_extra, hpc.not_binding, htakes.2, ha]
    all_goals
      rw [hop] at hkind
      cases hkind
  have hclosed : consumesOpenResults (p.instr pc).op = true → (p.instr pc).b ≠ 0 :=
    fun h hb => htakes ⟨h, hb⟩
  by_cases hclosure : (p.instr pc).op = .CLOSURE
  · unfold instrText at h
    dsimp only at h
    rw [if_pos hclosure] at h
    split_ifs at h <;> exact absurd h List.not_mem_nil
  rw [instrText_closed hclosure hclosed] at h
  by_cases hcontrol : isControl (p.instr pc).op = true
  · exact reads_control hp hpc hcontrol h
  · rw [Bool.not_eq_true] at hcontrol
    have h : r ∈ readsOf (emitPcInstr p block pc).stmts := h
    rw [(emitPcInstr_plain hpc hcontrol).2] at h
    unfold plainStmts at h
    split_ifs at h with hfused
    · exact absurd h List.not_mem_nil
    · rcases reads_emitSimple hp hpc hclosed hcontrol h with h | ⟨hcall, hr⟩
      · exact h
      · rw [(hp.valid.decoded pc hpc.lt).pc_eq] at hr
        simp only [Bool.and_eq_true, decide_eq_true_eq] at hcall
        have hobject := happly.object hcall.1 hcall.2 hr
        have hcases := fusedAt_cases hcall.2
        rw [Nat.sub_add_cancel (by omega)] at hcases
        rcases hcases.2.1 with hop | hop <;>
        · simp [readsRegister, hop, hpc.not_extra, hpc.not_binding, hclosed (by rw [hop]; rfl)]
          omega

/-! ## A host that watches one value -/

/-- A host whose world says whether an operation was given the object 0. -/
def watcher : Host Bool where
  compute _ _ e := e
  compute_nan _ _ h := h
  ofInteger _ := .zero
  parseNumber _ := none
  varargs := []
  arith _ _ _ := pure .nil
  minus _ := pure .nil
  length _ := pure .nil
  concat _ _ := pure .nil
  equal _ _ := pure false
  less _ _ := pure false
  lessEqual _ _ := pure false
  index t _ := do
    modify fun m => { m with world := m.world || t == .object 0 }
    return .nil
  setIndex _ _ _ := pure ()
  global _ := pure .nil
  setGlobal _ _ := pure ()
  upvalue _ := pure .nil
  setUpvalue _ _ := pure ()
  newTable := pure .nil
  call f vs := do
    modify fun m => { m with world := m.world || (f :: vs).contains (.object 0) }
    return []
  detach _ := pure ()
  newClosure _ := pure .nil

theorem unshared_watcher (r : ℕ) : Unshared watcher r := by
  constructor <;> intros <;> intro m v <;> rfl

/-- Some of the registers holds the object 0. -/
def sees (m : Machine Bool) (rs : List ℕ) : Bool := rs.any fun r => m.regs r == .object 0

/-- The machine after the watcher was given the contents of some registers. -/
def Machine.shown (m : Machine Bool) (rs : List ℕ) : Machine Bool :=
  { m with world := m.world || sees m rs }

/-- The content of an operand. -/
def Rendered.content {W : Type} (m : Machine W) : Rendered → Value
  | constant c => c.value
  | register r _ => m.regs r

theorem run_rendered {W : Type} (v : Rendered) (m : Machine W) :
    v.eval.run m = some (v.content m, m) := by
  cases v <;> rfl

theorem run_operands {W : Type} (vs : List Rendered) (m : Machine W) :
    (vs.mapM Rendered.eval).run m = some (vs.map (Rendered.content m), m) := by
  induction vs with
  | nil => rfl
  | cons v vs ih =>
    rw [List.mapM_cons, StateT.run_bind, run_rendered]
    show ((vs.mapM Rendered.eval >>= fun rest => pure (v.content m :: rest)) : Exec W _).run m = _
    rw [StateT.run_bind, ih]
    rfl

theorem content_eq_object (v : Rendered) (m : Machine Bool) :
    (v.content m == .object 0) = sees m v.registers := by
  cases v with
  | constant c => cases c <;> rfl
  | register r pc => simp [Rendered.content, Rendered.registers, sees]

theorem contents_contain (vs : List Rendered) (m : Machine Bool) :
    (vs.map (Rendered.content m)).contains (.object 0) =
      sees m (vs.flatMap Rendered.registers) := by
  induction vs with
  | nil => rfl
  | cons v vs ih =>
    have happend : sees m ((v :: vs).flatMap Rendered.registers) =
        (sees m v.registers || sees m (vs.flatMap Rendered.registers)) := by
      simp [sees]
    rw [happend, ← ih, ← content_eq_object, List.map_cons, List.contains_cons, Bool.beq_comm]

theorem shown_shown (m : Machine Bool) (rs ss : List ℕ) :
    (m.shown rs).shown ss = m.shown (rs ++ ss) := by
  have happend : sees m (rs ++ ss) = (sees m rs || sees m ss) := List.any_append
  show Machine.mk m.regs (m.world || sees m rs || sees m ss) = _
  rw [Bool.or_assoc, ← happend]
  rfl

/-- A call shows the watcher the function and the arguments. -/
theorem run_watched (f : Value) (vs : List Value) (m : Machine Bool) (rs : List ℕ)
    (h : (f :: vs).contains (.object 0) = sees m rs) :
    (watcher.call f vs).run m = some ([], m.shown rs) := by
  show some ([], Machine.mk m.regs (m.world || (f :: vs).contains (.object 0))) = _
  rw [h]
  rfl

/-- A lookup shows the watcher the object. -/
theorem run_watched_index (r : ℕ) (key : Value) (m : Machine Bool) :
    (watcher.index (m.regs r) key).run m = some (.nil, m.shown [r]) := by
  have hsees : sees m [r] = (m.regs r == .object 0) := by simp [sees]
  show some (Value.nil, Machine.mk m.regs (m.world || m.regs r == .object 0)) = _
  rw [← hsees]
  rfl

/-- A call of operands shows the watcher their registers. -/
theorem run_watched_call (function : Rendered) (arguments : List Rendered) {m m' : Machine Bool}
    (h : m'.regs = m.regs) :
    (watcher.call (function.content m) (arguments.map (Rendered.content m))).run m' =
      some ([], m'.shown (function.registers ++ arguments.flatMap Rendered.registers)) := by
  refine run_watched _ _ m' _ ?_
  rw [List.contains_cons, contents_contain, Bool.beq_comm, content_eq_object]
  show _ = List.any _ _
  rw [List.any_append]
  unfold sees
  rw [h]

/-- An open result shows the watcher its registers. -/
theorem run_openText (t : OpenText) (m : Machine Bool) :
    (t.eval watcher p).run m = some ([], m.shown (t.registers p)) := by
  induction t generalizing m with
  | varargs pc =>
    show some (([] : List Value), m) = some ([], Machine.mk m.regs (m.world || false))
    rw [Bool.or_false]
  | call pc function arguments =>
    simp only [OpenText.eval, StateT.run_bind, run_rendered, run_operands]
    exact run_watched_call function arguments rfl
  | methodCall pc arguments =>
    -- the object is shown twice, for the lookup and for the call
    have hshown (b : ℕ) : (m.shown [b]).shown (b :: arguments.flatMap Rendered.registers) =
        m.shown (b :: arguments.flatMap Rendered.registers) := by
      rw [shown_shown]
      show Machine.mk m.regs (m.world || sees m ([b] ++ b :: _)) = Machine.mk m.regs (m.world || _)
      simp [sees]
    simp only [OpenText.eval, StateT.run_bind, run_reg, Option.bind_eq_bind, Option.bind_some,
      run_watched_index, run_operands, OpenText.registers]
    rw [← hshown]
    refine run_watched _ _ _ _ ?_
    have hnil : (Value.object 0 == Value.nil) = false := rfl
    show (Value.nil :: m.regs _ :: arguments.map (Rendered.content m)).contains (.object 0) =
      sees m (_ :: _)
    rw [List.contains_cons, List.contains_cons, contents_contain, hnil, Bool.false_or,
      Bool.beq_comm]
    simp [sees]
  | openCall pc function arguments tail ih =>
    simp only [OpenText.eval, StateT.run_bind, run_rendered, run_operands, Option.bind_eq_bind,
      Option.bind_some, ih, List.append_nil, OpenText.registers]
    have hregs : (m.shown (tail.registers p)).regs = m.regs := rfl
    rw [run_watched_call function arguments hregs, shown_shown]
    refine congrArg (fun m => some (([] : List Value), m)) ?_
    show Machine.mk m.regs (m.world || sees m (_ ++ _)) = Machine.mk m.regs (m.world || sees m (_ ++ _))
    simp [sees, Bool.or_comm, Bool.or_left_comm]

theorem run_openValues (values : List Rendered) (tail : OpenText) (m : Machine Bool) :
    (openValues watcher p values tail).run m =
      some (values.map (Rendered.content m), m.shown (tail.registers p)) := by
  simp only [openValues, StateT.run_bind, run_operands, Option.bind_eq_bind, Option.bind_some,
    run_openText]
  exact congrArg (fun vs => some (vs, _)) (List.append_nil _)

/-- A text shows the watcher the object that `r` holds, and nothing if no register holds it. -/
def Shows (p : Proto) (t : InstrText) (r : ℕ) : Prop :=
  ∃ rs, r ∈ rs ∧ ∀ m : Machine Bool, ∃ y, (t.exec watcher p).run m = some y ∧
    y.2.world = (m.world || sees m rs)

theorem dependsOn_of_shows (h : Shows p (instrText p block pc) r) : DependsOn p block pc r := by
  obtain ⟨rs, hr, hrun⟩ := h
  refine ⟨Bool, watcher, unshared_watcher r, fun hindependent => ?_⟩
  set m : Machine Bool := ⟨fun _ => .nil, false⟩ with hm
  obtain ⟨y, hy, hyworld⟩ := hrun m
  obtain ⟨z, hz, hzworld⟩ := hrun (m.set r (.object 0))
  have hfalse : y.2.world = false := by
    rw [hyworld, hm]
    simp [sees]
  have htrue : z.2.world = true := by
    rw [hzworld, Bool.or_eq_true]
    refine Or.inr (List.any_eq_true.2 ⟨r, hr, ?_⟩)
    rw [Machine.set_regs, if_pos rfl]
    rfl
  have hsame := hindependent m (.object 0)
  rw [hy] at hsame
  rw [show (((instrText p block pc).exec watcher p).run ((registerLocation r).set m (.object 0))) =
    some z from hz] at hsame
  cases hsame with
  | kept a s h =>
    have : s.world = true := htrue
    rw [this] at hfalse
    cases hfalse
  | overwritten a s =>
    rw [htrue] at hfalse
    cases hfalse

theorem world_sets (m : Machine Bool) (rs : List ℕ) (vs : List Value) :
    (m.sets rs vs).world = m.world := by
  induction rs generalizing m vs with
  | nil => rfl
  | cons r rs ih => exact ih _ _

/-- A call with an open operand list shows all its registers. -/
theorem run_openCall (a : ℕ) (values : List Rendered) (tail : OpenText) (m : Machine Bool) :
    (reg a >>= fun f => openValues watcher p values tail >>= watcher.call f).run m =
      some ([], m.shown (tail.registers p ++ a :: values.flatMap Rendered.registers)) := by
  have hregs : (m.shown (tail.registers p)).regs = m.regs := rfl
  rw [run_reg_bind, StateT.run_bind, run_openValues, ← shown_shown]
  exact run_watched_call (.register a 0) values hregs

theorem shows_openCall {rs : List ℕ} {a : ℕ} {values : List Rendered} {tail : OpenText}
    (h : r ∈ tail.registers p) : Shows p (.openCall rs a values tail) r := by
  refine ⟨_, List.mem_append_left (a :: values.flatMap Rendered.registers) h, fun m => ?_⟩
  have hexec : InstrText.exec watcher p (.openCall rs a values tail) =
      (reg a >>= fun f => openValues watcher p values tail >>= watcher.call f) >>= fun vs =>
        setRegs rs vs >>= fun _ => pure (.next none) := by
    simp only [InstrText.exec, bind_assoc]
  rw [hexec, StateT.run_bind, run_openCall]
  simp only [Option.bind_eq_bind, Option.bind_some, StateT.run_bind, run_setRegs]
  exact ⟨_, rfl, world_sets _ _ _⟩

theorem shows_openTailCall {a : ℕ} {values : List Rendered} {tail : OpenText}
    (h : r ∈ tail.registers p) : Shows p (.openTailCall a values tail) r := by
  refine ⟨_, List.mem_append_left (a :: values.flatMap Rendered.registers) h, fun m => ?_⟩
  have hexec : InstrText.exec watcher p (.openTailCall a values tail) =
      (reg a >>= fun f => openValues watcher p values tail >>= watcher.call f) >>= fun vs =>
        pure (.returned vs) := by
    simp only [InstrText.exec, bind_assoc]
  rw [hexec, StateT.run_bind, run_openCall]
  exact ⟨_, rfl, rfl⟩

theorem shows_openReturn {values : List Rendered} {tail : OpenText} (h : r ∈ tail.registers p) :
    Shows p (.openReturn values tail) r := by
  refine ⟨_, h, fun m => ?_⟩
  simp only [InstrText.exec, StateT.run_bind, run_openValues, Option.bind_eq_bind, Option.bind_some]
  exact ⟨_, rfl, rfl⟩

theorem shows_openSetList {table : ℕ} {base : ℤ} {values : List Rendered} {skipped : ℕ}
    {tail : OpenText} (h : r ∈ tail.registers p) :
    Shows p (.openSetList table base values skipped tail) r := by
  have hstore (pairs : List (Value × ℕ)) (t : Value) (key : Value × ℕ → Value) (m : Machine Bool) :
      (pairs.forM fun value => watcher.setIndex t (key value) value.1).run m = some ((), m) := by
    induction pairs with
    | nil => rfl
    | cons pair pairs ih => exact ih
  refine ⟨_, h, fun m => ?_⟩
  simp only [InstrText.exec, StateT.run_bind, run_reg, run_openValues, Option.bind_eq_bind,
    Option.bind_some, hstore]
  exact ⟨_, rfl, rfl⟩

/-- An instruction that takes an open result shows what its text reads. -/
theorem shows_open {i : Instr} (hop : consumesOpenResults i.op = true) (hr : r < i.a)
    (h : r ∈ (openText p i).reads p) : Shows p (openText p i) r := by
  obtain ⟨m, tail, htaken, hmem⟩ := (mem_reads_openText hop hr).1 h
  unfold openText
  cases hkind : i.op <;> dsimp only
  case CALL =>
    rw [(renderedOpenArgs_some (Or.inl hkind)).2 ⟨m, htaken, rfl⟩]
    exact shows_openCall hmem
  case TAILCALL =>
    rw [(renderedOpenArgs_some (Or.inr hkind)).2 ⟨m, htaken, rfl⟩]
    exact shows_openTailCall hmem
  case RETURN =>
    rw [(renderedOpenReturnValues_some hkind).2 ⟨m, htaken, rfl⟩]
    exact shows_openReturn hmem
  case SETLIST =>
    rw [(emitOpenSetList_some hkind).2 ⟨m, htaken, rfl, rfl⟩]
    exact shows_openSetList hmem
  all_goals
    rw [hkind] at hop
    cases hop

/-- The registers of a method call: the object is none of the arguments. -/
theorem fusedAt_registers {n : ℕ} (h : fusedAt p n = true) :
    (p.instr (n + 1)).a = (p.instr n).a ∧
      ((p.instr n).b < (p.instr n).a + 2 ∨ (p.instr n).a + (p.instr (n + 1)).b ≤ (p.instr n).b) ∧
      ∃ name, methodName p (p.instr n) = some name := by
  simp only [fusedAt, colonMethodCall, Bool.and_eq_true, beq_iff_eq, decide_eq_true_iff,
    Bool.not_eq_true', Bool.and_eq_false_iff, decide_eq_false_iff_not] at h
  obtain ⟨name, hname⟩ := Option.isSome_iff_exists.1 h.1.1.1.1.1.2
  exact ⟨by tauto, by omega, name, hname⟩

/-- A method call shows its object. -/
theorem run_watched_method (b first count : ℕ) (name : List UInt8) (m : Machine Bool) :
    (callMethod watcher.toRuntime (.register b) name (registers first count)).run m =
      some ([], m.shown (b :: b :: List.range' first count)) := by
  have hregs : (m.shown [b]).regs = m.regs := rfl
  have hshown : m.shown (b :: b :: List.range' first count) =
      (m.shown [b]).shown (b :: List.range' first count) := by rw [shown_shown]; rfl
  have hargs : ((List.range' first count).mapM (reg (W := Bool))).run (m.shown [b]) =
      some ((List.range' first count).map m.regs, m.shown [b]) := run_mapM_reg _ _
  rw [hshown]
  simp only [callMethod, Expr.eval, StateT.run_bind, run_reg, Option.bind_eq_bind,
    Option.bind_some, run_watched_index, mapM_registers, hargs]
  refine run_watched _ _ _ _ ?_
  have hnil : (Value.object 0 == Value.nil) = false := rfl
  rw [List.contains_cons, List.contains_cons, hnil, Bool.false_or, List.contains_eq_any_beq,
    List.any_map]
  show _ = ((m.shown [b]).regs b == _ || List.any _ _)
  rw [hregs]
  simp [Function.comp_def, Bool.beq_comm]

/-- A call that is rendered with its `SELF` shows the object. -/
theorem shows_method (hp : Accepted p) (hpc : IsExecutable p pc) (hstart : block.start < pc)
    (hfused : fusedAt p (pc - 1) = true) :
    Shows p (instrText p block pc) (p.instr (pc - 1)).b := by
  obtain ⟨-, -, name, hname⟩ := fusedAt_registers hfused
  obtain ⟨-, hop, hb⟩ := fusedAt_cases hfused
  rw [Nat.sub_add_cancel (by omega)] at hop hb
  have hcolon : (decide (block.start < pc) && fusedAt p (pc - 1)) = true := by
    simp [hstart, hfused]
  have hnoself : fusedAt p pc = false := not_fused (by rcases hop with h | h <;> simp [h])
  have hmem : (p.instr (pc - 1)).b ∈ (p.instr (pc - 1)).b :: (p.instr (pc - 1)).b ::
      List.range' ((p.instr pc).a + 2) ((p.instr pc).b - 2) := List.mem_cons_self
  have hpc' := (hp.valid.decoded pc hpc.lt).pc_eq
  rw [instrText_closed (by rcases hop with h | h <;> simp [h]) fun _ => by omega]
  rcases hop with hop | hop
  · have hstmts : (emitPcInstr p block pc).stmts = [.assignMethodCall
        (List.range' (p.instr pc).a ((p.instr pc).c - 1)) (.register (p.instr (pc - 1)).b) name
        (registers ((p.instr pc).a + 2) ((p.instr pc).b - 2))] := by
      simp [emitPcInstr, hop, hpc.not_extra, hpc.not_binding, hnoself, emitSimple, callText, hcolon,
        hpc', hname]
    rw [hstmts]
    refine ⟨_, hmem, fun m => ?_⟩
    show ∃ y, (execAll _ _).run m = _ ∧ _
    rw [execAll_singleton, Stmt.exec, StateT.run_bind, run_watched_method]
    simp only [Option.bind_eq_bind, Option.bind_some, StateT.run_bind, run_setRegs]
    exact ⟨_, rfl, world_sets _ _ _⟩
  · have hstmts : (emitPcInstr p block pc).stmts = [.returnMethodCall
        (.register (p.instr (pc - 1)).b) name
        (registers ((p.instr pc).a + 2) ((p.instr pc).b - 2))] := by
      simp [emitPcInstr, hop, hpc.not_extra, hpc.not_binding, hnoself, emitSimple, callText, hcolon,
        hpc', hname]
    rw [hstmts]
    refine ⟨_, hmem, fun m => ?_⟩
    show ∃ y, (execAll _ _).run m = _ ∧ _
    rw [execAll_singleton, Stmt.exec, StateT.run_bind, run_watched_method]
    exact ⟨_, rfl, rfl⟩

/-- The tables cover what the dispatcher emits exactly outside the exceptions. -/
theorem tablesCover_iff (hp : Accepted p) (block : PcBlock) (hpc : IsExecutable p pc)
    (hopen : openResultProducer (p.instr pc) = false) :
    TablesCover p block pc r ↔ WritesApply p block pc r ∧ ReadsApply p block pc r := by
  constructor
  · intro h
    refine ⟨(targets_iff hp hpc hopen).1 ⟨h.assigned, h.written⟩, ?_, ?_⟩
    · rintro hstart hfused rfl
      have hread := h.read (dependsOn_of_shows (shows_method hp hpc hstart hfused))
      obtain ⟨ha, hb, -⟩ := fusedAt_registers hfused
      obtain ⟨-, hop, hcount⟩ := fusedAt_cases hfused
      rw [Nat.sub_add_cancel (by omega)] at ha hb hop hcount
      have hrange : (p.instr pc).a ≤ (p.instr (pc - 1)).b ∧
          (p.instr (pc - 1)).b ≤ (p.instr pc).a + (p.instr pc).b - 1 := by
        rcases hop with hop | hop <;>
          simpa [readsRegister, hop, hpc.not_extra, hpc.not_binding,
            show (p.instr pc).b ≠ 0 by omega] using hread
      omega
    · intro htakes
      by_contra ha
      have hmem := (takesOperand_iff hp.valid.decoded hpc.lt htakes.consumes htakes.b_eq
        (by omega)).2 htakes
      have hshows : Shows p (instrText p block pc) r := by
        have hblock : (blockInstruction p block (p.instr pc)).op = (p.instr pc).op ∧
            (blockInstruction p block (p.instr pc)).a = (p.instr pc).a := by
          rcases blockInstruction_cases p block (p.instr pc) with h | h <;> rw [h] <;>
            exact ⟨rfl, rfl⟩
        rw [instrText_open htakes.consumes htakes.b_eq] at hmem ⊢
        exact shows_open (by rw [hblock.1]; exact htakes.consumes) (by rw [hblock.2]; omega) hmem
      have hread := h.read (dependsOn_of_shows hshows)
      have hkind := htakes.consumes
      cases hop : (p.instr pc).op
      case CALL | TAILCALL | RETURN | SETLIST =>
        exact ha (by simpa [readsRegister, hop, hpc.not_extra, hpc.not_binding, htakes.b_eq]
          using hread)
      all_goals
        rw [hop] at hkind
        cases hkind
  · rintro ⟨hwrites, hreads⟩
    have htargets := (targets_iff hp hpc hopen).2 hwrites
    refine ⟨htargets.1, ?_, htargets.2⟩
    rintro ⟨W, host, hhost, hdepends⟩
    by_contra hread
    refine hdepends (untouched_text hhost fun hr => hread ?_)
    exact reads_sound hp hpc hreads hr

end Tables

/-- `FORPREP 0`, `FORLOOP 0`, `RETURN 0 1`. -/
@[irreducible] def numericLoop : Proto :=
  mainOf (chunkHeader ++ functionBytes 0 0 0 4
    [32 + 131071 * 16384, 31 + 131070 * 16384, 30 + 8388608] [] [])

theorem numericLoop_accepted : Accepted numericLoop := by
  unfold numericLoop
  exact accepted_mainOf (by decide +kernel)

theorem numericLoop_forprep : (numericLoop.instr 0).op = .FORPREP ∧ (numericLoop.instr 0).a = 0 ∧
    IsExecutable numericLoop 0 := by
  decide +kernel

/-- The tables are right about the loop's index. -/
theorem numericLoop_covers : TablesCover numericLoop ⟨0, 1⟩ 0 0 := by
  obtain ⟨hop, ha, hexec⟩ := numericLoop_forprep
  refine (tablesCover_iff numericLoop_accepted ⟨0, 1⟩ hexec (by decide +kernel)).2
    ⟨⟨?_, ?_, ?_, ?_, ?_⟩, fun h => absurd h (by decide), fun _ => by omega⟩
  · intro _
    omega
  all_goals
    rw [hop]
    intro h
    cases h

/-- The text of the `FORPREP` assigns register 1, which the write table does not list. -/
theorem numericLoop_not_covers :
    Accepted numericLoop ∧ IsExecutable numericLoop 0 ∧
      openResultProducer (numericLoop.instr 0) = false ∧ 1 < numericLoop.maxstack ∧
      blockAt (starts numericLoop 0 numericLoop.size) numericLoop.size 0 = ⟨0, 1⟩ ∧
      1 ∈ (instrText numericLoop ⟨0, 1⟩ 0).targets ∧
      writesRegister (numericLoop.instr 0) 1 numericLoop.maxstack = false ∧
      ¬TablesCover numericLoop ⟨0, 1⟩ 0 1 := by
  obtain ⟨-, -, hexec⟩ := numericLoop_forprep
  have htarget : 1 ∈ (instrText numericLoop ⟨0, 1⟩ 0).targets := by decide +kernel
  have htable : writesRegister (numericLoop.instr 0) 1 numericLoop.maxstack = false := by
    decide +kernel
  have hblock : blockAt (starts numericLoop 0 numericLoop.size) numericLoop.size 0 = ⟨0, 1⟩ := by
    have hstarts : starts numericLoop 0 numericLoop.size = [0, 1, 2] := by decide +kernel
    rw [hstarts]
    rfl
  refine ⟨numericLoop_accepted, hexec, by decide +kernel, by decide +kernel, hblock, htarget, htable,
    fun h => ?_⟩
  rw [h.assigned htarget] at htable
  cases htable

end ByteVeil.Lua51
