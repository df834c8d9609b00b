import ByteVeil.IR.Validated

/-!
# Operand ranges

1. The registers, constants and child prototypes that an opcode names by its definition.
2. Which of them `validateOne` checks, and which it does not.
3. On a validated prototype everything is in range exactly when the unchecked operands are.
-/

namespace ByteVeil.IR

open ByteVeil.Luau Fallible

/-! ## Operands -/

/-- The registers an instruction reads or writes. An open range counts with its first register. -/
def registerOperands (i : Instruction) : List ℕ :=
  match i.opcode with
  | .NOP | .BREAK | .JUMP | .JUMPBACK | .JUMPX | .NATIVECALL | .COVERAGE | .PREPVARARGS | .FASTCALL
  | .FASTPCALL => []
  | .LOADNIL | .LOADB | .LOADN | .LOADK | .LOADKX | .GETGLOBAL | .SETGLOBAL | .GETUPVAL | .SETUPVAL
  | .CLOSEUPVALS | .GETIMPORT | .NEWCLOSURE | .DUPCLOSURE | .NEWTABLE | .DUPTABLE | .JUMPIF
  | .JUMPIFNOT | .JUMPXEQKNIL | .JUMPXEQKB | .JUMPXEQKN | .JUMPXEQKS | .CMPPROTO => [i.a]
  | .MOVE | .NOT | .MINUS | .LENGTH | .GETTABLEKS | .SETTABLEKS | .GETTABLEN | .SETTABLEN
  | .GETUDATAKS | .SETUDATAKS | .ADDK | .SUBK | .MULK | .DIVK | .MODK | .POWK | .ANDK | .ORK
  | .IDIVK => [i.a, i.b]
  | .GETTABLE | .SETTABLE | .ADD | .SUB | .MUL | .DIV | .MOD | .POW | .AND | .OR | .IDIV =>
    [i.a, i.b, i.c]
  | .SUBRK | .DIVRK => [i.a, i.c]
  | .CONCAT => i.a :: i.b :: i.c :: range i.b (i.c + 1 - i.b)
  | .NAMECALL | .NAMECALLUDATA => [i.a, i.a + 1, i.b]
  | .CALL | .CALLFB =>
    (if i.b = 0 then [i.a] else range i.a i.b) ++ if i.c = 0 then [i.a] else range i.a (i.c - 1)
  | .RETURN | .GETVARARGS => if i.b = 0 then [i.a] else range i.a (i.b - 1)
  | .SETLIST => i.a :: if i.c = 0 then [i.b] else range i.b (i.c - 1)
  | .JUMPIFEQ | .JUMPIFLE | .JUMPIFLT | .JUMPIFNOTEQ | .JUMPIFNOTLE | .JUMPIFNOTLT => [i.a, i.aux]
  | .FORNPREP | .FORNLOOP | .FORGPREP | .FORGPREP_INEXT | .FORGPREP_NEXT => range i.a 3
  | .FORGLOOP => range i.a (3 + i.aux % 256)
  | .CAPTURE => if i.a = 0 ∨ i.a = 1 then [i.b] else []
  | .FASTCALL1 | .FASTCALL2K => [i.b]
  | .FASTCALL2 => [i.b, i.aux % 256]
  | .FASTCALL3 => [i.b, i.aux % 256, i.aux / 256 % 256]
  | .NEWCLASSMEMBER => [i.a, i.c]
  | .NEWCLASS => i.a :: if i.b = 255 then [] else [i.b]

/-- The constants of an import path: up to three indices of ten bits. -/
def importPath (aux : ℕ) : List ℕ :=
  [aux / 1048576 % 1024, aux / 1024 % 1024, aux % 1024].take (aux / 1073741824)

/-- The constants an instruction names. -/
def constantOperands (i : Instruction) : List ℤ :=
  match i.opcode with
  | .LOADK | .DUPCLOSURE | .DUPTABLE => [i.d]
  | .GETIMPORT => i.d :: (importPath i.aux).map fun k : ℕ => (k : ℤ)
  | .GETGLOBAL | .SETGLOBAL | .GETTABLEKS | .SETTABLEKS | .NAMECALL | .LOADKX | .FASTCALL2K
  | .NEWCLASSMEMBER | .NEWCLASS => [(i.aux : ℤ)]
  | .GETUDATAKS | .SETUDATAKS | .NAMECALLUDATA => [((i.aux % 65536 : ℕ) : ℤ)]
  | .JUMPXEQKN | .JUMPXEQKS => [((i.aux % 16777216 : ℕ) : ℤ)]
  | .ADDK | .SUBK | .MULK | .DIVK | .MODK | .POWK | .ANDK | .ORK | .IDIVK => [(i.c : ℤ)]
  | .SUBRK | .DIVRK => [(i.b : ℤ)]
  | _ => []

/-- The child prototypes an instruction names. -/
def childOperands (i : Instruction) : List ℤ :=
  match i.opcode with
  | .NEWCLOSURE => [i.d]
  | _ => []

/-- Everything an instruction names exists, and `annotateInstruction` drops none of its registers. -/
structure InRange (p : Proto) (i : Instruction) : Prop where
  registers : ∀ r ∈ registerOperands i, r < p.maxstacksize
  constants : ∀ k ∈ constantOperands i, 0 ≤ k ∧ k < p.sizek
  children : ∀ n ∈ childOperands i, 0 ≤ n ∧ n < p.sizep
  jump : isJump i.opcode = true → ¬(i.opcode = .LOADB ∧ i.c = 0) →
    ∃ j ∈ decode p, (j.offset : ℤ) = i.jumpTarget
  uses_kept : ∀ r ∈ useOperands i p.maxstacksize, r ∈ i.uses
  definitions_kept : ∀ r ∈ definitionOperands i p.maxstacksize, r ∈ i.definitions

/-- The operands that `validateOne` does not look at: the register of an operation with a constant,
the ranges of calls, returns, varargs and lists behind their first register, a negative child index
and the path of an import. -/
def UncheckedInRange (p : Proto) (i : Instruction) : Prop :=
  match i.opcode with
  | .ADDK | .SUBK | .MULK | .DIVK | .MODK | .POWK | .ANDK | .ORK => i.b < p.maxstacksize
  | .CALL | .CALLFB => i.a + i.b ≤ p.maxstacksize ∧ i.a + i.c ≤ p.maxstacksize + 1
  | .RETURN | .GETVARARGS => i.b ≤ 1 ∨ i.a + i.b ≤ p.maxstacksize + 1
  | .SETLIST =>
    (i.c = 0 → i.b < p.maxstacksize) ∧ (2 ≤ i.c → i.b + i.c ≤ p.maxstacksize + 1)
  | .NEWCLOSURE => 0 ≤ i.d
  | .GETIMPORT => ∀ k ∈ importPath i.aux, k < p.sizek
  | _ => True

/-! ## The checks in terms of the operands -/

theorem mem_range {first count r : ℕ} : r ∈ range first count ↔ first ≤ r ∧ r < first + count := by
  unfold range
  rw [List.mem_map]
  constructor
  · rintro ⟨k, hk, rfl⟩
    have := List.mem_range.1 hk
    omega
  · rintro ⟨h₁, h₂⟩
    exact ⟨r - first, List.mem_range.2 (by omega), by omega⟩

/-- All registers of a range are in the frame. -/
theorem forall_mem_range {first count limit : ℕ} :
    (∀ r ∈ range first count, r < limit) ↔ count = 0 ∨ first + count ≤ limit := by
  constructor
  · intro h
    by_cases hc : count = 0
    · exact Or.inl hc
    · have := h (first + count - 1) (mem_range.2 (by omega))
      omega
  · intro h r hr
    have := mem_range.1 hr
    omega

/-- What the operand switch demands. -/
def OperandsOk (p : Proto) (i : Instruction) : Prop :=
  match i.opcode with
  | .MOVE | .GETTABLE | .SETTABLE | .ADD | .SUB | .MUL | .DIV | .MOD | .POW | .AND | .OR | .CONCAT
  | .IDIV => i.b < p.maxstacksize ∧ i.c < p.maxstacksize
  | .GETTABLEKS | .SETTABLEKS | .GETTABLEN | .SETTABLEN | .GETUDATAKS | .SETUDATAKS | .NOT | .MINUS
  | .LENGTH | .IDIVK | .FASTCALL1 | .FASTCALL2K => i.b < p.maxstacksize
  | .SUBRK | .DIVRK | .NEWCLASSMEMBER => i.c < p.maxstacksize
  | .JUMPIFEQ | .JUMPIFLE | .JUMPIFLT | .JUMPIFNOTEQ | .JUMPIFNOTLE | .JUMPIFNOTLT =>
    i.aux < p.maxstacksize
  | .FASTCALL2 => i.b < p.maxstacksize ∧ i.aux % 256 < p.maxstacksize
  | .FASTCALL3 =>
    i.b < p.maxstacksize ∧ i.aux % 256 < p.maxstacksize ∧ i.aux / 256 % 256 < p.maxstacksize
  | .NAMECALL | .NAMECALLUDATA => i.b < p.maxstacksize ∧ i.a + 1 < p.maxstacksize
  | .FORNPREP | .FORNLOOP | .FORGPREP | .FORGPREP_INEXT | .FORGPREP_NEXT =>
    i.a + 2 < p.maxstacksize
  | .NEWCLASS => i.b = 255 ∨ i.b < p.maxstacksize
  | .FORGLOOP => i.aux % 256 ≠ 0 ∧ i.a + 2 + i.aux % 256 < p.maxstacksize
  | _ => True

theorem checkRegister_ok {p : Proto} {functionId pc r : ℕ} {message : String} :
    check (decide (p.maxstacksize ≤ r)) (errorAt functionId pc message) = .ok () ↔
      r < p.maxstacksize := by
  rw [check_eq_ok (errorAt_ne _ _ _)]
  simp

theorem CheckedAt.operandsOk {p : Proto} {pc : ℕ} (h : CheckedAt p pc) :
    OperandsOk p (decodeAt p pc) := by
  obtain ⟨functionId, h⟩ := h.operands
  have haux : (opcode (p.word pc)).getOpLength = 2 →
      (decodeAt p pc).aux = (p.word (pc + 1)).toNat := fun hlen => by
    simp [decodeAt, annotateInstruction, hlen]
  have hop : (decodeAt p pc).opcode = opcode (p.word pc) := rfl
  have ha : (decodeAt p pc).a = insnA (p.word pc) := rfl
  have hb : (decodeAt p pc).b = insnB (p.word pc) := rfl
  have hc : (decodeAt p pc).c = insnC (p.word pc) := rfl
  unfold OperandsOk
  generalize decodeAt p pc = i at *
  rw [hop, ha, hb, hc]
  unfold checkOperands at h
  dsimp only at h
  generalize opcode (p.word pc) = op at *
  cases op <;> simp only [Opcode.getOpLength, forall_const, except_bind_ok, exists_const,
      check_eq_ok (errorAt_ne _ _ _), Bool.or_eq_false_iff,
      decide_eq_false_iff_not, not_le, beq_eq_false_iff_ne] at h haux ⊢
  case NEWCLASS =>
    split_ifs at h with hb
    · exact Or.inl hb
    · exact Or.inr (checkRegister_ok.1 h)
  all_goals first | trivial | (rw [haux]; exact h)

theorem InRange.unchecked {p : Proto} {i : Instruction} (h : InRange p i) :
    UncheckedInRange p i := by
  have hr := h.registers
  have hk := h.constants
  have hc := h.children
  unfold UncheckedInRange
  unfold registerOperands at hr
  unfold constantOperands at hk
  unfold childOperands at hc
  cases hop : i.opcode <;> simp only [hop] at hr hk hc ⊢
  case NEWCLOSURE => exact (hc _ (List.mem_singleton_self _)).1
  case GETIMPORT =>
    intro k hmem
    have := hk (k : ℤ) (List.mem_cons_of_mem _ (List.mem_map.2 ⟨k, hmem, rfl⟩))
    omega
  case CALL | CALLFB =>
    rw [List.forall_mem_append] at hr
    obtain ⟨hb, hc⟩ := hr
    split_ifs at hb hc <;> simp only [forall_mem_range, List.forall_mem_singleton] at hb hc <;> omega
  case RETURN | GETVARARGS =>
    split_ifs at hr <;> simp only [forall_mem_range, List.forall_mem_singleton] at hr <;> omega
  case SETLIST =>
    rw [List.forall_mem_cons] at hr
    obtain ⟨-, hr⟩ := hr
    split_ifs at hr <;> simp only [forall_mem_range, List.forall_mem_singleton] at hr <;> omega
  case ADDK | SUBK | MULK | DIVK | MODK | POWK | ANDK | ORK =>
    exact hr _ (List.mem_cons_of_mem _ (List.mem_singleton_self _))


/-- The checks and the remaining operands cover every register. -/
theorem CheckedAt.registers {p : Proto} {pc : ℕ} (h : CheckedAt p pc)
    (hun : UncheckedInRange p (decodeAt p pc)) :
    ∀ r ∈ registerOperands (decodeAt p pc), r < p.maxstacksize := by
  have hok := h.operandsOk
  have hreg : hasRegisterA (decodeAt p pc).opcode = true →
      ¬((decodeAt p pc).opcode = .RETURN ∧ (decodeAt p pc).b = 1) →
      (decodeAt p pc).a < p.maxstacksize := h.register
  have hcapture : (decodeAt p pc).opcode = .CAPTURE → (decodeAt p pc).a ≠ 2 →
      (decodeAt p pc).b < p.maxstacksize := h.capture
  generalize decodeAt p pc = i at *
  unfold OperandsOk at hok
  unfold UncheckedInRange at hun
  unfold registerOperands
  cases hop : i.opcode <;>
    simp only [hop, hasRegisterA, forall_const, reduceCtorEq, false_and, not_false_eq_true,
      true_and, Bool.false_eq_true, false_imp_iff] at hok hun hreg hcapture ⊢
  case CALL | CALLFB =>
    rw [List.forall_mem_append]
    constructor <;> split_ifs <;>
      simp only [forall_mem_range, List.forall_mem_singleton] <;> omega
  case RETURN | GETVARARGS =>
    split_ifs <;> simp only [forall_mem_range, List.forall_mem_singleton] <;> omega
  case SETLIST =>
    refine List.forall_mem_cons.2 ⟨hreg, ?_⟩
    split_ifs <;> simp only [forall_mem_range, List.forall_mem_singleton] <;> omega
  case CONCAT =>
    simp only [List.forall_mem_cons, forall_mem_range]
    omega
  case FORNPREP | FORNLOOP | FORGPREP | FORGPREP_INEXT | FORGPREP_NEXT | FORGLOOP =>
    rw [forall_mem_range]
    omega
  case CAPTURE =>
    split_ifs with h
    · exact List.forall_mem_singleton.2 (hcapture (by omega))
    · exact fun r hr => absurd hr List.not_mem_nil
  case NEWCLASS =>
    refine List.forall_mem_cons.2 ⟨hreg, ?_⟩
    split_ifs with h
    · exact fun r hr => absurd hr List.not_mem_nil
    · exact List.forall_mem_singleton.2 (hok.resolve_left h)
  all_goals first
    | exact fun r hr => absurd hr List.not_mem_nil
    | simp only [List.forall_mem_cons, List.not_mem_nil, false_imp_iff, implies_true, and_true]
      omega

theorem useOperands_lt {p : Proto} {i : Instruction}
    (hr : ∀ r ∈ registerOperands i, r < p.maxstacksize) :
    ∀ r ∈ useOperands i p.maxstacksize, r < p.maxstacksize := by
  unfold registerOperands at hr
  unfold useOperands
  cases hop : i.opcode <;> simp only [hop] at hr ⊢
  case CLOSEUPVALS =>
    rw [forall_mem_range]
    omega
  case CALL | CALLFB =>
    rw [List.forall_mem_append] at hr
    have hb := hr.1
    rw [forall_mem_range]
    split_ifs at hb ⊢ <;> simp only [forall_mem_range, List.forall_mem_singleton] at hb <;> omega
  case RETURN =>
    rw [forall_mem_range]
    split_ifs at hr ⊢ <;> simp only [forall_mem_range, List.forall_mem_singleton] at hr <;> omega
  case CONCAT =>
    simp only [List.forall_mem_cons, forall_mem_range] at hr
    split_ifs
    · rw [forall_mem_range]
      omega
    · exact fun r hr => absurd hr List.not_mem_nil
  case SETLIST =>
    simp only [List.forall_mem_cons] at hr
    refine List.forall_mem_cons.2 ⟨hr.1, ?_⟩
    have hb := hr.2
    rw [forall_mem_range]
    split_ifs at hb ⊢ <;> simp only [forall_mem_range, List.forall_mem_singleton] at hb <;> omega
  case FORGLOOP =>
    rw [forall_mem_range] at hr ⊢
    omega
  all_goals first
    | exact fun r hr => absurd hr List.not_mem_nil
    | exact hr
    | simp only [List.forall_mem_cons, List.not_mem_nil, false_imp_iff, implies_true,
        and_true] at hr ⊢
      tauto

theorem definitionOperands_lt {p : Proto} {i : Instruction} (hok : OperandsOk p i)
    (hr : ∀ r ∈ registerOperands i, r < p.maxstacksize) :
    ∀ r ∈ definitionOperands i p.maxstacksize, r < p.maxstacksize := by
  unfold registerOperands at hr
  unfold OperandsOk at hok
  unfold definitionOperands
  cases hop : i.opcode <;> simp only [hop] at hok hr ⊢
  case CALL | CALLFB =>
    rw [List.forall_mem_append] at hr
    have hc := hr.2
    split_ifs at hc ⊢
    · rw [forall_mem_range]
      omega
    · exact hc
    · exact fun r hr => absurd hr List.not_mem_nil
  case FORGLOOP =>
    simp only [List.forall_mem_cons, forall_mem_range] at hr ⊢
    omega
  case GETVARARGS =>
    rw [forall_mem_range]
    split_ifs at hr ⊢ <;> simp only [forall_mem_range, List.forall_mem_singleton] at hr <;> omega
  all_goals first
    | exact fun r hr => absurd hr List.not_mem_nil
    | exact hr
    | simp only [List.forall_mem_cons, List.not_mem_nil, false_imp_iff, implies_true,
        and_true] at hr ⊢
      tauto

/-- The checks and the remaining operands cover every constant. -/
theorem CheckedAt.constants {p : Proto} {pc : ℕ} (h : CheckedAt p pc)
    (hun : UncheckedInRange p (decodeAt p pc)) :
    ∀ k ∈ constantOperands (decodeAt p pc), 0 ≤ k ∧ k < p.sizek := by
  have hdirect : isDirectConstant (decodeAt p pc).opcode = true →
    0 ≤ (decodeAt p pc).d ∧ (decodeAt p pc).d < p.sizek := h.direct
  have hc : isCConstant (decodeAt p pc).opcode = true → (decodeAt p pc).c < p.sizek := h.atC
  have hb : isBConstant (decodeAt p pc).opcode = true → (decodeAt p pc).b < p.sizek := h.atB
  have haux : (isAuxConstant (decodeAt p pc).opcode || isLow16Constant (decodeAt p pc).opcode ||
      isLow24Constant (decodeAt p pc).opcode) = true →
      auxIndex (decodeAt p pc).opcode (decodeAt p pc).aux < p.sizek := by
    intro hkind
    have hlen : (opcode (p.word pc)).getOpLength = 2 := by
      change (isAuxConstant (opcode (p.word pc)) || isLow16Constant (opcode (p.word pc)) ||
        isLow24Constant (opcode (p.word pc))) = true at hkind
      generalize opcode (p.word pc) = op at hkind
      cases op <;> first | rfl | exact absurd hkind (by decide)
    have h := h.atAux hkind
    simpa [decodeAt, annotateInstruction, hlen] using h
  generalize decodeAt p pc = i at *
  unfold UncheckedInRange at hun
  unfold constantOperands
  cases hop : i.opcode <;>
    simp only [hop, isDirectConstant, isCConstant, isBConstant, isAuxConstant, isLow16Constant, isLow24Constant, auxIndex] at hdirect hc hb haux hun ⊢
  case GETIMPORT =>
    refine List.forall_mem_cons.2 ⟨hdirect rfl, fun k hk => ?_⟩
    obtain ⟨n, hn, rfl⟩ := List.mem_map.1 hk
    exact ⟨Int.natCast_nonneg _, Int.ofNat_lt.2 (hun n hn)⟩
  all_goals first
    | exact fun r hr => absurd hr List.not_mem_nil
    | exact List.forall_mem_singleton.2 (hdirect rfl)
    | exact List.forall_mem_singleton.2 ⟨Int.natCast_nonneg _, Int.ofNat_lt.2 (hc rfl)⟩
    | exact List.forall_mem_singleton.2 ⟨Int.natCast_nonneg _, Int.ofNat_lt.2 (hb rfl)⟩
    | exact List.forall_mem_singleton.2 ⟨Int.natCast_nonneg _, Int.ofNat_lt.2 (haux rfl)⟩

theorem CheckedAt.children {p : Proto} {pc : ℕ} (h : CheckedAt p pc)
    (hun : UncheckedInRange p (decodeAt p pc)) :
    ∀ n ∈ childOperands (decodeAt p pc), 0 ≤ n ∧ n < p.sizep := by
  have hchild : (decodeAt p pc).opcode = .NEWCLOSURE → (decodeAt p pc).d < p.sizep := h.child
  generalize decodeAt p pc = i at *
  unfold UncheckedInRange at hun
  unfold childOperands
  cases hop : i.opcode <;> simp only [hop] at hun ⊢
  case NEWCLOSURE => exact List.forall_mem_singleton.2 ⟨hun, hchild hop⟩
  all_goals exact fun r hr => absurd hr List.not_mem_nil

/-! ## The whole prototype -/

/-- A jump of a checked prototype lands on an instruction. -/
theorem Checked.jump {p : Proto} (h : Checked p) {i : Instruction} (hi : i ∈ decode p)
    (hjump : isJump i.opcode = true) (hskip : ¬(i.opcode = .LOADB ∧ i.c = 0)) :
    ∃ j ∈ decode p, (j.offset : ℤ) = i.jumpTarget := by
  have hedge : (i.offset, i.jumpTarget) ∈ recordedJump p i.offset := by
    have hop : i.opcode = opcode (p.word i.offset) :=
      congrArg Instruction.opcode (eq_decodeAt hi)
    have hc : i.c = insnC (p.word i.offset) := congrArg Instruction.c (eq_decodeAt hi)
    have htarget : i.jumpTarget = getJumpTarget (p.word i.offset) i.offset :=
      congrArg Instruction.jumpTarget (eq_decodeAt hi)
    rw [hop] at hjump hskip
    rw [hc] at hskip
    unfold recordedJump
    dsimp only
    rw [if_pos (by simpa [hjump, imp_iff_not_or] using hskip), htarget]
    exact List.mem_singleton_self _
  exact h.targets i hi _ hedge

theorem Checked.inRange_iff {p : Proto} (h : Checked p) {i : Instruction} (hi : i ∈ decode p) :
    InRange p i ↔ UncheckedInRange p i := by
  refine ⟨InRange.unchecked, fun hun => ?_⟩
  have hchecked := h.instructions i hi
  have hjump := h.jump hi
  have huses : i.uses = (useOperands i p.maxstacksize).foldl (addRegister p.maxstacksize) [] := by
    rw [eq_decodeAt hi]
    rfl
  have hdefinitions : i.definitions =
      (definitionOperands i p.maxstacksize).foldl (addRegister p.maxstacksize) [] := by
    rw [eq_decodeAt hi]
    rfl
  have hok := hchecked.operandsOk
  rw [← eq_decodeAt hi] at hok
  have hregisters : ∀ r ∈ registerOperands i, r < p.maxstacksize := by
    have := hchecked.registers (by rwa [← eq_decodeAt hi])
    rwa [← eq_decodeAt hi] at this
  refine ⟨hregisters, ?_, ?_, hjump, fun r hr => ?_, fun r hr => ?_⟩
  · have := hchecked.constants (by rwa [← eq_decodeAt hi])
    rwa [← eq_decodeAt hi] at this
  · have := hchecked.children (by rwa [← eq_decodeAt hi])
    rwa [← eq_decodeAt hi] at this
  · rw [huses, mem_addRegisters]
    exact Or.inr ⟨useOperands_lt hregisters r hr, hr⟩
  · rw [hdefinitions, mem_addRegisters]
    exact Or.inr ⟨definitionOperands_lt hok hregisters r hr, hr⟩

/-- In a prototype of an accepted tree every operand is in range, and none is dropped later, exactly
when the operands that `validateOne` does not look at are in range. -/
theorem validated_inRange {p : Proto} (h : Validated p) :
    (∀ i ∈ decode p, InRange p i) ↔ ∀ i ∈ decode p, UncheckedInRange p i :=
  forall₂_congr fun _ hi => h.checked.inRange_iff hi

/-- `LOADNIL R0`, `RETURN`. -/
def oneNil : Proto :=
  { ident := 0, nups := 0, numparams := 0, maxstacksize := 1
    code := [0x00000002, 0x00010016], k := [], p := [] }

theorem oneNil_inRange : (decode oneNil).length = 2 ∧ ∀ i ∈ decode oneNil, InRange oneNil i := by
  refine ⟨by decide +kernel, (validated_inRange (validated_root (by decide +kernel))).2
    fun i hi => ?_⟩
  have hcases : ∀ i ∈ decode oneNil, i.opcode = .LOADNIL ∨ (i.opcode = .RETURN ∧ i.b ≤ 1) := by
    decide +kernel
  unfold UncheckedInRange
  rcases hcases i hi with hop | ⟨hop, hb⟩
  · rw [hop]
    trivial
  · rw [hop]
    exact Or.inl hb

/-- `ADDK R0 R200 K0` in a frame of one register. -/
def farOperand : Proto :=
  { ident := 0, nups := 0, numparams := 0, maxstacksize := 1
    code := [0x00C80027, 0x00010016], k := [.number 0], p := [] }

/-- The prototype is accepted, and the use of register 200 is dropped. -/
theorem farOperand_dropped : validateProto farOperand = .ok () ∧
    ∃ i ∈ decode farOperand, 200 ∈ registerOperands i ∧ ¬ 200 < farOperand.maxstacksize ∧
      200 ∈ useOperands i farOperand.maxstacksize ∧ i.uses = [] :=
  ⟨by decide +kernel, decodeAt farOperand 0, List.mem_cons_self .., by decide +kernel, by decide,
    by decide +kernel, by decide +kernel⟩

end ByteVeil.IR
