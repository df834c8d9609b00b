import ByteVeil.IR.BlockGraph
import ByteVeil.Luau.Machine

/-!
# Where the Luau machine continues

A computation is taken apart into its results; whatever an instruction does, control continues at
one of the pcs that the definition of its opcode names.
-/

namespace ByteVeil.Luau

open ByteVeil.IR

variable {W : Type} (rt : Runtime W)

/-! ## Results -/

theorem exec_bind_ok {α β : Type} {x : Exec W α} {f : α → Exec W β} {m m' : Machine W} {b : β} :
    (x >>= f).run m = some (b, m') ↔
      ∃ a m₁, x.run m = some (a, m₁) ∧ (f a).run m₁ = some (b, m') := by
  rw [StateT.run_bind, Option.bind_eq_bind, Option.bind_eq_some_iff]
  exact Prod.exists

/-- Every result of a computation has the property. -/
def Ends {α : Type} (P : α → Prop) (x : Exec W α) : Prop :=
  ∀ m a m', x.run m = some (a, m') → P a

theorem ends_pure {α : Type} {P : α → Prop} {a : α} (h : P a) : Ends P (pure a : Exec W α) := by
  rintro m b m' hrun
  obtain ⟨rfl, -⟩ := Prod.mk.inj (Option.some.inj hrun)
  exact h

theorem ends_raise {α : Type} {P : α → Prop} : Ends P (raise : Exec W α) := by
  rintro m b m' hrun
  cases hrun

theorem Ends.bind {α β : Type} {P : β → Prop} {x : Exec W α} {f : α → Exec W β}
    (h : ∀ a, Ends P (f a)) : Ends P (x >>= f) := by
  rintro m b m' hrun
  obtain ⟨a, m₁, -, hrest⟩ := exec_bind_ok.1 hrun
  exact h a m₁ b m' hrest

theorem ends_ite {α : Type} {P : α → Prop} {c : Prop} [Decidable c] {x y : Exec W α}
    (hx : Ends P x) (hy : Ends P y) : Ends P (if c then x else y) := by
  split_ifs
  · exact hx
  · exact hy

/-! ## Where an instruction ends -/

/-- Control goes on at one of the pcs, if anywhere. -/
def GoesTo (l : List ℤ) (x : Exec W Next) : Prop := Ends (fun r => ∀ t, r = .goto t → t ∈ l) x

section GoesTo

variable {l : List ℤ} {i : Instruction}

theorem goesTo_goto {t : ℤ} (h : t ∈ l) : GoesTo l (pure (.goto t) : Exec W Next) :=
  ends_pure fun _ heq => by
    cases heq
    exact h

theorem goesTo_jumpD (h : (i.offset + 1 + i.d : ℤ) ∈ l) : GoesTo l (pure (jumpD i) : Exec W Next) :=
  goesTo_goto h

theorem goesTo_branchD {b : Bool} (hT : (i.offset + 1 + i.d : ℤ) ∈ l)
    (hN : (i.offset + i.length : ℤ) ∈ l) : GoesTo l (pure (branchD i b) : Exec W Next) := by
  unfold branchD
  split_ifs
  · exact goesTo_jumpD hT
  · exact goesTo_goto hN

theorem goesTo_done {values : List Value} : GoesTo l (pure (.done values) : Exec W Next) :=
  ends_pure fun _ heq => by cases heq

end GoesTo

section Step

variable {rt} {l : List ℤ} {p : Proto} {i : Instruction}

theorem goesTo_vmForNPrep (hT : (i.offset + 1 + i.d : ℤ) ∈ l) (hN : (i.offset + 1 : ℤ) ∈ l) :
    GoesTo l (vmForNPrep rt i) := by
  refine Ends.bind fun limit => Ends.bind fun step => Ends.bind fun index => ?_
  cases rt.toNumber limit with
  | none => exact ends_raise
  | some limit =>
    cases rt.toNumber step with
    | none => exact ends_raise
    | some step =>
      cases rt.toNumber index with
      | none => exact ends_raise
      | some index =>
        refine Ends.bind fun _ => Ends.bind fun _ => Ends.bind fun _ => ?_
        split_ifs
        · exact goesTo_goto hN
        · exact goesTo_jumpD hT

theorem goesTo_vmForNLoop (hT : (i.offset + 1 + i.d : ℤ) ∈ l) (hN : (i.offset + 1 : ℤ) ∈ l) :
    GoesTo l (vmForNLoop rt i) := by
  refine Ends.bind fun limit => Ends.bind fun step => Ends.bind fun index => ?_
  split
  · refine Ends.bind fun _ => ?_
    split_ifs
    · exact goesTo_jumpD hT
    · exact goesTo_goto hN
  · exact ends_raise

theorem goesTo_vmForGPrep (hT : (i.offset + 1 + i.d : ℤ) ∈ l) : GoesTo l (vmForGPrep rt i) := by
  refine Ends.bind fun v => ends_ite (goesTo_jumpD hT) (Ends.bind fun method => ?_)
  cases method with
  | some method => exact Ends.bind fun _ => Ends.bind fun _ => Ends.bind fun _ => goesTo_jumpD hT
  | none =>
    refine Ends.bind fun _ => ends_ite (goesTo_jumpD hT) ?_
    exact Ends.bind fun _ => Ends.bind fun _ => goesTo_jumpD hT

theorem goesTo_vmForGPrepNext (fresh : Value → Bool) (hT : (i.offset + 1 + i.d : ℤ) ∈ l) :
    GoesTo l (vmForGPrepNext rt i fresh) :=
  Ends.bind fun _ => ends_ite (Ends.bind fun _ => goesTo_jumpD hT)
    (Ends.bind fun _ => goesTo_jumpD hT)

theorem goesTo_vmForGLoop (hT : (i.offset + 1 + i.d : ℤ) ∈ l)
    (hN : (i.offset + i.length : ℤ) ∈ l) : GoesTo l (vmForGLoop rt i) := by
  refine Ends.bind fun m => ?_
  split
  · refine Ends.bind fun _ => Ends.bind fun found => ?_
    cases found with
    | some found => exact Ends.bind fun _ => Ends.bind fun _ => goesTo_jumpD hT
    | none => exact goesTo_goto hN
  · exact Ends.bind fun _ => Ends.bind fun _ => Ends.bind fun _ => goesTo_branchD hT hN

theorem goesTo_vmCall (hN : (i.offset + i.length : ℤ) ∈ l) : GoesTo l (vmCall rt i) := by
  have hrest : ∀ (function : Value) (last : ℤ), GoesTo l (do
      let results ← rt.call function (← (span (i.a + 1) last).mapM reg)
      if i.c = 0 then
        setRegs i.a results
        setTop (i.a + results.length - 1)
      else setRegs i.a (adjust (i.c - 1) results)
      return .goto (i.offset + i.length)) := fun function last => by
    refine Ends.bind fun _ => Ends.bind fun _ => ends_ite ?_ ?_
    · exact Ends.bind fun _ => Ends.bind fun _ => goesTo_goto hN
    · exact Ends.bind fun _ => goesTo_goto hN
  exact Ends.bind fun _ => ends_ite (Ends.bind fun _ => hrest _ _) (Ends.bind fun _ => hrest _ _)

theorem goesTo_vmSetList (hN : (i.offset + i.length : ℤ) ∈ l) : GoesTo l (vmSetList rt i) :=
  Ends.bind fun _ => ends_ite
    (Ends.bind fun _ => Ends.bind fun _ => goesTo_goto hN)
    (Ends.bind fun _ => Ends.bind fun _ => goesTo_goto hN)

theorem goesTo_vmGetVarargs (hN : (i.offset + i.length : ℤ) ∈ l) :
    GoesTo l (vmGetVarargs rt p i) :=
  ends_ite (Ends.bind fun _ => Ends.bind fun _ => goesTo_goto hN)
    (Ends.bind fun _ => goesTo_goto hN)

end Step

/-- Where the instruction at `pc` jumps, in the words of the machine. -/
theorem jumpTarget_decodeAt (p : Proto) (pc : ℕ) : (decodeAt p pc).jumpTarget =
    (if (decodeAt p pc).opcode.isJumpD then ((decodeAt p pc).offset : ℤ) + 1 + (decodeAt p pc).d
    else if (decodeAt p pc).opcode.isFastCall then
      ((decodeAt p pc).offset : ℤ) + (decodeAt p pc).c + 2
    else if (decodeAt p pc).opcode.isSkipC && (decodeAt p pc).c != 0 then
      ((decodeAt p pc).offset : ℤ) + 1 + (decodeAt p pc).c
    else if (decodeAt p pc).opcode = .JUMPX then
      ((decodeAt p pc).offset : ℤ) + 1 + (decodeAt p pc).e
    else -1) := by
  show getJumpTarget (p.word pc) pc = if (opcode (p.word pc)).isJumpD then
      (pc : ℤ) + 1 + insnD (p.word pc)
    else if (opcode (p.word pc)).isFastCall then (pc : ℤ) + insnC (p.word pc) + 2
    else if (opcode (p.word pc)).isSkipC && insnC (p.word pc) != 0 then
      (pc : ℤ) + 1 + insnC (p.word pc)
    else if opcode (p.word pc) = .JUMPX then (pc : ℤ) + 1 + insnE (p.word pc)
    else -1
  unfold getJumpTarget
  dsimp only
  split_ifs <;> omega

/-- The machine continues where the definition of the opcode says. -/
theorem vmStep_goto (p : Proto) (pc : ℕ) :
    GoesTo (continuations (decodeAt p pc)) (vmStep rt p (decodeAt p pc)) := by
  have hT := jumpTarget_decodeAt p pc
  have hlen : (decodeAt p pc).length = (decodeAt p pc).opcode.getOpLength := rfl
  unfold vmStep continuations
  generalize decodeAt p pc = i at *
  have hnext : (i.offset + i.length : ℤ) = i.next := by
    unfold Instruction.next
    push_cast
    rfl
  rw [← hnext]
  generalize hop : i.opcode = op at *
  cases op <;> simp only [Opcode.isJumpD, Opcode.isFastCall, Opcode.isSkipC, if_true, if_false,
    Bool.false_eq_true, Bool.true_and, Bool.false_and, Opcode.getOpLength] at hT hlen ⊢
  case RETURN =>
    exact ends_ite (Ends.bind fun _ => Ends.bind fun _ => goesTo_done)
      (Ends.bind fun _ => Ends.bind fun _ => goesTo_done)
  case LOADB =>
    refine Ends.bind fun _ => goesTo_goto ?_
    by_cases hc : i.c = 0
    · rw [if_pos hc, hc, hlen]
      simp
    · rw [if_neg hc, hT]
      simp [hc]
  case JUMPX =>
    exact goesTo_goto (by simp [hT])
  case CALL | CALLFB => exact goesTo_vmCall (List.mem_singleton_self _)
  case DUPTABLE =>
    split
    · exact Ends.bind fun _ => Ends.bind fun _ => goesTo_goto (List.mem_singleton_self _)
    · exact ends_raise
  case FORNPREP => exact goesTo_vmForNPrep (by simp [hT]) (by simp [hlen])
  case FORNLOOP => exact goesTo_vmForNLoop (by simp [hT]) (by simp [hlen])
  case FORGLOOP => exact goesTo_vmForGLoop (by simp [hT]) (by simp)
  case FORGPREP => exact goesTo_vmForGPrep (by simp [hT])
  case FORGPREP_INEXT => exact goesTo_vmForGPrepNext _ (by simp [hT])
  case FORGPREP_NEXT => exact goesTo_vmForGPrepNext _ (by simp [hT])
  case SETLIST => exact goesTo_vmSetList (List.mem_singleton_self _)
  case GETVARARGS => exact goesTo_vmGetVarargs (List.mem_singleton_self _)
  case JUMP | JUMPBACK => exact goesTo_jumpD (by simp [hT])
  case NATIVECALL | NEWCLASSMEMBER | CMPPROTO | NEWCLASS => exact ends_raise
  case JUMPIF | JUMPIFNOT => exact Ends.bind fun _ => goesTo_branchD (by simp [hT]) (by simp)
  case JUMPIFEQ | JUMPIFLE | JUMPIFLT | JUMPIFNOTEQ | JUMPIFNOTLE | JUMPIFNOTLT =>
    exact Ends.bind fun _ => Ends.bind fun _ => Ends.bind fun _ =>
      goesTo_branchD (by simp [hT]) (by simp)
  case JUMPXEQKNIL | JUMPXEQKB => exact Ends.bind fun _ => goesTo_branchD (by simp [hT]) (by simp)
  case JUMPXEQKN | JUMPXEQKS =>
    exact Ends.bind fun _ => Ends.bind fun _ => Ends.bind fun _ =>
      goesTo_branchD (by simp [hT]) (by simp)
  all_goals
    repeat' first | refine goesTo_goto ?_ | refine Ends.bind fun _ => ?_ | refine ends_ite ?_ ?_
  all_goals simp

end ByteVeil.Luau
