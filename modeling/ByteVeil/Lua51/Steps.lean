import ByteVeil.Lua51.Closed

/-!
# Steps of control

Where control goes when an instruction is executed: a test leads to the word behind it or past it, a
numeric loop to its body or behind the loop, and an instruction with operand words passes over them.
-/

namespace ByteVeil.Lua51

/-- Where an executed instruction leads; `none` ends the function. The outcome is that of the
comparison, of the tested register or of the loop's condition. -/
def Instr.next (i : Instr) (outcome : Bool) : Option ℤ :=
  match i.op with
  | .RETURN | .TAILCALL => none
  | .JMP | .FORPREP => some i.target
  | .EQ | .LT | .LE => some (if outcome = (i.a != 0) then i.pc + 1 else i.pc + 2)
  | .TEST | .TESTSET => some (if outcome = (i.c != 0) then i.pc + 1 else i.pc + 2)
  | .TFORLOOP => some (if outcome then i.pc + 1 else i.pc + 2)
  | .FORLOOP => some (if outcome then i.target else i.pc + 1)
  | .LOADBOOL => some (if i.c ≠ 0 then i.pc + 2 else i.pc + 1)
  | .SETLIST => some (if i.c = 0 then i.pc + 2 else i.pc + 1)
  | .CLOSURE => some (i.pc + 1 + i.captures.length)
  | _ => some (i.pc + 1)

/-- Control can pass from one instruction to another in one step. -/
def StepEdge (p : Proto) (source target : ℕ) : Prop :=
  IsExecutable p source ∧ target < p.size ∧
    ∃ outcome, (p.instr source).next outcome = some (target : ℤ)

/-- The instructions that lead to the word behind them, past their operand words. -/
def Instr.fallsThrough (i : Instr) : Bool :=
  match i.op with
  | .RETURN | .TAILCALL | .JMP | .FORPREP | .FORLOOP | .EQ | .LT | .LE | .TEST | .TESTSET
  | .TFORLOOP => false
  | .LOADBOOL => i.c == 0
  | _ => true

/-- The word behind an instruction and its operand words. -/
def Instr.behind (i : Instr) : ℕ :=
  match i.op with
  | .SETLIST => if i.c = 0 then i.pc + 2 else i.pc + 1
  | .CLOSURE => i.pc + 1 + i.captures.length
  | _ => i.pc + 1

theorem Instr.next_of_fallsThrough {i : Instr} (h : i.fallsThrough = true) (outcome : Bool) :
    i.next outcome = some (i.behind : ℤ) := by
  unfold fallsThrough at h
  unfold next behind
  cases hop : i.op <;> simp only [hop] at h ⊢
  case LOADBOOL => simp [beq_iff_eq.1 h]
  case SETLIST => split_ifs <;> rfl
  all_goals first
    | exact absurd h (by decide)
    | (push_cast; rfl)

theorem Instr.not_checksTarget {i : Instr} (h : i.fallsThrough = true) : ¬ checksTarget i := by
  unfold fallsThrough at h
  unfold checksTarget isTest
  cases hop : i.op <;> simp_all

section Accepted

variable {p : Proto} (hp : Accepted p)
include hp

theorem Accepted.pc_eq {pc : ℕ} (hpc : pc < p.size) : (p.instr pc).pc = pc :=
  (hp.valid.decoded pc hpc).pc_eq

/-- The first word is an instruction. -/
theorem Accepted.entry (hsize : 0 < p.size) : IsExecutable p 0 := by
  refine ⟨hsize, ?_, ?_⟩
  · rw [← Bool.not_eq_true, hp.extraWord_iff hsize]
    rintro ⟨j, hj, -⟩
    omega
  · rw [Option.eq_none_iff_forall_ne_some]
    intro c hc
    exact absurd (hp.arranged.bindings.binding 0 hsize c hc).1 (Nat.not_lt_zero c)

theorem Accepted.executable_of_isTest {k : ℕ} (hk : k < p.size)
    (h : isTest (p.instr k).op = true) : IsExecutable p k := by
  refine hp.executable_of_op hk ?_ ?_ ?_ <;> intro hop <;> rw [hop] at h <;> cases h

/-- An operand word has no target, and neither has an instruction that falls through or returns. -/
theorem Accepted.target_nonneg_iff {pc : ℕ} (hpc : pc < p.size) :
    0 ≤ (p.instr pc).target ↔ IsExecutable p pc ∧ checksTarget (p.instr pc) := by
  constructor
  · intro htarget
    have hextra : (p.instr pc).extraWord = false := by
      by_contra hextra
      rw [Bool.not_eq_false] at hextra
      rw [(hp.valid.decoded pc hpc).extra_target hextra] at htarget
      exact absurd htarget (by decide)
    rw [(hp.valid.decoded pc hpc).target_eq hextra] at htarget
    have hchecks : checksTarget (p.instr pc) := by
      unfold targetOf at htarget
      unfold checksTarget isTest
      cases hop : (p.instr pc).op <;> simp only [hop] at htarget
      case LOADBOOL =>
        refine Or.inr (Or.inr (Or.inr (Or.inr ⟨rfl, fun hc => ?_⟩)))
        rw [if_neg (by simp [hc])] at htarget
        exact absurd htarget (by decide)
      all_goals first
        | exact absurd htarget (by decide)
        | simp
    refine ⟨⟨hpc, hextra, ?_⟩, hchecks⟩
    rw [Option.eq_none_iff_forall_ne_some]
    intro c hc
    obtain ⟨-, -, -, hop, -⟩ := hp.arranged.bindings.binding pc hpc c hc
    unfold checksTarget isTest at hchecks
    rcases hop with hop | hop <;> simp [hop] at hchecks
  · rintro ⟨hexec, hchecks⟩
    exact (hp.target hexec hchecks).1.1

/-- Behind an instruction and its operand words stands the next one, or the end. -/
theorem Accepted.behind {pc : ℕ} (hpc : IsExecutable p pc) :
    Boundary p (p.instr pc).behind ∧ pc < (p.instr pc).behind ∧
      ∀ k, pc < k → k < (p.instr pc).behind → ¬ IsExecutable p k := by
  unfold Instr.behind
  have hpceq := hp.pc_eq hpc.lt
  by_cases hextra : (p.instr pc).HasExtraWord
  · obtain ⟨hword, hboundary⟩ := hp.afterExtraWord hpc hextra
    rw [hextra.1]
    simp only [hextra.2, if_true, hpceq]
    refine ⟨hboundary, by omega, fun k h₁ h₂ hk => ?_⟩
    obtain rfl : k = pc + 1 := by omega
    have := (hp.extra_iff_op hk.lt).2 hword
    rw [hk.not_extra] at this
    cases this
  by_cases hclosure : (p.instr pc).op = .CLOSURE
  · rw [hclosure]
    simp only [hpceq]
    refine ⟨?_, by omega, fun k h₁ h₂ hk => ?_⟩
    · push_cast
      exact hp.afterBindings hpc hclosure
    · have := (hp.bound hpc h₁ (by omega)).2.1
      rw [hk.not_binding] at this
      cases this
  · have hnext := hp.next hpc hextra hclosure
    have heq : (p.instr pc).behind = pc + 1 := by
      unfold Instr.behind
      split
      · rename_i hop
        rw [if_neg fun hc => hextra ⟨hop, hc⟩, hpceq]
      · rename_i hop
        exact absurd hop hclosure
      · rw [hpceq]
    unfold Instr.behind at heq
    rw [heq]
    exact ⟨by push_cast; exact hnext, by omega, fun k h₁ h₂ => by omega⟩

/-- Instructions do not overlap. -/
theorem Accepted.behind_le {pc k : ℕ} (hpc : IsExecutable p pc) (hk : IsExecutable p k)
    (hlt : pc < k) : (p.instr pc).behind ≤ k :=
  not_lt.1 fun h => (hp.behind hpc).2.2 k hlt h hk

theorem Accepted.behind_inj {pc k : ℕ} (hpc : IsExecutable p pc) (hk : IsExecutable p k)
    (heq : (p.instr pc).behind = (p.instr k).behind) : pc = k := by
  have h₁ := (hp.behind hpc).2.1
  have h₂ := (hp.behind hk).2.1
  rcases Nat.lt_trichotomy pc k with hlt | rfl | hlt
  · have := hp.behind_le hpc hk hlt
    omega
  · rfl
  · have := hp.behind_le hk hpc hlt
    omega

/-- An instruction with a target has no operand words. -/
theorem Accepted.behind_of_target {pc : ℕ} (hpc : IsExecutable p pc)
    (h : checksTarget (p.instr pc)) : (p.instr pc).behind = pc + 1 := by
  unfold Instr.behind
  unfold checksTarget isTest at h
  split
  · rename_i hop
    simp [hop] at h
  · rename_i hop
    simp [hop] at h
  · rw [hp.pc_eq hpc.lt]

omit hp in
theorem exists_outcome (flag : Bool) (x y t : ℤ) :
    (∃ outcome, some (if outcome = flag then x else y) = some t) ↔ t = y ∨ t = x := by
  cases flag <;> simp [eq_comm, or_comm]

/-- An instruction leads behind itself, to its target, or to one of both. -/
theorem Accepted.next_iff {pc : ℕ} (hpc : IsExecutable p pc) {t : ℤ} :
    (∃ outcome, (p.instr pc).next outcome = some t) ↔
      ((p.instr pc).fallsThrough = true ∧ t = (p.instr pc).behind) ∨
      (checksTarget (p.instr pc) ∧ (t = (p.instr pc).target ∨
        ((isTest (p.instr pc).op = true ∨ (p.instr pc).op = .FORLOOP) ∧ t = pc + 1))) := by
  by_cases hfalls : (p.instr pc).fallsThrough = true
  · have hnot := Instr.not_checksTarget hfalls
    simp only [Instr.next_of_fallsThrough hfalls, hfalls, hnot, true_and, false_and, or_false,
      exists_const, Option.some.injEq]
    exact eq_comm
  have htarget := hp.target_eq hpc
  have hpceq := hp.pc_eq hpc.lt
  rw [or_iff_right fun h => hfalls h.1]
  unfold Instr.fallsThrough at hfalls
  unfold checksTarget isTest Instr.next
  cases hop : (p.instr pc).op <;> simp only [hop] at hfalls htarget ⊢
  case RETURN | TAILCALL => simp
  case JMP | FORPREP => simp [eq_comm]
  case FORLOOP =>
    simp only [Bool.exists_bool, Option.some.injEq, hpceq]
    simp
    tauto
  case LOADBOOL =>
    have hc : (p.instr pc).c ≠ 0 := fun hc => hfalls (by rw [hc]; rfl)
    simp only [targetOf, if_pos hc] at htarget
    simp [hc, htarget, hpceq, eq_comm]
  case EQ | LT | LE | TEST | TESTSET | TFORLOOP =>
    rw [exists_outcome, htarget, hpceq]
    simp [targetOf]
  all_goals exact absurd trivial hfalls

end Accepted

end ByteVeil.Lua51
