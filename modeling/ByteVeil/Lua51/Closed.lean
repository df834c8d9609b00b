import ByteVeil.Lua51.PcBlock

/-!
# Validation closes the control flow

1. The pcs at which the virtual machine can go on after an instruction.
2. Every word behind an executable instruction is executable, an extra word or a binding, and each
   opcode passes over its own.
3. All transfers stay on executable instructions exactly when the tests whose next word is not a jump
   do; the word's `sBx` is the only target that is not checked.
-/

namespace ByteVeil.Lua51

open Fallible

/-! ## Transfers -/

/-- An instruction that is executed: neither an extra word nor a binding. -/
structure IsExecutable (p : Proto) (pc : ℕ) : Prop where
  lt : pc < p.size
  not_extra : (p.instr pc).extraWord = false
  not_binding : (p.instr pc).closureBindingFor = none

instance (p : Proto) (pc : ℕ) : Decidable (IsExecutable p pc) :=
  decidable_of_iff (pc < p.size ∧ (p.instr pc).extraWord = false ∧
    (p.instr pc).closureBindingFor = none)
    ⟨fun h => ⟨h.1, h.2.1, h.2.2⟩, fun h => ⟨h.lt, h.not_extra, h.not_binding⟩⟩

/-- The end of the code or an executable instruction. -/
def Boundary (p : Proto) (t : ℤ) : Prop :=
  0 ≤ t ∧ t ≤ p.size ∧ (t < p.size → IsExecutable p t.toNat)

instance (p : Proto) (t : ℤ) : Decidable (Boundary p t) := inferInstanceAs (Decidable (_ ∧ _ ∧ _))

/-- The opcodes that take their jump from the next word. -/
def isTest : Op → Bool
  | .EQ | .LT | .LE | .TEST | .TESTSET | .TFORLOOP => true
  | _ => false

/-- Where a test goes by the `sBx` of the word behind it. -/
def testTarget (p : Proto) (pc : ℕ) : ℤ := (pc : ℤ) + 2 + (p.instr (pc + 1)).sbx

/-- The pcs at which the machine can go on. A tail call of a host function goes on behind it. -/
def transfers (p : Proto) (pc : ℕ) : List ℤ :=
  let i := p.instr pc
  match i.op with
  | .EQ | .LT | .LE | .TEST | .TESTSET | .TFORLOOP => [pc + 2, testTarget p pc]
  | .JMP | .FORPREP => [pc + 1 + i.sbx]
  | .FORLOOP => [pc + 1 + i.sbx, pc + 1]
  | .LOADBOOL => [if i.c ≠ 0 then pc + 2 else pc + 1]
  | .SETLIST => [if i.c = 0 then pc + 2 else pc + 1]
  | .CLOSURE => [pc + 1 + ((p.children.getD i.bx default).nups : ℤ)]
  | .RETURN => []
  | _ => [pc + 1]

mutual

/-- The pcs that a statement can assign to the dispatcher's variable. -/
def Stmt.assignedPcs : Stmt → List ℤ
  | .setPc pc => [pc]
  | .ifElse _ yes no => assignedPcs yes ++ assignedPcs no
  | _ => []

/-- The pcs that statements can assign to the dispatcher's variable. -/
def assignedPcs : List Stmt → List ℤ
  | [] => []
  | s :: ss => s.assignedPcs ++ assignedPcs ss

end

/-- No transfer leaves the executable instructions, and bindings belong to one closure each. -/
structure FlowClosed (p : Proto) : Prop where
  transfer : ∀ pc, IsExecutable p pc → ∀ t ∈ transfers p pc, Boundary p t
  binding : ∀ k < p.size, (p.instr k).closureBindingFor.isSome = true →
    ∃! c, IsExecutable p c ∧ (p.instr c).op = .CLOSURE ∧ c < k ∧
      k ≤ c + (p.instr c).captures.length
  captures : ∀ c, IsExecutable p c → (p.instr c).op = .CLOSURE →
    (p.instr c).bx < p.children.length ∧
      (p.instr c).captures.length = (p.children.getD (p.instr c).bx default).nups
  following : ∀ pc, IsExecutable p pc → isTest (p.instr pc).op = true →
    Boundary p (followingControlTarget p (p.instr pc))
  successors : ∀ pc, IsExecutable p pc → ∀ t ∈ controlSuccessors p (p.instr pc), Boundary p t
  dispatcher : ∀ pc, IsExecutable p pc → ∀ block, ∀ t ∈ assignedPcs (emitPcInstr p block pc).stmts,
    Boundary p t

/-- Where a test is not followed by a jump, the `sBx` of the next word still leads to an executable
instruction or the end. -/
def TestsClosed (p : Proto) : Prop :=
  ∀ pc, IsExecutable p pc → isTest (p.instr pc).op = true → (p.instr (pc + 1)).op ≠ .JMP →
    Boundary p (testTarget p pc)

theorem boundary_of {p : Proto} {n : ℕ} {t : ℤ} (ht : t = n) (hle : n ≤ p.size)
    (h : n < p.size → IsExecutable p n) : Boundary p t := by
  subst ht
  exact ⟨by omega, by omega, fun hlt => by rw [Int.toNat_natCast]; exact h (by omega)⟩

/-! ## Checked operands -/

theorem failure_ne (p : Proto) (i : Instr) (message : String) : failure p i message ≠ .ok () :=
  failureAt_ne _ _ _

/-- The instructions whose target is checked. -/
def checksTarget (i : Instr) : Prop :=
  isTest i.op = true ∨ i.op = .JMP ∨ i.op = .FORLOOP ∨ i.op = .FORPREP ∨ i.op = .LOADBOOL ∧ i.c ≠ 0

theorem checkOperands_target {p : Proto} {i : Instr} (h : checkOperands p i = .ok ())
    (hi : checksTarget i) : checkTarget p i = .ok () := by
  unfold checkOperands at h
  unfold checksTarget isTest at hi
  cases hop : i.op <;> simp only [hop, except_bind_ok] at h <;> simp [hop] at hi <;>
    simp_all

/-! ## Words behind an instruction -/

section Words

variable {p : Proto} (hp : Accepted p)
include hp

theorem Accepted.extra_iff_op {pc : ℕ} (hpc : pc < p.size) :
    (p.instr pc).extraWord = true ↔ (p.instr pc).op = .EXTRAARG :=
  (hp.valid.decoded pc hpc).extra

theorem Accepted.extraWord_iff {k : ℕ} (hk : k < p.size) : (p.instr k).extraWord = true ↔
    ∃ j, k = j + 1 ∧ (p.instr j).HasExtraWord :=
  hp.arranged.extra.extra_iff k hk

/-- The words behind an executable instruction that no closure from there on reaches. -/
theorem Accepted.not_binding_of {pc t : ℕ} (hpc : IsExecutable p pc) (hlt : pc < t)
    (ht : t < p.size)
    (hmid : ∀ c, pc ≤ c → c < t → (p.instr c).op = .CLOSURE → c + (p.instr c).captures.length < t) :
    (p.instr t).closureBindingFor = none := by
  rw [Option.eq_none_iff_forall_ne_some]
  intro c hc
  obtain ⟨hct, hop, hcover, -⟩ := hp.arranged.bindings.binding t ht c hc
  by_cases hle : pc ≤ c
  · have := hmid c hle hct hop
    omega
  · -- a closure in front would bind the instruction itself
    have hbound := (hp.arranged.bindings.covers c (by have := hpc.lt; omega) (pc - c - 1)
      (by omega)).2.1
    rw [show c + (pc - c - 1) + 1 = pc by omega, hpc.not_binding] at hbound
    cases hbound

theorem Accepted.checkOperands {pc : ℕ} (hpc : IsExecutable p pc) :
    checkOperands p (p.instr pc) = .ok () := by
  have h := hp.valid.checkInstr hpc.lt
  unfold Lua51.checkInstr at h
  rwa [if_neg (by simp [hpc.not_extra]), if_neg (by simp [hpc.not_binding])] at h

/-- A checked target is an instruction. -/
theorem Accepted.target {pc : ℕ} (hpc : IsExecutable p pc) (hi : checksTarget (p.instr pc)) :
    Boundary p (p.instr pc).target ∧ (p.instr pc).target < p.size := by
  have h := checkOperands_target (hp.checkOperands hpc) hi
  unfold checkTarget at h
  rw [reject_ok (failure_ne _ _ _)] at h
  simp only [Bool.not_eq_false', isBoundary, Bool.and_eq_true, decide_eq_true_eq, Bool.not_eq_true',
    Option.isNone_iff_eq_none] at h
  obtain ⟨⟨⟨hnonneg, hlt⟩, hextra⟩, hbinding⟩ := h
  have hsize : (p.instr pc).target < p.size := hlt
  exact ⟨⟨hnonneg, by omega, fun _ => ⟨by omega, hextra, hbinding⟩⟩, hsize⟩

theorem Accepted.target_eq {pc : ℕ} (hpc : IsExecutable p pc) :
    (p.instr pc).target = targetOf (p.instr pc).op pc (p.instr pc).c (p.instr pc).sbx :=
  (hp.valid.decoded pc hpc.lt).target_eq hpc.not_extra

/-- The word behind an instruction without operand words of its own. -/
theorem Accepted.next {pc : ℕ} (hpc : IsExecutable p pc) (hextra : ¬(p.instr pc).HasExtraWord)
    (hop : (p.instr pc).op ≠ .CLOSURE) : Boundary p (pc + 1) := by
  refine boundary_of (by push_cast; rfl) hpc.lt fun hlt' => ?_
  refine ⟨hlt', ?_, hp.not_binding_of hpc (Nat.lt_succ_self pc) hlt' fun c hle hlt hc => ?_⟩
  · rw [← Bool.not_eq_true, hp.extraWord_iff hlt']
    rintro ⟨j, hj, hword⟩
    obtain rfl : pc = j := by omega
    exact hextra hword
  · obtain rfl : pc = c := by omega
    exact absurd hc hop

theorem Accepted.next_of {pc : ℕ} {op : Op} (hpc : IsExecutable p pc) (hop : (p.instr pc).op = op)
    (hlist : op ≠ .SETLIST) (hclosure : op ≠ .CLOSURE) : Boundary p (pc + 1) :=
  hp.next hpc (fun h => hlist (hop.symm.trans h.1)) (hop ▸ hclosure)

/-- A `SETLIST` passes over its extra word. -/
theorem Accepted.afterExtraWord {pc : ℕ} (hpc : IsExecutable p pc)
    (hextra : (p.instr pc).HasExtraWord) :
    (p.instr (pc + 1)).op = .EXTRAARG ∧ Boundary p (pc + 2) := by
  have hlt := hp.arranged.extra.extra_lt pc hpc.lt hextra
  have hword : (p.instr (pc + 1)).extraWord = true :=
    (hp.extraWord_iff hlt).2 ⟨pc, rfl, hextra⟩
  have hop := (hp.extra_iff_op hlt).1 hword
  refine ⟨hop, boundary_of (by push_cast; rfl) hlt fun hsize' => ?_⟩
  refine ⟨hsize', ?_, hp.not_binding_of hpc (by omega) hsize' fun c hle hlt hc => ?_⟩
  · rw [← Bool.not_eq_true, hp.extraWord_iff hsize']
    rintro ⟨j, hj, hnext⟩
    obtain rfl : pc + 1 = j := by omega
    have hlist := hnext.1
    rw [hop] at hlist
    cases hlist
  · rcases Nat.lt_or_eq_of_le hle with hgt | rfl
    · obtain rfl : pc + 1 = c := by omega
      rw [hop] at hc
      cases hc
    · rw [hextra.1] at hc
      cases hc

/-- The words behind a `CLOSURE` that it binds. -/
theorem Accepted.bound {c k : ℕ} (hc : IsExecutable p c) (hlt : c < k)
    (hle : k ≤ c + (p.instr c).captures.length) :
    k < p.size ∧ (p.instr k).closureBindingFor = some c ∧
      ((p.instr k).op = .MOVE ∨ (p.instr k).op = .GETUPVAL) := by
  have h := hp.arranged.bindings.covers c hc.lt (k - c - 1) (by omega)
  rw [show c + (k - c - 1) + 1 = k by omega] at h
  exact ⟨h.1, h.2.1, (hp.arranged.bindings.binding k h.1 c h.2.1).2.2.2.1⟩

/-- Only a `MOVE` or a `GETUPVAL` is a binding. -/
theorem Accepted.executable_of_op {n : ℕ} (hn : n < p.size) (hextra : (p.instr n).op ≠ .EXTRAARG)
    (hmove : (p.instr n).op ≠ .MOVE) (hget : (p.instr n).op ≠ .GETUPVAL) : IsExecutable p n := by
  refine ⟨hn, ?_, ?_⟩
  · rw [← Bool.not_eq_true, hp.extra_iff_op hn]
    exact hextra
  · rw [Option.eq_none_iff_forall_ne_some]
    intro c hc
    exact (hp.arranged.bindings.binding n hn c hc).2.2.2.1.elim hmove hget

/-- A `CLOSURE` passes over its bindings. -/
theorem Accepted.afterBindings {pc : ℕ} (hpc : IsExecutable p pc)
    (hop : (p.instr pc).op = .CLOSURE) :
    Boundary p (pc + 1 + (p.instr pc).captures.length) := by
  set n := (p.instr pc).captures.length with hn
  have hsize : pc + n < p.size := by
    by_cases hzero : n = 0
    · rw [hzero]
      exact hpc.lt
    · exact (hp.bound hpc (k := pc + n) (by omega) (by omega)).1
  refine boundary_of (show (pc : ℤ) + 1 + n = (pc + 1 + n : ℕ) by push_cast; rfl) (by omega) fun hlt' => ?_
  refine ⟨hlt', ?_, hp.not_binding_of hpc (by omega) hlt' fun c hle hlt hc => ?_⟩
  · rw [← Bool.not_eq_true, hp.extraWord_iff hlt']
    rintro ⟨j, hj, hword⟩
    obtain rfl : pc + n = j := by omega
    have hlist : (p.instr (pc + n)).op = .SETLIST := hword.1
    by_cases hzero : n = 0
    · rw [hzero, Nat.add_zero, hop] at hlist
      cases hlist
    · rcases (hp.bound hpc (k := pc + n) (by omega) (by omega)).2.2 with h | h <;>
        rw [h] at hlist <;> cases hlist
  · rcases Nat.lt_or_eq_of_le hle with hgt | rfl
    · rcases (hp.bound hpc hgt (by omega)).2.2 with h | h <;> rw [h] at hc <;> cases hc
    · omega

/-- The word behind a test is an instruction. -/
theorem Accepted.behindTest {pc : ℕ} (hpc : IsExecutable p pc)
    (htest : isTest (p.instr pc).op = true) :
    (p.instr pc).target = pc + 2 ∧ Boundary p (pc + 2) ∧ IsExecutable p (pc + 1) := by
  have htarget : (p.instr pc).target = pc + 2 := by
    rw [hp.target_eq hpc]
    unfold isTest at htest
    unfold targetOf
    split at htest <;> simp_all
  obtain ⟨hboundary, hlt⟩ := hp.target hpc (Or.inl htest)
  rw [htarget] at hboundary hlt
  refine ⟨htarget, hboundary, ?_⟩
  have hne : ∀ op, isTest op = false → (p.instr pc).op ≠ op := by
    rintro op hop heq
    rw [heq, hop] at htest
    cases htest
  exact (hp.next hpc (fun h => hne _ rfl h.1) (hne _ rfl)).2.2 (by omega)

theorem Accepted.jump {pc : ℕ} (hpc : IsExecutable p pc) (hop : (p.instr pc).op = .JMP ∨
    (p.instr pc).op = .FORLOOP ∨ (p.instr pc).op = .FORPREP) :
    (p.instr pc).target = pc + 1 + (p.instr pc).sbx ∧ Boundary p (pc + 1 + (p.instr pc).sbx) := by
  have htarget : (p.instr pc).target = pc + 1 + (p.instr pc).sbx := by
    rw [hp.target_eq hpc]
    rcases hop with h | h | h <;> rw [h] <;> show _ + _ + (1 : ℤ) = _ <;> omega
  rw [← htarget]
  refine ⟨rfl, (hp.target hpc (Or.inr ?_)).1⟩
  rcases hop with h | h | h
  · exact Or.inl h
  · exact Or.inr (Or.inl h)
  · exact Or.inr (Or.inr (Or.inl h))

/-- A `LOADBOOL` that skips passes over an instruction. -/
theorem Accepted.skips {pc : ℕ} (hpc : IsExecutable p pc) (hop : (p.instr pc).op = .LOADBOOL)
    (hc : (p.instr pc).c ≠ 0) : Boundary p (pc + 2) := by
  have htarget : (p.instr pc).target = pc + 2 := by
    rw [hp.target_eq hpc, hop]
    exact if_pos hc
  rw [← htarget]
  exact (hp.target hpc (Or.inr (Or.inr (Or.inr (Or.inr ⟨hop, hc⟩))))).1

/-- A jump behind a test goes to an instruction. -/
theorem Accepted.jumpBehind {pc : ℕ} (hpc : IsExecutable p pc)
    (htest : isTest (p.instr pc).op = true) (hjump : (p.instr (pc + 1)).op = .JMP) :
    (p.instr (pc + 1)).target = testTarget p pc ∧ Boundary p (testTarget p pc) := by
  obtain ⟨-, -, hnext⟩ := hp.behindTest hpc htest
  have htarget : (p.instr (pc + 1)).target = testTarget p pc := by
    rw [hp.target_eq hnext, hjump]
    show ((pc + 1 : ℕ) : ℤ) + (p.instr (pc + 1)).sbx + 1 = testTarget p pc
    unfold testTarget
    omega
  refine ⟨htarget, ?_⟩
  rw [← htarget]
  exact (hp.target hnext (Or.inr (Or.inl hjump))).1

theorem Accepted.following_eq {pc : ℕ} (hpc : IsExecutable p pc)
    (htest : isTest (p.instr pc).op = true) :
    followingControlTarget p (p.instr pc) = testTarget p pc := by
  have hnext := (hp.behindTest hpc htest).2.2
  unfold followingControlTarget testTarget
  rw [(hp.valid.decoded pc hpc.lt).pc_eq, if_neg (by have := hnext.lt; omega),
    (hp.valid.decoded (pc + 1) hnext.lt).pc_eq]
  omega

/-- Where the tests are closed, every test is. -/
theorem Accepted.testTarget_boundary {pc : ℕ} (h : TestsClosed p) (hpc : IsExecutable p pc)
    (htest : isTest (p.instr pc).op = true) : Boundary p (testTarget p pc) := by
  by_cases hjump : (p.instr (pc + 1)).op = .JMP
  · exact (hp.jumpBehind hpc htest hjump).2
  · exact h pc hpc htest hjump

/-- A `CLOSURE` binds a word for each upvalue of its function. -/
theorem Accepted.captures_length {pc : ℕ} (hpc : IsExecutable p pc)
    (hop : (p.instr pc).op = .CLOSURE) :
    (p.instr pc).bx < p.children.length ∧
      (p.instr pc).captures.length = (p.children.getD (p.instr pc).bx default).nups := by
  have h := hp.checkOperands hpc
  unfold Lua51.checkOperands at h
  rw [hop] at h
  obtain ⟨⟨⟩, -, h⟩ := except_bind_ok.1 h
  obtain ⟨⟨⟩, hbx, h⟩ := except_bind_ok.1 h
  rw [reject_ok (failure_ne _ _ _)] at hbx h
  exact ⟨by simpa using hbx, by simpa using h⟩

end Words

/-! ## Assigned pcs -/

theorem assignedPcs_append (ss ts : List Stmt) :
    assignedPcs (ss ++ ts) = assignedPcs ss ++ assignedPcs ts := by
  induction ss with
  | nil => rfl
  | cons s ss ih =>
    show s.assignedPcs ++ assignedPcs (ss ++ ts) = s.assignedPcs ++ assignedPcs ss ++ assignedPcs ts
    rw [ih, List.append_assoc]

theorem assignedPcs_map {α : Type} (l : List α) {f : α → Stmt} (hf : ∀ a, (f a).assignedPcs = []) :
    assignedPcs (l.map f) = [] := by
  induction l with
  | nil => rfl
  | cons a l ih =>
    show (f a).assignedPcs ++ assignedPcs (l.map f) = []
    rw [hf, ih]
    rfl

/-- Simple statements do not assign the dispatcher's variable. -/
theorem assignedPcs_emitSimple (p : Proto) (i : Instr) (colonCall : Bool) :
    assignedPcs (emitSimple p i colonCall) = [] := by
  unfold emitSimple
  cases i.op
  case LOADNIL | SETLIST => exact assignedPcs_map _ fun _ => rfl
  case CALL | TAILCALL =>
    unfold callText
    dsimp only
    split <;> rfl
  case CLOSE =>
    dsimp only
    unfold emitCapturedCellClose
    split_ifs
    · rfl
    · exact assignedPcs_map _ fun _ => rfl
  case VARARG =>
    dsimp only
    split_ifs <;> rfl
  all_goals rfl

/-! ## Closed control flow -/

theorem addTarget_boundary {p : Proto} {target : ℤ} (h : Boundary p target) :
    ∀ t ∈ addTarget p target, Boundary p t := by
  intro t ht
  unfold addTarget at ht
  split_ifs at ht with hrange
  · obtain rfl := List.mem_singleton.1 ht
    rwa [Int.toNat_of_nonneg hrange.1]
  · cases ht

theorem transfers_of_isTest {p : Proto} {pc : ℕ} (h : isTest (p.instr pc).op = true) :
    transfers p pc = [(pc : ℤ) + 2, testTarget p pc] := by
  unfold isTest at h
  unfold transfers
  split at h <;> simp_all

section Closed

variable {p : Proto} (hp : Accepted p)
include hp

theorem Accepted.transfer (h : TestsClosed p) {pc : ℕ} (hpc : IsExecutable p pc) :
    ∀ t ∈ transfers p pc, Boundary p t := by
  by_cases htest : isTest (p.instr pc).op = true
  · rw [transfers_of_isTest htest]
    exact List.forall_mem_cons.2 ⟨(hp.behindTest hpc htest).2.1,
      List.forall_mem_singleton.2 (hp.testTarget_boundary h hpc htest)⟩
  have hjump := hp.jump hpc
  unfold transfers
  dsimp only
  cases hop : (p.instr pc).op
  case EQ | LT | LE | TEST | TESTSET | TFORLOOP => exact absurd (by rw [hop]; rfl) htest
  case JMP => exact List.forall_mem_singleton.2 (hjump (Or.inl hop)).2
  case FORPREP => exact List.forall_mem_singleton.2 (hjump (Or.inr (Or.inr hop))).2
  case FORLOOP =>
    refine List.forall_mem_cons.2 ⟨(hjump (Or.inr (Or.inl hop))).2, List.forall_mem_singleton.2 ?_⟩
    exact hp.next_of hpc hop (by decide) (by decide)
  case LOADBOOL =>
    refine List.forall_mem_singleton.2 ?_
    split_ifs with hc
    · exact hp.skips hpc hop hc
    · exact hp.next_of hpc hop (by decide) (by decide)
  case SETLIST =>
    refine List.forall_mem_singleton.2 ?_
    split_ifs with hc
    · exact (hp.afterExtraWord hpc ⟨hop, hc⟩).2
    · exact hp.next hpc (fun h => hc h.2) (by rw [hop]; decide)
  case CLOSURE =>
    refine List.forall_mem_singleton.2 ?_
    rw [← (hp.captures_length hpc hop).2]
    exact hp.afterBindings hpc hop
  case RETURN => exact List.forall_mem_nil _
  all_goals exact List.forall_mem_singleton.2 (hp.next_of hpc hop (by simp) (by simp))

theorem Accepted.successors (h : TestsClosed p) {pc : ℕ} (hpc : IsExecutable p pc) :
    ∀ t ∈ controlSuccessors p (p.instr pc), Boundary p t := by
  have hjump := hp.jump hpc
  have hself := (hp.valid.decoded pc hpc.lt).pc_eq
  have htwo (hop : isTest (p.instr pc).op = true) := addTarget_boundary (hp.behindTest hpc hop).2.1
  unfold controlSuccessors
  dsimp only
  rw [if_neg (by simp [hpc.not_binding, hpc.not_extra]), hself]
  cases hop : (p.instr pc).op
  case TAILCALL | RETURN => exact List.forall_mem_nil _
  case EQ | LT | LE | TEST | TESTSET =>
    have htest : isTest (p.instr pc).op = true := by
      rw [hop]
      rfl
    refine List.forall_mem_append.2 ⟨?_, htwo htest⟩
    split_ifs with hnext
    · rw [(hp.jumpBehind hpc htest hnext.2).1]
      exact addTarget_boundary (hp.jumpBehind hpc htest hnext.2).2
    · exact htwo htest
  case TFORLOOP =>
    have htest : isTest (p.instr pc).op = true := by
      rw [hop]
      rfl
    rw [hp.following_eq hpc htest]
    exact List.forall_mem_append.2
      ⟨addTarget_boundary (hp.testTarget_boundary h hpc htest), htwo htest⟩
  case JMP =>
    obtain ⟨htarget, hboundary⟩ := hjump (Or.inl hop)
    rw [htarget]
    exact addTarget_boundary hboundary
  case FORPREP =>
    obtain ⟨htarget, hboundary⟩ := hjump (Or.inr (Or.inr hop))
    rw [htarget]
    exact addTarget_boundary hboundary
  case FORLOOP =>
    obtain ⟨htarget, hboundary⟩ := hjump (Or.inr (Or.inl hop))
    rw [htarget]
    refine List.forall_mem_append.2 ⟨addTarget_boundary hboundary, addTarget_boundary ?_⟩
    exact hp.next_of hpc hop (by decide) (by decide)
  case LOADBOOL =>
    dsimp only
    split_ifs with hc
    · exact addTarget_boundary (hp.skips hpc hop hc)
    · exact addTarget_boundary (hp.next_of hpc hop (by decide) (by decide))
  case SETLIST =>
    dsimp only
    split_ifs with hc
    · exact addTarget_boundary (hp.afterExtraWord hpc ⟨hop, hc⟩).2
    · exact addTarget_boundary (hp.next hpc (fun h => hc h.2) (by rw [hop]; decide))
  case CLOSURE => exact addTarget_boundary (hp.afterBindings hpc hop)
  all_goals exact addTarget_boundary (hp.next_of hpc hop (by simp) (by simp))

theorem Accepted.dispatcher (h : TestsClosed p) {pc : ℕ} (hpc : IsExecutable p pc)
    (block : PcBlock) : ∀ t ∈ assignedPcs (emitPcInstr p block pc).stmts, Boundary p t := by
  have hself := (hp.valid.decoded pc hpc.lt).pc_eq
  have hbranches (htest : isTest (p.instr pc).op = true) :
      ∀ t ∈ [followingControlTarget p (p.instr pc), ((p.instr pc).pc : ℤ) + 2], Boundary p t := by
    rw [hp.following_eq hpc htest, hself]
    exact List.forall_mem_cons.2 ⟨hp.testTarget_boundary h hpc htest,
      List.forall_mem_singleton.2 (hp.behindTest hpc htest).2.1⟩
  have hsimple (colonCall : Bool) : ∀ b : Bool, ∀ t ∈ assignedPcs (if b = true then [] else
      emitSimple p (p.instr pc) colonCall), Boundary p t := by
    intro b
    split_ifs
    · exact List.forall_mem_nil _
    · rw [assignedPcs_emitSimple]
      exact List.forall_mem_nil _
  unfold emitPcInstr
  dsimp only
  rw [if_neg (by simp [hpc.not_binding, hpc.not_extra])]
  cases hop : (p.instr pc).op
  case EQ | LT | LE | TEST | TESTSET | TFORLOOP => exact hbranches (by rw [hop]; rfl)
  case JMP =>
    obtain ⟨htarget, hboundary⟩ := hp.jump hpc (Or.inl hop)
    dsimp only
    rw [htarget]
    exact List.forall_mem_singleton.2 hboundary
  case FORPREP =>
    obtain ⟨htarget, hboundary⟩ := hp.jump hpc (Or.inr (Or.inr hop))
    dsimp only
    rw [htarget]
    exact List.forall_mem_singleton.2 hboundary
  case FORLOOP =>
    obtain ⟨htarget, hboundary⟩ := hp.jump hpc (Or.inr (Or.inl hop))
    dsimp only
    rw [htarget, hself]
    exact List.forall_mem_cons.2 ⟨hboundary,
      List.forall_mem_singleton.2 (hp.next_of hpc hop (by decide) (by decide))⟩
  case LOADBOOL =>
    dsimp only
    split_ifs with hc hinline hinline
    · rw [hself]
      exact List.forall_mem_singleton.2 (hp.skips hpc hop hc)
    · dsimp only
      rw [assignedPcs_append, assignedPcs_emitSimple, hself]
      exact List.forall_mem_singleton.2 (hp.skips hpc hop hc)
    · exact List.forall_mem_nil _
    · dsimp only
      rw [assignedPcs_emitSimple]
      exact List.forall_mem_nil _
  all_goals exact hsimple _ _

/-- Validation closes the control flow exactly when every test's taken edge is closed. -/
theorem flowClosed_iff : FlowClosed p ↔ TestsClosed p := by
  constructor
  · intro h pc hpc htest _
    have := h.transfer pc hpc
    rw [transfers_of_isTest htest] at this
    exact this _ (by simp)
  intro h
  refine ⟨fun pc => hp.transfer h, fun k hk hbound => ?_, fun c => hp.captures_length,
    fun pc hpc htest => ?_, fun pc => hp.successors h, fun pc => hp.dispatcher h⟩
  · obtain ⟨c, hc⟩ := Option.isSome_iff_exists.1 hbound
    obtain ⟨hlt, hop, hcover, -⟩ := hp.arranged.bindings.binding k hk c hc
    refine ⟨c, ⟨hp.executable_of_op (by omega) (by simp [hop]) (by simp [hop]) (by simp [hop]), hop,
      hlt, hcover⟩, ?_⟩
    rintro d ⟨hd, hdop, hdlt, hdcover⟩
    have := (hp.bound hd hdlt hdcover).2.1
    rw [hc] at this
    exact (Option.some.inj this).symm
  · rw [hp.following_eq hpc htest]
    exact hp.testTarget_boundary h hpc htest

end Closed

/-- Every test of the nested conditionals has its jump. -/
theorem nestedTests_flowClosed : Accepted nestedTests ∧ FlowClosed nestedTests := by
  refine ⟨nestedTests_accepted, (flowClosed_iff nestedTests_accepted).2 fun pc hpc htest hop => ?_⟩
  have hjumps : ∀ pc < nestedTests.size, isTest (nestedTests.instr pc).op = true →
      (nestedTests.instr (pc + 1)).op = .JMP := by
    decide +kernel
  exact absurd (hjumps pc hpc.lt htest) hop

/-- A test before a `CLOSE` whose unused bits lead to the extra word of a `SETLIST`:
`EQ 0 0 0`, `CLOSE 0`, `SETLIST 0 1 0`, the extra word, `RETURN`. -/
def strayTest : Proto :=
  mainOf (chunkHeader ++ functionBytes 0 0 0 2
    [23, 35 + 131072 * 16384, 34 + 8388608, 1, 30 + 8388608] [] [])

theorem strayTest_not_flowClosed :
    Accepted strayTest ∧ testTarget strayTest 0 = 3 ∧ (strayTest.instr 3).extraWord = true ∧
      ¬FlowClosed strayTest := by
  have haccepted : Accepted strayTest := accepted_mainOf (by decide +kernel)
  refine ⟨haccepted, by decide +kernel, by decide +kernel, fun h => ?_⟩
  have htransfer : (3 : ℤ) ∈ transfers strayTest 0 := by decide +kernel
  have hboundary := h.transfer 0 (by decide +kernel) 3 htransfer
  exact absurd hboundary (by decide +kernel)

end ByteVeil.Lua51
