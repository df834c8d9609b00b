import ByteVeil.IR.Validated
import Mathlib.Algebra.GroupWithZero.Nat

/-!
# Where validation reads the code

`validateProto` and the decoding loop once more, with every word fetched by its index; a fetch behind
the end of the code stops the run.

1. One instruction: the auxiliary word is fetched after the first checks, whatever the opcode.
2. The walk runs over the end exactly when it comes to an instruction of one word at the end of the
   code that passes these checks.
3. Validation visits the prototypes in preorder and stops at the first that does not pass.
-/

namespace ByteVeil.IR

open ByteVeil.Luau Bytes Fallible

/-! ## Fetching words -/

/-- Why a run stops: the input is rejected, or a word outside of the code is read. -/
inductive Stop
  | rejected (message : String)
  | outside (index : ℕ)
  deriving DecidableEq

/-- Runs that fetch words. -/
abbrev Guarded := Except Stop

/-- The word at an index. -/
def fetchWord (p : Proto) (index : ℕ) : Guarded UInt32 :=
  if index < p.sizecode then .ok (p.word index) else .error (.outside index)

/-- A run that fetches nothing. -/
def noFetch {α : Type} (x : Except String α) : Guarded α := x.mapError .rejected

/-- A run that reads no word outside of the code. -/
def Inside {α : Type} (x : Guarded α) : Prop := ∀ index, x ≠ .error (.outside index)

/-! ## Validation -/

/-- The checks that `validateOne` makes before it fetches the auxiliary word. -/
def checkDecoded (p : Proto) (functionId pc : ℕ) (op : Opcode) : Except String Unit := do
  let raw := p.word pc
  check (p.sizecode < pc + op.getOpLength) (errorAt functionId pc "missing AUX instruction")
  let zeroValueReturn := op == .RETURN && insnB raw == 1
  check (hasRegisterA op && !zeroValueReturn && p.maxstacksize ≤ insnA raw)
    (errorAt functionId pc ("register A out of range (" ++ toString (insnA raw) ++ " >= " ++
      toString p.maxstacksize ++ ", opcode " ++ toString op.toNat ++ ")"))
  check ((isDirectConstant op && (insnD raw < 0 || (p.sizek : ℤ) ≤ insnD raw)) ||
      (isCConstant op && p.sizek ≤ insnC raw) || (isBConstant op && p.sizek ≤ insnB raw))
    (errorAt functionId pc "constant index out of range")

/-- The checks that `validateOne` makes after it has fetched the auxiliary word. -/
def checkRest (p : Proto) (functionId pc : ℕ) (op : Opcode) (aux : ℕ) : Except String Unit := do
  let raw := p.word pc
  check ((isAuxConstant op || isLow16Constant op || isLow24Constant op) &&
      p.sizek ≤ auxIndex op aux)
    (errorAt functionId pc "auxiliary constant index out of range")
  check (op == .NEWCLOSURE && (p.sizep : ℤ) ≤ insnD raw)
    (errorAt functionId pc "prototype index out of range")
  let target := getJumpTarget raw pc
  let optionalSkip := op == .LOADB && insnC raw == 0
  check (isJump op && !optionalSkip && (target < 0 || (p.sizecode : ℤ) ≤ target))
    (errorAt functionId pc "jump target out of range")
  check (op == .CAPTURE && p.maxstacksize ≤ insnB raw && insnA raw != 2)
    (errorAt functionId pc "capture register out of range")

/-- The operand checks; those of some opcodes fetch the auxiliary word once more. -/
def fetchOperands (p : Proto) (functionId pc : ℕ) (op : Opcode) : Guarded Unit := do
  let checkB := noFetch (check (p.maxstacksize ≤ insnB (p.word pc))
    (errorAt functionId pc "register B out of range"))
  match op with
  | .JUMPIFEQ | .JUMPIFLE | .JUMPIFLT | .JUMPIFNOTEQ | .JUMPIFNOTLE | .JUMPIFNOTLT | .FORGLOOP =>
    let _ ← fetchWord p (pc + 1)
    noFetch (checkOperands p functionId pc op)
  | .FASTCALL2 | .FASTCALL3 =>
    checkB
    let _ ← fetchWord p (pc + 1)
    noFetch (checkOperands p functionId pc op)
  | _ => noFetch (checkOperands p functionId pc op)

/-- The loop body of `validateOne`. -/
def fetchInstruction (p : Proto) (functionId pc : ℕ) : Guarded Unit := do
  let raw ← fetchWord p pc
  let some op := Opcode.ofNat? (insnOp raw)
    | noFetch (errorAt functionId pc ("unknown opcode " ++ toString (insnOp raw)))
  noFetch (checkDecoded p functionId pc op)
  let aux ← fetchWord p (pc + 1)
  noFetch (checkRest p functionId pc op aux.toNat)
  fetchOperands p functionId pc op

/-- The decoding loop of `validateOne` from `pc` on. -/
def fetchWalk (p : Proto) (functionId maxInstructions : ℕ) : ℕ → ℕ → Walk → Guarded Walk
  | 0, _, w => pure w
  | fuel + 1, pc, w =>
    if pc < p.sizecode then do
      let total := w.total + 1
      if maxInstructions < total then throw (.rejected "instruction limit exceeded")
      fetchInstruction p functionId pc
      fetchWalk p functionId maxInstructions fuel (pc + (opcode (p.word pc)).getOpLength)
        ⟨w.boundaries ++ [pc], w.jumpTargets ++ recordedJump p pc, total⟩
    else pure w

/-- `validateOne`. -/
def fetchOne (maxInstructions : ℕ) : ℕ → Proto → ℕ → ℕ → Guarded ℕ
  | 0, _, _, functionId =>
    throw (.rejected ("function " ++ toString functionId ++ ": prototype nesting exceeds limit"))
  | levels + 1, p, total, functionId => do
    noFetch (check (maxInstructions < p.sizecode || 100000 < p.sizep || 1000000 < p.sizek)
      (errorIn functionId "prototype size exceeds safe limits"))
    noFetch (check (p.maxstacksize < p.numparams)
      (errorIn functionId "invalid register or parameter metadata"))
    let w ← fetchWalk p functionId maxInstructions p.sizecode 0 { total := total }
    for edge in w.jumpTargets do
      noFetch (check (!(w.boundaries.any fun b => (b : ℤ) == edge.2))
        (errorAt functionId edge.1 "jump target is not an instruction boundary"))
    (p.p.zipIdx).foldlM (fun total child =>
      fetchOne maxInstructions levels child.1 total (functionId + child.2 + 1)) w.total

/-- `validateProto` with its default limits. -/
def fetchProto (root : Proto) : Guarded Unit := do
  let _ ← fetchOne 1000000 129 root 0 0

/-! ## One instruction -/

/-- The checks before the auxiliary word is fetched pass. -/
def ReachesAux (p : Proto) (pc : ℕ) : Prop :=
  ∃ op, Opcode.ofNat? (insnOp (p.word pc)) = some op ∧ checkDecoded p 0 pc op = .ok ()

@[simp] theorem noFetch_ok {α : Type} (a : α) : noFetch (.ok a : Except String α) = .ok a := rfl

@[simp] theorem noFetch_error {α : Type} (message : String) :
    noFetch (.error message : Except String α) = .error (.rejected message) := rfl

theorem noFetch_inside {α : Type} (x : Except String α) : Inside (noFetch x) := by
  intro index
  cases x <;> simp

theorem noFetch_bind {α β : Type} (x : Except String α) (f : α → Except String β) :
    noFetch (x >>= f) = noFetch x >>= fun a => noFetch (f a) := by
  cases x <;> rfl

theorem fetchWord_of_lt {p : Proto} {index : ℕ} (h : index < p.sizecode) :
    fetchWord p index = .ok (p.word index) := if_pos h

theorem fetchWord_of_le {p : Proto} {index : ℕ} (h : p.sizecode ≤ index) :
    fetchWord p index = .error (.outside index) := if_neg (by omega)

/-- The checks of an instruction, before and after the auxiliary word is fetched. -/
theorem checkInstruction_eq (p : Proto) (functionId pc : ℕ) :
    checkInstruction p functionId pc = (match Opcode.ofNat? (insnOp (p.word pc)) with
      | none => errorAt functionId pc ("unknown opcode " ++ toString (insnOp (p.word pc)))
      | some op => do
        checkDecoded p functionId pc op
        checkRest p functionId pc op (p.word (pc + 1)).toNat
        checkOperands p functionId pc op) := by
  unfold checkInstruction checkDecoded checkRest
  dsimp only
  generalize Opcode.ofNat? (insnOp (p.word pc)) = known
  cases known with
  | none => rfl
  | some op => simp only [bind_assoc]

theorem checkDecoded_ok {p : Proto} {functionId pc : ℕ} {op : Opcode} :
    checkDecoded p functionId pc op = .ok () ↔ checkDecoded p 0 pc op = .ok () := by
  have hsplit : ∀ id, checkDecoded p id pc op = .ok () ↔
      decide (p.sizecode < pc + op.getOpLength) = false ∧
      (hasRegisterA op && !(op == .RETURN && insnB (p.word pc) == 1) &&
        decide (p.maxstacksize ≤ insnA (p.word pc))) = false ∧
      ((isDirectConstant op && (decide (insnD (p.word pc) < 0) ||
          decide ((p.sizek : ℤ) ≤ insnD (p.word pc)))) ||
        (isCConstant op && decide (p.sizek ≤ insnC (p.word pc))) ||
        (isBConstant op && decide (p.sizek ≤ insnB (p.word pc)))) = false := by
    intro id
    unfold checkDecoded
    dsimp only
    rw [except_bind_ok]
    simp only [except_bind_ok, check_eq_ok (errorAt_ne _ _ _)]
    exact ⟨fun ⟨_, h₁, _, h₂, h₃⟩ => ⟨h₁, h₂, h₃⟩, fun ⟨h₁, h₂, h₃⟩ => ⟨(), h₁, (), h₂, h₃⟩⟩
  rw [hsplit, hsplit]

/-- Where the auxiliary word is inside of the code, the operand checks fetch nothing else. -/
theorem fetchOperands_eq {p : Proto} {pc : ℕ} (h : pc + 1 < p.sizecode) (functionId : ℕ)
    (op : Opcode) :
    fetchOperands p functionId pc op = noFetch (checkOperands p functionId pc op) := by
  have hfetch := fetchWord_of_lt h
  have hfirst : op = .FASTCALL2 ∨ op = .FASTCALL3 →
      (noFetch (check (p.maxstacksize ≤ insnB (p.word pc))
          (errorAt functionId pc "register B out of range")) >>= fun _ =>
        noFetch (checkOperands p functionId pc op)) =
      noFetch (checkOperands p functionId pc op) := by
    intro hop
    rcases hop with rfl | rfl
    all_goals
      unfold checkOperands check
      dsimp only
      cases decide (p.maxstacksize ≤ insnB (p.word pc)) <;> rfl
  unfold fetchOperands
  dsimp only
  split
  all_goals first
    | (rw [hfetch]; exact hfirst (by simp))
    | (rw [hfetch]; rfl)
    | rfl

/-- An instruction whose first checks pass fetches the word behind it; otherwise the run is that of
`checkInstruction`. -/
theorem fetchInstruction_eq {p : Proto} {pc : ℕ} (hpc : pc < p.sizecode) (functionId : ℕ) :
    (ReachesAux p pc ∧ p.sizecode ≤ pc + 1 →
      fetchInstruction p functionId pc = .error (.outside (pc + 1))) ∧
    (¬(ReachesAux p pc ∧ p.sizecode ≤ pc + 1) →
      fetchInstruction p functionId pc = noFetch (checkInstruction p functionId pc)) := by
  have hstart : fetchInstruction p functionId pc =
      (match Opcode.ofNat? (insnOp (p.word pc)) with
        | none =>
          noFetch (errorAt functionId pc ("unknown opcode " ++ toString (insnOp (p.word pc))))
        | some op => do
          noFetch (checkDecoded p functionId pc op)
          let aux ← fetchWord p (pc + 1)
          noFetch (checkRest p functionId pc op aux.toNat)
          fetchOperands p functionId pc op) := by
    unfold fetchInstruction
    rw [fetchWord_of_lt hpc]
    show (match Opcode.ofNat? (insnOp (p.word pc)) with | some op => _ | _ => _) = _
    cases Opcode.ofNat? (insnOp (p.word pc)) <;> rfl
  rw [hstart, checkInstruction_eq]
  constructor
  · rintro ⟨⟨op, hop, hdecoded⟩, hlast⟩
    simp only [hop]
    rw [checkDecoded_ok.2 hdecoded, fetchWord_of_le hlast]
    rfl
  · intro hnot
    cases hop : Opcode.ofNat? (insnOp (p.word pc)) with
    | none => rfl
    | some op =>
      dsimp only
      rw [noFetch_bind]
      cases hdecoded : checkDecoded p functionId pc op with
      | error message => rfl
      | ok u =>
        have hlt : pc + 1 < p.sizecode := by
          by_contra hge
          exact hnot ⟨⟨op, hop, checkDecoded_ok.1 hdecoded⟩, by omega⟩
        rw [fetchWord_of_lt hlt]
        simp only [noFetch_bind, fetchOperands_eq hlt]
        rfl

/-! ## The walk -/

/-- The words of the instruction at `pc`. -/
def wordsAt (p : Proto) (pc : ℕ) : ℕ := (opcode (p.word pc)).getOpLength

/-- The walk comes to the last word of the code, and fetches the word behind it. -/
def OverrunsFrom (p : Proto) (functionId maxInstructions fuel pc total : ℕ) : Prop :=
  ∃ before last, strideFrom (wordsAt p) p.sizecode fuel pc = before ++ [last] ∧
    last + 1 = p.sizecode ∧ total + before.length + 1 ≤ maxInstructions ∧
    (∀ q ∈ before, checkInstruction p functionId q = .ok ()) ∧ ReachesAux p last

theorem fetchWalk_eq {p : Proto} {functionId limit fuel pc : ℕ} {w : Walk}
    (hfuel : p.sizecode ≤ pc + fuel) :
    (OverrunsFrom p functionId limit fuel pc w.total →
      fetchWalk p functionId limit fuel pc w = .error (.outside p.sizecode)) ∧
    (¬OverrunsFrom p functionId limit fuel pc w.total →
      fetchWalk p functionId limit fuel pc w =
        noFetch (walkFrom p functionId limit fuel pc w)) := by
  induction fuel generalizing pc w with
  | zero =>
    refine ⟨?_, fun _ => rfl⟩
    rintro ⟨before, last, hstride, -⟩
    simp [strideFrom] at hstride
  | succ fuel ih =>
    rw [fetchWalk, walkFrom, OverrunsFrom, strideFrom]
    by_cases hpc : pc < p.sizecode
    · rw [if_pos hpc, if_pos hpc, if_pos hpc]
      dsimp only
      have hwords : 0 < wordsAt p pc := Opcode.getOpLength_pos _
      by_cases hlimit : limit < w.total + 1
      · rw [if_pos hlimit, if_pos hlimit]
        refine ⟨?_, fun _ => rfl⟩
        rintro ⟨before, last, -, -, htotal, -⟩
        omega
      · rw [if_neg hlimit, if_neg hlimit]
        obtain ⟨hover, hsame⟩ := fetchInstruction_eq hpc functionId
        by_cases haux : ReachesAux p pc ∧ p.sizecode ≤ pc + 1
        · have hlast : pc + 1 = p.sizecode := by omega
          have hnil : strideFrom (wordsAt p) p.sizecode fuel (pc + wordsAt p pc) = [] :=
            strideFrom_of_le (by omega)
          rw [hover haux, hlast]
          refine ⟨fun _ => rfl, fun hnot => absurd ⟨[], pc, ?_, hlast, ?_, ?_, haux.1⟩ hnot⟩
          · rw [hnil]
            rfl
          · simpa using Nat.le_of_not_lt hlimit
          · simp
        · rw [hsame haux]
          have hrest := @ih (pc + wordsAt p pc)
            ⟨w.boundaries ++ [pc], w.jumpTargets ++ recordedJump p pc, w.total + 1⟩ (by omega)
          have hshift : (∃ before last, pc :: strideFrom (wordsAt p) p.sizecode fuel
                (pc + wordsAt p pc) = before ++ [last] ∧ last + 1 = p.sizecode ∧
                w.total + before.length + 1 ≤ limit ∧
                (∀ q ∈ before, checkInstruction p functionId q = .ok ()) ∧ ReachesAux p last) ↔
              checkInstruction p functionId pc = .ok () ∧
                OverrunsFrom p functionId limit fuel (pc + wordsAt p pc) (w.total + 1) := by
            constructor
            · rintro ⟨before, last, hstride, hlast, htotal, hall, hreach⟩
              cases before with
              | nil =>
                obtain ⟨rfl, -⟩ := List.cons.inj hstride
                exact absurd ⟨hreach, by omega⟩ haux
              | cons first before =>
                obtain ⟨rfl, htail⟩ := List.cons.inj hstride
                obtain ⟨hfirst, hall⟩ := List.forall_mem_cons.1 hall
                rw [List.length_cons] at htotal
                exact ⟨hfirst, before, last, htail, hlast, by omega, hall, hreach⟩
            · rintro ⟨hfirst, before, last, hstride, hlast, htotal, hall, hreach⟩
              refine ⟨pc :: before, last, by rw [hstride]; rfl, hlast, ?_,
                List.forall_mem_cons.2 ⟨hfirst, hall⟩, hreach⟩
              rw [List.length_cons]
              omega
          rw [hshift]
          cases hcheck : checkInstruction p functionId pc with
          | error message =>
            refine ⟨?_, fun _ => rfl⟩
            rintro ⟨hok, -⟩
            exact absurd hok (by simp)
          | ok u =>
            refine ⟨fun h => hrest.1 h.2, fun hnot => hrest.2 fun h => hnot ⟨rfl, h⟩⟩
    · rw [if_neg hpc, if_neg hpc, if_neg hpc]
      refine ⟨?_, fun _ => rfl⟩
      rintro ⟨before, last, hnil, -⟩
      simp at hnil

/-! ## The visits -/

/-- What `validateOne` is called with, but the running total. -/
structure Visit where
  levels : ℕ
  proto : Proto
  functionId : ℕ

/-- The calls of `validateOne` in their order. -/
def visits : ℕ → Proto → ℕ → List Visit
  | 0, p, functionId => [⟨0, p, functionId⟩]
  | levels + 1, p, functionId =>
    ⟨levels + 1, p, functionId⟩ ::
      p.p.zipIdx.flatMap fun child => visits levels child.1 (functionId + child.2 + 1)

/-- One call, the calls for the children apart. -/
def fetchVisit (maxInstructions total : ℕ) : Visit → Guarded ℕ
  | ⟨0, _, functionId⟩ =>
    throw (.rejected ("function " ++ toString functionId ++ ": prototype nesting exceeds limit"))
  | ⟨_ + 1, p, functionId⟩ => do
    noFetch (check (maxInstructions < p.sizecode || 100000 < p.sizep || 1000000 < p.sizek)
      (errorIn functionId "prototype size exceeds safe limits"))
    noFetch (check (p.maxstacksize < p.numparams)
      (errorIn functionId "invalid register or parameter metadata"))
    let w ← fetchWalk p functionId maxInstructions p.sizecode 0 { total := total }
    for edge in w.jumpTargets do
      noFetch (check (!(w.boundaries.any fun b => (b : ℤ) == edge.2))
        (errorAt functionId edge.1 "jump target is not an instruction boundary"))
    pure w.total

theorem foldlM_flatMap {α β σ : Type} {m : Type → Type} [Monad m] [LawfulMonad m] (l : List α)
    (g : α → List β) (f : σ → β → m σ) (s : σ) :
    (l.flatMap g).foldlM f s = l.foldlM (fun s a => (g a).foldlM f s) s := by
  induction l generalizing s with
  | nil => rfl
  | cons a l ih =>
    rw [List.flatMap_cons, List.foldlM_append, List.foldlM_cons]
    exact bind_congr fun s => ih s

/-- Validation goes through the calls one after another. -/
theorem fetchOne_eq (limit : ℕ) (levels : ℕ) (p : Proto) (total functionId : ℕ) :
    fetchOne limit levels p total functionId =
      (visits levels p functionId).foldlM (fetchVisit limit) total := by
  induction levels generalizing p total functionId with
  | zero => rfl
  | succ levels ih =>
    rw [fetchOne, visits, List.foldlM_cons, fetchVisit]
    simp only [bind_assoc, pure_bind, foldlM_flatMap, ih]

/-- The walk over a whole prototype fetches the word behind the last one. -/
def Overruns (maxInstructions total : ℕ) (v : Visit) : Prop :=
  v.levels ≠ 0 ∧ v.proto.sizecode ≤ maxInstructions ∧ v.proto.sizep ≤ 100000 ∧
    v.proto.sizek ≤ 1000000 ∧ v.proto.numparams ≤ v.proto.maxstacksize ∧
    OverrunsFrom v.proto v.functionId maxInstructions v.proto.sizecode 0 total

/-- Everything that is checked of one prototype, its children apart, is in order. -/
structure Passes (maxInstructions total : ℕ) (v : Visit) : Prop where
  levels : v.levels ≠ 0
  sizes : v.proto.sizecode ≤ maxInstructions ∧ v.proto.sizep ≤ 100000 ∧ v.proto.sizek ≤ 1000000
  parameters : v.proto.numparams ≤ v.proto.maxstacksize
  total : total + (boundaries v.proto).length ≤ maxInstructions ∨ boundaries v.proto = []
  instructions : ∀ pc ∈ boundaries v.proto, checkInstruction v.proto v.functionId pc = .ok ()
  targets : ∀ pc ∈ boundaries v.proto, ∀ edge ∈ recordedJump v.proto pc,
    ∃ b ∈ boundaries v.proto, (b : ℤ) = edge.2

theorem walkFrom_ok_iff {p : Proto} {functionId limit fuel pc : ℕ} {w w' : Walk} :
    walkFrom p functionId limit fuel pc w = .ok w' ↔
      (w.total + (strideFrom (wordsAt p) p.sizecode fuel pc).length ≤ limit ∨
        strideFrom (wordsAt p) p.sizecode fuel pc = []) ∧
      (∀ q ∈ strideFrom (wordsAt p) p.sizecode fuel pc,
        checkInstruction p functionId q = .ok ()) ∧
      w' = ⟨w.boundaries ++ strideFrom (wordsAt p) p.sizecode fuel pc,
        w.jumpTargets ++ (strideFrom (wordsAt p) p.sizecode fuel pc).flatMap (recordedJump p),
        w.total + (strideFrom (wordsAt p) p.sizecode fuel pc).length⟩ := by
  induction fuel generalizing pc w with
  | zero =>
    rw [walkFrom, strideFrom, pure_ok]
    simp [eq_comm]
  | succ fuel ih =>
    rw [walkFrom, strideFrom]
    by_cases hpc : pc < p.sizecode
    · rw [if_pos hpc, if_pos hpc]
      dsimp only
      by_cases hlimit : limit < w.total + 1
      · rw [if_pos hlimit]
        refine iff_of_false ?_ ?_
        · intro h
          obtain ⟨-, h, -⟩ := except_bind_ok.1 h
          exact throw_ne_ok h
        · rintro ⟨htotal | hnil, -⟩
          · rw [List.length_cons] at htotal
            omega
          · exact List.cons_ne_nil _ _ hnil
      · rw [if_neg hlimit]
        rw [except_bind_ok, List.forall_mem_cons, List.length_cons, List.flatMap_cons]
        constructor
        · rintro ⟨u, hfirst, hrest⟩
          obtain ⟨htotal, hall, rfl⟩ := ih.1 hrest
          refine ⟨.inl ?_, ⟨hfirst, hall⟩, ?_⟩
          · rcases htotal with htotal | hnil
            · change w.total + 1 + (strideFrom (wordsAt p) p.sizecode fuel
                (pc + wordsAt p pc)).length ≤ limit at htotal
              omega
            · change strideFrom (wordsAt p) p.sizecode fuel (pc + wordsAt p pc) = [] at hnil
              rw [hnil, List.length_nil]
              omega
          · simp [wordsAt, Nat.add_assoc, Nat.add_comm 1]
        · rintro ⟨htotal, ⟨hfirst, hall⟩, rfl⟩
          refine ⟨(), hfirst, ih.2 ⟨.inl ?_, hall, ?_⟩⟩
          · rcases htotal with htotal | hnil
            · change w.total + 1 + (strideFrom (wordsAt p) p.sizecode fuel
                (pc + wordsAt p pc)).length ≤ limit
              omega
            · exact absurd hnil (List.cons_ne_nil _ _)
          · simp [wordsAt, Nat.add_assoc, Nat.add_comm 1]
    · rw [if_neg hpc, if_neg hpc, pure_ok]
      simp [eq_comm]

/-- The loop over the jumps ends well exactly when every jump lands on a boundary. -/
theorem targets_ok_iff (p : Proto) (functionId : ℕ) :
    (∀ edge ∈ (boundaries p).flatMap (recordedJump p),
      noFetch (check (!((boundaries p).any fun b => (b : ℤ) == edge.2))
        (errorAt functionId edge.1 "jump target is not an instruction boundary")) = .ok ()) ↔
      ∀ pc ∈ boundaries p, ∀ edge ∈ recordedJump p pc, ∃ b ∈ boundaries p, (b : ℤ) = edge.2 := by
  have hone : ∀ edge : ℕ × ℤ, noFetch (check (!((boundaries p).any fun b => (b : ℤ) == edge.2))
        (errorAt functionId edge.1 "jump target is not an instruction boundary")) = .ok () ↔
      ∃ b ∈ boundaries p, (b : ℤ) = edge.2 := by
    intro edge
    cases hany : (boundaries p).any fun b => (b : ℤ) == edge.2 with
    | false =>
      simp only [List.any_eq_false, beq_iff_eq] at hany
      simpa [check, errorAt, throw, throwThe, MonadExceptOf.throw] using hany
    | true =>
      simp only [List.any_eq_true, beq_iff_eq] at hany
      simpa [check, pure, Except.pure] using hany
  simp only [hone, List.mem_flatMap]
  exact ⟨fun h pc hpc edge hedge => h edge ⟨pc, hpc, hedge⟩,
    fun h edge ⟨pc, hpc, hedge⟩ => h pc hpc edge hedge⟩

/-- A call overruns, or passes and counts its instructions, or is rejected. -/
theorem fetchVisit_cases (limit total : ℕ) (v : Visit) :
    (Overruns limit total v ∧
      fetchVisit limit total v = .error (.outside v.proto.sizecode)) ∨
    (¬Overruns limit total v ∧ Passes limit total v ∧
      fetchVisit limit total v = .ok (total + (boundaries v.proto).length)) ∨
    (¬Overruns limit total v ∧ ¬Passes limit total v ∧
      ∃ message, fetchVisit limit total v = .error (.rejected message)) := by
  obtain ⟨levels, p, functionId⟩ := v
  cases levels with
  | zero => exact .inr (.inr ⟨fun h => h.1 rfl, fun h => h.levels rfl, _, rfl⟩)
  | succ levels =>
    rw [fetchVisit]
    by_cases hsizes : p.sizecode ≤ limit ∧ p.sizep ≤ 100000 ∧ p.sizek ≤ 1000000
    swap
    · refine .inr (.inr ⟨fun h => hsizes ⟨h.2.1, h.2.2.1, h.2.2.2.1⟩, fun h => hsizes h.sizes, ?_⟩)
      have hbad : (decide (limit < p.sizecode) || decide (100000 < p.sizep) ||
          decide (1000000 < p.sizek)) = true := by
        simp only [Bool.or_eq_true, decide_eq_true_eq]
        omega
      rw [hbad]
      exact ⟨_, rfl⟩
    have hgood : (decide (limit < p.sizecode) || decide (100000 < p.sizep) ||
        decide (1000000 < p.sizek)) = false := by
      simp only [Bool.or_eq_false_iff, decide_eq_false_iff_not]
      omega
    by_cases hparams : p.numparams ≤ p.maxstacksize
    swap
    · refine .inr (.inr ⟨fun h => hparams h.2.2.2.2.1, fun h => hparams h.parameters, ?_⟩)
      rw [hgood, show decide (p.maxstacksize < p.numparams) = true by simpa using hparams]
      exact ⟨_, rfl⟩
    have hskip : ∀ x : Guarded ℕ, (do
        noFetch (check (decide (limit < p.sizecode) || decide (100000 < p.sizep) ||
          decide (1000000 < p.sizek)) (errorIn functionId "prototype size exceeds safe limits"))
        noFetch (check (decide (p.maxstacksize < p.numparams))
          (errorIn functionId "invalid register or parameter metadata"))
        x) = x := by
      intro x
      rw [hgood, show decide (p.maxstacksize < p.numparams) = false by simpa using hparams]
      rfl
    rw [hskip]
    obtain ⟨hover, hsame⟩ := @fetchWalk_eq p functionId limit p.sizecode 0 { total := total }
      (by omega)
    by_cases hoverruns : OverrunsFrom p functionId limit p.sizecode 0 total
    · left
      rw [hover hoverruns]
      exact ⟨⟨by simp, hsizes.1, hsizes.2.1, hsizes.2.2, hparams, hoverruns⟩, rfl⟩
    · right
      have hnot : ¬Overruns limit total ⟨levels + 1, p, functionId⟩ := fun h => hoverruns h.2.2.2.2.2
      rw [hsame hoverruns]
      cases hwalk : walkFrom p functionId limit p.sizecode 0 { total := total } with
      | error message =>
        refine .inr ⟨hnot, fun h => ?_, message, rfl⟩
        have hok := (walkFrom_ok_iff (w := { total := total })).2
          ⟨h.total, h.instructions, rfl⟩
        rw [hwalk] at hok
        cases hok
      | ok w =>
        obtain ⟨htotal, hall, rfl⟩ := walkFrom_ok_iff.1 hwalk
        have htargets := targets_ok_iff p functionId
        by_cases hinside : ∀ pc ∈ boundaries p, ∀ edge ∈ recordedJump p pc,
            ∃ b ∈ boundaries p, (b : ℤ) = edge.2
        · refine .inl ⟨hnot, ⟨by simp, hsizes, hparams, htotal, hall, hinside⟩, ?_⟩
          change ((forIn ((boundaries p).flatMap (recordedJump p)) PUnit.unit
            fun (edge : ℕ × ℤ) _ => do
            noFetch (check (!((boundaries p).any fun b => (b : ℤ) == edge.2))
              (errorAt functionId edge.1 "jump target is not an instruction boundary"))
            pure (ForInStep.yield PUnit.unit)) >>= fun _ => pure _) = _
          rw [forIn_ok_iff.2 (htargets.2 hinside)]
          rfl
        · refine .inr ⟨hnot, fun h => hinside h.targets, ?_⟩
          change ∃ message, ((forIn ((boundaries p).flatMap (recordedJump p)) PUnit.unit
            fun (edge : ℕ × ℤ) _ => do
              noFetch (check (!((boundaries p).any fun b => (b : ℤ) == edge.2))
                (errorAt functionId edge.1 "jump target is not an instruction boundary"))
              pure (ForInStep.yield PUnit.unit)) >>= fun _ => pure _) = _
          cases hloop : forIn ((boundaries p).flatMap (recordedJump p)) PUnit.unit
            fun (edge : ℕ × ℤ) _ => do
              noFetch (check (!((boundaries p).any fun b => (b : ℤ) == edge.2))
                (errorAt functionId edge.1 "jump target is not an instruction boundary"))
              pure (ForInStep.yield PUnit.unit) with
          | ok u => exact absurd (htargets.1 (forIn_ok hloop)) hinside
          | error stop =>
            obtain ⟨edge, -, hedge⟩ := forIn_error hloop
            cases stop with
            | rejected message => exact ⟨message, rfl⟩
            | outside index => exact absurd hedge (noFetch_inside _ index)

/-- The instructions counted after the calls. -/
def totalAfter (total : ℕ) (calls : List Visit) : ℕ :=
  total + (calls.map fun v => (boundaries v.proto).length).sum

/-- All calls pass, one after another. -/
def PassAll (maxInstructions : ℕ) : ℕ → List Visit → Prop
  | _, [] => True
  | total, v :: calls =>
    Passes maxInstructions total v ∧
      PassAll maxInstructions (total + (boundaries v.proto).length) calls

/-- A run of calls stays inside of the code if and only if no call that it comes to overruns. -/
theorem inside_foldlM_iff (limit total : ℕ) (calls : List Visit) :
    Inside (calls.foldlM (fetchVisit limit) total) ↔
      ∀ before v after, calls = before ++ v :: after → PassAll limit total before →
        ¬Overruns limit (totalAfter total before) v := by
  induction calls generalizing total with
  | nil =>
    refine iff_of_true (fun index h => by cases h) fun before v after h => ?_
    simp at h
  | cons first calls ih =>
    rw [List.foldlM_cons]
    have hhead : totalAfter total [] = total := by simp [totalAfter]
    have hsplit : (∀ before v after, first :: calls = before ++ v :: after →
          PassAll limit total before → ¬Overruns limit (totalAfter total before) v) ↔
        ¬Overruns limit total first ∧ (Passes limit total first →
          ∀ before v after, calls = before ++ v :: after →
            PassAll limit (total + (boundaries first.proto).length) before →
            ¬Overruns limit
              (totalAfter (total + (boundaries first.proto).length) before) v) := by
      constructor
      · intro h
        refine ⟨hhead ▸ h [] first calls rfl trivial, fun hpass before v after heq hall => ?_⟩
        have hone := h (first :: before) v after (by rw [heq]; rfl) ⟨hpass, hall⟩
        simpa [totalAfter, Nat.add_assoc] using hone
      · rintro ⟨hfirst, hrest⟩ before v after heq hall
        cases before with
        | nil =>
          obtain ⟨rfl, -⟩ := List.cons.inj heq
          rwa [hhead]
        | cons u before =>
          obtain ⟨rfl, htail⟩ := List.cons.inj heq
          have hone := hrest hall.1 before v after htail hall.2
          simpa [totalAfter, Nat.add_assoc] using hone
    rw [hsplit]
    rcases fetchVisit_cases limit total first with ⟨hover, hrun⟩ | ⟨hnot, hpass, hrun⟩ |
      ⟨hnot, hfails, message, hrun⟩
    · rw [hrun]
      exact iff_of_false (fun h => h _ rfl) fun h => h.1 hover
    · rw [hrun]
      exact (ih _).trans ⟨fun h => ⟨hnot, fun _ => h⟩, fun h => h.2 hpass⟩
    · rw [hrun]
      exact iff_of_true (noFetch_inside (.error message)) ⟨hnot, fun h => absurd h hfails⟩

/-- Validation stays inside of the code exactly when no prototype that it comes to overruns. -/
theorem fetchProto_inside_iff (root : Proto) :
    Inside (fetchProto root) ↔
      ∀ before v after, visits 129 root 0 = before ++ v :: after → PassAll 1000000 0 before →
        ¬Overruns 1000000 (totalAfter 0 before) v := by
  rw [← inside_foldlM_iff, ← fetchOne_eq, fetchProto]
  cases fetchOne 1000000 129 root 0 0 with
  | error stop => exact ⟨fun h index heq => h index (by rw [heq]; rfl),
      fun h index heq => h index (by cases heq; rfl)⟩
  | ok total => exact iff_of_true (fun index h => by cases h) fun index h => by cases h

/-! ## Decoding -/

/-- The decoding loop of `addFunction` from `pc` on. -/
def fetchDecode (p : Proto) : ℕ → ℕ → Guarded (List Instruction)
  | 0, _ => pure []
  | fuel + 1, pc =>
    if pc < p.sizecode then do
      let raw ← fetchWord p pc
      if (opcode raw).getOpLength == 2 then
        let _ ← fetchWord p (pc + 1)
      let rest ← fetchDecode p fuel (pc + (decodeAt p pc).length)
      pure (decodeAt p pc :: rest)
    else pure []

theorem fetchDecode_eq {p : Proto} {fuel pc : ℕ}
    (hfits : ∀ i ∈ decodeFrom p fuel pc, i.offset + wordsAt p i.offset ≤ p.sizecode) :
    fetchDecode p fuel pc = .ok (decodeFrom p fuel pc) := by
  induction fuel generalizing pc with
  | zero => rfl
  | succ fuel ih =>
    rw [decodeFrom] at hfits
    rw [fetchDecode, decodeFrom]
    by_cases hpc : pc < p.sizecode
    · rw [if_pos hpc] at hfits
      rw [if_pos hpc, if_pos hpc]
      obtain ⟨hfirst, hrest⟩ := List.forall_mem_cons.1 hfits
      rw [fetchWord_of_lt hpc]
      have htail := ih hrest
      cases htwo : (opcode (p.word pc)).getOpLength == 2 with
      | false =>
        simp only [bind, Except.bind, htwo]
        rw [htail]
        rfl
      | true =>
        have hlength : wordsAt p pc = 2 := by simpa [wordsAt] using htwo
        have hlt : pc + 1 < p.sizecode := by
          change pc + wordsAt p pc ≤ p.sizecode at hfirst
          omega
        simp only [bind, Except.bind, htwo, if_true, fetchWord_of_lt hlt]
        rw [htail]
        rfl
    · rw [if_neg hpc, if_neg hpc]
      rfl

/-- The instructions of a validated prototype are decoded inside of the code. -/
theorem Validated.fetchDecode_eq {p : Proto} (hp : Validated p) :
    fetchDecode p p.sizecode 0 = .ok (decode p) :=
  IR.fetchDecode_eq fun i hi => (hp.checked.instructions i hi).fits

end ByteVeil.IR
