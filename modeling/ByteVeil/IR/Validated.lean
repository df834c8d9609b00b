import ByteVeil.Bytes.Stride
import ByteVeil.Fallible.Except
import ByteVeil.IR.Validate

/-!
# What a validated prototype guarantees

`Validated p` says that `p` occurs in the tree of a prototype that `validateProto` accepts. Its
instructions are laid out without gaps, each of them passes its checks, and jumps land on
instructions.
-/

namespace ByteVeil.IR

open ByteVeil.Luau Bytes Fallible

/-! ## The decoded instructions -/

theorem decodeFrom_offset {p : Proto} {i : Instruction} {fuel pc : ℕ}
    (h : i ∈ decodeFrom p fuel pc) : i = decodeAt p i.offset ∧ i.offset < p.sizecode := by
  induction fuel generalizing pc with
  | zero => simp [decodeFrom] at h
  | succ fuel ih =>
    unfold decodeFrom at h
    split_ifs at h with hpc
    · rcases List.mem_cons.1 h with rfl | h
      · exact ⟨rfl, hpc⟩
      · exact ih h
    · exact absurd h List.not_mem_nil

/-- An instruction is decoded from the word at its offset. -/
theorem eq_decodeAt {p : Proto} {i : Instruction} (h : i ∈ decode p) : i = decodeAt p i.offset :=
  (decodeFrom_offset h).1

theorem offset_lt {p : Proto} {i : Instruction} (h : i ∈ decode p) : i.offset < p.sizecode :=
  (decodeFrom_offset h).2

/-- The instruction boundaries: zero, and from each boundary on the length of its opcode. -/
def boundaries (p : Proto) : List ℕ :=
  stride (fun pc => (opcode (p.word pc)).getOpLength) p.sizecode

theorem decodeFrom_offsets (p : Proto) (fuel pc : ℕ) :
    (decodeFrom p fuel pc).map (·.offset) =
      strideFrom (fun pc => (opcode (p.word pc)).getOpLength) p.sizecode fuel pc := by
  induction fuel generalizing pc with
  | zero => rfl
  | succ fuel ih =>
    rw [decodeFrom, strideFrom]
    split_ifs with hpc
    · rw [List.map_cons, ih]
      rfl
    · rfl

theorem decode_offsets (p : Proto) : (decode p).map (·.offset) = boundaries p :=
  decodeFrom_offsets p p.sizecode 0

/-- Instructions from `pc` on without gaps; the last one ends at or behind the end of the code. -/
inductive Consecutive (sizecode : ℕ) : ℕ → List Instruction → Prop
  | nil {pc : ℕ} : sizecode ≤ pc → Consecutive sizecode pc []
  | cons {pc : ℕ} {i : Instruction} {l : List Instruction} : i.offset = pc → 0 < i.length →
      Consecutive sizecode (pc + i.length) l → Consecutive sizecode pc (i :: l)

theorem length_decodeAt_pos (p : Proto) (pc : ℕ) : 0 < (decodeAt p pc).length :=
  Opcode.getOpLength_pos _

theorem decodeFrom_consecutive (p : Proto) {fuel pc : ℕ} (h : p.sizecode ≤ pc + fuel) :
    Consecutive p.sizecode pc (decodeFrom p fuel pc) := by
  induction fuel generalizing pc with
  | zero => exact .nil (by omega)
  | succ fuel ih =>
    unfold decodeFrom
    split_ifs with hpc
    · have hlen := length_decodeAt_pos p pc
      exact .cons rfl hlen
        (ih (by show p.sizecode ≤ pc + (decodeAt p pc).length + fuel; omega))
    · exact .nil (by omega)

theorem decode_consecutive (p : Proto) : Consecutive p.sizecode 0 (decode p) :=
  decodeFrom_consecutive p (by omega)

/-! ## One instruction -/

/-- What `validateOne` checks at the instruction at `pc`. -/
structure CheckedAt (p : Proto) (pc : ℕ) : Prop where
  known : Opcode.ofNat? (insnOp (p.word pc)) = some (opcode (p.word pc))
  fits : pc + (opcode (p.word pc)).getOpLength ≤ p.sizecode
  register : hasRegisterA (opcode (p.word pc)) = true →
    ¬(opcode (p.word pc) = .RETURN ∧ insnB (p.word pc) = 1) → insnA (p.word pc) < p.maxstacksize
  direct : isDirectConstant (opcode (p.word pc)) = true →
    0 ≤ insnD (p.word pc) ∧ insnD (p.word pc) < p.sizek
  atC : isCConstant (opcode (p.word pc)) = true → insnC (p.word pc) < p.sizek
  atB : isBConstant (opcode (p.word pc)) = true → insnB (p.word pc) < p.sizek
  atAux : (isAuxConstant (opcode (p.word pc)) || isLow16Constant (opcode (p.word pc)) ||
      isLow24Constant (opcode (p.word pc))) = true →
    auxIndex (opcode (p.word pc)) (p.word (pc + 1)).toNat < p.sizek
  child : opcode (p.word pc) = .NEWCLOSURE → insnD (p.word pc) < p.sizep
  target : isJump (opcode (p.word pc)) = true →
    ¬(opcode (p.word pc) = .LOADB ∧ insnC (p.word pc) = 0) →
    0 ≤ getJumpTarget (p.word pc) pc ∧ getJumpTarget (p.word pc) pc < p.sizecode
  capture : opcode (p.word pc) = .CAPTURE → insnA (p.word pc) ≠ 2 →
    insnB (p.word pc) < p.maxstacksize
  operands : ∃ functionId, checkOperands p functionId pc (opcode (p.word pc)) = .ok ()

theorem errorAt_ne (functionId pc : ℕ) (message : String) : errorAt functionId pc message ≠ .ok () :=
  throw_ne_ok

theorem checkInstruction_ok {p : Proto} {functionId pc : ℕ}
    (h : checkInstruction p functionId pc = .ok ()) : CheckedAt p pc := by
  unfold checkInstruction at h
  dsimp only at h
  cases hop : Opcode.ofNat? (insnOp (p.word pc)) with
  | none =>
    rw [hop] at h
    exact absurd h (errorAt_ne _ _ _)
  | some op =>
    have heq : opcode (p.word pc) = op := by unfold opcode; rw [hop]; rfl
    rw [hop] at h
    obtain ⟨⟨⟩, hfits, h⟩ := except_bind_ok.1 h
    obtain ⟨⟨⟩, hreg, h⟩ := except_bind_ok.1 h
    obtain ⟨⟨⟩, hconst, h⟩ := except_bind_ok.1 h
    obtain ⟨⟨⟩, haux, h⟩ := except_bind_ok.1 h
    obtain ⟨⟨⟩, hchild, h⟩ := except_bind_ok.1 h
    obtain ⟨⟨⟩, htarget, h⟩ := except_bind_ok.1 h
    obtain ⟨⟨⟩, hcapture, h⟩ := except_bind_ok.1 h
    rw [check_eq_ok (errorAt_ne _ _ _)] at hfits hreg hconst haux hchild htarget hcapture
    subst heq
    simp only [Bool.or_eq_false_iff] at hconst
    refine ⟨hop, by simpa using hfits, fun h₁ h₂ => ?_, fun h₁ => ?_, fun h₁ => ?_, fun h₁ => ?_,
      fun h₁ => ?_, fun h₁ => ?_, fun h₁ h₂ => ?_, fun h₁ h₂ => ?_, ⟨functionId, h⟩⟩
    · by_contra hlt
      simp [h₁, not_lt.1 hlt] at hreg
      exact h₂ hreg
    · simpa [h₁] using hconst.1.1
    · simpa [h₁] using hconst.1.2
    · simpa [h₁] using hconst.2
    · rw [h₁] at haux
      simpa using haux
    · simpa [h₁] using hchild
    · by_contra hout
      simp only [h₁, Bool.true_and, Bool.and_eq_false_iff, Bool.not_eq_false', Bool.and_eq_true,
        beq_iff_eq] at htarget
      rcases htarget with htarget | htarget
      · exact h₂ htarget
      · simp at htarget
        omega
    · by_contra hlt
      simp [h₁, not_lt.1 hlt] at hcapture
      exact h₂ hcapture

/-! ## A whole prototype -/

/-- What `validateOne` checks of a prototype, its children apart. -/
structure Checked (p : Proto) : Prop where
  parameters : p.numparams ≤ p.maxstacksize
  sizes : p.sizecode ≤ 1000000 ∧ p.sizep ≤ 100000 ∧ p.sizek ≤ 1000000
  instructions : ∀ i ∈ decode p, CheckedAt p i.offset
  targets : ∀ i ∈ decode p, ∀ edge ∈ recordedJump p i.offset,
    ∃ j ∈ decode p, (j.offset : ℤ) = edge.2

/-- A successful walk has visited the decoded instructions and passed their checks. -/
theorem walkFrom_ok {p : Proto} {functionId limit fuel pc : ℕ} {w w' : Walk}
    (h : walkFrom p functionId limit fuel pc w = .ok w') :
    w'.boundaries = w.boundaries ++ (decodeFrom p fuel pc).map (·.offset) ∧
    w'.jumpTargets = w.jumpTargets ++
      (decodeFrom p fuel pc).flatMap (fun i => recordedJump p i.offset) ∧
    ∀ i ∈ decodeFrom p fuel pc, CheckedAt p i.offset := by
  induction fuel generalizing pc w with
  | zero =>
    obtain rfl := pure_ok.1 h
    simp [decodeFrom]
  | succ fuel ih =>
    unfold walkFrom at h
    unfold decodeFrom
    by_cases hpc : pc < p.sizecode
    · rw [if_pos hpc] at h ⊢
      dsimp only at h
      split_ifs at h with hlimit
      · obtain ⟨-, h, -⟩ := except_bind_ok.1 h
        exact absurd h throw_ne_ok
      · obtain ⟨⟨⟩, hchecked, h⟩ := except_bind_ok.1 h
        obtain ⟨hb, hj, hall⟩ := ih h
        refine ⟨?_, ?_, List.forall_mem_cons.2 ⟨checkInstruction_ok hchecked, hall⟩⟩
        · rw [hb, List.map_cons, List.append_assoc]
          rfl
        · rw [hj, List.flatMap_cons, List.append_assoc]
          rfl
    · rw [if_neg hpc] at h ⊢
      obtain rfl := pure_ok.1 h
      simp

/-- Where `validateOne` decodes when it accepts. -/
theorem walkFrom_boundaries {p : Proto} {functionId limit total : ℕ} {w : Walk}
    (h : walkFrom p functionId limit p.sizecode 0 { total := total } = .ok w) :
    w.boundaries = boundaries p := by
  rw [(walkFrom_ok h).1, List.nil_append]
  exact decode_offsets p

theorem validateOne_ok {limit levels total functionId total' : ℕ} {p : Proto}
    (h : validateOne limit levels p total functionId = .ok total') (hlimit : limit ≤ 1000000) :
    ∀ q ∈ p.tree, Checked q := by
  induction levels generalizing p total functionId total' with
  | zero => exact absurd h throw_ne_ok
  | succ levels ih =>
    unfold validateOne at h
    obtain ⟨⟨⟩, hsize, h⟩ := except_bind_ok.1 h
    obtain ⟨⟨⟩, hparams, h⟩ := except_bind_ok.1 h
    obtain ⟨w, hwalk, h⟩ := except_bind_ok.1 h
    obtain ⟨⟨⟩, hedges, hchildren⟩ := except_bind_ok.1 h
    have herror : ∀ message, errorIn functionId message ≠ .ok () := fun _ => throw_ne_ok
    rw [check_eq_ok (herror _)] at hsize hparams
    obtain ⟨hb, hj, hall⟩ := walkFrom_ok hwalk
    rw [List.nil_append] at hb hj
    rw [Proto.tree_eq]
    refine List.forall_mem_cons.2 ⟨⟨?_, ?_, hall, ?_⟩, ?_⟩
    · simpa using hparams
    · simp only [Bool.or_eq_false_iff, decide_eq_false_iff_not, not_lt] at hsize
      exact ⟨le_trans hsize.1.1 hlimit, hsize.1.2, hsize.2⟩
    · intro i hi edge hedge
      have hcheck := forIn_ok hedges edge (by
        rw [hj]
        exact List.mem_flatMap.2 ⟨i, hi, hedge⟩)
      rw [check_eq_ok (errorAt_ne _ _ _), Bool.not_eq_false', List.any_eq_true] at hcheck
      obtain ⟨b, hmem, heq⟩ := hcheck
      rw [hb, List.mem_map] at hmem
      obtain ⟨j, hj, rfl⟩ := hmem
      exact ⟨j, hj, by simpa using heq⟩
    · intro q hq
      obtain ⟨child, hchild, hq⟩ := Proto.mem_trees.1 hq
      obtain ⟨n, hn, rfl⟩ := List.getElem_of_mem hchild
      obtain ⟨s, s', hrun⟩ := foldlM_ok hchildren (p.p[n], n)
        (List.mem_zipIdx_iff_getElem?.2 (by simp [hn]))
      exact ih hrun q hq

/-- A prototype in the tree of one that `validateProto` accepts. -/
def Validated (p : Proto) : Prop := ∃ root, validateProto root = .ok () ∧ p ∈ root.tree

theorem Validated.checked {p : Proto} (h : Validated p) : Checked p := by
  obtain ⟨root, hroot, hp⟩ := h
  unfold validateProto at hroot
  obtain ⟨total, hone, -⟩ := except_bind_ok.1 hroot
  exact validateOne_ok hone le_rfl p hp

/-- What validation says of the word at a boundary. -/
theorem checkedAt_of_mem {p : Proto} (hp : Validated p) {pc : ℕ} (h : pc ∈ boundaries p) :
    CheckedAt p pc := by
  rw [← decode_offsets, List.mem_map] at h
  obtain ⟨i, hi, rfl⟩ := h
  exact hp.checked.instructions i hi

theorem validated_root {root : Proto} (h : (validateProto root).isOk = true) : Validated root := by
  refine ⟨root, ?_, by rw [Proto.tree_eq]; exact List.mem_cons_self ..⟩
  cases hroot : validateProto root with
  | error e =>
    rw [hroot] at h
    cases h
  | ok u => rfl

end ByteVeil.IR
