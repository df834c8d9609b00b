import ByteVeil.IR.Validated

/-!
# The walks of the legacy lifter

1. The lifter's own opcode classes and length table, which lack the opcodes of later versions.
2. `liftBodyInfo` marks the places where bodies start and end, and overwrites jumps.
3. `handleAllInstructions` passes the length of a whole word, not of its opcode byte.
4. Both walks keep to the instruction boundaries if and only if every instruction of two words is in
   the table and is the bare number of its opcode.
-/

namespace ByteVeil.Luau.Lifter

open IR Bytes

/-! ## Opcode classes -/

/-- `LOP_FORGLOOP_INEXT`, behind the last opcode. -/
def FORGLOOP_INEXT : ℕ := Opcode.all.length + 1

/-- `LOP_FORGLOOP_NEXT`. -/
def FORGLOOP_NEXT : ℕ := Opcode.all.length + 2

/-- `LOP_JUMPIFEQK`. -/
def JUMPIFEQK : ℕ := Opcode.all.length + 3

/-- `LOP_JUMPIFNOTEQK`. -/
def JUMPIFNOTEQK : ℕ := Opcode.all.length + 4

/-- `isJumpD` of the lifter. -/
def isJumpD (op : ℕ) : Bool :=
  ([.JUMP, .JUMPIF, .JUMPIFNOT, .JUMPIFEQ, .JUMPIFLE, .JUMPIFLT, .JUMPIFNOTEQ, .JUMPIFNOTLE,
      .JUMPIFNOTLT, .FORNPREP, .FORNLOOP, .FORGPREP, .FORGLOOP, .FORGPREP_INEXT, .FORGPREP_NEXT,
      .JUMPBACK].map Opcode.toNat ++
    [FORGLOOP_INEXT, FORGLOOP_NEXT, JUMPIFEQK, JUMPIFNOTEQK]).contains op

/-- `isSkipC` of the lifter. -/
def isSkipC (op : ℕ) : Bool :=
  ([.LOADB, .FASTCALL, .FASTCALL1, .FASTCALL2, .FASTCALL2K].map Opcode.toNat).contains op

/-- `getJumpTarget` of the lifter. -/
def getJumpTarget (insn : UInt32) (pc : ℕ) : ℤ :=
  if isJumpD (insnOp insn) then pc + insnD insn + 1
  else if isSkipC (insnOp insn) && insnC insn != 0 then pc + insnC insn + 1
  else if insnOp insn = Opcode.JUMPX.toNat then pc + insnE insn + 1
  else -1

/-- The opcodes of two words that the lifter knows. -/
def twoWords : List Opcode :=
  [.GETGLOBAL, .SETGLOBAL, .GETIMPORT, .GETTABLEKS, .SETTABLEKS, .NAMECALL, .JUMPIFEQ, .JUMPIFLE,
    .JUMPIFLT, .JUMPIFNOTEQ, .JUMPIFNOTLE, .JUMPIFNOTLT, .NEWTABLE, .SETLIST, .FORGLOOP, .LOADKX,
    .FASTCALL2, .FASTCALL2K]

/-- `getOpLength` of the lifter, for any number that is taken for an opcode. -/
def getOpLength (op : ℕ) : ℕ :=
  if (twoWords.map Opcode.toNat ++ [JUMPIFEQK, JUMPIFNOTEQK]).contains op then 2 else 1

/-! ## Bodies -/

/-- `BlockType`. -/
inductive BlockType
  | START | END | WHILESTART
  deriving DecidableEq, Repr

/-- The words as `liftBodyInfo` leaves them, the marks, and the places visited. -/
structure Lifted where
  code : List UInt32
  bodies : List (Option BlockType)
  visited : List ℕ

/-- `bodies[place] = type`; nothing is stored outside of the vector. -/
def Lifted.mark (s : Lifted) (place : ℤ) (type : BlockType) : Lifted :=
  if 0 ≤ place then { s with bodies := s.bodies.set place.toNat (some type) } else s

/-- `p->code[i] = LOP_NOP`. -/
def Lifted.erase (s : Lifted) (i : ℕ) : Lifted := { s with code := s.code.set i 0 }

/-- The loop body of `liftBodyInfo`. -/
def liftAt (s : Lifted) (i : ℕ) : Lifted :=
  let insn := s.code.getD i 0
  let op := insnOp insn
  let target := getJumpTarget insn i
  let last : ℤ := i + getOpLength op - 1
  let s := { s with visited := s.visited ++ [i] }
  if target < 0 then s
  else if op = Opcode.JUMP.toNat then ((s.mark last .END).erase i).mark target .END
  else if op = Opcode.JUMPIFNOT.toNat then (s.mark last .END).mark target .END
  else if op = Opcode.JUMPBACK.toNat then (s.erase i).mark target .WHILESTART
  else if op = Opcode.FORNLOOP.toNat ∨ op = Opcode.FORGLOOP.toNat then s
  else (s.mark last .START).mark (target - 1) .END

/-- The loop of `liftBodyInfo`; the length is read off the word that is there after the loop body. -/
def liftFrom : ℕ → ℕ → Lifted → Lifted
  | 0, _, s => s
  | fuel + 1, i, s =>
    if i < s.code.length then
      let s := liftAt s i
      liftFrom fuel (i + getOpLength (insnOp (s.code.getD i 0))) s
    else s

/-- `liftBodyInfo`. -/
def liftBodyInfo (p : Proto) : Lifted :=
  liftFrom p.sizecode 0 ⟨p.code, List.replicate (p.sizecode + 1) none, []⟩

/-- The places at which `handleAllInstructions` calls `handleInstruction`. -/
def handleAllInstructions (code : List UInt32) : List ℕ :=
  stride (fun pc => getOpLength (code.getD pc 0).toNat) code.length

/-! ## Lengths -/

theorem getOpLength_pos (op : ℕ) : 0 < getOpLength op := by
  unfold getOpLength
  split <;> omega

theorem getOpLength_eq_two {op : ℕ} :
    getOpLength op = 2 ↔ op ∈ twoWords.map Opcode.toNat ∨ op = JUMPIFEQK ∨ op = JUMPIFNOTEQK := by
  unfold getOpLength
  split <;> rename_i h <;> simpa using h

theorem getOpLength_eq_one_or_two (op : ℕ) : getOpLength op = 1 ∨ getOpLength op = 2 := by
  unfold getOpLength
  split <;> simp

theorem length_of_mem_twoWords {op : Opcode} (h : op ∈ twoWords) : op.getOpLength = 2 := by
  have hall : ∀ op ∈ twoWords, op.getOpLength = 2 := by decide
  exact hall op h

/-- An opcode of two words in the lifter's table has two words. -/
theorem getOpLength_le (op : Opcode) : getOpLength op.toNat ≤ op.getOpLength := by
  cases op <;> decide

theorem getOpLength_toNat (op : Opcode) : getOpLength op.toNat = 2 ↔ op ∈ twoWords := by
  cases op <;> decide

/-! ## The walk of `liftBodyInfo` -/

@[simp] theorem mark_code (s : Lifted) (place : ℤ) (type : BlockType) :
    (s.mark place type).code = s.code := by
  unfold Lifted.mark
  split <;> rfl

@[simp] theorem mark_visited (s : Lifted) (place : ℤ) (type : BlockType) :
    (s.mark place type).visited = s.visited := by
  unfold Lifted.mark
  split <;> rfl

@[simp] theorem erase_code (s : Lifted) (i : ℕ) : (s.erase i).code = s.code.set i 0 := rfl

@[simp] theorem erase_visited (s : Lifted) (i : ℕ) : (s.erase i).visited = s.visited := rfl

/-- The jumps that `liftBodyInfo` overwrites. -/
def erased (op : ℕ) : Prop := op = Opcode.JUMP.toNat ∨ op = Opcode.JUMPBACK.toNat

theorem liftAt_visited (s : Lifted) (i : ℕ) : (liftAt s i).visited = s.visited ++ [i] := by
  unfold liftAt
  dsimp only
  split_ifs <;> simp

/-- One round overwrites at most the word it stands on, and only a jump. -/
theorem liftAt_code (s : Lifted) (i : ℕ) :
    (liftAt s i).code = s.code ∨
      erased (insnOp (s.code.getD i 0)) ∧ (liftAt s i).code = s.code.set i 0 := by
  unfold liftAt
  dsimp only
  split_ifs with _ hjump _ hback
  · exact .inl rfl
  · exact .inr ⟨.inl hjump, by simp⟩
  · exact .inl (by simp)
  · exact .inr ⟨.inr hback, by simp⟩
  · exact .inl rfl
  · exact .inl (by simp)

theorem getOpLength_erased {op : ℕ} (h : erased op) : getOpLength op = 1 := by
  rcases h with rfl | rfl <;> decide

/-- What stays of a word: the word itself, or zero where a jump stood. -/
def Kept (before after : UInt32) : Prop := after = before ∨ erased (insnOp before) ∧ after = 0

/-- The walk keeps to the lengths of the original words, and keeps every word that is no jump. -/
theorem liftFrom_spec (code : List UInt32) {fuel i : ℕ} {s : Lifted}
    (hlength : s.code.length = code.length)
    (hkept : ∀ j, Kept (code.getD j 0) (s.code.getD j 0))
    (hahead : ∀ j, i ≤ j → s.code.getD j 0 = code.getD j 0) :
    (liftFrom fuel i s).visited = s.visited ++
        strideFrom (fun pc => getOpLength (insnOp (code.getD pc 0))) code.length fuel i ∧
      (liftFrom fuel i s).code.length = code.length ∧
      ∀ j, Kept (code.getD j 0) ((liftFrom fuel i s).code.getD j 0) := by
  induction fuel generalizing i s with
  | zero => exact ⟨by simp [liftFrom, strideFrom], hlength, hkept⟩
  | succ fuel ih =>
    rw [liftFrom, strideFrom, hlength]
    by_cases hi : i < code.length
    · rw [if_pos hi, if_pos hi]
      dsimp only
      have hhere := hahead i le_rfl
      have hset : ∀ j, (s.code.set i 0).getD j 0 = if j = i then 0 else s.code.getD j 0 := by
        intro j
        simp only [List.getD_eq_getElem?_getD, List.getElem?_set]
        by_cases hj : j = i
        · subst hj
          simp [hlength, hi]
        · simp [hj, Ne.symm hj]
      have hstep : (liftAt s i).code.length = code.length ∧
          (∀ j, Kept (code.getD j 0) ((liftAt s i).code.getD j 0)) ∧
          (∀ j, i < j → (liftAt s i).code.getD j 0 = code.getD j 0) ∧
          getOpLength (insnOp ((liftAt s i).code.getD i 0)) =
            getOpLength (insnOp (code.getD i 0)) := by
        rcases liftAt_code s i with hcode | ⟨herased, hcode⟩
        · rw [hcode]
          exact ⟨hlength, hkept, fun j hj => hahead j (Nat.le_of_lt hj), by rw [hhere]⟩
        · rw [hhere] at herased
          rw [hcode]
          refine ⟨by simpa using hlength, fun j => ?_, fun j hj => ?_, ?_⟩
          · rw [hset]
            split_ifs with hj
            · exact .inr ⟨hj ▸ herased, rfl⟩
            · exact hkept j
          · rw [hset, if_neg (by omega)]
            exact hahead j (Nat.le_of_lt hj)
          · rw [hset, if_pos rfl, getOpLength_erased herased]
            rfl
      obtain ⟨hlength', hkept', hahead', hsame⟩ := hstep
      have hpos := getOpLength_pos (insnOp (code.getD i 0))
      rw [hsame]
      obtain ⟨hvisited, hrest⟩ := ih (i := i + getOpLength (insnOp (code.getD i 0)))
        hlength' hkept' fun j hj => hahead' j (by omega)
      refine ⟨?_, hrest⟩
      rw [hvisited, liftAt_visited, List.append_assoc]
      rfl
    · rw [if_neg hi, if_neg hi]
      exact ⟨by simp, hlength, hkept⟩

theorem liftBodyInfo_spec (p : Proto) :
    (liftBodyInfo p).visited =
        stride (fun pc => getOpLength (insnOp (p.word pc))) p.sizecode ∧
      (liftBodyInfo p).code.length = p.sizecode ∧
      ∀ pc, Kept (p.word pc) ((liftBodyInfo p).code.getD pc 0) := by
  obtain ⟨hvisited, hlength, hkept⟩ := @liftFrom_spec p.code p.sizecode 0
    ⟨p.code, List.replicate (p.sizecode + 1) none, []⟩ rfl (fun _ => .inl rfl) fun _ _ => rfl
  rw [List.nil_append] at hvisited
  exact ⟨hvisited, hlength, hkept⟩

/-! ## The boundaries -/

/-- The opcode byte of a known word is the number of its opcode. -/
theorem insnOp_eq {p : Proto} {pc : ℕ} (h : CheckedAt p pc) :
    insnOp (p.word pc) = (opcode (p.word pc)).toNat := by
  have hknown := h.known
  have hall : ∀ n < Opcode.all.length, (Opcode.ofNat? n).map Opcode.toNat = some n := by decide
  have hlt : insnOp (p.word pc) < Opcode.all.length := (List.getElem?_eq_some_iff.1 hknown).1
  have hnumber := hall _ hlt
  rw [hknown, Option.map_some] at hnumber
  exact (Option.some.inj hnumber).symm

/-- A known word is as long for the walk over whole words as its opcode exactly when it has one word,
or is the bare number of an opcode in the table. -/
theorem getOpLength_word {p : Proto} {pc : ℕ} (h : CheckedAt p pc) :
    getOpLength (p.word pc).toNat = 2 ↔
      opcode (p.word pc) ∈ twoWords ∧ (p.word pc).toNat = (opcode (p.word pc)).toNat := by
  have hop := insnOp_eq h
  have hlt : insnOp (p.word pc) < Opcode.all.length :=
    (List.getElem?_eq_some_iff.1 h.known).1
  have hbyte : (p.word pc).toNat < 256 → (p.word pc).toNat = insnOp (p.word pc) := fun hsmall =>
    (Nat.mod_eq_of_lt hsmall).symm
  have hcount : Opcode.all.length = 91 := rfl
  constructor
  · intro htwo
    have hsmall : (p.word pc).toNat < 256 := by
      rcases getOpLength_eq_two.1 htwo with hmem | hmem | hmem
      · have hall : ∀ n ∈ twoWords.map Opcode.toNat, n < 256 := by decide
        exact hall _ hmem
      · rw [hmem]; decide
      · rw [hmem]; decide
    have hword := (hbyte hsmall).trans hop
    exact ⟨(getOpLength_toNat _).1 (hword ▸ htwo), hword⟩
  · rintro ⟨hmem, hword⟩
    rw [hword]
    exact (getOpLength_toNat _).2 hmem

/-! ## Both walks -/

theorem visited_eq_iff {p : Proto} (hp : Validated p) :
    (liftBodyInfo p).visited = boundaries p ↔
      ∀ pc ∈ boundaries p, getOpLength (insnOp (p.word pc)) =
        (opcode (p.word pc)).getOpLength := by
  rw [(liftBodyInfo_spec p).1]
  refine stride_eq_iff fun pc hpc => ?_
  have hchecked := checkedAt_of_mem hp hpc
  rw [insnOp_eq hchecked]
  exact ⟨getOpLength_pos _, getOpLength_le _, hchecked.fits⟩

/-- The length of a word that `liftBodyInfo` leaves, for the walk over whole words. -/
theorem getOpLength_kept {p : Proto} {pc : ℕ} (hp : Validated p) (hpc : pc ∈ boundaries p) :
    getOpLength ((liftBodyInfo p).code.getD pc 0).toNat = getOpLength (p.word pc).toNat := by
  have hchecked := checkedAt_of_mem hp hpc
  rcases (liftBodyInfo_spec p).2.2 pc with hkept | ⟨herased, hkept⟩
  · rw [hkept]
  · rw [hkept]
    rcases getOpLength_eq_one_or_two (p.word pc).toNat with hone | htwo
    · rw [hone]
      rfl
    · obtain ⟨hmem, -⟩ := (getOpLength_word hchecked).1 htwo
      rw [insnOp_eq hchecked] at herased
      have hlength := getOpLength_erased herased
      rw [(getOpLength_toNat _).2 hmem] at hlength
      exact absurd hlength (by decide)

theorem handled_eq_iff {p : Proto} (hp : Validated p) :
    handleAllInstructions (liftBodyInfo p).code = boundaries p ↔
      ∀ pc ∈ boundaries p, getOpLength (p.word pc).toNat = (opcode (p.word pc)).getOpLength := by
  have hwalk : handleAllInstructions (liftBodyInfo p).code =
      stride (fun pc => getOpLength ((liftBodyInfo p).code.getD pc 0).toNat) p.sizecode := by
    rw [handleAllInstructions, (liftBodyInfo_spec p).2.1]
  rw [hwalk, boundaries, stride_eq_iff]
  · refine forall₂_congr fun pc hpc => ?_
    rw [getOpLength_kept hp hpc]
  · intro pc hpc
    have hchecked := checkedAt_of_mem hp hpc
    refine ⟨getOpLength_pos _, ?_, hchecked.fits⟩
    rw [getOpLength_kept hp hpc]
    rcases getOpLength_eq_one_or_two (p.word pc).toNat with hone | htwo
    · rw [hone]
      exact Opcode.getOpLength_pos _
    · rw [htwo, length_of_mem_twoWords ((getOpLength_word hchecked).1 htwo).1]

/-- Both walks of the lifter keep to the instruction boundaries of a validated prototype if and only
if every instruction of two words has an opcode that the lifter's table has, and no operands in its
first word. -/
theorem legacy_walks_iff {p : Proto} (hp : Validated p) :
    (handleAllInstructions (liftBodyInfo p).code = boundaries p ∧
        (liftBodyInfo p).visited = boundaries p) ↔
      ∀ pc ∈ boundaries p, (opcode (p.word pc)).getOpLength = 2 →
        opcode (p.word pc) ∈ twoWords ∧ (p.word pc).toNat = (opcode (p.word pc)).toNat := by
  rw [handled_eq_iff hp, visited_eq_iff hp]
  constructor
  · rintro ⟨hwhole, -⟩ pc hpc htwo
    exact (getOpLength_word (checkedAt_of_mem hp hpc)).1 ((hwhole pc hpc).trans htwo)
  · intro hbare
    refine ⟨fun pc hpc => ?_, fun pc hpc => ?_⟩
    all_goals
      have hchecked := checkedAt_of_mem hp hpc
      rcases (opcode (p.word pc)).getOpLength_eq_one_or_two with hone | htwo
    · rcases getOpLength_eq_one_or_two (p.word pc).toNat with h | h
      · rw [h, hone]
      · rw [length_of_mem_twoWords ((getOpLength_word hchecked).1 h).1] at hone
        exact absurd hone (by decide)
    · rw [htwo]
      exact (getOpLength_word hchecked).2 (hbare pc hpc htwo)
    · have hle := getOpLength_le (opcode (p.word pc))
      have hpos := getOpLength_pos (opcode (p.word pc)).toNat
      rw [insnOp_eq hchecked]
      omega
    · rw [insnOp_eq hchecked, htwo]
      exact (getOpLength_toNat _).2 (hbare pc hpc htwo).1

/-- `LOADKX` of the first constant to register 0 is the bare number of its opcode. -/
def bareLoad : Proto :=
  { ident := 0, nups := 0, numparams := 0, maxstacksize := 2
    code := [66, 0, 0x10016], k := [.nil], p := [] }

theorem legacy_walks_iff_bareLoad :
    (handleAllInstructions (liftBodyInfo bareLoad).code = boundaries bareLoad ∧
        (liftBodyInfo bareLoad).visited = boundaries bareLoad) ↔
      ∀ pc ∈ boundaries bareLoad, (opcode (bareLoad.word pc)).getOpLength = 2 →
        opcode (bareLoad.word pc) ∈ twoWords ∧
          (bareLoad.word pc).toNat = (opcode (bareLoad.word pc)).toNat :=
  legacy_walks_iff (validated_root (by decide +kernel))

/-- `LOADKX` to register 1: its second word is handled as an instruction. -/
def wideLoad : Proto := { bareLoad with code := [0x142, 0, 0x10016] }

theorem wideLoad_handled :
    validateProto wideLoad = .ok () ∧ boundaries wideLoad = [0, 2] ∧
      handleAllInstructions (liftBodyInfo wideLoad).code = [0, 1, 2] := by
  decide +kernel

end ByteVeil.Luau.Lifter
