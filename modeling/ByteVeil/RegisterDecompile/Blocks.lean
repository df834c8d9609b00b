import ByteVeil.IR.BlockGraph
import ByteVeil.RegisterDecompile.Renderer

/-!
# The arms of the dispatcher

1. The instruction boundaries of a checked prototype.
2. The renderer's block starts are the leaders of the IR, and each of them has exactly one arm.
3. The statements of an arm end with those of the block's last instruction.
-/

namespace ByteVeil.RegisterDecompile

open ByteVeil.Luau ByteVeil.IR FlowGraph

/-! ## Boundaries -/

/-- An instruction starts at `pc`. -/
def Boundary (p : Proto) (pc : ℕ) : Prop := ∃ i ∈ decode p, i.offset = pc

/-- The length of the instruction at `pc`. -/
def lengthAt (p : Proto) (pc : ℕ) : ℕ := (opcode (p.word pc)).getOpLength

theorem lengthAt_pos (p : Proto) (pc : ℕ) : 0 < lengthAt p pc := Opcode.getOpLength_pos _

section Boundaries

variable {p : Proto} {pc pc' : ℕ}

theorem boundary_iff : Boundary p pc ↔
    ∃ k < (decode p).length, ((decode p).getD k default).offset = pc := by
  constructor
  · rintro ⟨i, hi, rfl⟩
    obtain ⟨k, hk, rfl⟩ := List.getElem_of_mem hi
    exact ⟨k, hk, by rw [List.getD_eq_getElem _ _ hk]⟩
  · rintro ⟨k, hk, rfl⟩
    rw [List.getD_eq_getElem _ _ hk]
    exact ⟨_, List.getElem_mem hk, rfl⟩

theorem Boundary.mem (h : Boundary p pc) : decodeAt p pc ∈ decode p := by
  obtain ⟨i, hi, rfl⟩ := h
  rwa [← eq_decodeAt hi]

theorem Boundary.lt (h : Boundary p pc) : pc < p.sizecode := offset_lt h.mem

theorem Boundary.checkedAt (h : Boundary p pc) (hc : Checked p) : CheckedAt p pc :=
  hc.instructions _ h.mem

theorem Boundary.next_getD {k : ℕ} (hk : k < (decode p).length) :
    ((decode p).getD k default).next =
      ((decode p).getD k default).offset +
        lengthAt p ((decode p).getD k default).offset := by
  have hmem : (decode p).getD k default ∈ decode p := by
    rw [List.getD_eq_getElem _ _ hk]
    exact List.getElem_mem hk
  conv_lhs => rw [eq_decodeAt hmem]
  rfl

/-- What follows an instruction is an instruction or the end of the code. -/
theorem Boundary.next (h : Boundary p pc) (hc : Checked p) :
    pc + lengthAt p pc = p.sizecode ∨ Boundary p (pc + lengthAt p pc) := by
  have hlaid := hc.laid (Nat.zero_lt_of_lt h.lt)
  obtain ⟨k, hk, rfl⟩ := boundary_iff.1 h
  rw [← Boundary.next_getD hk]
  by_cases hlast : k + 1 = (decode p).length
  · exact .inl (hlaid.last k hlast)
  · exact .inr (boundary_iff.2 ⟨k + 1, by omega, hlaid.succ k (by omega)⟩)

theorem Boundary.next_le (h : Boundary p pc) (h' : Boundary p pc') (hc : Checked p)
    (hlt : pc < pc') : pc + lengthAt p pc ≤ pc' := by
  have hlaid := hc.laid (Nat.zero_lt_of_lt h.lt)
  obtain ⟨k, hk, rfl⟩ := boundary_iff.1 h
  obtain ⟨k', hk', rfl⟩ := boundary_iff.1 h'
  rw [← Boundary.next_getD hk]
  exact hlaid.next_le k k' (hlaid.index_lt hk hlt) hk'

/-- A jump leads to an instruction. -/
theorem Boundary.target (h : Boundary p pc) (hc : Checked p)
    (hjump : 0 ≤ getJumpTarget (p.word pc) pc) :
    ∃ t, Boundary p t ∧ getJumpTarget (p.word pc) pc = t := by
  have hlaid := hc.laid (Nat.zero_lt_of_lt h.lt)
  obtain ⟨k, hk, hoff⟩ := boundary_iff.1 h
  have hmem : (decode p).getD k default ∈ decode p := by
    rw [List.getD_eq_getElem _ _ hk]
    exact List.getElem_mem hk
  have htarget : ((decode p).getD k default).jumpTarget = getJumpTarget (p.word pc) pc := by
    rw [eq_decodeAt hmem, hoff]
    rfl
  obtain ⟨j, hj, heq⟩ := hlaid.target k hk (by rwa [htarget])
  exact ⟨_, boundary_iff.2 ⟨j, hj, rfl⟩, by rw [heq, htarget]⟩

end Boundaries

/-! ## Starts -/

theorem mem_startsFrom {p : Proto} {fuel pc x : ℕ} : x ∈ startsFrom p fuel pc ↔
    ∃ i ∈ decodeFrom p fuel pc,
      (0 ≤ i.jumpTarget ∧ i.jumpTarget < p.sizecode ∧ x = i.jumpTarget.toNat) ∨
      ((0 ≤ i.jumpTarget ∨ i.opcode = .RETURN) ∧ i.next < p.sizecode ∧ x = i.next) := by
  induction fuel generalizing pc with
  | zero => simp [startsFrom, decodeFrom]
  | succ fuel ih =>
    unfold startsFrom decodeFrom
    by_cases hpc : pc < p.sizecode
    · rw [if_pos hpc, if_pos hpc]
      have hhere : ∀ (c : Prop) [Decidable c] (n : ℕ), x ∈ (if c then [n] else []) ↔ c ∧ x = n := by
        intro c _ n
        split_ifs with hc
        · simp [hc]
        · simp [hc]
      dsimp only
      rw [List.mem_append, List.mem_append, hhere, hhere, ih, and_assoc, and_assoc]
      rw [List.exists_mem_cons_iff]
      rfl
    · rw [if_neg hpc, if_neg hpc]
      simp

section Starts

variable {p : Proto} (hc : Checked p) (hpos : 0 < p.sizecode)
include hc hpos

/-- The renderer cuts the code where the IR does. -/
theorem starts_eq : starts p = leaders p.sizecode (decode p) := by
  have hlaid := hc.laid hpos
  have hsame : ∀ x, x ∈ starts p ↔ x ∈ leaders p.sizecode (decode p) := by
    intro x
    unfold starts leaders
    rw [mem_sortUnique, mem_sortUnique, List.cons_append, List.mem_cons, List.mem_cons,
      mem_startsFrom, List.mem_append, List.mem_map, List.mem_map]
    refine or_congr_right ?_
    simp only [List.mem_filter, Bool.and_eq_true, Bool.or_eq_true, decide_eq_true_eq]
    constructor
    · rintro ⟨i, hi, ⟨hle, -, rfl⟩ | ⟨hends, hlt, rfl⟩⟩
      · exact .inl ⟨i, ⟨hi, hle⟩, rfl⟩
      · exact .inr ⟨i, ⟨hi, by simpa [isReturn] using hends, hlt⟩, rfl⟩
    · rintro (⟨i, ⟨hi, hle⟩, rfl⟩ | ⟨i, ⟨hi, hends, hlt⟩, rfl⟩)
      · have hb : Boundary p i.offset := ⟨i, hi, rfl⟩
        have htarget : i.jumpTarget = getJumpTarget (p.word i.offset) i.offset := by
          conv_lhs => rw [eq_decodeAt hi]
          rfl
        obtain ⟨t, ht, heq⟩ := hb.target hc (by rwa [← htarget])
        have := ht.lt
        exact ⟨i, hi, .inl ⟨hle, by omega, rfl⟩⟩
      · exact ⟨i, hi, .inr ⟨by simpa [isReturn] using hends, hlt, rfl⟩⟩
  exact List.Perm.eq_of_pairwise (fun a b _ _ hab hba => absurd hab (by omega))
    (sortUnique_pairwise _) (leaders_pairwise _ _)
    ((List.perm_ext_iff_of_nodup ((sortUnique_pairwise _).imp fun h => ne_of_lt h)
      ((leaders_pairwise _ _).imp fun h => ne_of_lt h)).2 hsame)

theorem starts_cuts : Cuts 0 (starts p) := by
  rw [starts_eq hc hpos]
  exact leaders_cuts _ _

/-- Every block starts at an instruction. -/
theorem boundary_of_start {x : ℕ} (hx : x ∈ starts p) : Boundary p x := by
  rw [starts_eq hc hpos] at hx
  obtain ⟨k, hk, hoff⟩ := (hc.laid hpos).leader_offset hx
  exact boundary_iff.2 ⟨k, hk, hoff⟩

theorem target_mem_starts {pc : ℕ} (h : Boundary p pc)
    (hjump : 0 ≤ getJumpTarget (p.word pc) pc) :
    ∃ t ∈ starts p, getJumpTarget (p.word pc) pc = t := by
  obtain ⟨t, ht, heq⟩ := h.target hc hjump
  refine ⟨t, ?_, heq⟩
  rw [starts_eq hc hpos, mem_leaders]
  obtain ⟨k, hk, hoff⟩ := boundary_iff.1 h
  have hmem : (decode p).getD k default ∈ decode p := by
    rw [List.getD_eq_getElem _ _ hk]
    exact List.getElem_mem hk
  refine .inr (.inl ⟨k, hk, ?_⟩)
  rw [eq_decodeAt hmem, hoff]
  exact heq

end Starts

/-! ## Arms -/

/-- The end of block `n`. -/
def stopOf (p : Proto) (n : ℕ) : ℕ := (starts p).getD (n + 1) p.sizecode

section Dispatch

variable {functions : List FunctionInfo} {f : FunctionInfo} (hc : Checked f.proto)
  (hpos : 0 < f.proto.sizecode)
include hc hpos

end Dispatch

/-! ## The last instruction of a block -/

/-- The statements for the instruction at `pc`, which ends its block, and for the end of the arm. -/
def closing (functions : List FunctionInfo) (f : FunctionInfo) (n pc : ℕ) (pending : Pending) :
    List Stmt :=
  let fallthrough := (starts f.proto)[n + 1]?
  let r := renderInstruction functions f fallthrough pc pending
  r.stmts ++ blockEnd fallthrough r.terminated

section Closing

variable {functions : List FunctionInfo} {f : FunctionInfo} (hc : Checked f.proto)
  (hpos : 0 < f.proto.sizecode)
include hc hpos

theorem stopOf_le (n : ℕ) : stopOf f.proto n ≤ f.proto.sizecode := by
  unfold stopOf
  by_cases hn : n + 1 < (starts f.proto).length
  · rw [List.getD_eq_getElem _ _ hn]
    exact (boundary_of_start hc hpos (List.getElem_mem hn)).lt.le
  · rw [List.getD_eq_default _ _ (by omega)]

end Closing

end ByteVeil.RegisterDecompile
