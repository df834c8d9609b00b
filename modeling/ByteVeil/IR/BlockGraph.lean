import ByteVeil.FlowGraph.Cuts
import ByteVeil.IR.Blocks
import ByteVeil.IR.Operands

/-!
# The basic-block graph

1. Where control can continue after an instruction, by the definition of its opcode.
2. Instructions of a validated prototype follow each other, and every leader is one of them.
3. The blocks cut the instructions into runs; their edges are the continuations of their last
   instructions, except that a `LOADB` with a skip also gets an edge to the next block.
-/

namespace ByteVeil.IR

open ByteVeil.Luau FlowGraph

/-! ## Continuations -/

/-- The offset behind an instruction. -/
def Instruction.next (i : Instruction) : ℕ := i.offset + i.length

/-- The offsets at which control can continue after an instruction. -/
def continuations (i : Instruction) : List ℤ :=
  match i.opcode with
  | .RETURN => []
  | .JUMP | .JUMPBACK | .JUMPX | .FORGPREP | .FORGPREP_INEXT | .FORGPREP_NEXT => [i.jumpTarget]
  | .LOADB => if i.c = 0 then [(i.next : ℤ)] else [i.jumpTarget]
  | .JUMPIF | .JUMPIFNOT | .JUMPIFEQ | .JUMPIFLE | .JUMPIFLT | .JUMPIFNOTEQ | .JUMPIFNOTLE
  | .JUMPIFNOTLT | .JUMPXEQKNIL | .JUMPXEQKB | .JUMPXEQKN | .JUMPXEQKS | .CMPPROTO | .FORNPREP
  | .FORNLOOP | .FORGLOOP | .FASTCALL | .FASTCALL1 | .FASTCALL2 | .FASTCALL2K | .FASTCALL3
  | .FASTPCALL => [i.jumpTarget, (i.next : ℤ)]
  | _ => [(i.next : ℤ)]

namespace Function

variable (f : Function)

/-- The first instruction of a block starts at `offset`. -/
def StartsAt (b : ℕ) (offset : ℤ) : Prop :=
  ∃ k, (f.block b).instructions.head? = some k ∧ ((f.instruction k).offset : ℤ) = offset

/-- Control can continue at the first instruction of block `s` after the last one of block `b`. -/
def CanContinue (b s : ℕ) : Prop :=
  ∃ k, (f.block b).instructions.getLast? = some k ∧
    ∃ target ∈ continuations (f.instruction k), f.StartsAt s target

/-- The blocks are runs of instructions, and their edges are the transfers of control. -/
structure BlocksExact : Prop where
  partition : f.basicBlocks.flatMap (·.instructions) = List.range f.instructions.length
  nonempty : ∀ b < f.blockCount, (f.block b).instructions ≠ []
  inner : ∀ b < f.blockCount, ∀ k ∈ (f.block b).instructions,
    (f.block b).instructions.getLast? ≠ some k →
      continuations (f.instruction k) = [((f.instruction (k + 1)).offset : ℤ)]
  entry : f.StartsAt 0 0
  target : ∀ k < f.instructions.length, 0 ≤ (f.instruction k).jumpTarget →
    ∃ b < f.blockCount, f.StartsAt b (f.instruction k).jumpTarget
  edge_iff : ∀ b < f.blockCount, ∀ s < f.blockCount, s ∈ f.successors b ↔ f.CanContinue b s
  predecessor_iff : ∀ b < f.blockCount, ∀ s < f.blockCount,
    b ∈ (f.block s).predecessors ↔ s ∈ f.successors b

end Function

/-! ## Consecutive instructions -/

theorem Consecutive.getElem_zero {n pc : ℕ} {l : List Instruction} (h : Consecutive n pc l)
    (hl : 0 < l.length) : l[0].offset = pc := by
  cases h with
  | nil => simp at hl
  | cons heq => exact heq

theorem Consecutive.getElem_succ {n pc k : ℕ} {l : List Instruction} (h : Consecutive n pc l)
    (hk : k + 1 < l.length) : l[k + 1].offset = l[k].next := by
  induction h generalizing k with
  | nil => simp at hk
  | @cons pc i l heq _ hrest ih =>
    cases k with
    | zero =>
      rw [← heq] at hrest
      exact hrest.getElem_zero (by simpa using hk)
    | succ k => exact ih (by simpa using hk)

theorem Consecutive.getElem_last {n pc k : ℕ} {l : List Instruction} (h : Consecutive n pc l)
    (hk : k + 1 = l.length) : n ≤ l[k].next := by
  induction h generalizing k with
  | nil => simp at hk
  | @cons pc i l heq _ hrest ih =>
    cases k with
    | zero =>
      obtain rfl : l = [] := by simpa using hk
      cases hrest with
      | nil hle =>
        rw [← heq] at hle
        exact hle
    | succ k => exact ih (by simpa using hk)

theorem Consecutive.length_pos {n pc : ℕ} {l : List Instruction} (h : Consecutive n pc l) {k : ℕ}
    (hk : k < l.length) : 0 < l[k].length := by
  induction h generalizing k with
  | nil => simp at hk
  | @cons pc i l _ hpos _ ih =>
    cases k with
    | zero => exact hpos
    | succ k => exact ih (by simpa using hk)

theorem Consecutive.offset_lt {n pc j k : ℕ} {l : List Instruction} (h : Consecutive n pc l)
    (hjk : j < k) (hk : k < l.length) : l[j].next ≤ l[k].offset := by
  induction k with
  | zero => omega
  | succ k ih =>
    rw [h.getElem_succ hk]
    rcases Nat.eq_or_lt_of_le (Nat.le_of_lt_succ hjk) with rfl | hlt
    · exact le_rfl
    · have := ih hlt (by omega)
      unfold Instruction.next at this ⊢
      omega

/-- A `LOADB` that skips instructions. -/
def SkippingLoad (i : Instruction) : Prop := i.opcode = .LOADB ∧ i.c ≠ 0

/-- The instructions of a checked prototype: without gaps from 0 to the end of the code, and jumps
land on them. -/
structure Laid (sizecode : ℕ) (l : List Instruction) : Prop where
  pos : 0 < l.length
  zero : (l.getD 0 default).offset = 0
  succ : ∀ k, k + 1 < l.length → (l.getD (k + 1) default).offset = (l.getD k default).next
  last : ∀ k, k + 1 = l.length → (l.getD k default).next = sizecode
  next_le : ∀ j k, j < k → k < l.length → (l.getD j default).next ≤ (l.getD k default).offset
  length_pos : ∀ k < l.length, 0 < (l.getD k default).length
  lt_size : ∀ k < l.length, (l.getD k default).offset < sizecode
  jump_iff : ∀ k < l.length, 0 ≤ (l.getD k default).jumpTarget ↔
    isJump (l.getD k default).opcode = true ∧
      ¬((l.getD k default).opcode = .LOADB ∧ (l.getD k default).c = 0)
  target : ∀ k < l.length, 0 ≤ (l.getD k default).jumpTarget →
    ∃ j < l.length, ((l.getD j default).offset : ℤ) = (l.getD k default).jumpTarget
  skip : ∀ k < l.length, SkippingLoad (l.getD k default) →
    ((l.getD k default).next : ℤ) < (l.getD k default).jumpTarget

theorem getJumpTarget_nonneg {p : Proto} {pc : ℕ} (h : CheckedAt p pc) :
    0 ≤ getJumpTarget (p.word pc) pc ↔ isJump (opcode (p.word pc)) = true ∧
      ¬(opcode (p.word pc) = .LOADB ∧ insnC (p.word pc) = 0) := by
  refine ⟨fun hle => ?_, fun hjump => (h.target hjump.1 hjump.2).1⟩
  unfold getJumpTarget at hle
  unfold isJump
  dsimp only at hle
  generalize opcode (p.word pc) = op at *
  cases op <;> simp [Opcode.isJumpD, Opcode.isFastCall, Opcode.isSkipC] at hle ⊢
  by_contra hzero
  rw [if_pos hzero] at hle
  omega

theorem next_lt_jumpTarget {p : Proto} {pc : ℕ} (hop : (decodeAt p pc).opcode = .LOADB)
    (hc : (decodeAt p pc).c ≠ 0) :
    ((decodeAt p pc).next : ℤ) < (decodeAt p pc).jumpTarget := by
  change opcode (p.word pc) = .LOADB at hop
  change insnC (p.word pc) ≠ 0 at hc
  show ((pc + (opcode (p.word pc)).getOpLength : ℕ) : ℤ) < getJumpTarget (p.word pc) pc
  unfold getJumpTarget
  rw [hop]
  simp [Opcode.isJumpD, Opcode.isFastCall, Opcode.isSkipC, Opcode.getOpLength, hc]
  omega

theorem Checked.laid {p : Proto} (h : Checked p) (hpos : 0 < p.sizecode) :
    Laid p.sizecode (decode p) := by
  have hc := decode_consecutive p
  have hmem : ∀ k < (decode p).length, (decode p).getD k default ∈ decode p := fun k hk => by
    rw [List.getD_eq_getElem _ _ hk]
    exact List.getElem_mem hk
  have hlen : 0 < (decode p).length := by
    rw [List.length_pos_iff]
    intro hnil
    rw [hnil] at hc
    cases hc with
    | nil hle => omega
  refine ⟨hlen, ?_, fun k hk => ?_, fun k hk => ?_, fun j k hjk hk => ?_, fun k hk => ?_,
    fun k hk => offset_lt (hmem k hk), fun k hk => ?_, fun k hk ht => ?_, fun k hk hskip => ?_⟩
  · rw [List.getD_eq_getElem _ _ hlen]
    exact hc.getElem_zero hlen
  · rw [List.getD_eq_getElem _ _ hk, List.getD_eq_getElem _ _ (by omega)]
    exact hc.getElem_succ hk
  · have hfits := (h.instructions _ (hmem k (by omega))).fits
    have hend := hc.getElem_last hk
    rw [List.getD_eq_getElem _ _ (by omega)] at hfits ⊢
    have hmem' : (decode p)[k] ∈ decode p := List.getElem_mem _
    have hlength := congrArg Instruction.length (eq_decodeAt hmem')
    change (decode p)[k].length = (opcode (p.word (decode p)[k].offset)).getOpLength at hlength
    unfold Instruction.next at hend ⊢
    omega
  · rw [List.getD_eq_getElem _ _ hk, List.getD_eq_getElem _ _ (by omega)]
    exact hc.offset_lt hjk hk
  · rw [List.getD_eq_getElem _ _ hk]
    exact hc.length_pos hk
  · have hi := eq_decodeAt (hmem k hk)
    have hiff := getJumpTarget_nonneg (h.instructions _ (hmem k hk))
    rw [hi]
    exact hiff
  · have hi := eq_decodeAt (hmem k hk)
    have hiff := getJumpTarget_nonneg (h.instructions _ (hmem k hk))
    have hjump : isJump ((decode p).getD k default).opcode = true ∧
        ¬(((decode p).getD k default).opcode = .LOADB ∧ ((decode p).getD k default).c = 0) := by
      rw [hi] at ht ⊢
      exact hiff.1 ht
    obtain ⟨j, hj, heq⟩ := h.jump (hmem k hk) hjump.1 hjump.2
    obtain ⟨n, hn, rfl⟩ := List.getElem_of_mem hj
    exact ⟨n, hn, by rw [List.getD_eq_getElem _ _ hn]; exact heq⟩
  · obtain ⟨hop, hc⟩ := hskip
    rw [eq_decodeAt (hmem k hk)] at hop hc ⊢
    exact next_lt_jumpTarget hop hc

/-! ## The leaders -/

theorem mem_leaders {sizecode x : ℕ} {l : List Instruction} : x ∈ leaders sizecode l ↔ x = 0 ∨
    (∃ k < l.length, (l.getD k default).jumpTarget = x) ∨
    ∃ k < l.length, (0 ≤ (l.getD k default).jumpTarget ∨ isReturn (l.getD k default).opcode = true) ∧
      (l.getD k default).next < sizecode ∧ x = (l.getD k default).next := by
  have hmem : ∀ P : Instruction → Prop,
      (∃ i ∈ l, P i) ↔ ∃ k < l.length, P (l.getD k default) := by
    intro P
    constructor
    · rintro ⟨i, hi, hP⟩
      obtain ⟨k, hk, rfl⟩ := List.getElem_of_mem hi
      exact ⟨k, hk, by rwa [List.getD_eq_getElem _ _ hk]⟩
    · rintro ⟨k, hk, hP⟩
      rw [List.getD_eq_getElem _ _ hk] at hP
      exact ⟨_, List.getElem_mem hk, hP⟩
  unfold leaders
  simp only [mem_sortUnique, List.mem_cons, List.mem_append, List.mem_map, List.mem_filter,
    List.cons_append, decide_eq_true_eq, Bool.and_eq_true, Bool.or_eq_true, and_assoc, hmem]
  refine or_congr_right (or_congr ?_ ?_)
  · refine exists_congr fun k => and_congr_right fun _ => ?_
    omega
  · refine exists_congr fun k => and_congr_right fun _ => ?_
    exact and_congr_right fun _ => and_congr_right fun _ => eq_comm

section Leaders

variable {sizecode : ℕ} {l : List Instruction} (h : Laid sizecode l)
include h

theorem Laid.offset_strictMono {j k : ℕ} (hjk : j < k) (hk : k < l.length) :
    (l.getD j default).offset < (l.getD k default).offset := by
  have hle := h.next_le j k hjk hk
  have hlen := h.length_pos j (by omega)
  unfold Instruction.next at hle
  omega

theorem Laid.index_lt {j k : ℕ} (hj : j < l.length)
    (hlt : (l.getD j default).offset < (l.getD k default).offset) : j < k := by
  rcases Nat.lt_trichotomy j k with hjk | rfl | hjk
  · exact hjk
  · exact absurd hlt (lt_irrefl _)
  · exact absurd (h.offset_strictMono hjk hj) (not_lt.2 hlt.le)

/-- Every leader is the offset of an instruction. -/
theorem Laid.leader_offset {x : ℕ} (hx : x ∈ leaders sizecode l) :
    ∃ k < l.length, (l.getD k default).offset = x := by
  rcases mem_leaders.1 hx with rfl | ⟨k, hk, hkx⟩ | ⟨k, hk, -, hlt, rfl⟩
  · exact ⟨0, h.pos, h.zero⟩
  · obtain ⟨j, hj, hjx⟩ := h.target k hk (by omega)
    exact ⟨j, hj, by omega⟩
  · by_cases hlast : k + 1 = l.length
    · rw [h.last k hlast] at hlt
      exact absurd hlt (lt_irrefl _)
    · exact ⟨k + 1, by omega, h.succ k (by omega)⟩

omit h in
theorem leaders_cuts (sizecode : ℕ) (l : List Instruction) : Cuts 0 (leaders sizecode l) :=
  cuts_of_zero_mem (leaders_pairwise sizecode l) (mem_leaders.2 (Or.inl rfl))

/-! ## The instructions of a block -/

/-- The instructions between two leaders. -/
theorem Laid.blockAt_instructions (b : ℕ) :
    (blockAt sizecode l (leaders sizecode l) b).instructions =
      (List.range l.length).filter fun k =>
        Within (leaders sizecode l) b (l.getD k default).offset := by
  refine List.filter_congr fun k hk => ?_
  have hlt := h.lt_size k (List.mem_range.1 hk)
  rw [← Bool.decide_and, decide_eq_decide]
  unfold Within
  split_ifs with hb
  · exact ⟨fun hc => ⟨by omega, fun _ => by omega⟩, fun hc => ⟨by omega, by have := hc.2 hb; omega⟩⟩
  · exact ⟨fun hc => ⟨by omega, fun hb' => absurd hb' hb⟩, fun hc => ⟨by omega, by omega⟩⟩

theorem Laid.mem_block {b k : ℕ} :
    k ∈ (blockAt sizecode l (leaders sizecode l) b).instructions ↔
      k < l.length ∧ Within (leaders sizecode l) b (l.getD k default).offset := by
  rw [h.blockAt_instructions, List.mem_filter, List.mem_range, decide_eq_true_eq]

theorem Laid.block_pairwise (b : ℕ) :
    (blockAt sizecode l (leaders sizecode l) b).instructions.Pairwise (· < ·) := by
  rw [h.blockAt_instructions]
  exact List.pairwise_lt_range.filter _

omit h in
theorem head?_eq_some {l : List ℕ} (hl : l.Pairwise (· < ·)) {k : ℕ} :
    l.head? = some k ↔ k ∈ l ∧ ∀ j ∈ l, k ≤ j := by
  cases l with
  | nil => simp
  | cons a l =>
    rw [List.head?_cons, Option.some.injEq]
    constructor
    · rintro rfl
      refine ⟨List.mem_cons_self .., fun j hj => ?_⟩
      rcases List.mem_cons.1 hj with rfl | hj
      · exact le_rfl
      · exact (List.rel_of_pairwise_cons hl hj).le
    · rintro ⟨hk, hle⟩
      rcases List.mem_cons.1 hk with rfl | hk
      · rfl
      · exact absurd (List.rel_of_pairwise_cons hl hk) (not_lt.2 (hle a (List.mem_cons_self ..)))

omit h in
theorem getLast?_eq_some {l : List ℕ} (hl : l.Pairwise (· < ·)) {k : ℕ} :
    l.getLast? = some k ↔ k ∈ l ∧ ∀ j ∈ l, j ≤ k := by
  rcases List.eq_nil_or_concat' l with rfl | ⟨l, a, rfl⟩
  · simp
  · rw [List.getLast?_concat, Option.some.injEq]
    have hlt := (List.pairwise_append.1 hl).2.2
    constructor
    · rintro rfl
      refine ⟨List.mem_append_right _ (List.mem_singleton_self _), fun j hj => ?_⟩
      rcases List.mem_append.1 hj with hj | hj
      · exact (hlt j hj a (List.mem_singleton_self _)).le
      · rw [List.mem_singleton.1 hj]
    · rintro ⟨hk, hle⟩
      rcases List.mem_append.1 hk with hk | hk
      · exact absurd (hlt k hk a (List.mem_singleton_self _))
          (not_lt.2 (hle a (List.mem_append_right _ (List.mem_singleton_self _))))
      · exact (List.mem_singleton.1 hk).symm

/-- A block starts with the instruction at its leader. -/
theorem Laid.block_head {b : ℕ} (hb : b < (leaders sizecode l).length) :
    ∃ k, (blockAt sizecode l (leaders sizecode l) b).instructions.head? = some k ∧
      (l.getD k default).offset = (leaders sizecode l).getD b 0 := by
  have hcuts := leaders_cuts sizecode l
  have hleader : (leaders sizecode l).getD b 0 ∈ leaders sizecode l := by
    rw [List.getD_eq_getElem _ _ hb]
    exact List.getElem_mem hb
  obtain ⟨k, hk, hoff⟩ := h.leader_offset hleader
  refine ⟨k, (head?_eq_some (h.block_pairwise b)).2 ⟨?_, fun j hj => ?_⟩, hoff⟩
  · rw [h.mem_block, hoff]
    exact ⟨hk, hcuts.within_cut b⟩
  · obtain ⟨hj, hwithin⟩ := h.mem_block.1 hj
    by_contra hlt
    have := h.offset_strictMono (not_le.1 hlt) hk
    have := hwithin.1
    omega

/-- The last instruction of a block ends at the next leader or at the end of the code. -/
theorem Laid.block_last {b k : ℕ} (hb : b < (leaders sizecode l).length)
    (hk : (blockAt sizecode l (leaders sizecode l) b).instructions.getLast? = some k) :
    k < l.length ∧
      ((b + 1 < (leaders sizecode l).length ∧
          (l.getD k default).next = (leaders sizecode l).getD (b + 1) 0) ∨
        (b + 1 = (leaders sizecode l).length ∧ (l.getD k default).next = sizecode)) := by
  have hcuts := leaders_cuts sizecode l
  obtain ⟨hmem, hmax⟩ := (getLast?_eq_some (h.block_pairwise b)).1 hk
  obtain ⟨hklt, hwithin⟩ := h.mem_block.1 hmem
  refine ⟨hklt, ?_⟩
  by_cases hnext : b + 1 < (leaders sizecode l).length
  · refine Or.inl ⟨hnext, ?_⟩
    obtain ⟨j, hj, hoff⟩ := h.leader_offset (x := (leaders sizecode l).getD (b + 1) 0) (by
      rw [List.getD_eq_getElem _ _ hnext]
      exact List.getElem_mem hnext)
    have hkj := h.index_lt hklt (by rw [hoff]; exact hwithin.2 hnext)
    have hle := h.next_le k j hkj hj
    -- the instruction behind the last one is not in the block any more
    have hsucc := h.succ k (by omega)
    have hout : ¬(k + 1 < l.length ∧
        Within (leaders sizecode l) b (l.getD (k + 1) default).offset) := fun hc =>
      absurd (hmax (k + 1) (h.mem_block.2 hc)) (by omega)
    have hge : (leaders sizecode l).getD (b + 1) 0 ≤ (l.getD k default).next := by
      by_contra hlt
      refine hout ⟨by omega, ?_, fun _ => by omega⟩
      have := h.offset_strictMono (Nat.lt_succ_self k) (by omega)
      exact hwithin.1.trans this.le
    omega
  · refine Or.inr ⟨by omega, ?_⟩
    by_cases hlast : k + 1 = l.length
    · exact h.last k hlast
    · have := h.offset_strictMono (Nat.lt_succ_self k) (by omega)
      have hin := hmax (k + 1) (h.mem_block.2
        ⟨by omega, hwithin.1.trans this.le, fun hc => absurd hc hnext⟩)
      omega

/-- An instruction before a leader ends its block. -/
theorem Laid.last_of_leader {b k : ℕ} (hb : b < (leaders sizecode l).length)
    (hk : k ∈ (blockAt sizecode l (leaders sizecode l) b).instructions)
    (hleader : (l.getD k default).next ∈ leaders sizecode l) :
    (blockAt sizecode l (leaders sizecode l) b).instructions.getLast? = some k := by
  have hcuts := leaders_cuts sizecode l
  refine (getLast?_eq_some (h.block_pairwise b)).2 ⟨hk, fun j hj => ?_⟩
  obtain ⟨hklt, hwithin⟩ := h.mem_block.1 hk
  obtain ⟨hjlt, hwithin'⟩ := h.mem_block.1 hj
  by_contra hkj
  have hle := h.next_le k j (not_le.1 hkj) hjlt
  have hlen := h.length_pos k hklt
  obtain ⟨c, hc, hcx⟩ := List.getElem_of_mem hleader
  have hbc : b < c := by
    by_contra hcb
    have hmono := hcuts.le (not_lt.1 hcb) hb
    rw [List.getD_eq_getElem _ _ hc, hcx] at hmono
    have := hwithin.1
    unfold Instruction.next at hmono
    omega
  have hmono := hcuts.le (show b + 1 ≤ c from hbc) hc
  have := hwithin'.2 (by omega)
  rw [List.getD_eq_getElem _ _ hc, hcx] at hmono
  omega

end Leaders

/-! ## The edges -/

theorem mem_successorsOf {sorted : List ℕ} {n s : ℕ} {last : Instruction} :
    s ∈ successorsOf sorted n last ↔
      (s < sorted.length ∧ 0 ≤ last.jumpTarget ∧ (sorted.getD s 0 : ℤ) = last.jumpTarget) ∨
      ((isConditional last.opcode = true ∨
          (last.jumpTarget < 0 ∧ isReturn last.opcode = false)) ∧
        n + 1 < sorted.length ∧ s = n + 1) := by
  unfold successorsOf
  simp only [mem_sortUnique, List.mem_append, List.mem_filter, List.mem_range, Bool.and_eq_true,
    decide_eq_true_eq, Bool.or_eq_true, Bool.not_eq_true', beq_iff_eq]
  refine or_congr_right ?_
  split_ifs with h
  · rw [List.mem_singleton]
    exact ⟨fun hs => ⟨h.1, h.2, hs⟩, fun hs => hs.2.2⟩
  · exact ⟨fun hs => absurd hs List.not_mem_nil, fun hs => absurd ⟨hs.1, hs.2.1⟩ h⟩

/-- The three opcode classes together say where control continues, except for a `LOADB` that
skips. -/
theorem mem_continuations {i : Instruction} {t : ℤ}
    (hjump : 0 ≤ i.jumpTarget ↔
      isJump i.opcode = true ∧ ¬(i.opcode = .LOADB ∧ i.c = 0)) (hskip : ¬SkippingLoad i) :
    t ∈ continuations i ↔ (0 ≤ i.jumpTarget ∧ t = i.jumpTarget) ∨
      ((isConditional i.opcode = true ∨ (i.jumpTarget < 0 ∧ isReturn i.opcode = false)) ∧
        t = i.next) := by
  unfold SkippingLoad at hskip
  unfold continuations
  rw [← not_le, hjump]
  clear hjump
  cases hop : i.opcode <;> simp only [hop, true_and, ne_eq, not_not] at hskip ⊢
  case LOADB => simp [hskip, isConditional]
  all_goals simp [isJump, isConditional, isReturn, Opcode.isJumpD, Opcode.isFastCall,
    Opcode.isSkipC]

/-- An instruction that neither jumps nor returns goes on behind itself. -/
theorem continuations_eq_next {i : Instruction}
    (hjump : 0 ≤ i.jumpTarget ↔
      isJump i.opcode = true ∧ ¬(i.opcode = .LOADB ∧ i.c = 0)) (hnone : i.jumpTarget < 0)
    (hreturn : isReturn i.opcode = false) : continuations i = [(i.next : ℤ)] := by
  rw [← not_le, hjump] at hnone
  clear hjump
  unfold continuations
  cases hop : i.opcode <;> simp only [hop, true_and, isReturn, isJump, Opcode.isJumpD,
    Opcode.isFastCall, Opcode.isSkipC, Bool.true_or, Bool.or_true, not_not, false_and,
    reduceCtorEq, not_false_eq_true, not_true_eq_false, beq_self_eq_true] at hnone hreturn ⊢
  case LOADB => rw [if_pos hnone]

section Blocks

variable {sizecode : ℕ} {l : List Instruction} (h : Laid sizecode l)
include h

/-- A leader is behind the last instruction of a block exactly when the next block starts there. -/
theorem Laid.leader_eq_next {b s k : ℕ} (hb : b < (leaders sizecode l).length)
    (hs : s < (leaders sizecode l).length)
    (hk : (blockAt sizecode l (leaders sizecode l) b).instructions.getLast? = some k) :
    (leaders sizecode l).getD s 0 = (l.getD k default).next ↔
      b + 1 < (leaders sizecode l).length ∧ s = b + 1 := by
  have hcuts := leaders_cuts sizecode l
  obtain ⟨-, ⟨hlt, hnext⟩ | ⟨heq, hnext⟩⟩ := h.block_last hb hk
  · rw [hnext]
    exact ⟨fun heq => ⟨hlt, hcuts.inj hs hlt heq⟩, fun hc => by rw [hc.2]⟩
  · obtain ⟨j, hj, hoff⟩ := h.leader_offset (x := (leaders sizecode l).getD s 0) (by
      rw [List.getD_eq_getElem _ _ hs]
      exact List.getElem_mem hs)
    have := h.lt_size j hj
    omega

/-- The successors of a block whose last instruction does not skip. -/
theorem Laid.mem_successors {b s k : ℕ} (hb : b < (leaders sizecode l).length)
    (hs : s < (leaders sizecode l).length)
    (hk : (blockAt sizecode l (leaders sizecode l) b).instructions.getLast? = some k)
    (hskip : ¬SkippingLoad (l.getD k default)) :
    s ∈ (blockAt sizecode l (leaders sizecode l) b).successors ↔
      ((leaders sizecode l).getD s 0 : ℤ) ∈ continuations (l.getD k default) := by
  have hsucc : (blockAt sizecode l (leaders sizecode l) b).successors =
      successorsOf (leaders sizecode l) b (l.getD k default) := successors_blockAt hk
  obtain ⟨hklt, -⟩ := h.block_last hb hk
  rw [hsucc, mem_successorsOf, mem_continuations (h.jump_iff k hklt) hskip, Int.natCast_inj,
    h.leader_eq_next hb hs hk]
  exact or_congr_left (and_iff_right hs)

end Blocks

/-! ## The graph of `addFunction` -/

theorem predecessors_basicBlocksOf {sizecode : ℕ} {l : List Instruction} {b s : ℕ}
    (hs : s < (leaders sizecode l).length) :
    b ∈ ((basicBlocksOf sizecode l).getD s default).predecessors ↔
      b < (leaders sizecode l).length ∧
        s ∈ (blockAt sizecode l (leaders sizecode l) b).successors := by
  rw [List.getD_eq_getElem _ _ (by rwa [length_basicBlocksOf])]
  simp only [basicBlocksOf, List.getElem_map, List.getElem_range, List.mem_map, List.mem_filter,
    List.mem_range, decide_eq_true_eq]
  constructor
  · rintro ⟨block, ⟨⟨c, hc, rfl⟩, hsucc⟩, rfl⟩
    exact ⟨hc, hsucc⟩
  · rintro ⟨hb, hsucc⟩
    exact ⟨_, ⟨⟨b, hb, rfl⟩, hsucc⟩, rfl⟩

/-- The record that `addFunction` builds, block by block. -/
structure Built (sizecode : ℕ) (f : Function) : Prop where
  laid : Laid sizecode f.instructions
  count : f.blockCount = (leaders sizecode f.instructions).length
  instructions : ∀ b < f.blockCount, (f.block b).instructions =
    (blockAt sizecode f.instructions (leaders sizecode f.instructions) b).instructions
  successors : ∀ b < f.blockCount, f.successors b =
    (blockAt sizecode f.instructions (leaders sizecode f.instructions) b).successors
  predecessors : ∀ b < f.blockCount, ∀ s < f.blockCount,
    b ∈ (f.block s).predecessors ↔ s ∈ f.successors b
  blocks : f.basicBlocks.map (·.instructions) =
    (List.range (leaders sizecode f.instructions).length).map fun b =>
      (blockAt sizecode f.instructions (leaders sizecode f.instructions) b).instructions

theorem addFunction_built {p : Proto} (h : Validated p) (hpos : 0 < p.sizecode) (nextId : ℕ)
    (parentId : ℤ) (protoIndex : ℕ) :
    Built p.sizecode (addFunction p nextId parentId protoIndex).1 := by
  have hlaid := h.checked.laid hpos
  have hinstructions := addFunction_instructions p nextId parentId protoIndex
  have hblocks := addFunction_basicBlocks p nextId parentId protoIndex
  have hblock := addFunction_block p nextId parentId protoIndex
  generalize (addFunction p nextId parentId protoIndex).1 = f at *
  rw [← hinstructions] at hlaid hblock hblocks
  have hcount : f.blockCount = (leaders p.sizecode f.instructions).length := by
    unfold Function.blockCount
    rw [hblocks, length_basicBlocksOf]
  have hget : ∀ b < f.blockCount, ∃ preds, f.block b =
      { blockAt p.sizecode f.instructions (leaders p.sizecode f.instructions) b with
        predecessors := preds } := by
    intro b hb
    rcases hblock b with ⟨-, h⟩ | ⟨hle, -⟩
    · exact h
    · omega
  have hsuccessors : ∀ b < f.blockCount, f.successors b =
      (blockAt p.sizecode f.instructions (leaders p.sizecode f.instructions) b).successors := by
    intro b hb
    obtain ⟨preds, heq⟩ := hget b hb
    unfold Function.successors
    rw [heq]
  refine ⟨hlaid, hcount, fun b hb => ?_, hsuccessors, fun b hb s hs => ?_, ?_⟩
  · obtain ⟨preds, heq⟩ := hget b hb
    rw [heq]
  · unfold Function.block
    rw [hblocks, predecessors_basicBlocksOf (by omega), hsuccessors b hb]
    exact and_iff_right (by omega)
  · rw [hblocks]
    unfold basicBlocksOf
    dsimp only
    rw [List.map_map, List.map_map]
    rfl

namespace Function

variable {sizecode : ℕ} {f : Function} (h : Built sizecode f)
include h

theorem startsAt_iff {b : ℕ} (hb : b < f.blockCount) {t : ℤ} :
    f.StartsAt b t ↔ ((leaders sizecode f.instructions).getD b 0 : ℤ) = t := by
  obtain ⟨k, hk, hoff⟩ := h.laid.block_head (b := b) (by rw [← h.count]; exact hb)
  unfold StartsAt
  rw [h.instructions b hb, hk]
  constructor
  · rintro ⟨j, hj, rfl⟩
    obtain rfl := Option.some.inj hj
    exact congrArg Nat.cast hoff.symm
  · rintro rfl
    exact ⟨k, rfl, congrArg Nat.cast hoff⟩

theorem exists_last {b : ℕ} (hb : b < f.blockCount) :
    ∃ k, (f.block b).instructions.getLast? = some k := by
  obtain ⟨k, hk, -⟩ := h.laid.block_head (b := b) (by rw [← h.count]; exact hb)
  rw [h.instructions b hb]
  cases hlast : (blockAt sizecode f.instructions (leaders sizecode f.instructions)
      b).instructions.getLast? with
  | none =>
    rw [List.getLast?_eq_none_iff.1 hlast] at hk
    cases hk
  | some j => exact ⟨j, rfl⟩

/-- The block that an instruction with a leader behind it ends. -/
theorem exists_block {k : ℕ} (hk : k < f.instructions.length) :
    ∃ b < f.blockCount, k ∈ (f.block b).instructions := by
  obtain ⟨b, hb, hwithin⟩ := (leaders_cuts sizecode f.instructions).exists_within
    (Nat.zero_le (f.instruction k).offset)
  rw [← h.count] at hb
  refine ⟨b, hb, ?_⟩
  rw [h.instructions b hb, h.laid.mem_block]
  exact ⟨hk, hwithin⟩

/-- Without a skipping `LOADB` the graph is exact. -/
theorem blocksExact_of_noSkip
    (hskip : ∀ i ∈ f.instructions, ¬SkippingLoad i) : f.BlocksExact := by
  have hlaid := h.laid
  have hcuts := leaders_cuts sizecode f.instructions
  have hnoskip : ∀ k < f.instructions.length, ¬SkippingLoad (f.instruction k) := fun k hk => by
    unfold instruction
    rw [List.getD_eq_getElem _ _ hk]
    exact hskip _ (List.getElem_mem hk)
  refine ⟨?_, fun b hb => ?_, fun b hb k hk hnot => ?_, ?_, fun k hk ht => ?_, fun b hb s hs => ?_,
    h.predecessors⟩
  · rw [List.flatMap_def, h.blocks, ← List.flatMap_def]
    simp only [hlaid.blockAt_instructions]
    exact hcuts.flatMap_filter (fun _ _ => Nat.zero_le _)
      fun j k hjk hk => hlaid.offset_strictMono hjk hk
  · obtain ⟨k, hk⟩ := exists_last h hb
    intro hnil
    rw [hnil] at hk
    cases hk
  · have hb' : b < (leaders sizecode f.instructions).length := by rw [← h.count]; exact hb
    rw [h.instructions b hb] at hk hnot
    obtain ⟨hklt, -⟩ := hlaid.mem_block.1 hk
    have hnleader : (f.instruction k).next ∉ leaders sizecode f.instructions :=
      fun hleader => hnot (hlaid.last_of_leader hb' hk hleader)
    obtain ⟨j, hj, hkj⟩ : ∃ j ∈ (blockAt sizecode f.instructions
        (leaders sizecode f.instructions) b).instructions, k < j := by
      by_contra hmax
      push Not at hmax
      exact hnot ((getLast?_eq_some (hlaid.block_pairwise b)).2 ⟨hk, hmax⟩)
    obtain ⟨hjlt, -⟩ := hlaid.mem_block.1 hj
    have hend : (f.instruction k).next < sizecode :=
      (hlaid.next_le k j hkj hjlt).trans_lt (hlaid.lt_size j hjlt)
    have hquiet : ¬(0 ≤ (f.instruction k).jumpTarget ∨ isReturn (f.instruction k).opcode = true) :=
      fun hc => hnleader (mem_leaders.2 (Or.inr (Or.inr ⟨k, hklt, hc, hend, rfl⟩)))
    rw [not_or, not_le, Bool.not_eq_true] at hquiet
    refine (continuations_eq_next (hlaid.jump_iff k hklt) hquiet.1 hquiet.2).trans ?_
    exact congrArg (fun n : ℕ => [(n : ℤ)]) (hlaid.succ k (by omega)).symm
  · rw [startsAt_iff h (by rw [h.count]; exact hcuts.length_pos), hcuts.getD_zero]
    rfl
  · obtain ⟨j, hj, hoff⟩ := hlaid.target k hk ht
    have hleader : (f.instruction j).offset ∈ leaders sizecode f.instructions :=
      mem_leaders.2 (Or.inr (Or.inl ⟨k, hk, hoff.symm⟩))
    obtain ⟨b, hb, hbx⟩ := List.getElem_of_mem hleader
    refine ⟨b, by rw [h.count]; exact hb, ?_⟩
    rw [startsAt_iff h (by rw [h.count]; exact hb), List.getD_eq_getElem _ _ hb, hbx]
    exact hoff
  · obtain ⟨k, hk⟩ := exists_last h hb
    have hk' := hk
    rw [h.instructions b hb] at hk'
    have hb' : b < (leaders sizecode f.instructions).length := by rw [← h.count]; exact hb
    have hs' : s < (leaders sizecode f.instructions).length := by rw [← h.count]; exact hs
    obtain ⟨hklt, -⟩ := hlaid.block_last hb' hk'
    rw [h.successors b hb, hlaid.mem_successors hb' hs' hk' (hnoskip k hklt)]
    unfold CanContinue
    rw [hk]
    constructor
    · exact fun hmem => ⟨k, rfl, _, hmem, (startsAt_iff h hs).2 rfl⟩
    · rintro ⟨j, hj, t, ht, hstart⟩
      obtain rfl := Option.some.inj hj
      rw [startsAt_iff h hs] at hstart
      rw [hstart]
      exact ht

/-- The block of a skipping `LOADB` gets an edge to the next block, where the load never goes. -/
theorem not_blocksExact_of_skip {k : ℕ} (hk : k < f.instructions.length)
    (hskip : SkippingLoad (f.instruction k)) : ¬f.BlocksExact := by
  intro hexact
  have hlaid := h.laid
  obtain ⟨b, hb, hmem⟩ := exists_block h hk
  have hb' : b < (leaders sizecode f.instructions).length := by rw [← h.count]; exact hb
  rw [h.instructions b hb] at hmem
  have hnext : ((f.instruction k).next : ℤ) < (f.instruction k).jumpTarget := hlaid.skip k hk hskip
  have hjump : 0 ≤ (f.instruction k).jumpTarget := by omega
  obtain ⟨j, hj, hoff⟩ := hlaid.target k hk hjump
  have hend : (f.instruction k).next < sizecode := by
    have hlt := hlaid.lt_size j hj
    change _ = (f.instruction k).jumpTarget at hoff
    omega
  have hleader : (f.instruction k).next ∈ leaders sizecode f.instructions :=
    mem_leaders.2 (Or.inr (Or.inr ⟨k, hk, Or.inl hjump, hend, rfl⟩))
  have hlast := hlaid.last_of_leader hb' hmem hleader
  obtain ⟨-, ⟨hlt, hstart⟩ | ⟨-, hstart⟩⟩ := hlaid.block_last hb' hlast
  · have hlt' : b + 1 < f.blockCount := by rw [h.count]; exact hlt
    have hedge : b + 1 ∈ f.successors b := by
      rw [h.successors b hb, successors_blockAt hlast]
      show b + 1 ∈ successorsOf (leaders sizecode f.instructions) b (f.instruction k)
      exact mem_successorsOf.2 (Or.inr ⟨Or.inl (by rw [hskip.1]; rfl), hlt, rfl⟩)
    obtain ⟨k', hk', t, ht, hstarts⟩ := (hexact.edge_iff b hb (b + 1) hlt').1 hedge
    rw [h.instructions b hb, hlast] at hk'
    obtain rfl := Option.some.inj hk'
    unfold continuations at ht
    rw [hskip.1, if_neg hskip.2, List.mem_singleton] at ht
    rw [startsAt_iff h hlt', ht, ← hstart] at hstarts
    exact absurd hstarts (ne_of_lt hnext)
  · exact absurd hstart hend.ne

end Function

/-- The blocks of a validated prototype are exact if and only if no `LOADB` of it skips. -/
theorem addFunction_blocks {p : Proto} (h : Validated p) (hpos : 0 < p.sizecode) (nextId : ℕ)
    (parentId : ℤ) (protoIndex : ℕ) :
    (addFunction p nextId parentId protoIndex).1.BlocksExact ↔
      ∀ i ∈ decode p, ¬SkippingLoad i := by
  have hbuilt := addFunction_built h hpos nextId parentId protoIndex
  rw [← addFunction_instructions p nextId parentId protoIndex]
  refine ⟨fun hexact i hi hskip => ?_, Function.blocksExact_of_noSkip hbuilt⟩
  obtain ⟨k, hk, rfl⟩ := List.getElem_of_mem hi
  refine Function.not_blocksExact_of_skip hbuilt hk ?_ hexact
  unfold Function.instruction
  rwa [List.getD_eq_getElem _ _ hk]

/-- `JUMPIF R0` over a `LOADNIL`, `RETURN`. -/
def guarded : Proto :=
  { ident := 0, nups := 0, numparams := 0, maxstacksize := 1
    code := [0x00010019, 0x00000002, 0x00010016], k := [], p := [] }

theorem guarded_blocks : (addFunction guarded 0 (-1) 0).1.BlocksExact := by
  refine (addFunction_blocks (validated_root (by decide +kernel)) (by decide) 0 (-1) 0).2 ?_
  intro i hi hskip
  have hnone : ∀ i ∈ decode guarded, i.opcode ≠ .LOADB := by decide +kernel
  exact hnone i hi hskip.1

/-- `LOADB R0 1` over a `LOADNIL`, `RETURN`. -/
def skippingLoad : Proto :=
  { ident := 0, nups := 0, numparams := 0, maxstacksize := 1
    code := [0x01010003, 0x00000002, 0x00010016], k := [], p := [] }

/-- The block of the load has an edge to the `LOADNIL`, which the load always skips. -/
theorem skippingLoad_edge : validateProto skippingLoad = .ok () ∧
    1 ∈ (addFunction skippingLoad 0 (-1) 0).1.successors 0 ∧
    ¬(addFunction skippingLoad 0 (-1) 0).1.CanContinue 0 1 ∧
    ¬(addFunction skippingLoad 0 (-1) 0).1.BlocksExact := by
  have hedge : 1 ∈ (addFunction skippingLoad 0 (-1) 0).1.successors 0 := by decide +kernel
  have hlast : ((addFunction skippingLoad 0 (-1) 0).1.block 0).instructions.getLast? = some 0 := by
    decide +kernel
  have hhead : ((addFunction skippingLoad 0 (-1) 0).1.block 1).instructions.head? = some 1 := by
    decide +kernel
  have hto : continuations ((addFunction skippingLoad 0 (-1) 0).1.instruction 0) = [2] := by
    decide +kernel
  have hoffset : ((addFunction skippingLoad 0 (-1) 0).1.instruction 1).offset = 1 := by
    decide +kernel
  have hnot : ¬(addFunction skippingLoad 0 (-1) 0).1.CanContinue 0 1 := by
    rintro ⟨k, hk, t, ht, j, hj, hstart⟩
    rw [hlast] at hk
    obtain rfl := Option.some.inj hk
    rw [hhead] at hj
    obtain rfl := Option.some.inj hj
    rw [hto, List.mem_singleton] at ht
    rw [hoffset, ht] at hstart
    exact absurd hstart (by decide)
  refine ⟨by decide +kernel, hedge, hnot, fun hexact => ?_⟩
  exact hnot ((hexact.edge_iff 0 (by decide +kernel) 1 (by decide +kernel)).1 hedge)

end ByteVeil.IR
