import ByteVeil.FlowGraph.Cuts
import ByteVeil.IR.Blocks
import ByteVeil.Lua51.Steps

/-!
# The exported control-flow graph

1. The blocks and edges that are printed.
2. A block ends with the operand words of its last instruction.
3. A block has the edges of its last instruction, but for the step behind it: only a test has that
   one.
4. The graph is exact if and only if no target stands behind an instruction that falls through and
   no numeric loop has an exit of its own.
-/

namespace ByteVeil.Lua51

open FlowGraph IR

/-! ## The printed graph -/

/-- The block starts of `cfgProto`. -/
def cfgStarts (p : Proto) : List ℕ :=
  sortUnique (0 :: p.code.flatMap fun i =>
    if 0 ≤ i.target then i.target.toNat :: if i.pc + 1 < p.size then [i.pc + 1] else [] else [])

/-- The last word of a block. -/
def cfgEnd (p : Proto) (b : ℕ) : ℤ :=
  if b + 1 < (cfgStarts p).length then (cfgStarts p).getD (b + 1) 0 - 1 else p.size - 1

/-- The instruction in the last word of a block. -/
def cfgLast (p : Proto) (b : ℕ) : Option Instr :=
  (p.code.filter fun i => (cfgStarts p).getD b 0 ≤ i.pc ∧ (i.pc : ℤ) ≤ cfgEnd p b).getLast?

/-- The edges printed for one block. -/
def cfgEdgesOf (p : Proto) (b : ℕ) : List (ℕ × ℕ) :=
  match cfgLast p b with
  | none => []
  | some last =>
    (if 0 ≤ last.target ∧ last.target.toNat ∈ cfgStarts p then
      [(b, (cfgStarts p).idxOf last.target.toNat)] else []) ++
    if isTest last.op ∧ b + 1 < (cfgStarts p).length then [(b, b + 1)] else []

/-- What `cfgProto` prints: the first and last words of the blocks, and the edges. -/
structure DotGraph where
  blocks : List (ℕ × ℤ)
  edges : List (ℕ × ℕ)

/-- `cfgProto`. -/
def cfgProto (p : Proto) : DotGraph where
  blocks := (List.range (cfgStarts p).length).map fun b => ((cfgStarts p).getD b 0, cfgEnd p b)
  edges := (List.range (cfgStarts p).length).flatMap (cfgEdgesOf p)

/-! ## What it should be -/

/-- The word lies in the block. -/
def InBlock (g : DotGraph) (b pc : ℕ) : Prop :=
  ∃ block ∈ g.blocks[b]?, block.1 ≤ pc ∧ (pc : ℤ) ≤ block.2

/-- The last instruction of a block. -/
structure IsLast (p : Proto) (g : DotGraph) (b pc : ℕ) : Prop where
  executable : IsExecutable p pc
  inBlock : InBlock g b pc
  greatest : ∀ k, IsExecutable p k → InBlock g b k → k ≤ pc

/-- The blocks cut the code into intervals, each block has a last instruction, and the edges are the
steps from last instructions to first ones. -/
structure CfgExact (p : Proto) (g : DotGraph) : Prop where
  partition : ∀ pc < p.size, ∃! b, InBlock g b pc
  intervals : ∀ block ∈ g.blocks, (block.1 : ℤ) ≤ block.2 ∧ block.2 < p.size
  entry : ∀ block ∈ g.blocks, IsExecutable p block.1
  last : ∀ b < g.blocks.length, ∃ pc, IsLast p g b pc
  inside : ∀ e ∈ g.edges, e.1 < g.blocks.length ∧ e.2 < g.blocks.length
  edge_iff : ∀ x < g.blocks.length, ∀ y, ∀ block ∈ g.blocks[y]?,
    ((x, y) ∈ g.edges ↔ ∃ pc, IsLast p g x pc ∧ StepEdge p pc block.1)

/-- No target stands behind an instruction that falls through, and a numeric loop is the last
instruction or jumps behind itself. -/
structure OnlyJumpsMeet (p : Proto) : Prop where
  fallsThrough : ∀ pc, IsExecutable p pc → (p.instr pc).fallsThrough = true →
    ∀ q, IsExecutable p q → (p.instr q).target ≠ (p.instr pc).behind
  loop : ∀ pc, IsExecutable p pc → (p.instr pc).op = .FORLOOP → pc + 1 < p.size →
    (p.instr pc).target = pc + 1

/-! ## Block starts -/

theorem mem_code_iff {p : Proto} {i : Instr} : i ∈ p.code ↔ ∃ pc < p.size, p.instr pc = i := by
  rw [List.mem_iff_getElem]
  constructor
  · rintro ⟨pc, hpc, rfl⟩
    exact ⟨pc, hpc, List.getD_eq_getElem _ _ hpc⟩
  · rintro ⟨pc, hpc, rfl⟩
    exact ⟨pc, hpc, (List.getD_eq_getElem _ _ hpc).symm⟩

section Accepted

variable {p : Proto} (hp : Accepted p)
include hp

theorem mem_cfgStarts {x : ℕ} : x ∈ cfgStarts p ↔ x = 0 ∨ ∃ q, IsExecutable p q ∧
    checksTarget (p.instr q) ∧ ((p.instr q).target = x ∨ (x = q + 1 ∧ q + 1 < p.size)) := by
  unfold cfgStarts
  rw [mem_sortUnique, List.mem_cons, List.mem_flatMap]
  refine or_congr_right ⟨?_, ?_⟩
  · rintro ⟨i, hi, hx⟩
    obtain ⟨q, hq, rfl⟩ := mem_code_iff.1 hi
    split_ifs at hx with htarget hnext
    · obtain ⟨hexec, hchecks⟩ := (hp.target_nonneg_iff hq).1 htarget
      rw [hp.pc_eq hq] at hnext hx
      refine ⟨q, hexec, hchecks, ?_⟩
      rcases List.mem_cons.1 hx with rfl | hx
      · exact Or.inl (Int.toNat_of_nonneg htarget).symm
      · exact Or.inr ⟨List.mem_singleton.1 hx, hnext⟩
    · obtain ⟨hexec, hchecks⟩ := (hp.target_nonneg_iff hq).1 htarget
      refine ⟨q, hexec, hchecks, Or.inl ?_⟩
      rw [List.mem_singleton.1 hx]
      exact (Int.toNat_of_nonneg htarget).symm
    · exact absurd hx List.not_mem_nil
  · rintro ⟨q, hexec, hchecks, hx⟩
    refine ⟨p.instr q, mem_code_iff.2 ⟨q, hexec.lt, rfl⟩, ?_⟩
    rw [if_pos ((hp.target_nonneg_iff hexec.lt).2 ⟨hexec, hchecks⟩), hp.pc_eq hexec.lt]
    rcases hx with hx | ⟨rfl, hlt⟩
    · rw [hx]
      exact List.mem_cons_self ..
    · rw [if_pos hlt]
      exact List.mem_cons_of_mem _ (List.mem_singleton_self _)

/-- Blocks start at instructions. -/
theorem cfgStarts_executable (hsize : 0 < p.size) {x : ℕ} (hx : x ∈ cfgStarts p) :
    IsExecutable p x := by
  rcases (mem_cfgStarts hp).1 hx with rfl | ⟨q, hexec, hchecks, htarget | ⟨rfl, hlt⟩⟩
  · exact hp.entry hsize
  · obtain ⟨hboundary, hlt⟩ := hp.target hexec hchecks
    rw [htarget] at hboundary hlt
    exact hboundary.2.2 hlt
  · have hboundary := (hp.behind hexec).1
    rw [hp.behind_of_target hexec hchecks] at hboundary
    exact hboundary.2.2 (by exact_mod_cast hlt)

theorem cfgStarts_cuts : Cuts 0 (cfgStarts p) :=
  cuts_of_zero_mem (sortUnique_pairwise _) ((mem_cfgStarts hp).2 (Or.inl rfl))

end Accepted

/-! ## Blocks -/

/-- The word behind a block. -/
def cfgStop (p : Proto) (b : ℕ) : ℕ :=
  if b + 1 < (cfgStarts p).length then (cfgStarts p).getD (b + 1) 0 else p.size

theorem cfgEnd_eq (p : Proto) (b : ℕ) : cfgEnd p b = cfgStop p b - 1 := by
  unfold cfgEnd cfgStop
  split_ifs <;> rfl

theorem length_blocks (p : Proto) : (cfgProto p).blocks.length = (cfgStarts p).length := by
  simp [cfgProto]

theorem mem_blocks {p : Proto} {b : ℕ} {block : ℕ × ℤ} : block ∈ (cfgProto p).blocks[b]? ↔
    b < (cfgStarts p).length ∧ block = ((cfgStarts p).getD b 0, cfgEnd p b) := by
  unfold cfgProto
  rw [List.getElem?_map, Option.mem_def, Option.map_eq_some_iff]
  constructor
  · rintro ⟨k, hk, rfl⟩
    obtain ⟨hlt, rfl⟩ := List.getElem?_eq_some_iff.1 hk
    rw [List.getElem_range]
    exact ⟨by simpa using hlt, rfl⟩
  · rintro ⟨hb, rfl⟩
    exact ⟨b, List.getElem?_range hb, rfl⟩

theorem inBlock_iff {p : Proto} {b pc : ℕ} : InBlock (cfgProto p) b pc ↔
    b < (cfgStarts p).length ∧ (cfgStarts p).getD b 0 ≤ pc ∧ pc < cfgStop p b := by
  unfold InBlock
  constructor
  · rintro ⟨block, hblock, hle, hge⟩
    obtain ⟨hb, rfl⟩ := mem_blocks.1 hblock
    dsimp only at hle hge
    rw [cfgEnd_eq] at hge
    exact ⟨hb, hle, by omega⟩
  · rintro ⟨hb, hle, hlt⟩
    refine ⟨_, mem_blocks.2 ⟨hb, rfl⟩, hle, ?_⟩
    dsimp only
    rw [cfgEnd_eq]
    omega

theorem inBlock_iff_within {p : Proto} {b pc : ℕ} (hpc : pc < p.size) : InBlock (cfgProto p) b pc ↔
    b < (cfgStarts p).length ∧ Within (cfgStarts p) b pc := by
  rw [inBlock_iff]
  refine and_congr_right fun hb => and_congr_right fun _ => ?_
  unfold cfgStop
  split_ifs with hnext
  · exact ⟨fun h _ => h, fun h => h hnext⟩
  · exact ⟨fun _ h => absurd h hnext, fun _ => hpc⟩

section Accepted

variable {p : Proto} (hp : Accepted p) (hsize : 0 < p.size)
include hp hsize

theorem start_executable {b : ℕ} (hb : b < (cfgStarts p).length) :
    IsExecutable p ((cfgStarts p).getD b 0) :=
  cfgStarts_executable hp hsize (mem_iff_getD.2 ⟨b, hb, rfl⟩)

theorem start_lt_stop {b : ℕ} (hb : b < (cfgStarts p).length) :
    (cfgStarts p).getD b 0 < cfgStop p b := by
  unfold cfgStop
  split_ifs with hnext
  · exact (cfgStarts_cuts hp).lt (Nat.lt_succ_self b) hnext
  · exact (start_executable hp hsize hb).lt

theorem stop_cases (b : ℕ) : cfgStop p b = p.size ∨ IsExecutable p (cfgStop p b) := by
  unfold cfgStop
  split_ifs with hnext
  · exact Or.inr (start_executable hp hsize hnext)
  · exact Or.inl rfl

theorem stop_le (b : ℕ) : cfgStop p b ≤ p.size := by
  rcases stop_cases hp hsize b with h | h
  · exact h.le
  · exact h.lt.le

/-- The last instruction of a block reaches to its end. -/
theorem IsLast.behind {b pc : ℕ} (h : IsLast p (cfgProto p) b pc) :
    (p.instr pc).behind = cfgStop p b := by
  obtain ⟨hboundary, hlt, -⟩ := hp.behind h.executable
  obtain ⟨hb, hle, hstop⟩ := inBlock_iff.1 h.inBlock
  refine le_antisymm ?_ (not_lt.1 fun hshort => ?_)
  · rcases stop_cases hp hsize b with heq | hexec
    · rw [heq]
      have := hboundary.2.1
      omega
    · exact hp.behind_le h.executable hexec hstop
  · have hexec := hboundary.2.2 (by have := stop_le hp hsize b; omega)
    have := h.greatest _ hexec (inBlock_iff.2
      ⟨hb, by rw [Int.toNat_natCast]; omega, by rwa [Int.toNat_natCast]⟩)
    rw [Int.toNat_natCast] at this
    omega

omit hsize in
/-- The instruction that reaches to the end of a block is its last one. -/
theorem isLast_of_behind {b pc : ℕ} (hpc : IsExecutable p pc) (hin : InBlock (cfgProto p) b pc)
    (hstop : (p.instr pc).behind = cfgStop p b) : IsLast p (cfgProto p) b pc := by
  refine ⟨hpc, hin, fun k hk hkin => not_lt.1 fun hlt => ?_⟩
  have := hp.behind_le hpc hk hlt
  have := (inBlock_iff.1 hkin).2.2
  omega

theorem exists_isLast {b : ℕ} (hb : b < (cfgStarts p).length) :
    ∃ pc, IsLast p (cfgProto p) b pc := by
  have hstart : IsExecutable p ((cfgStarts p).getD b 0) ∧
      InBlock (cfgProto p) b ((cfgStarts p).getD b 0) :=
    ⟨start_executable hp hsize hb, inBlock_iff.2 ⟨hb, le_rfl, start_lt_stop hp hsize hb⟩⟩
  classical
  let P : ℕ → Prop := fun k => IsExecutable p k ∧ InBlock (cfgProto p) b k
  have hspec : P (Nat.findGreatest P p.size) := Nat.findGreatest_spec hstart.1.lt.le hstart
  exact ⟨_, hspec.1, hspec.2, fun k hk hin => Nat.le_findGreatest hk.lt.le ⟨hk, hin⟩⟩

end Accepted

/-! ## Edges -/

theorem getLast?_filter_range {n : ℕ} {P : ℕ → Bool} (last : ℕ) (hlast : last < n) (h : P last = true)
    (hafter : ∀ k < n, last < k → P k = false) : ((List.range n).filter P).getLast? = some last := by
  have hsplit : List.range n = List.range last ++ last :: List.range' (last + 1) (n - last - 1) := by
    rw [List.range_eq_range', List.range_eq_range', ← List.range'_succ,
      show n - last - 1 + 1 = n - last by omega]
    have := List.range'_append_1 (s := 0) (m := last) (n := n - last)
    rw [Nat.zero_add, show last + (n - last) = n by omega] at this
    exact this.symm
  have hrest : (List.range' (last + 1) (n - last - 1)).filter P = [] := by
    rw [List.filter_eq_nil_iff]
    intro k hk
    have := List.mem_range'_1.1 hk
    simp [hafter k (by omega) (by omega)]
  rw [hsplit, List.filter_append, List.filter_cons_of_pos h, hrest, List.getLast?_concat]

section Accepted

variable {p : Proto} (hp : Accepted p) (hsize : 0 < p.size)
include hp hsize

/-- The instruction that decides the edges of a block is the word before the next one. -/
theorem cfgLast_eq {b : ℕ} (hb : b < (cfgStarts p).length) :
    cfgLast p b = some (p.instr (cfgStop p b - 1)) := by
  have hlt := start_lt_stop hp hsize hb
  have hle := stop_le hp hsize b
  have hcode : p.code = (List.range p.size).map p.instr := by
    refine List.ext_getElem (by simp [Proto.size]) fun k hk _ => ?_
    rw [List.getElem_map, List.getElem_range]
    exact (List.getD_eq_getElem _ _ hk).symm
  unfold cfgLast
  rw [hcode, List.filter_map, List.getLast?_map, getLast?_filter_range (cfgStop p b - 1)]
  · rfl
  · omega
  · rw [Function.comp_apply, decide_eq_true_eq, cfgEnd_eq, hp.pc_eq (by omega)]
    omega
  · intro k hk hgt
    rw [Function.comp_apply, decide_eq_false_iff_not, cfgEnd_eq, hp.pc_eq hk]
    omega

omit hp hsize in
/-- If the word that decides is an instruction, it is the last one. -/
theorem IsLast.last_word {b pc : ℕ} (h : IsLast p (cfgProto p) b pc)
    (hexec : IsExecutable p (cfgStop p b - 1)) : cfgStop p b - 1 = pc := by
  obtain ⟨hb, hle, hstop⟩ := inBlock_iff.1 h.inBlock
  have := h.greatest _ hexec (inBlock_iff.2 ⟨hb, by omega, by omega⟩)
  omega

/-- The edges that are printed for a block. -/
theorem IsLast.mem_edges_iff {b pc : ℕ} (h : IsLast p (cfgProto p) b pc) {x y : ℕ} :
    (x, y) ∈ cfgEdgesOf p b ↔ x = b ∧ y < (cfgStarts p).length ∧ checksTarget (p.instr pc) ∧
      (((cfgStarts p).getD y 0 : ℤ) = (p.instr pc).target ∨
        (isTest (p.instr pc).op = true ∧ (cfgStarts p).getD y 0 = pc + 1)) := by
  have hcuts := cfgStarts_cuts hp
  have hbehind := h.behind hp hsize
  obtain ⟨hb, hle, hstop⟩ := inBlock_iff.1 h.inBlock
  have hword : cfgStop p b - 1 < p.size := by
    have := stop_le hp hsize b
    omega
  unfold cfgEdgesOf
  rw [cfgLast_eq hp hsize hb]
  dsimp only
  by_cases hchecks : checksTarget (p.instr pc)
  · rw [hp.behind_of_target h.executable hchecks] at hbehind
    obtain ⟨hboundary, -⟩ := hp.target h.executable hchecks
    have htarget := Int.toNat_of_nonneg hboundary.1
    have hmem : (p.instr pc).target.toNat ∈ cfgStarts p :=
      (mem_cfgStarts hp).2 (Or.inr ⟨pc, h.executable, hchecks, Or.inl htarget.symm⟩)
    have hnext (y : ℕ) : y < (cfgStarts p).length ∧ (cfgStarts p).getD y 0 = pc + 1 ↔
        b + 1 < (cfgStarts p).length ∧ y = b + 1 := by
      rw [hbehind]
      unfold cfgStop
      split_ifs with hlt
      · exact ⟨fun hy => ⟨hlt, hcuts.inj hy.1 hlt hy.2⟩, fun hy => by rw [hy.2]; exact ⟨hlt, rfl⟩⟩
      · refine iff_of_false (fun hy => ?_) fun hy => hlt hy.1
        have := (start_executable hp hsize hy.1).lt
        omega
    rw [show cfgStop p b - 1 = pc by omega, if_pos ⟨hboundary.1, hmem⟩, List.mem_append,
      List.mem_singleton, Prod.mk.injEq, hcuts.eq_idxOf_iff hmem]
    constructor
    · rintro (⟨rfl, hy, htoNat⟩ | hedge)
      · exact ⟨rfl, hy, hchecks, Or.inl (by omega)⟩
      · split_ifs at hedge with htest
        · obtain ⟨rfl, rfl⟩ := Prod.mk.inj (List.mem_singleton.1 hedge)
          obtain ⟨hy, heq⟩ := (hnext (x + 1)).2 ⟨htest.2, rfl⟩
          exact ⟨rfl, hy, hchecks, Or.inr ⟨htest.1, heq⟩⟩
        · exact absurd hedge List.not_mem_nil
    · rintro ⟨rfl, hy, -, heq | ⟨htest, heq⟩⟩
      · exact Or.inl ⟨rfl, hy, by omega⟩
      · obtain ⟨hlt, rfl⟩ := (hnext y).1 ⟨hy, heq⟩
        exact Or.inr (by rw [if_pos ⟨htest, hlt⟩]; exact List.mem_singleton_self _)
  · -- the word that decides has no target, and is no test
    have hnot : ¬(IsExecutable p (cfgStop p b - 1) ∧ checksTarget (p.instr (cfgStop p b - 1))) := by
      rintro ⟨hexec, hc⟩
      rw [h.last_word hexec] at hc
      exact hchecks hc
    have htarget : ¬ 0 ≤ (p.instr (cfgStop p b - 1)).target := fun hc =>
      hnot ((hp.target_nonneg_iff hword).1 hc)
    have htest : ¬ isTest (p.instr (cfgStop p b - 1)).op = true := fun hc =>
      hnot ⟨hp.executable_of_isTest hword hc, Or.inl hc⟩
    rw [if_neg fun hc => htarget hc.1, if_neg fun hc => htest hc.1]
    exact iff_of_false List.not_mem_nil fun hc => hchecks hc.2.2.1

/-! ## The whole graph -/

theorem mem_edges {x y : ℕ} : (x, y) ∈ (cfgProto p).edges ↔
    x < (cfgStarts p).length ∧ (x, y) ∈ cfgEdgesOf p x := by
  unfold cfgProto
  rw [List.mem_flatMap]
  constructor
  · rintro ⟨b, hb, hedge⟩
    obtain ⟨pc, hlast⟩ := exists_isLast hp hsize (List.mem_range.1 hb)
    obtain rfl := ((hlast.mem_edges_iff hp hsize).1 hedge).1
    exact ⟨List.mem_range.1 hb, hedge⟩
  · rintro ⟨hx, hedge⟩
    exact ⟨x, List.mem_range.2 hx, hedge⟩

/-- The steps from the last instruction of a block to a first one. -/
theorem IsLast.stepEdge_iff {b pc y : ℕ} (h : IsLast p (cfgProto p) b pc)
    (hy : y < (cfgStarts p).length) : StepEdge p pc ((cfgStarts p).getD y 0) ↔
      ((p.instr pc).fallsThrough = true ∧ (cfgStarts p).getD y 0 = (p.instr pc).behind) ∨
      (checksTarget (p.instr pc) ∧ (((cfgStarts p).getD y 0 : ℤ) = (p.instr pc).target ∨
        ((isTest (p.instr pc).op = true ∨ (p.instr pc).op = .FORLOOP) ∧
          (cfgStarts p).getD y 0 = pc + 1))) := by
  unfold StepEdge
  rw [and_iff_right h.executable, and_iff_right (start_executable hp hsize hy).lt,
    hp.next_iff h.executable]
  norm_cast

omit hp hsize in
theorem IsLast.unique {b pc k : ℕ} (h : IsLast p (cfgProto p) b pc)
    (h' : IsLast p (cfgProto p) b k) : pc = k :=
  le_antisymm (h'.greatest pc h.executable h.inBlock) (h.greatest k h'.executable h'.inBlock)

/-- An instruction in front of a block start is the last one of a block. -/
theorem isLast_of_start {pc : ℕ} (hpc : IsExecutable p pc)
    (hstart : (p.instr pc).behind ∈ cfgStarts p) :
    ∃ b < (cfgStarts p).length, IsLast p (cfgProto p) b pc := by
  have hcuts := cfgStarts_cuts hp
  obtain ⟨b, hb, hwithin⟩ := hcuts.exists_within (Nat.zero_le pc)
  have hin := (inBlock_iff_within hpc.lt).2 ⟨hb, hwithin⟩
  obtain ⟨y, hy, hbehind⟩ := mem_iff_getD.1 hstart
  have hlt := (hp.behind hpc).2.1
  have hby : b < y := by
    by_contra hle
    have := hcuts.le (not_lt.1 hle) hb
    have := hwithin.1
    omega
  have hnext : b + 1 < (cfgStarts p).length := by omega
  have hstop : cfgStop p b = (cfgStarts p).getD (b + 1) 0 := if_pos hnext
  refine ⟨b, hb, isLast_of_behind hp hpc hin (le_antisymm ?_ ?_)⟩
  · rw [hstop]
    exact hp.behind_le hpc (start_executable hp hsize hnext) (hwithin.2 hnext)
  · rw [hstop, ← hbehind]
    exact hcuts.le hby hy

omit hsize in
/-- Whatever the edges, the blocks are intervals that cut the code. -/
theorem cfgProto_partition {pc : ℕ} (hpc : pc < p.size) : ∃! b, InBlock (cfgProto p) b pc := by
  have hcuts := cfgStarts_cuts hp
  obtain ⟨b, hb, hwithin⟩ := hcuts.exists_within (Nat.zero_le pc)
  refine ⟨b, (inBlock_iff_within hpc).2 ⟨hb, hwithin⟩, fun c hc => ?_⟩
  obtain ⟨hclt, hcwithin⟩ := (inBlock_iff_within hpc).1 hc
  exact hcuts.within_unique hclt hb hcwithin hwithin

theorem CfgExact.onlyJumpsMeet (h : CfgExact p (cfgProto p)) : OnlyJumpsMeet p := by
  have hedge : ∀ {b pc y : ℕ}, IsLast p (cfgProto p) b pc → y < (cfgStarts p).length →
      StepEdge p pc ((cfgStarts p).getD y 0) → (b, y) ∈ cfgEdgesOf p b := by
    intro b pc y hlast hy hstep
    have hb := (inBlock_iff.1 hlast.inBlock).1
    have hblock := mem_blocks.2 ⟨hy, rfl⟩
    exact ((mem_edges hp hsize).1 ((h.edge_iff b (by rwa [length_blocks]) y _ hblock).2
      ⟨pc, hlast, hstep⟩)).2
  constructor
  · intro pc hpc hfalls q hq htarget
    have hchecks : checksTarget (p.instr q) :=
      ((hp.target_nonneg_iff hq.lt).1 (by rw [htarget]; omega)).2
    have hmem : (p.instr pc).behind ∈ cfgStarts p :=
      (mem_cfgStarts hp).2 (Or.inr ⟨q, hq, hchecks, Or.inl htarget⟩)
    obtain ⟨b, -, hlast⟩ := isLast_of_start hp hsize hpc hmem
    obtain ⟨y, hy, hbehind⟩ := mem_iff_getD.1 hmem
    have := hedge hlast hy ((hlast.stepEdge_iff hp hsize hy).2 (Or.inl ⟨hfalls, hbehind⟩))
    exact Instr.not_checksTarget hfalls ((hlast.mem_edges_iff hp hsize).1 this).2.2.1
  · intro pc hpc hop hnext
    have hchecks : checksTarget (p.instr pc) := Or.inr (Or.inr (Or.inl hop))
    have hmem : pc + 1 ∈ cfgStarts p :=
      (mem_cfgStarts hp).2 (Or.inr ⟨pc, hpc, hchecks, Or.inr ⟨rfl, hnext⟩⟩)
    obtain ⟨b, -, hlast⟩ := isLast_of_start hp hsize hpc
      (by rwa [hp.behind_of_target hpc hchecks])
    obtain ⟨y, hy, hbehind⟩ := mem_iff_getD.1 hmem
    have := hedge hlast hy ((hlast.stepEdge_iff hp hsize hy).2
      (Or.inr ⟨hchecks, Or.inr ⟨Or.inr hop, hbehind⟩⟩))
    rcases ((hlast.mem_edges_iff hp hsize).1 this).2.2.2 with heq | ⟨htest, -⟩
    · rw [← heq, hbehind]
      push_cast
      rfl
    · rw [hop] at htest
      cases htest

/-- A block gets all edges of its last instruction. -/
theorem OnlyJumpsMeet.mem_edges_iff (h : OnlyJumpsMeet p) {b pc y : ℕ}
    (hlast : IsLast p (cfgProto p) b pc) (hy : y < (cfgStarts p).length) :
    (b, y) ∈ cfgEdgesOf p b ↔ StepEdge p pc ((cfgStarts p).getD y 0) := by
  rw [hlast.mem_edges_iff hp hsize, hlast.stepEdge_iff hp hsize hy, and_iff_right rfl,
    and_iff_right hy]
  constructor
  · rintro ⟨hchecks, heq | ⟨htest, heq⟩⟩
    · exact Or.inr ⟨hchecks, Or.inl heq⟩
    · exact Or.inr ⟨hchecks, Or.inr ⟨Or.inl htest, heq⟩⟩
  · rintro (⟨hfalls, heq⟩ | ⟨hchecks, heq | ⟨htest | hop, heq⟩⟩)
    · -- a block starts there for a target only
      exfalso
      rcases (mem_cfgStarts hp).1 (mem_iff_getD.2 ⟨y, hy, heq⟩) with
        hzero | ⟨q, hq, hchecks, htarget | ⟨hnext, -⟩⟩
      · have := (hp.behind hlast.executable).2.1
        omega
      · exact h.fallsThrough pc hlast.executable hfalls q hq htarget
      · rw [← hp.behind_of_target hq hchecks] at hnext
        obtain rfl := hp.behind_inj hlast.executable hq hnext
        exact Instr.not_checksTarget hfalls hchecks
    · exact ⟨hchecks, Or.inl heq⟩
    · exact ⟨hchecks, Or.inr ⟨htest, heq⟩⟩
    · have hlt := (start_executable hp hsize hy).lt
      rw [heq] at hlt
      refine ⟨hchecks, Or.inl ?_⟩
      rw [heq, h.loop pc hlast.executable hop hlt]
      push_cast
      rfl

/-- The exported graph of a prototype with code is exact if and only if control meets at the targets
of jumps and tests only. -/
theorem cfgExact_iff : CfgExact p (cfgProto p) ↔ OnlyJumpsMeet p := by
  refine ⟨CfgExact.onlyJumpsMeet hp hsize, fun h => ?_⟩
  constructor
  · exact fun pc hpc => cfgProto_partition hp hpc
  · intro block hblock
    obtain ⟨b, hb⟩ := List.mem_iff_getElem?.1 hblock
    obtain ⟨hlt, rfl⟩ := mem_blocks.1 hb
    have hstart := start_lt_stop hp hsize hlt
    have hstop := stop_le hp hsize b
    rw [cfgEnd_eq]
    exact ⟨by omega, by omega⟩
  · intro block hblock
    obtain ⟨b, hb⟩ := List.mem_iff_getElem?.1 hblock
    obtain ⟨hlt, rfl⟩ := mem_blocks.1 hb
    exact start_executable hp hsize hlt
  · intro b hb
    rw [length_blocks] at hb
    exact exists_isLast hp hsize hb
  · rintro ⟨x, y⟩ he
    obtain ⟨hx, hedge⟩ := (mem_edges hp hsize).1 he
    obtain ⟨pc, hlast⟩ := exists_isLast hp hsize hx
    rw [length_blocks]
    exact ⟨hx, ((hlast.mem_edges_iff hp hsize).1 hedge).2.1⟩
  · intro x hx y block hblock
    obtain ⟨hy, rfl⟩ := mem_blocks.1 hblock
    rw [length_blocks] at hx
    rw [mem_edges hp hsize, and_iff_right hx]
    constructor
    · intro hedge
      obtain ⟨pc, hlast⟩ := exists_isLast hp hsize hx
      exact ⟨pc, hlast, (h.mem_edges_iff hp hsize hlast hy).1 hedge⟩
    · rintro ⟨pc, hlast, hstep⟩
      exact (h.mem_edges_iff hp hsize hlast hy).2 hstep

end Accepted

/-- `LOADNIL R0`, `RETURN`. -/
def nilReturn : Proto := mainOf (chunkHeader ++ functionBytes 0 0 0 2 [3, 30 + 8388608] [] [])

theorem accepted_nilReturn : Accepted nilReturn := accepted_mainOf (by decide +kernel)

theorem cfgExact_iff_nilReturn : CfgExact nilReturn (cfgProto nilReturn) ∧
    (cfgProto nilReturn).blocks = [(0, 1)] := by
  have htarget : ∀ q < nilReturn.size, (nilReturn.instr q).target = -1 := by decide +kernel
  have hop : ∀ q < nilReturn.size, (nilReturn.instr q).op ≠ .FORLOOP := by decide +kernel
  refine ⟨(cfgExact_iff accepted_nilReturn (by decide +kernel)).2 ⟨fun pc _ _ q hq => ?_,
    fun pc hpc h => absurd h (hop pc hpc.lt)⟩, by decide +kernel⟩
  rw [htarget q hq.lt]
  omega

/-- `TEST R0`, `JMP` to the end, `MOVE R0 R0`, `RETURN`. -/
def guardedMove : Proto :=
  mainOf (chunkHeader ++ functionBytes 0 0 0 2 [26, 22 + 131072 * 16384, 0, 30 + 8388608] [] [])

theorem accepted_guardedMove : Accepted guardedMove := accepted_mainOf (by decide +kernel)

/-- Control passes from the block of the `MOVE` to that of the `RETURN`, but no edge is printed. -/
theorem guardedMove_misses_edge : Accepted guardedMove ∧
    cfgStarts guardedMove = [0, 1, 2, 3] ∧ StepEdge guardedMove 2 3 ∧
    (cfgProto guardedMove).edges = [(0, 2), (0, 1), (1, 3)] ∧
    ¬ CfgExact guardedMove (cfgProto guardedMove) := by
  refine ⟨accepted_guardedMove, by decide +kernel,
    ⟨by decide +kernel, by decide +kernel, true, by decide +kernel⟩, by decide +kernel, fun h => ?_⟩
  exact (h.onlyJumpsMeet accepted_guardedMove (by decide +kernel)).fallsThrough 2 (by decide +kernel)
    (by decide +kernel) 1 (by decide +kernel) (by decide +kernel)

end ByteVeil.Lua51
