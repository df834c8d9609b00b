import ByteVeil.IR.Ssa
import ByteVeil.IR.Validated
import Mathlib.Data.Set.Function

/-!
# Version numbers

The versions of the definitions and those of the phi nodes share the integers. Both are the entries of
one table with a row for each instruction, an empty row and a row for each block, so no two are equal.
Within the limits of the validator nothing that comes up on the way leaves the range of an `int`.
-/

namespace ByteVeil.IR

open ByteVeil.Luau

/-- What gets a version: a register defined by an instruction, or the phi node of a block and a
register. -/
inductive VersionSite
  | definition (k reg : ℕ)
  | phi (block reg : ℕ)
  deriving DecidableEq

/-- The register of a site. -/
def VersionSite.reg : VersionSite → ℕ
  | definition _ reg => reg
  | phi _ reg => reg

namespace Function

variable (f : Function)

/-- The sites of a function: its instructions and its blocks, with each register. -/
def HasSite : VersionSite → Prop
  | .definition k reg => k < f.instructions.length ∧ reg < f.registers
  | .phi block reg => block < f.blockCount ∧ reg < f.registers

/-- The version of a site. -/
def version : VersionSite → ℤ
  | .definition k reg => f.definitionVersion k reg
  | .phi block reg => f.phiVersion block reg

/-- The conversions, products and sums that the source makes to compute a version, in their order. -/
def versionSteps : VersionSite → List ℤ
  | .definition k reg =>
    [k, k * f.registers, 1 + k * f.registers, 1 + k * f.registers + reg]
  | .phi block reg =>
    let size : ℤ := f.instructions.length
    let phiBase := 1 + (size + 1) * f.registers
    [size, size + 1, (size + 1) * f.registers, phiBase, block * f.registers,
      phiBase + block * f.registers, phiBase + block * f.registers + reg]

theorem getLast?_versionSteps (site : VersionSite) :
    (f.versionSteps site).getLast? = some (f.version site) := by
  cases site <;> rfl

/-! ## One table -/

/-- The row of a site; between the instructions and the blocks one row stays empty. -/
def row : VersionSite → ℕ
  | .definition k _ => k
  | .phi block _ => f.instructions.length + 1 + block

variable {f}

theorem version_eq (site : VersionSite) :
    f.version site = 1 + (f.row site * f.registers + site.reg : ℕ) := by
  cases site with
  | definition k reg =>
    unfold version definitionVersion row VersionSite.reg
    push_cast
    omega
  | phi block reg =>
    unfold version phiVersion row VersionSite.reg
    push_cast
    rw [add_mul _ (block : ℤ)]
    omega

theorem HasSite.reg_lt {site : VersionSite} (h : f.HasSite site) : site.reg < f.registers := by
  cases site with
  | definition k reg => exact h.2
  | phi block reg => exact h.2

theorem HasSite.row_lt {site : VersionSite} (h : f.HasSite site) :
    f.row site < f.instructions.length + 1 + f.blockCount := by
  cases site with
  | definition k reg =>
    have hk : k < f.instructions.length := h.1
    show k < _
    omega
  | phi block reg =>
    have hblock : block < f.blockCount := h.1
    show f.instructions.length + 1 + block < _
    omega

/-- A site is known by its row and its register. -/
theorem eq_of_row_eq {site site' : VersionSite} (h : f.HasSite site) (h' : f.HasSite site')
    (hrow : f.row site = f.row site') (hreg : site.reg = site'.reg) : site = site' := by
  cases site with
  | definition k reg =>
    cases site' with
    | definition k' reg' => exact congrArg₂ VersionSite.definition hrow hreg
    | phi block reg' =>
      have hk : k < f.instructions.length := h.1
      have hrow : k = f.instructions.length + 1 + block := hrow
      omega
  | phi block reg =>
    cases site' with
    | definition k reg' =>
      have hk : k < f.instructions.length := h'.1
      have hrow : f.instructions.length + 1 + block = k := hrow
      omega
    | phi block' reg' =>
      have hrow : f.instructions.length + 1 + block = f.instructions.length + 1 + block' := hrow
      exact congrArg₂ VersionSite.phi (Nat.add_left_cancel hrow) hreg

/-- Different sites have different versions. -/
theorem version_injOn : Set.InjOn f.version {site | f.HasSite site} := by
  intro site h site' h' heq
  have hreg := HasSite.reg_lt h
  have hreg' := HasSite.reg_lt h'
  rw [version_eq, version_eq] at heq
  have htable : f.row site * f.registers + site.reg = f.row site' * f.registers + site'.reg := by
    exact_mod_cast Int.add_left_cancel heq
  have hpos : 0 < f.registers := by omega
  have hrow : f.row site = f.row site' := by
    have hdiv := congrArg (· / f.registers) htable
    simpa [Nat.mul_comm _ f.registers, Nat.mul_add_div hpos, Nat.div_eq_of_lt hreg,
      Nat.div_eq_of_lt hreg'] using hdiv
  rw [hrow] at htable
  exact eq_of_row_eq h h' hrow (Nat.add_left_cancel htable)

theorem version_pos (site : VersionSite) : 0 < f.version site := by
  rw [version_eq]
  omega

/-- Nothing on the way to a version is greater than the last entry of the table. -/
theorem mem_versionSteps {site : VersionSite} (h : f.HasSite site) {n : ℤ}
    (hn : n ∈ f.versionSteps site) :
    0 ≤ n ∧ n ≤ ((f.instructions.length + 1 + f.blockCount) * f.registers : ℕ) := by
  have hreg := h.reg_lt
  have hrow := h.row_lt
  -- the products of the two encodings, as far as the rows of the table reach
  have htable : ∀ m < f.instructions.length + 1 + f.blockCount,
      m * f.registers + f.registers ≤
        (f.instructions.length + 1 + f.blockCount) * f.registers := by
    intro m hm
    rw [← Nat.succ_mul]
    exact Nat.mul_le_mul_right _ hm
  have hself : f.instructions.length + 1 + f.blockCount ≤
      (f.instructions.length + 1 + f.blockCount) * f.registers :=
    Nat.le_mul_of_pos_right _ (by omega)
  cases site with
  | definition k reg =>
    have hk := htable k hrow
    have hreg : reg < f.registers := hreg
    have hlt : k < f.instructions.length + 1 + f.blockCount := hrow
    simp only [versionSteps, List.mem_cons, List.not_mem_nil, or_false] at hn
    rcases hn with rfl | rfl | rfl | rfl <;> constructor <;> norm_cast <;> omega
  | phi block reg =>
    have hreg : reg < f.registers := hreg
    have hblock : block < f.blockCount := h.1
    have hlast := htable (f.instructions.length + 1 + block) hrow
    rw [Nat.add_mul _ block] at hlast
    simp only [versionSteps, List.mem_cons, List.not_mem_nil, or_false] at hn
    rcases hn with rfl | rfl | rfl | rfl | rfl | rfl | rfl <;> constructor <;> norm_cast <;> omega

end Function

/-! ## Functions within the limits -/

theorem length_decodeFrom_le (p : Proto) (fuel pc : ℕ) : (decodeFrom p fuel pc).length ≤ fuel := by
  induction fuel generalizing pc with
  | zero => exact le_rfl
  | succ fuel ih =>
    unfold decodeFrom
    split_ifs
    · exact Nat.succ_le_succ (ih _)
    · exact Nat.zero_le _

theorem length_sortUnique_le (l : List ℕ) : (sortUnique l).length ≤ l.length := by
  unfold sortUnique
  rw [List.length_insertionSort]
  exact (List.dedup_sublist l).length_le

/-- Each instruction makes at most two leaders. -/
theorem length_leaders_le (sizecode : ℕ) (instructions : List Instruction) :
    (leaders sizecode instructions).length ≤ 2 * instructions.length + 1 := by
  unfold leaders
  refine (length_sortUnique_le _).trans ?_
  rw [List.length_append, List.length_cons, List.length_map, List.length_map]
  have htargets := List.length_filter_le (fun i : Instruction => 0 ≤ i.jumpTarget) instructions
  have hbehind := List.length_filter_le (fun i : Instruction =>
    (0 ≤ i.jumpTarget || isReturn i.opcode) && i.offset + i.length < sizecode) instructions
  omega

/-- The versions that are recorded are those of sites of the function. -/
theorem recorded_sites (p : Proto) (nextId : ℕ) (parentId : ℤ) (protoIndex : ℕ) :
    (∀ k < (addFunction p nextId parentId protoIndex).1.instructions.length,
      ∀ reg ∈ ((addFunction p nextId parentId protoIndex).1.instruction k).definitions,
        (addFunction p nextId parentId protoIndex).1.HasSite (.definition k reg)) ∧
    ∀ phi ∈ (addFunction p nextId parentId protoIndex).1.phiNodes,
      (addFunction p nextId parentId protoIndex).1.HasSite (.phi phi.block phi.reg) ∧
        phi.version =
          (addFunction p nextId parentId protoIndex).1.version (.phi phi.block phi.reg) := by
  have hgraph := addFunction_graph p nextId parentId protoIndex
  have hregisters : (addFunction p nextId parentId protoIndex).1.registers = p.maxstacksize := by
    cases p
    rfl
  have hinstructions := addFunction_instructions p nextId parentId protoIndex
  generalize (addFunction p nextId parentId protoIndex).1 = f at *
  refine ⟨fun k hk reg hreg => ⟨hk, ?_⟩, fun phi hphi => ?_⟩
  · unfold Function.instruction at hreg
    rw [hinstructions] at hk hreg
    rw [List.getD_eq_getElem _ _ hk, eq_decodeAt (List.getElem_mem hk)] at hreg
    rw [hregisters]
    exact lt_of_mem_definitions hreg
  · obtain ⟨hblock, hreg, hentry, heq⟩ := Function.mem_phiNodes hphi
    obtain ⟨t, -, -, hyes, hno⟩ := hgraph.ssa_spec hreg
    refine ⟨⟨hblock, hreg⟩, ?_⟩
    have hdiffers : phi.block ≠ 0 ∧ ∃ s, f.DiffersAt phi.reg s phi.block := by
      by_contra hnone
      rw [hno phi.block hblock hnone] at hentry
      exact absurd hentry (by decide)
    rw [heq]
    exact hyes phi.block hblock hdiffers

/-- In a function within the limits of the validator all versions are different, none is the initial
version or no version, and each step of their computation fits an `int`; the versions that are
recorded are among them. -/
theorem addFunction_versions (p : Proto) (hcode : p.sizecode ≤ 1000000)
    (hregisters : p.maxstacksize ≤ 255) (nextId : ℕ) (parentId : ℤ) (protoIndex : ℕ) :
    Set.InjOn (addFunction p nextId parentId protoIndex).1.version
      {site | (addFunction p nextId parentId protoIndex).1.HasSite site} ∧
    (∀ site, (addFunction p nextId parentId protoIndex).1.HasSite site →
      (addFunction p nextId parentId protoIndex).1.version site ≠ 0 ∧
      (addFunction p nextId parentId protoIndex).1.version site ≠ -1 ∧
      ∀ n ∈ (addFunction p nextId parentId protoIndex).1.versionSteps site, 0 ≤ n ∧ n < 2 ^ 31) ∧
    (∀ k < (addFunction p nextId parentId protoIndex).1.instructions.length,
      ∀ reg ∈ ((addFunction p nextId parentId protoIndex).1.instruction k).definitions,
        (addFunction p nextId parentId protoIndex).1.HasSite (.definition k reg)) ∧
    ∀ phi ∈ (addFunction p nextId parentId protoIndex).1.phiNodes,
      (addFunction p nextId parentId protoIndex).1.HasSite (.phi phi.block phi.reg) ∧
        phi.version =
          (addFunction p nextId parentId protoIndex).1.version (.phi phi.block phi.reg) := by
  obtain ⟨hdefinitions, hphis⟩ := recorded_sites p nextId parentId protoIndex
  refine ⟨Function.version_injOn, fun site hsite => ?_, hdefinitions, hphis⟩
  have hpos := Function.version_pos (f := (addFunction p nextId parentId protoIndex).1) site
  refine ⟨by omega, by omega, fun n hn => ?_⟩
  obtain ⟨hnonneg, hle⟩ := Function.mem_versionSteps hsite hn
  have hframe : (addFunction p nextId parentId protoIndex).1.registers ≤ 255 := by
    cases p
    exact hregisters
  have hlength : (addFunction p nextId parentId protoIndex).1.instructions.length ≤ 1000000 := by
    rw [addFunction_instructions]
    exact (length_decodeFrom_le p _ _).trans hcode
  have hblocks : (addFunction p nextId parentId protoIndex).1.blockCount ≤
      2 * (addFunction p nextId parentId protoIndex).1.instructions.length + 1 := by
    unfold Function.blockCount
    rw [addFunction_basicBlocks, addFunction_instructions, length_basicBlocksOf]
    exact length_leaders_le _ _
  generalize (addFunction p nextId parentId protoIndex).1 = f at *
  have htable : (f.instructions.length + 1 + f.blockCount) * f.registers ≤ 3000002 * 255 :=
    Nat.mul_le_mul (by omega) hframe
  omega

theorem lateArm_versions : Set.InjOn (addFunction lateArm 0 (-1) 0).1.version
    {site | (addFunction lateArm 0 (-1) 0).1.HasSite site} :=
  (addFunction_versions lateArm (by decide) (by decide) 0 (-1) 0).1

end ByteVeil.IR
