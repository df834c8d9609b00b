import ByteVeil.FlowGraph.Propagation
import ByteVeil.FlowGraph.Sweep
import ByteVeil.IR.Blocks
import ByteVeil.IR.Validate
import Mathlib.Data.Fintype.BigOperators
import Mathlib.Tactic.Positivity

/-!
# Register SSA

The versions of the definitions, the iteration over the incoming and outgoing versions of the blocks
and the phi nodes. The iteration never withdraws a phi once recorded and gives the entry block the
initial versions whatever flows back into it.

1. The iteration as a propagation of values through joins, register by register.
2. It ends at a fixpoint.
3. The phi nodes are the joins of that fixpoint exactly when every register is steady
   (`SteadyRegisters`).
-/

namespace ByteVeil.IR

open ByteVeil.Luau FlowGraph

/-- The vectors of the iteration; `-1` stands for no version. -/
structure SsaState where
  incoming : List (List ℤ)
  outgoing : List (List ℤ)
  phiVersions : List (List ℤ)

/-- A phi node; the incoming versions are in the order of the incoming blocks. -/
structure PhiNode where
  block : ℕ
  reg : ℕ
  version : ℤ
  incomingBlocks : List ℕ
  incomingVersions : List ℤ

/-- An entry of a vector of versions. -/
def entry (rows : List (List ℤ)) (block reg : ℕ) : ℤ := (rows.getD block []).getD reg (-1)

/-- `differs` after the loop over the candidates. -/
def differs : List ℤ → Bool
  | [] => false
  | value :: candidates => candidates.any (· != value)

namespace Function

variable (f : Function)

/-- `definitionVersions`: the version of register `reg` defined by instruction `k`. -/
def definitionVersion (k reg : ℕ) : ℤ := 1 + k * f.registers + reg

/-- `phi`: the version of the phi node of a block and a register. -/
def phiVersion (block reg : ℕ) : ℤ :=
  1 + (f.instructions.length + 1) * f.registers + block * f.registers + reg

/-- The outgoing versions of the predecessors. -/
def candidates (outgoing : List (List ℤ)) (block reg : ℕ) : List ℤ :=
  (f.predecessors block).map fun predecessor => entry outgoing predecessor reg

/-- `next[reg]`. -/
def nextValue (outgoing : List (List ℤ)) (block reg : ℕ) : ℤ :=
  if block = 0 then 0
  else
    match f.candidates outgoing block reg with
    | [] => -1
    | value :: rest => if differs (value :: rest) then f.phiVersion block reg else value

/-- `phiVersions[block][reg]` after a visit of the block. -/
def nextPhi (s : SsaState) (block reg : ℕ) : ℤ :=
  if block ≠ 0 ∧ differs (f.candidates s.outgoing block reg) then f.phiVersion block reg
  else entry s.phiVersions block reg

/-- `out`: the versions after the definitions of the block. -/
def outOf (block : ℕ) (next : List ℤ) : List ℤ :=
  (f.block block).instructions.foldl (fun out k =>
    (f.instruction k).definitions.foldl (fun out reg =>
      if reg < f.registers then out.set reg (f.definitionVersion k reg) else out) out) next

/-- One visit of a block. -/
def ssaStep (block : ℕ) (s : SsaState) : SsaState × Bool :=
  let next := (List.range f.registers).map (f.nextValue s.outgoing block)
  let out := f.outOf block next
  ({ incoming := s.incoming.set block next
     outgoing := s.outgoing.set block out
     phiVersions := s.phiVersions.set block ((List.range f.registers).map (f.nextPhi s block)) },
   next != s.incoming.getD block [] || out != s.outgoing.getD block [])

/-- No versions at all. -/
def ssaInit : SsaState :=
  let rows := List.replicate f.blockCount (List.replicate f.registers (-1))
  { incoming := rows, outgoing := rows, phiVersions := rows }

/-- No fewer than the versions there are, `-1` included. -/
def versionBound : ℕ :=
  2 + (f.instructions.length + 1) * f.registers + f.blockCount * f.registers

/-- Rounds enough for the iteration to end: more than there are vectors of outgoing versions. -/
def ssaFuel : ℕ := (f.versionBound ^ f.registers) ^ f.blockCount + 2

/-- The vectors at the end of the iteration. -/
def ssa : SsaState := settle f.ssaStep (List.range f.blockCount) f.ssaFuel f.ssaInit

/-- `incoming` at the fixpoint. -/
def incoming (block reg : ℕ) : ℤ := entry f.ssa.incoming block reg

/-- `outgoing` at the fixpoint. -/
def outgoing (block reg : ℕ) : ℤ := entry f.ssa.outgoing block reg

/-- `phiNodes`. -/
def phiNodes : List PhiNode :=
  (List.range f.blockCount).flatMap fun block =>
    ((List.range f.registers).filter fun reg => 0 ≤ entry f.ssa.phiVersions block reg).map fun reg =>
      { block := block, reg := reg, version := entry f.ssa.phiVersions block reg
        incomingBlocks := f.predecessors block
        incomingVersions := f.candidates f.ssa.outgoing block reg }

/-- The values that flow into a block: what the predecessors send, and the initial version at the
entry. -/
def FlowsIn (block reg : ℕ) (v : ℤ) : Prop :=
  (∃ p ∈ f.predecessors block, v = f.outgoing p reg) ∨ (block = 0 ∧ v = 0)

/-- There is a phi node for the block and the register. -/
def HasPhi (block reg : ℕ) : Prop := ∃ phi ∈ f.phiNodes, phi.block = block ∧ phi.reg = reg

/-- The phi nodes are the joins of the fixpoint. -/
structure SsaConsistent : Prop where
  hasPhi_iff : ∀ b < f.blockCount, ∀ r < f.registers,
    f.HasPhi b r ↔ ∃ v w, f.FlowsIn b r v ∧ f.FlowsIn b r w ∧ v ≠ w
  phi : ∀ phi ∈ f.phiNodes, f.incoming phi.block phi.reg = phi.version ∧
    phi.incomingBlocks = f.predecessors phi.block ∧
    phi.incomingVersions = (f.predecessors phi.block).map (f.outgoing · phi.reg)
  no_phi : ∀ b < f.blockCount, ∀ r < f.registers, ¬ f.HasPhi b r →
    ∀ p ∈ f.predecessors b, f.incoming b r = f.outgoing p r

/-- The block defines the register. -/
def Defines (block reg : ℕ) : Prop :=
  ∃ k ∈ (f.block block).instructions, reg ∈ (f.instruction k).definitions

/-- Blocks whose outgoing version of `reg` does not depend on their predecessors. -/
def SetsVersion (reg block : ℕ) : Prop := block = 0 ∨ f.Defines block reg

/-- Nothing but the initial versions flows back into the entry, and where all predecessors of a block
lead back to one block, what they send reaches it in the same round. -/
structure SteadyRegisters : Prop where
  entry : ∀ r < f.registers, ∀ p ∈ f.predecessors 0,
    ¬ f.Defines 0 r ∧ LeadsTo f.predecessors (f.SetsVersion r) 0 p
  joins : ∀ r < f.registers, ∀ b, b ≠ 0 →
    (∃ o, ∀ p ∈ f.predecessors b, LeadsTo f.predecessors (f.SetsVersion r) o p) →
    ∀ k, ∀ p ∈ f.predecessors b, ∀ q ∈ f.predecessors b,
      DeliversBy f.predecessors (f.SetsVersion r) b p k →
      DeliversBy f.predecessors (f.SetsVersion r) b q k

/-! ## One round -/

/-- The vectors have a row for each block and an entry for each register. -/
def Shaped (rows : List (List ℤ)) : Prop :=
  rows.length = f.blockCount ∧ ∀ b < f.blockCount, (rows.getD b []).length = f.registers

/-- All three vectors are shaped. -/
structure WellShaped (s : SsaState) : Prop where
  incoming : f.Shaped s.incoming
  outgoing : f.Shaped s.outgoing
  phiVersions : f.Shaped s.phiVersions

variable {f}

theorem getD_set_row (rows : List (List ℤ)) (b c : ℕ) (l : List ℤ) :
    (rows.set b l).getD c [] = if c = b ∧ b < rows.length then l else rows.getD c [] := by
  simp only [List.getD_eq_getElem?_getD, List.getElem?_set]
  by_cases hbc : b = c
  · subst hbc
    by_cases hb : b < rows.length
    · simp [hb]
    · simp [hb]
  · simp [hbc, Ne.symm hbc]

theorem Shaped.set {rows : List (List ℤ)} (h : f.Shaped rows) (b : ℕ) {l : List ℤ}
    (hl : l.length = f.registers) : f.Shaped (rows.set b l) := by
  refine ⟨by simpa using h.1, fun c hc => ?_⟩
  rw [getD_set_row]
  split_ifs
  · exact hl
  · exact h.2 c hc

/-- The version of the last definition of a register in a block. -/
def lastVersion (f : Function) (block reg : ℕ) : Option ℤ :=
  (((f.block block).instructions.filter fun k =>
    reg < f.registers ∧ reg ∈ (f.instruction k).definitions).getLast?).map
      fun k => f.definitionVersion k reg

theorem length_foldl_set {l : List ℕ} {g : ℕ → ℤ} {p : ℕ → Prop} [DecidablePred p]
    (out : List ℤ) :
    (l.foldl (fun out reg => if p reg then out.set reg (g reg) else out) out).length =
      out.length := by
  induction l generalizing out with
  | nil => rfl
  | cons a l ih =>
    rw [List.foldl_cons, ih]
    split_ifs
    · exact List.length_set ..
    · rfl

theorem getD_foldl_set {l : List ℕ} {g : ℕ → ℤ} {n reg : ℕ} (out : List ℤ) (hout : out.length = n) :
    (l.foldl (fun out reg => if reg < n then out.set reg (g reg) else out) out).getD reg (-1) =
      if reg < n ∧ reg ∈ l then g reg else out.getD reg (-1) := by
  induction l generalizing out with
  | nil => simp
  | cons a l ih =>
    rw [List.foldl_cons, ih _ (by split_ifs <;> simp [hout])]
    by_cases ha : a < n
    · rw [if_pos ha]
      by_cases hra : reg = a
      · subst hra
        by_cases hl : reg ∈ l
        · simp [ha, hl]
        · simp [ha, hl, List.getD_eq_getElem?_getD, hout]
      · simp [hra, List.getD_eq_getElem?_getD, Ne.symm hra]
    · rw [if_neg ha]
      by_cases hra : reg = a
      · subst hra
        simp [ha]
      · simp [hra]

theorem length_outOf (b : ℕ) (next : List ℤ) : (f.outOf b next).length = next.length := by
  unfold outOf
  induction (f.block b).instructions generalizing next with
  | nil => rfl
  | cons k l ih => rw [List.foldl_cons, ih, length_foldl_set]

theorem getD_outOf (b reg : ℕ) (next : List ℤ) (hnext : next.length = f.registers) :
    (f.outOf b next).getD reg (-1) = (f.lastVersion b reg).getD (next.getD reg (-1)) := by
  unfold outOf lastVersion
  induction (f.block b).instructions generalizing next with
  | nil => rfl
  | cons k l ih =>
    rw [List.foldl_cons, ih _ (by rw [length_foldl_set, hnext]), getD_foldl_set next hnext,
      List.filter_cons]
    by_cases hk : reg < f.registers ∧ reg ∈ (f.instruction k).definitions
    · rw [if_pos hk, if_pos (by simpa using hk)]
      cases hl : (l.filter fun k =>
        decide (reg < f.registers ∧ reg ∈ (f.instruction k).definitions)).getLast? with
      | none =>
        rw [List.getLast?_eq_none_iff.1 hl]
        rfl
      | some k' =>
        rw [List.getLast?_cons, hl]
        rfl
    · rw [if_neg hk, if_neg (by simpa using hk)]

theorem lastVersion_eq_none {b reg : ℕ} (hreg : reg < f.registers) :
    f.lastVersion b reg = none ↔ ¬ f.Defines b reg := by
  unfold lastVersion Defines
  rw [Option.map_eq_none_iff, List.getLast?_eq_none_iff, List.filter_eq_nil_iff]
  push Not
  simp [hreg]

theorem exists_of_lastVersion {b reg : ℕ} {v : ℤ} (h : f.lastVersion b reg = some v) :
    ∃ k ∈ (f.block b).instructions, v = f.definitionVersion k reg := by
  unfold lastVersion at h
  obtain ⟨k, hk, rfl⟩ := Option.map_eq_some_iff.1 h
  exact ⟨k, (List.mem_filter.1 (List.mem_of_getLast? hk)).1, rfl⟩

/-- The rows of a block in the three vectors. -/
def rowsOf (s : SsaState) (b : ℕ) : List ℤ × List ℤ × List ℤ :=
  (s.incoming.getD b [], s.outgoing.getD b [], s.phiVersions.getD b [])

theorem ssaStep_shaped {b : ℕ} {s : SsaState} (h : f.WellShaped s) :
    f.WellShaped (f.ssaStep b s).1 := by
  have hlen : ∀ g : ℕ → ℤ, ((List.range f.registers).map g).length = f.registers := by simp
  exact ⟨h.incoming.set b (hlen _), h.outgoing.set b (by rw [length_outOf, hlen]),
    h.phiVersions.set b (hlen _)⟩

theorem rowsOf_ssaStep {b : ℕ} {s : SsaState} (h : f.WellShaped s) (hb : b < f.blockCount) (c : ℕ) :
    rowsOf (f.ssaStep b s).1 c =
      if c = b then
        ((List.range f.registers).map (f.nextValue s.outgoing b),
          f.outOf b ((List.range f.registers).map (f.nextValue s.outgoing b)),
          (List.range f.registers).map (f.nextPhi s b))
      else rowsOf s c := by
  simp only [rowsOf, ssaStep, getD_set_row, h.incoming.1, h.outgoing.1, h.phiVersions.1, hb,
    and_true]
  split_ifs <;> rfl

theorem ssaStep_flag {b : ℕ} {s : SsaState} (h : f.WellShaped s) (hb : b < f.blockCount) :
    (f.ssaStep b s).2 = true ↔
      ((rowsOf s b).1 ≠ (rowsOf (f.ssaStep b s).1 b).1 ∨
        (rowsOf s b).2.1 ≠ (rowsOf (f.ssaStep b s).1 b).2.1) := by
  rw [rowsOf_ssaStep h hb, if_pos rfl]
  simp only [ssaStep, rowsOf, Bool.or_eq_true, bne_iff_ne, ne_comm]

theorem ssaInit_shaped : f.WellShaped f.ssaInit := by
  have h : f.Shaped (List.replicate f.blockCount (List.replicate f.registers (-1))) := by
    refine ⟨by simp, fun b hb => ?_⟩
    rw [List.getD_eq_getElem _ _ (by simpa using hb)]
    simp
  exact ⟨h, h, h⟩

/-! ## Rounds -/

/-- The vectors after `t` rounds. -/
def ssaRound (f : Function) : ℕ → SsaState :=
  rounds f.ssaStep (List.range f.blockCount) f.ssaInit

/-- What one round does to the rows of a shaped state, with the flag of the round. -/
theorem sweep_ssaStep {s : SsaState} (hs : f.WellShaped s) :
    let r := sweep f.ssaStep (List.range f.blockCount) s
    f.WellShaped r.1 ∧
    (∀ c, f.blockCount ≤ c → rowsOf r.1 c = rowsOf s c) ∧
    (∀ b < f.blockCount, ∃ v, f.WellShaped v ∧ rowsOf r.1 b = rowsOf (f.ssaStep b v).1 b ∧
      ∀ c, rowsOf v c = if c < b then rowsOf r.1 c else rowsOf s c) ∧
    (r.2 = true ↔ ∃ b < f.blockCount, (rowsOf s b).1 ≠ (rowsOf r.1 b).1 ∨
      (rowsOf s b).2.1 ≠ (rowsOf r.1 b).2.1) :=
  sweep_rows rowsOf (fun x y => x.1 ≠ y.1 ∨ x.2.1 ≠ y.2.1)
    (fun b _ s h => ssaStep_shaped h)
    (fun b hb s h c hc => by rw [rowsOf_ssaStep h hb, if_neg hc])
    (fun b hb s h => ssaStep_flag h hb) hs

theorem ssaRound_shaped (t : ℕ) : f.WellShaped (f.ssaRound t) := by
  induction t with
  | zero => exact ssaInit_shaped
  | succ t ih => exact (sweep_ssaStep ih).1

theorem entry_eq_rowsOf (s : SsaState) (b reg : ℕ) :
    entry s.incoming b reg = (rowsOf s b).1.getD reg (-1) ∧
    entry s.outgoing b reg = (rowsOf s b).2.1.getD reg (-1) ∧
    entry s.phiVersions b reg = (rowsOf s b).2.2.getD reg (-1) := ⟨rfl, rfl, rfl⟩

/-- What the visit of `b` in round `t + 1` sees of `p`. -/
def seenBy (f : Function) (t b reg p : ℕ) : ℤ :=
  entry (f.ssaRound (if p < b then t + 1 else t)).outgoing p reg

theorem nextValue_eq (outgoing : List (List ℤ)) (b reg : ℕ) :
    f.nextValue outgoing b reg =
      if b = 0 then 0 else join (f.phiVersion b reg) (-1) (f.candidates outgoing b reg) := by
  unfold nextValue
  split_ifs
  · rfl
  · cases f.candidates outgoing b reg with
    | nil => rfl
    | cons value rest =>
      simp only [differs, join, List.any_eq_true, bne_iff_ne]
      by_cases hall : ∀ w ∈ rest, w = value
      · rw [if_pos hall, if_neg (by push Not; exact hall)]
      · rw [if_neg hall, if_pos (by push Not at hall; exact hall)]

/-- The entries of a block after a round, from what its visit saw. -/
theorem ssaRound_succ (t : ℕ) {b reg : ℕ} (hb : b < f.blockCount) (hreg : reg < f.registers) :
    entry (f.ssaRound (t + 1)).incoming b reg =
      (if b = 0 then 0 else join (f.phiVersion b reg) (-1)
        ((f.predecessors b).map (f.seenBy t b reg))) ∧
    entry (f.ssaRound (t + 1)).outgoing b reg =
      (f.lastVersion b reg).getD (entry (f.ssaRound (t + 1)).incoming b reg) ∧
    entry (f.ssaRound (t + 1)).phiVersions b reg =
      (if b ≠ 0 ∧ differs ((f.predecessors b).map (f.seenBy t b reg)) then f.phiVersion b reg
        else entry (f.ssaRound t).phiVersions b reg) := by
  obtain ⟨_, _, hnew, _⟩ := sweep_ssaStep (f.ssaRound_shaped t)
  obtain ⟨v, hv, hrow, hrows⟩ := hnew b hb
  have hcand : f.candidates v.outgoing b reg = (f.predecessors b).map (f.seenBy t b reg) := by
    unfold candidates
    refine List.map_congr_left fun p _ => ?_
    rw [(entry_eq_rowsOf v p reg).2.1, hrows p]
    unfold seenBy
    split_ifs <;> rfl
  have hphi : entry v.phiVersions b reg = entry (f.ssaRound t).phiVersions b reg := by
    rw [(entry_eq_rowsOf v b reg).2.2, hrows b, if_neg (lt_irrefl b)]
    rfl
  have hrow' : rowsOf (f.ssaRound (t + 1)) b = _ :=
    hrow.trans (by rw [rowsOf_ssaStep hv hb, if_pos rfl])
  have hget : ∀ g : ℕ → ℤ, ((List.range f.registers).map g).getD reg (-1) = g reg := by
    intro g
    rw [List.getD_eq_getElem _ _ (by simpa using hreg)]
    simp
  have hincoming : entry (f.ssaRound (t + 1)).incoming b reg = f.nextValue v.outgoing b reg := by
    rw [(entry_eq_rowsOf _ b reg).1, hrow', hget]
  refine ⟨?_, ?_, ?_⟩
  · rw [hincoming, nextValue_eq, hcand]
  · rw [hincoming, (entry_eq_rowsOf _ b reg).2.1, hrow', getD_outOf _ _ _ (by simp), hget]
  · rw [(entry_eq_rowsOf _ b reg).2.2, hrow', hget, nextPhi, hcand, hphi]

theorem entry_of_le {rows : List (List ℤ)} (h : f.Shaped rows) {b : ℕ} (hb : f.blockCount ≤ b)
    (reg : ℕ) : entry rows b reg = -1 := by
  have hrow : rows.getD b [] = [] := List.getD_eq_default _ _ (by rw [h.1]; exact hb)
  unfold entry
  rw [hrow]
  rfl

/-! ## The propagation of one register -/

theorem definitionVersion_lt (hf : f.Graph) {b k reg : ℕ} (hk : k ∈ (f.block b).instructions)
    (hreg : reg < f.registers) (c : ℕ) :
    0 < f.definitionVersion k reg ∧ f.definitionVersion k reg < f.phiVersion c reg := by
  have hlt := hf.instruction_lt b k hk
  have hmul : k * f.registers ≤ f.instructions.length * f.registers :=
    Nat.mul_le_mul_right _ hlt.le
  unfold definitionVersion phiVersion
  have h₁ : ((f.instructions.length : ℤ) + 1) * f.registers =
      f.instructions.length * f.registers + f.registers := by rw [Int.add_mul, Int.one_mul]
  have h₂ : (k : ℤ) * f.registers ≤ f.instructions.length * f.registers := by exact_mod_cast hmul
  have h₃ : (0 : ℤ) ≤ k * f.registers := by positivity
  have h₄ : (0 : ℤ) ≤ c * f.registers := by positivity
  omega

theorem definitionVersion_inj {k k' reg : ℕ} (hreg : reg < f.registers)
    (h : f.definitionVersion k reg = f.definitionVersion k' reg) : k = k' := by
  unfold definitionVersion at h
  have h' : (k * f.registers : ℤ) = k' * f.registers := by omega
  exact Nat.eq_of_mul_eq_mul_right (by omega : 0 < f.registers) (by exact_mod_cast h')

theorem phiVersion_inj {b c reg : ℕ} (hreg : reg < f.registers)
    (h : f.phiVersion b reg = f.phiVersion c reg) : b = c := by
  unfold phiVersion at h
  have h' : (b * f.registers : ℤ) = c * f.registers := by omega
  exact Nat.eq_of_mul_eq_mul_right (by omega : 0 < f.registers) (by exact_mod_cast h')

theorem phiVersion_pos (f : Function) (b reg : ℕ) : 0 < f.phiVersion b reg := by
  unfold phiVersion
  positivity

/-- The fixed outgoing version of a block, if it has one. -/
def fixedVersion (f : Function) (reg b : ℕ) : Option ℤ :=
  (f.lastVersion b reg).or (if b = 0 then some 0 else none)

theorem fixedVersion_isSome {b reg : ℕ} (hreg : reg < f.registers) :
    (f.fixedVersion reg b).isSome ↔ f.SetsVersion reg b := by
  unfold fixedVersion SetsVersion
  have h := lastVersion_eq_none (f := f) (b := b) hreg
  cases hl : f.lastVersion b reg with
  | none =>
    rw [Option.none_or, or_iff_left (h.1 hl)]
    by_cases hb : b = 0 <;> simp [hb]
  | some v =>
    refine iff_of_true rfl (Or.inr ?_)
    by_contra hd
    rw [h.2 hd] at hl
    exact absurd hl (by simp)

/-- A fixed version is the initial one of the entry or that of a definition in the block. -/
theorem fixedVersion_cases {b reg : ℕ} {v : ℤ} (h : f.fixedVersion reg b = some v) :
    (b = 0 ∧ v = 0 ∧ f.lastVersion b reg = none) ∨
      ∃ k ∈ (f.block b).instructions, v = f.definitionVersion k reg := by
  unfold fixedVersion at h
  cases hl : f.lastVersion b reg with
  | none =>
    rw [hl, Option.none_or] at h
    split_ifs at h with hb
    exact Or.inl ⟨hb, (Option.some.inj h).symm, rfl⟩
  | some w =>
    rw [hl, Option.some_or] at h
    exact Or.inr (Option.some.inj h ▸ exists_of_lastVersion hl)

/-- The iteration for one register is a propagation through joins. -/
theorem Graph.exists_joins (hf : f.Graph) {reg : ℕ} (hreg : reg < f.registers) :
    ∃ J : Joins ℤ, J.preds = f.predecessors ∧ J.source = f.fixedVersion reg ∧
      J.phi = (f.phiVersion · reg) ∧ J.bottom = -1 ∧ J.IsSource = f.SetsVersion reg := by
  have hpos : ∀ b v, f.fixedVersion reg b = some v → 0 ≤ v ∧ ∀ c, v < f.phiVersion c reg := by
    intro b v h
    rcases fixedVersion_cases h with ⟨_, rfl, _⟩ | ⟨k, hk, rfl⟩
    · exact ⟨le_rfl, fun c => f.phiVersion_pos c reg⟩
    · exact ⟨(definitionVersion_lt hf hk hreg 0).1.le,
        fun c => (definitionVersion_lt hf hk hreg c).2⟩
  have hinj : ∀ b c v, f.fixedVersion reg b = some v → f.fixedVersion reg c = some v → b = c := by
    intro b c v hb hc
    rcases fixedVersion_cases hb with ⟨rfl, hv, _⟩ | ⟨k, hk, hv⟩
    · rcases fixedVersion_cases hc with ⟨rfl, _, _⟩ | ⟨k, hk, hv'⟩
      · rfl
      · have := (definitionVersion_lt hf hk hreg 0).1
        omega
    · rcases fixedVersion_cases hc with ⟨rfl, hv', _⟩ | ⟨k', hk', hv'⟩
      · have := (definitionVersion_lt hf hk hreg 0).1
        omega
      · obtain rfl := definitionVersion_inj hreg (hv.symm.trans hv')
        exact hf.instruction_unique b c k hk hk'
  obtain ⟨owner, hsource, hphi⟩ := exists_owner hinj
    (fun b c (h : f.phiVersion b reg = f.phiVersion c reg) => phiVersion_inj hreg h)
    (fun b c h => absurd ((hpos b _ h).2 c) (lt_irrefl _))
  exact ⟨{ preds := f.predecessors, source := f.fixedVersion reg, phi := (f.phiVersion · reg)
           bottom := -1, owner := owner, owner_source := hsource, owner_phi := hphi
           source_ne_bottom := fun b h => absurd (hpos b _ h).1 (by decide)
           phi_ne_bottom := fun b h => by
             have := f.phiVersion_pos b reg
             omega },
    rfl, rfl, rfl, rfl, funext fun b => propext (fixedVersion_isSome hreg)⟩

theorem Graph.predecessors_of_le (hf : f.Graph) {b : ℕ} (hb : f.blockCount ≤ b) :
    f.predecessors b = [] := by
  refine List.eq_nil_iff_forall_not_mem.2 fun p hp => ?_
  have := (hf.lt_of_edge (hf.mem_predecessors.1 hp)).2
  omega

theorem Graph.fixedVersion_of_le (hf : f.Graph) {b reg : ℕ} (hb : f.blockCount ≤ b) :
    f.fixedVersion reg b = none := by
  have hblock : f.block b = default := List.getD_eq_default _ _ hb
  have hpos := hf.pos
  unfold fixedVersion lastVersion
  rw [hblock, if_neg (by omega)]
  rfl

/-- The outgoing versions of a register, round by round. -/
def outAt (f : Function) (reg t b : ℕ) : ℤ := entry (f.ssaRound t).outgoing b reg

theorem Graph.trajectory (hf : f.Graph) {reg : ℕ} (hreg : reg < f.registers) {J : Joins ℤ}
    (hpreds : J.preds = f.predecessors) (hsource : J.source = f.fixedVersion reg)
    (hphi : J.phi = (f.phiVersion · reg)) (hbottom : J.bottom = -1) :
    J.Trajectory (f.outAt reg) := by
  refine ⟨fun b => ?_, fun t b => ?_⟩
  · rw [hbottom]
    unfold outAt ssaRound rounds ssaInit entry
    by_cases hb : b < f.blockCount
    · have hrow : (List.replicate f.blockCount (List.replicate f.registers (-1 : ℤ))).getD b [] =
          List.replicate f.registers (-1) := by
        rw [List.getD_eq_getElem _ _ (by simpa using hb), List.getElem_replicate]
      rw [hrow, List.getD_eq_getElem _ _ (by simpa using hreg), List.getElem_replicate]
    · have : (List.replicate f.blockCount (List.replicate f.registers (-1 : ℤ))).getD b [] = [] :=
        List.getD_eq_default _ _ (by simpa using hb)
      rw [this]
      rfl
  · rw [hpreds, hsource, hphi, hbottom]
    by_cases hb : b < f.blockCount
    · obtain ⟨hin, hout, _⟩ := ssaRound_succ t hb hreg
      unfold outAt
      rw [hout, hin]
      unfold fixedVersion
      cases f.lastVersion b reg with
      | some v => rfl
      | none =>
        split_ifs
        · rfl
        · rfl
    · rw [hf.fixedVersion_of_le (by omega), hf.predecessors_of_le (by omega)]
      exact entry_of_le (f.ssaRound_shaped (t + 1)).outgoing (by omega) reg

/-! ## The end of the iteration -/

theorem Graph.outAt_bounds (hf : f.Graph) {reg : ℕ} (hreg : reg < f.registers) (t b : ℕ) :
    -1 ≤ f.outAt reg t b ∧ f.outAt reg t b + 1 < f.versionBound := by
  obtain ⟨J, hpreds, hsource, hphi, hbottom, -⟩ := hf.exists_joins hreg
  have h := hf.trajectory hreg hpreds hsource hphi hbottom
  have hbound : ∀ b < f.blockCount, f.phiVersion b reg + 1 < f.versionBound := by
    intro b hb
    have hmul : (b + 1) * f.registers ≤ f.blockCount * f.registers := Nat.mul_le_mul_right _ hb
    have hmul' : ((b : ℤ) + 1) * f.registers ≤ f.blockCount * f.registers := by exact_mod_cast hmul
    rw [Int.add_mul, Int.one_mul] at hmul'
    unfold phiVersion versionBound
    push_cast
    omega
  have hbottom' : (-1 : ℤ) ≤ -1 ∧ (-1 : ℤ) + 1 < f.versionBound := by
    unfold versionBound
    omega
  refine Joins.Trajectory.induct (P := fun t b => -1 ≤ f.outAt reg t b ∧
    f.outAt reg t b + 1 < f.versionBound) (fun b => ?_) (fun t b ih => ?_) t b
  · rw [h.zero, hbottom]
    exact hbottom'
  · by_cases hb : b < f.blockCount
    · rw [h.succ]
      cases hs : J.source b with
      | some v =>
        rw [Option.getD_some]
        rw [hsource] at hs
        have hphib := hbound b hb
        rcases fixedVersion_cases hs with ⟨_, rfl, _⟩ | ⟨k, hk, rfl⟩
        · have := f.phiVersion_pos b reg
          omega
        · have := definitionVersion_lt hf hk hreg b
          omega
      | none =>
        rw [Option.getD_none]
        rcases join_cases (J.phi b) J.bottom ((J.preds b).map (Joins.seen (f.outAt reg) t b)) with
          ⟨_, hj⟩ | ⟨hne, hall⟩ | ⟨hj, _⟩
        · rw [hj, hbottom]
          exact hbottom'
        · obtain ⟨v, hv⟩ := List.exists_mem_of_ne_nil _ hne
          rw [← hall v hv]
          obtain ⟨p, _, rfl⟩ := List.mem_map.1 hv
          exact ih p
        · have hpos := f.phiVersion_pos b reg
          have hval : J.phi b = f.phiVersion b reg := by rw [hphi]
          rw [hj, hval]
          exact ⟨by omega, hbound b hb⟩
    · have : f.outAt reg (t + 1) b = -1 :=
        entry_of_le (f.ssaRound_shaped (t + 1)).outgoing (by omega) reg
      rw [this]
      exact hbottom'

/-- The outgoing versions stand still after fewer rounds than the fuel allows. -/
theorem Graph.exists_standstill (hf : f.Graph) : ∃ i, i + 2 ≤ f.ssaFuel ∧
    ∀ reg < f.registers, ∀ t, i ≤ t → ∀ b, f.outAt reg t b = f.outAt reg i b := by
  let u : ℕ → Fin f.blockCount → Fin f.registers → Fin f.versionBound := fun t b reg =>
    ⟨(f.outAt reg t b + 1).toNat, by have := hf.outAt_bounds reg.2 t b; omega⟩
  have hu : ∀ s t, u s = u t → ∀ reg < f.registers, ∀ b, f.outAt reg s b = f.outAt reg t b := by
    intro s t heq reg hreg b
    by_cases hb : b < f.blockCount
    · have h : (f.outAt reg s b + 1).toNat = (f.outAt reg t b + 1).toNat :=
        congrArg Fin.val (congrFun (congrFun heq ⟨b, hb⟩) ⟨reg, hreg⟩)
      have hs := hf.outAt_bounds hreg s b
      have ht := hf.outAt_bounds hreg t b
      omega
    · rw [outAt, outAt, entry_of_le (f.ssaRound_shaped s).outgoing (by omega),
        entry_of_le (f.ssaRound_shaped t).outgoing (by omega)]
  have hu' : ∀ s t, (∀ reg < f.registers, ∀ b, f.outAt reg s b = f.outAt reg t b) → u s = u t := by
    intro s t h
    funext b reg
    simp only [u, h reg reg.2 b]
  have hstep : ∀ s t, u s = u t → u (s + 1) = u (t + 1) := by
    intro s t heq
    refine hu' _ _ fun reg hreg b => ?_
    obtain ⟨J, hpreds, hsource, hphi, hbottom, -⟩ := hf.exists_joins hreg
    exact (hf.trajectory hreg hpreds hsource hphi hbottom).succ_congr (hu s t heq reg hreg) b
  have hconst : ∀ (b : Fin f.blockCount) (reg : Fin f.registers),
      ∃ v T, Joins.SettledAt (f.outAt reg) b v T := by
    intro b reg
    obtain ⟨J, hpreds, hsource, hphi, hbottom, -⟩ := hf.exists_joins reg.2
    exact (hf.trajectory reg.2 hpreds hsource hphi hbottom).eventually_const b
  choose v T hT using hconst
  have hlate : ∀ b reg, T b reg ≤ Finset.univ.sup fun b => Finset.univ.sup (T b) := fun b reg =>
    (Finset.le_sup (f := T b) (Finset.mem_univ reg)).trans
      (Finset.le_sup (f := fun b => Finset.univ.sup (T b)) (Finset.mem_univ b))
  set late := Finset.univ.sup fun b => Finset.univ.sup (T b)
  have hend : ∀ t, late ≤ t → u t = u late := by
    intro t ht
    funext b reg
    simp only [u, hT b reg t ((hlate b reg).trans ht), hT b reg late (hlate b reg)]
  obtain ⟨i, hi, hui⟩ := exists_le_card_of_eventually hstep hend
  refine ⟨i, ?_, fun reg hreg t ht => hu t i ?_ reg hreg⟩
  · have hcard : Fintype.card (Fin f.blockCount → Fin f.registers → Fin f.versionBound) =
        (f.versionBound ^ f.registers) ^ f.blockCount := by simp
    unfold ssaFuel
    omega
  · have hshift : ∀ k, u (i + k) = u (late + k) := by
      intro k
      induction k with
      | zero => exact hui
      | succ k ih => exact hstep _ _ ih
    have := hshift (t - i)
    rw [Nat.add_sub_cancel' ht] at this
    rw [this, hend _ (Nat.le_add_right _ _), hui]

theorem seenBy_eq (t b reg p : ℕ) :
    f.seenBy t b reg p = Joins.seen (f.outAt reg) t b p := rfl

theorem eq_of_getD {l l' : List ℤ} {n : ℕ} (hl : l.length = n) (hl' : l'.length = n)
    (h : ∀ i < n, l.getD i (-1) = l'.getD i (-1)) : l = l' := by
  refine List.ext_getElem (hl.trans hl'.symm) fun i hi hi' => ?_
  have := h i (by omega)
  rwa [List.getD_eq_getElem _ _ hi, List.getD_eq_getElem _ _ hi'] at this

/-- Before the fuel is spent a round changes nothing. -/
theorem Graph.exists_quiet_round (hf : f.Graph) : ∃ t < f.ssaFuel,
    (sweep f.ssaStep (List.range f.blockCount) (f.ssaRound t)).2 = false := by
  obtain ⟨i, hi, hstill⟩ := hf.exists_standstill
  refine ⟨i + 1, by omega, ?_⟩
  by_contra hflag
  obtain ⟨b, hb, hne⟩ := (sweep_ssaStep (f.ssaRound_shaped (i + 1))).2.2.2.1
    (Bool.eq_true_of_not_eq_false hflag)
  have h₁ := f.ssaRound_shaped (i + 1)
  have h₂ := f.ssaRound_shaped (i + 2)
  rcases hne with hne | hne
  · refine hne (eq_of_getD (h₁.incoming.2 b hb) (h₂.incoming.2 b hb) fun reg hreg => ?_)
    have hin₁ := (ssaRound_succ i hb hreg).1
    have hin₂ := (ssaRound_succ (i + 1) hb hreg).1
    have hseen : f.seenBy i b reg = f.seenBy (i + 1) b reg := by
      funext p
      have hsame : ∀ s, i ≤ s → f.seenBy s b reg p = f.outAt reg i p := by
        intro s hs
        refine hstill reg hreg _ ?_ p
        split_ifs <;> omega
      rw [hsame i le_rfl, hsame (i + 1) (by omega)]
    rw [hseen] at hin₁
    exact hin₁.trans hin₂.symm
  · refine hne (eq_of_getD (h₁.outgoing.2 b hb) (h₂.outgoing.2 b hb) fun reg hreg => ?_)
    exact (hstill reg hreg (i + 1) (by omega) b).trans
      (hstill reg hreg (i + 2) (by omega) b).symm

/-- The iteration stops after a round that changed nothing. -/
theorem Graph.exists_last_round (hf : f.Graph) : ∃ t, f.ssa = f.ssaRound (t + 1) ∧
    ∀ b reg, entry f.ssa.incoming b reg = entry (f.ssaRound t).incoming b reg ∧
      entry f.ssa.outgoing b reg = entry (f.ssaRound t).outgoing b reg := by
  obtain ⟨T, hT, hstop⟩ := settle_eq_rounds f.ssaStep (List.range f.blockCount) f.ssaFuel f.ssaInit
  have hquiet : ∃ t, T = t + 1 ∧
      (sweep f.ssaStep (List.range f.blockCount) (f.ssaRound t)).2 = false := by
    refine hstop.resolve_right fun hall => ?_
    obtain ⟨t, ht, hflag⟩ := hf.exists_quiet_round
    exact absurd ((hall t ht).symm.trans hflag) (by decide)
  obtain ⟨t, rfl, hflag⟩ := hquiet
  obtain ⟨_, hold, _, hiff⟩ := sweep_ssaStep (f.ssaRound_shaped t)
  have hssa : f.ssa = f.ssaRound (t + 1) := hT
  refine ⟨t, hssa, fun b reg => ?_⟩
  rw [hssa, (entry_eq_rowsOf _ b reg).1, (entry_eq_rowsOf _ b reg).2.1,
    (entry_eq_rowsOf (f.ssaRound t) b reg).1, (entry_eq_rowsOf (f.ssaRound t) b reg).2.1]
  by_cases hb : b < f.blockCount
  · have hsame : (rowsOf (f.ssaRound t) b).1 = (rowsOf (f.ssaRound (t + 1)) b).1 ∧
        (rowsOf (f.ssaRound t) b).2.1 = (rowsOf (f.ssaRound (t + 1)) b).2.1 := by
      by_contra hne
      have hup := hiff.2 ⟨b, hb, not_and_or.1 hne⟩
      rw [hflag] at hup
      exact absurd hup (by decide)
    rw [hsame.1, hsame.2]
    exact ⟨rfl, rfl⟩
  · have : rowsOf (f.ssaRound (t + 1)) b = rowsOf (f.ssaRound t) b := hold b (by omega)
    rw [this]
    exact ⟨rfl, rfl⟩

/-! ## Phi nodes -/

theorem differs_iff (l : List ℤ) : differs l = true ↔ ∃ v ∈ l, ∃ w ∈ l, v ≠ w := by
  cases l with
  | nil => simp [differs]
  | cons value rest =>
    simp only [differs, List.any_eq_true, bne_iff_ne]
    constructor
    · rintro ⟨w, hw, hne⟩
      exact ⟨w, List.mem_cons_of_mem _ hw, value, List.mem_cons_self .., hne⟩
    · rintro ⟨v, hv, w, hw, hne⟩
      by_cases hvv : v = value
      · have hwv : w ≠ value := fun h => hne (hvv.trans h.symm)
        exact ⟨w, (List.mem_cons.1 hw).resolve_left hwv, hwv⟩
      · exact ⟨v, (List.mem_cons.1 hv).resolve_left hvv, hvv⟩

/-- Two predecessors of a block were seen with different versions in round `t + 1`. -/
def DiffersAt (f : Function) (reg t b : ℕ) : Prop :=
  ∃ p ∈ f.predecessors b, ∃ q ∈ f.predecessors b, f.seenBy t b reg p ≠ f.seenBy t b reg q

theorem differs_seenBy_iff (f : Function) (t b reg : ℕ) :
    differs ((f.predecessors b).map (f.seenBy t b reg)) = true ↔ f.DiffersAt reg t b := by
  rw [differs_iff]
  constructor
  · rintro ⟨v, hv, w, hw, hne⟩
    obtain ⟨p, hp, rfl⟩ := List.mem_map.1 hv
    obtain ⟨q, hq, rfl⟩ := List.mem_map.1 hw
    exact ⟨p, hp, q, hq, hne⟩
  · rintro ⟨p, hp, q, hq, hne⟩
    exact ⟨_, List.mem_map_of_mem hp, _, List.mem_map_of_mem hq, hne⟩

/-- A phi version is recorded for good by the first round whose visit sees a difference. -/
theorem entry_phiVersions (T : ℕ) {b reg : ℕ} (hb : b < f.blockCount) (hreg : reg < f.registers) :
    ((b ≠ 0 ∧ ∃ t < T, f.DiffersAt reg t b) →
      entry (f.ssaRound T).phiVersions b reg = f.phiVersion b reg) ∧
    (¬ (b ≠ 0 ∧ ∃ t < T, f.DiffersAt reg t b) →
      entry (f.ssaRound T).phiVersions b reg = -1) := by
  induction T with
  | zero =>
    refine ⟨fun h => ?_, fun _ => ?_⟩
    · obtain ⟨_, t, ht, _⟩ := h
      exact absurd ht (Nat.not_lt_zero t)
    · have hrow : (List.replicate f.blockCount (List.replicate f.registers (-1 : ℤ))).getD b [] =
          List.replicate f.registers (-1) := by
        rw [List.getD_eq_getElem _ _ (by simpa using hb), List.getElem_replicate]
      unfold ssaRound rounds ssaInit entry
      rw [hrow, List.getD_eq_getElem _ _ (by simpa using hreg), List.getElem_replicate]
  | succ T ih =>
    rw [(ssaRound_succ T hb hreg).2.2]
    have hiff := f.differs_seenBy_iff T b reg
    by_cases hnow : b ≠ 0 ∧ f.DiffersAt reg T b
    · rw [if_pos ⟨hnow.1, hiff.2 hnow.2⟩]
      exact ⟨fun _ => rfl, fun h => absurd ⟨hnow.1, T, Nat.lt_succ_self T, hnow.2⟩ h⟩
    · rw [if_neg fun h => hnow ⟨h.1, hiff.1 h.2⟩]
      constructor
      · rintro ⟨hb0, t, ht, hd⟩
        apply ih.1
        refine ⟨hb0, t, ?_, hd⟩
        rcases Nat.lt_succ_iff_lt_or_eq.1 ht with ht | rfl
        · exact ht
        · exact absurd ⟨hb0, hd⟩ hnow
      · intro h
        apply ih.2
        rintro ⟨hb0, t, ht, hd⟩
        exact h ⟨hb0, t, by omega, hd⟩

/-- What the analysis leaves behind, in terms of the rounds: the outgoing versions stand still, the
incoming ones are their joins, and a phi is there when some round saw a difference. -/
theorem Graph.ssa_spec (hf : f.Graph) {reg : ℕ} (hreg : reg < f.registers) :
    ∃ t, (∀ s, t ≤ s → ∀ b, f.outAt reg s b = f.outgoing b reg) ∧
      (∀ b < f.blockCount, f.incoming b reg =
        if b = 0 then 0 else join (f.phiVersion b reg) (-1)
          ((f.predecessors b).map (f.outgoing · reg))) ∧
      (∀ b < f.blockCount, (b ≠ 0 ∧ ∃ s, f.DiffersAt reg s b) →
        entry f.ssa.phiVersions b reg = f.phiVersion b reg) ∧
      ∀ b < f.blockCount, ¬ (b ≠ 0 ∧ ∃ s, f.DiffersAt reg s b) →
        entry f.ssa.phiVersions b reg = -1 := by
  obtain ⟨J, hpreds, hsource, hphi, hbottom, -⟩ := hf.exists_joins hreg
  have h := hf.trajectory hreg hpreds hsource hphi hbottom
  obtain ⟨t, hssa, hquiet⟩ := hf.exists_last_round
  have hlast : ∀ b, f.outgoing b reg = f.outAt reg t b := fun b => (hquiet b reg).2
  have hset : ∀ s, t ≤ s → ∀ b, f.outAt reg s b = f.outgoing b reg := by
    intro s hs b
    rw [hlast]
    refine h.settled_of_repeat (fun b => ?_) b s hs
    have := (hquiet b reg).2
    rwa [hssa] at this
  have hseen : ∀ s, t ≤ s → ∀ b p, f.seenBy s b reg p = f.outgoing p reg := by
    intro s hs b p
    refine hset _ ?_ p
    split_ifs <;> omega
  have hearly : ∀ b, (∃ s, f.DiffersAt reg s b) → ∃ s < t + 1, f.DiffersAt reg s b := by
    rintro b ⟨s, p, hp, q, hq, hne⟩
    by_cases hs : s < t + 1
    · exact ⟨s, hs, p, hp, q, hq, hne⟩
    · refine ⟨t, Nat.lt_succ_self t, p, hp, q, hq, ?_⟩
      rwa [hseen t le_rfl, hseen t le_rfl, ← hseen s (by omega) b, ← hseen s (by omega) b q]
  refine ⟨t, hset, fun b hb => ?_, fun b hb hd => ?_, fun b hb hd => ?_⟩
  · unfold incoming
    rw [hssa, (ssaRound_succ t hb hreg).1]
    split_ifs
    · rfl
    · rw [List.map_congr_left fun p _ => hseen t le_rfl b p]
  · rw [hssa]
    exact (entry_phiVersions (t + 1) hb hreg).1 ⟨hd.1, hearly b hd.2⟩
  · rw [hssa]
    exact (entry_phiVersions (t + 1) hb hreg).2 fun ⟨hb0, s, _, hs⟩ => hd ⟨hb0, s, hs⟩

theorem mem_phiNodes {phi : PhiNode} (h : phi ∈ f.phiNodes) :
    phi.block < f.blockCount ∧ phi.reg < f.registers ∧
    0 ≤ entry f.ssa.phiVersions phi.block phi.reg ∧
    phi = ⟨phi.block, phi.reg, entry f.ssa.phiVersions phi.block phi.reg,
      f.predecessors phi.block, f.candidates f.ssa.outgoing phi.block phi.reg⟩ := by
  unfold phiNodes at h
  obtain ⟨b, hb, h⟩ := List.mem_flatMap.1 h
  obtain ⟨reg, hreg, rfl⟩ := List.mem_map.1 h
  rw [List.mem_filter, decide_eq_true_eq] at hreg
  exact ⟨List.mem_range.1 hb, List.mem_range.1 hreg.1, hreg.2, rfl⟩

theorem hasPhi_iff {b reg : ℕ} (hb : b < f.blockCount) (hreg : reg < f.registers) :
    f.HasPhi b reg ↔ 0 ≤ entry f.ssa.phiVersions b reg := by
  constructor
  · rintro ⟨phi, hphi, rfl, rfl⟩
    exact (mem_phiNodes hphi).2.2.1
  · intro h
    refine ⟨_, List.mem_flatMap.2 ⟨b, List.mem_range.2 hb, List.mem_map.2 ⟨reg, ?_, rfl⟩⟩, rfl, rfl⟩
    exact List.mem_filter.2 ⟨List.mem_range.2 hreg, by simpa using h⟩

/-- A phi is there exactly when some round saw a difference. -/
theorem Graph.hasPhi_iff_differsAt (hf : f.Graph) {b reg : ℕ} (hb : b < f.blockCount)
    (hreg : reg < f.registers) : f.HasPhi b reg ↔ b ≠ 0 ∧ ∃ s, f.DiffersAt reg s b := by
  obtain ⟨t, _, _, hyes, hno⟩ := hf.ssa_spec hreg
  rw [hasPhi_iff hb hreg]
  constructor
  · intro h
    by_contra hd
    rw [hno b hb hd] at h
    exact absurd h (by decide)
  · intro h
    rw [hyes b hb h]
    exact (f.phiVersion_pos b reg).le

/-- The claims about the fixpoint, reduced to the two ways they can fail. -/
theorem Graph.ssaConsistent_iff (hf : f.Graph) : f.SsaConsistent ↔
    (∀ reg < f.registers, ∀ p ∈ f.predecessors 0, f.outgoing p reg = 0) ∧
    ∀ reg < f.registers, ∀ b < f.blockCount, b ≠ 0 →
      (∀ p ∈ f.predecessors b, ∀ q ∈ f.predecessors b, f.outgoing p reg = f.outgoing q reg) →
      ∀ s, ¬ f.DiffersAt reg s b := by
  constructor
  · intro h
    refine ⟨fun reg hreg p hp => ?_, fun reg hreg b hb hb0 heq s hs => ?_⟩
    · have hnone : ¬ f.HasPhi 0 reg := fun h' =>
        ((hf.hasPhi_iff_differsAt hf.pos hreg).1 h').1 rfl
      by_contra hne
      exact hnone ((h.hasPhi_iff 0 hf.pos reg hreg).2
        ⟨f.outgoing p reg, 0, Or.inl ⟨p, hp, rfl⟩, Or.inr ⟨rfl, rfl⟩, hne⟩)
    · have hphi := (hf.hasPhi_iff_differsAt hb hreg).2 ⟨hb0, s, hs⟩
      obtain ⟨v, w, hv, hw, hne⟩ := (h.hasPhi_iff b hb reg hreg).1 hphi
      obtain ⟨p, hp, rfl⟩ := hv.resolve_right fun h => hb0 h.1
      obtain ⟨q, hq, rfl⟩ := hw.resolve_right fun h => hb0 h.1
      exact hne (heq p hp q hq)
  · rintro ⟨hentry, hjoins⟩
    have hdiff : ∀ reg < f.registers, ∀ b < f.blockCount, f.HasPhi b reg →
        b ≠ 0 ∧ ∃ p ∈ f.predecessors b, ∃ q ∈ f.predecessors b,
          f.outgoing p reg ≠ f.outgoing q reg := by
      intro reg hreg b hb hphi
      obtain ⟨hb0, s, hs⟩ := (hf.hasPhi_iff_differsAt hb hreg).1 hphi
      refine ⟨hb0, ?_⟩
      by_contra hne
      push Not at hne
      exact hjoins reg hreg b hb hb0 hne s hs
    refine ⟨fun b hb reg hreg => ⟨fun hphi => ?_, ?_⟩, fun phi hphi => ?_,
      fun b hb reg hreg hphi p hp => ?_⟩
    · obtain ⟨_, p, hp, q, hq, hne⟩ := hdiff reg hreg b hb hphi
      exact ⟨_, _, Or.inl ⟨p, hp, rfl⟩, Or.inl ⟨q, hq, rfl⟩, hne⟩
    · rintro ⟨v, w, hv, hw, hne⟩
      by_cases hb0 : b = 0
      · subst hb0
        have hzero : ∀ v, f.FlowsIn 0 reg v → v = 0 := by
          rintro v (⟨p, hp, rfl⟩ | ⟨_, rfl⟩)
          · exact hentry reg hreg p hp
          · rfl
        exact absurd ((hzero v hv).trans (hzero w hw).symm) hne
      · obtain ⟨p, hp, rfl⟩ := hv.resolve_right fun h => hb0 h.1
        obtain ⟨q, hq, rfl⟩ := hw.resolve_right fun h => hb0 h.1
        obtain ⟨t, hset, _⟩ := hf.ssa_spec hreg
        refine (hf.hasPhi_iff_differsAt hb hreg).2 ⟨hb0, t, p, hp, q, hq, ?_⟩
        have hseen : ∀ p, f.seenBy t b reg p = f.outgoing p reg := fun p =>
          hset _ (by split_ifs <;> omega) p
        rwa [hseen, hseen]
    · obtain ⟨hb, hreg, hpos, heq⟩ := mem_phiNodes hphi
      have hhas : f.HasPhi phi.block phi.reg := ⟨phi, hphi, rfl, rfl⟩
      obtain ⟨hb0, p, hp, q, hq, hne⟩ := hdiff phi.reg hreg phi.block hb hhas
      obtain ⟨t, _, hin, hyes, _⟩ := hf.ssa_spec hreg
      refine ⟨?_, by rw [heq], by rw [heq]; rfl⟩
      rw [hin _ hb, if_neg hb0, join_eq_phi (List.mem_map_of_mem hp) (List.mem_map_of_mem hq) hne,
        heq]
      exact (hyes _ hb ((hf.hasPhi_iff_differsAt hb hreg).1 hhas)).symm
    · obtain ⟨t, hset, hin, _⟩ := hf.ssa_spec hreg
      rw [hin b hb]
      split_ifs with hb0
      · subst hb0
        exact (hentry reg hreg p hp).symm
      · refine join_eq_of_forall (fun h => ?_) fun v hv => ?_
        · rw [List.map_eq_nil_iff.1 h] at hp
          exact absurd hp List.not_mem_nil
        · obtain ⟨q, hq, rfl⟩ := List.mem_map.1 hv
          by_contra hne
          refine hphi ((hf.hasPhi_iff_differsAt hb hreg).2 ⟨hb0, t, q, hq, p, hp, ?_⟩)
          have hseen : ∀ p, f.seenBy t b reg p = f.outgoing p reg := fun p =>
            hset _ (by split_ifs <;> omega) p
          rwa [hseen, hseen]

/-- What a predecessor of the entry sends is the initial version exactly when nothing on the way back
to the entry, nor the entry itself, defines the register. -/
theorem Graph.outgoing_eq_zero_iff (hf : f.Graph) {reg p : ℕ} (hreg : reg < f.registers) :
    f.outgoing p reg = 0 ↔
      ¬ f.Defines 0 reg ∧ LeadsTo f.predecessors (f.SetsVersion reg) 0 p := by
  obtain ⟨J, hpreds, hsource, hphi, hbottom, hsets⟩ := hf.exists_joins hreg
  have h := hf.trajectory hreg hpreds hsource hphi hbottom
  obtain ⟨t, hset, _⟩ := hf.ssa_spec hreg
  constructor
  · intro hzero
    have hout : f.outAt reg t p = 0 := (hset t le_rfl p).trans hzero
    obtain ⟨hl, hown⟩ := h.leadsTo t p (by rw [hout, hbottom]; decide)
    rw [hout, hpreds, hsets] at hl
    rw [hout, hsource, hphi] at hown
    rcases hown with hown | ⟨_, hown⟩
    · rcases fixedVersion_cases hown with ⟨ho, _, hlast⟩ | ⟨k, hk, hv⟩
      · rw [ho] at hl hlast
        exact ⟨(lastVersion_eq_none hreg).1 hlast, hl⟩
      · have := (definitionVersion_lt hf hk hreg 0).1
        omega
    · have := f.phiVersion_pos (J.owner 0) reg
      exact absurd hown this.ne
  · rintro ⟨hdef, hl⟩
    have hsrc : J.source 0 = some 0 := by
      rw [hsource]
      unfold fixedVersion
      rw [(lastVersion_eq_none hreg).2 hdef]
      rfl
    rw [← hpreds, ← hsets] at hl
    have hentry : Joins.SettledAt (f.outAt reg) 0 0 1 := by
      intro s hs
      obtain ⟨u, rfl⟩ : ∃ u, s = u + 1 := ⟨s - 1, by omega⟩
      exact h.of_source hsrc u
    obtain ⟨T, hT⟩ := h.settled_of_leadsTo hentry hl
    exact (hset (max t T) (by omega) p).symm.trans (hT _ (by omega))

/-- Joins that end equal never saw a difference exactly when deliveries come together. -/
theorem Graph.steadyJoins_iff (hf : f.Graph) {reg : ℕ} (hreg : reg < f.registers) :
    (∀ b < f.blockCount, b ≠ 0 →
      (∀ p ∈ f.predecessors b, ∀ q ∈ f.predecessors b, f.outgoing p reg = f.outgoing q reg) →
      ∀ s, ¬ f.DiffersAt reg s b) ↔
    ∀ b, b ≠ 0 → (∃ o, ∀ p ∈ f.predecessors b, LeadsTo f.predecessors (f.SetsVersion reg) o p) →
      ∀ k, ∀ p ∈ f.predecessors b, ∀ q ∈ f.predecessors b,
        DeliversBy f.predecessors (f.SetsVersion reg) b p k →
        DeliversBy f.predecessors (f.SetsVersion reg) b q k := by
  obtain ⟨J, hpreds, hsource, hphi, hbottom, hsets⟩ := hf.exists_joins hreg
  have h := hf.trajectory hreg hpreds hsource hphi hbottom
  have hmain := h.steady_iff (· ≠ 0) fun b hb h0 => hb (by
    rw [hsets]
    exact Or.inl h0)
  obtain ⟨t, hset, _⟩ := hf.ssa_spec hreg
  have hdiffers : ∀ s b, Joins.Trajectory.Differs J (f.outAt reg) s b ↔ f.DiffersAt reg s b := by
    intro s b
    unfold Joins.Trajectory.Differs DiffersAt
    rw [hpreds]
    rfl
  have hends : ∀ b, Joins.Trajectory.EndsEqual J (f.outAt reg) b ↔
      ∀ p ∈ f.predecessors b, ∀ q ∈ f.predecessors b, f.outgoing p reg = f.outgoing q reg := by
    intro b
    unfold Joins.Trajectory.EndsEqual
    rw [hpreds]
    refine forall₄_congr fun p _ q _ => ⟨?_, fun heq => ⟨t, fun s hs => ?_⟩⟩
    · rintro ⟨T, hT⟩
      rw [← hset (max t T) (by omega), ← hset (max t T) (by omega) q]
      exact hT _ (by omega)
    · rw [hset s hs, hset s hs, heq]
  unfold Joins.Trajectory.OneOrigin Joins.Trajectory.DeliverTogether at hmain
  rw [hpreds, hsets] at hmain
  rw [← hmain]
  simp only [hdiffers, hends]
  refine ⟨fun hall b hb0 => ?_, fun hall b _ => hall b⟩
  by_cases hb : b < f.blockCount
  · exact hall b hb hb0
  · rintro - s ⟨p, hp, _⟩
    rw [hf.predecessors_of_le (by omega)] at hp
    exact absurd hp List.not_mem_nil

theorem Graph.ssaConsistent_iff_steady (hf : f.Graph) :
    f.SsaConsistent ↔ f.SteadyRegisters := by
  rw [hf.ssaConsistent_iff]
  constructor
  · rintro ⟨hentry, hjoins⟩
    exact ⟨fun r hr p hp => (hf.outgoing_eq_zero_iff hr).1 (hentry r hr p hp),
      fun r hr => (hf.steadyJoins_iff hr).1 (hjoins r hr)⟩
  · intro h
    exact ⟨fun r hr p hp => (hf.outgoing_eq_zero_iff hr).2 (h.entry r hr p hp),
      fun r hr => (hf.steadyJoins_iff hr).2 (h.joins r hr)⟩

/-- No visit changes the vectors at the end. -/
theorem Graph.ssa_fixed (hf : f.Graph) {b : ℕ} (hb : b < f.blockCount) :
    (f.ssaStep b f.ssa).2 = false := by
  obtain ⟨t, hssa, -⟩ := hf.exists_last_round
  have hshaped : f.WellShaped f.ssa := hssa ▸ f.ssaRound_shaped (t + 1)
  set next := (List.range f.registers).map (f.nextValue f.ssa.outgoing b) with hnext
  have hlen : next.length = f.registers := by simp [hnext]
  have hin : ∀ reg < f.registers, next.getD reg (-1) = f.incoming b reg := by
    intro reg hreg
    obtain ⟨_, _, hin, _⟩ := hf.ssa_spec hreg
    rw [List.getD_eq_getElem _ _ (by omega), hin b hb]
    simp only [hnext, List.getElem_map, List.getElem_range]
    exact nextValue_eq ..
  by_contra hup
  rw [Bool.not_eq_false, ssaStep_flag hshaped hb, rowsOf_ssaStep hshaped hb, if_pos rfl] at hup
  rcases hup with hup | hup
  · exact hup (eq_of_getD (hshaped.incoming.2 b hb) hlen fun reg hreg => (hin reg hreg).symm)
  · refine hup (eq_of_getD (hshaped.outgoing.2 b hb) (by rw [length_outOf, ← hnext, hlen])
      fun reg hreg => ?_)
    have hout := (ssaRound_succ t hb hreg).2.1
    rw [← hssa] at hout
    rw [← hnext, getD_outOf _ _ _ hlen, hin reg hreg]
    exact hout

/-- On every graph, whatever the edges and the definitions, some round changes nothing, and the loop
ends with the vectors of the analysis. -/
theorem ssaLoop_settles (f : Function) (hf : f.Graph) :
    (∃ t, (sweep f.ssaStep (List.range f.blockCount) (f.ssaRound t)).2 = false) ∧
      Settles f.ssaStep (List.range f.blockCount) f.ssaInit f.ssa := by
  obtain ⟨t, ht, hquiet⟩ := hf.exists_quiet_round
  exact ⟨⟨t, hquiet⟩, settles_of_quiet ht hquiet⟩

/-- An irreducible cycle with an edge back to the entry, and a cycle nothing leads to; the first block
defines both registers, the fourth the second one. -/
def twoCycles : Function :=
  let instruction (definitions : List ℕ) : Instruction :=
    { offset := 0, opcode := .NOP, length := 1, a := 0, b := 0, c := 0, d := 0, e := 0, aux := 0
      hasAux := false, jumpTarget := -1, definitions := definitions }
  let block (id : ℕ) (instructions successors : List ℕ) : BasicBlock :=
    { id := id, start := 0, last := 0, instructions := instructions, successors := successors }
  { id := 0, parentId := -1, prototypeIndex := 0, parameters := 0, registers := 2, constants := 0
    upvalues := 0, instructions := [instruction [0, 1], instruction [1]]
    basicBlocks := [block 0 [0] [1, 2], block 1 [] [2], block 2 [] [0, 1], block 3 [1] [4],
      block 4 [] [3]], children := [] }

theorem twoCycles_settles :
    (∃ t, (sweep twoCycles.ssaStep (List.range twoCycles.blockCount) (twoCycles.ssaRound t)).2 =
      false) ∧
      Settles twoCycles.ssaStep (List.range twoCycles.blockCount) twoCycles.ssaInit twoCycles.ssa :=
  ssaLoop_settles twoCycles (graph_of_bounded (by decide) (by decide) (by decide) (by decide)
    (by decide))

end Function

/-- For every function of the IR the vectors at the end are a fixpoint of the iteration, and the phi
nodes are the joins of that fixpoint exactly when every register is steady. -/
theorem addFunction_ssa (p : Proto) (nextId : ℕ) (parentId : ℤ) (protoIndex : ℕ) :
    (∀ b < (addFunction p nextId parentId protoIndex).1.blockCount,
      ((addFunction p nextId parentId protoIndex).1.ssaStep b
        (addFunction p nextId parentId protoIndex).1.ssa).2 = false) ∧
    ((addFunction p nextId parentId protoIndex).1.SsaConsistent ↔
      (addFunction p nextId parentId protoIndex).1.SteadyRegisters) :=
  have hf := addFunction_graph p nextId parentId protoIndex
  ⟨fun _ hb => hf.ssa_fixed hb, hf.ssaConsistent_iff_steady⟩

/-- `JUMPIF R0` over a `JUMP` and a `RETURN` to a `JUMP` back to the `RETURN`: block 2 is entered from
block 1, which is visited before it, and from block 3, which is visited after it. -/
def lateArm : Proto :=
  { ident := 0, nups := 0, numparams := 0, maxstacksize := 1
    code := [0x00020019, 0x00000017, 0x00010016, 0xFFFE0017], k := [], p := [] }

theorem lateArm_ssa : (validateProto lateArm).isOk = true ∧
    ¬ (addFunction lateArm 0 (-1) 0).1.SsaConsistent := by
  have hcount : 2 < (addFunction lateArm 0 (-1) 0).1.blockCount ∧
      0 < (addFunction lateArm 0 (-1) 0).1.registers := by decide +kernel
  have hphi : 0 ≤ entry (addFunction lateArm 0 (-1) 0).1.ssa.phiVersions 2 0 := by decide +kernel
  have hpreds : (addFunction lateArm 0 (-1) 0).1.predecessors 2 = [1, 3] := by decide +kernel
  have hout : ∀ p ∈ [1, 3], (addFunction lateArm 0 (-1) 0).1.outgoing p 0 = 0 := by decide +kernel
  refine ⟨by decide +kernel, fun h => ?_⟩
  generalize (addFunction lateArm 0 (-1) 0).1 = f at *
  obtain ⟨v, w, hv, hw, hne⟩ := (h.hasPhi_iff 2 hcount.1 0 hcount.2).1
    ((Function.hasPhi_iff hcount.1 hcount.2).2 hphi)
  have hzero : ∀ v, f.FlowsIn 2 0 v → v = 0 := by
    rintro v (⟨p, hp, rfl⟩ | ⟨h, _⟩)
    · rw [hpreds] at hp
      exact hout p hp
    · exact absurd h (by decide)
  exact hne ((hzero v hv).trans (hzero w hw).symm)

end ByteVeil.IR
