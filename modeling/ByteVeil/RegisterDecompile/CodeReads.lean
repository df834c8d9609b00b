import ByteVeil.IR.CodeReads
import ByteVeil.RegisterDecompile.Blocks

/-!
# Where the renderer reads the code

`blocks` and the arms of `renderFunction` with every word fetched by its index. For a validated
prototype both stay inside of the code; validation stays inside unless it overruns.
-/

namespace ByteVeil.RegisterDecompile

open ByteVeil.Luau ByteVeil.IR Fallible

/-! ## Fetching words -/

/-- The loop of `blocks`. -/
def fetchStarts (p : Proto) : ℕ → ℕ → Guarded (List ℕ)
  | 0, _ => pure []
  | fuel + 1, pc =>
    if pc < p.sizecode then do
      let raw ← fetchWord p pc
      let length := (opcode raw).getOpLength
      let target := getJumpTarget raw pc
      let rest ← fetchStarts p fuel (pc + length)
      pure ((if 0 ≤ target ∧ target < p.sizecode then [target.toNat] else []) ++
        (if (0 ≤ target ∨ opcode raw = .RETURN) ∧ pc + length < p.sizecode then [pc + length]
          else []) ++ rest)
    else pure []

/-- `blocks`. -/
def fetchBlocks (p : Proto) : Guarded (List (ℕ × ℕ)) :=
  if p.sizecode = 0 then pure []
  else do
    let starts := sortUnique (0 :: (← fetchStarts p p.sizecode 0))
    pure ((List.range starts.length).map fun n =>
      (starts.getD n 0, starts.getD (n + 1) p.sizecode))

/-- The loop over the instructions of a block. -/
def fetchBlock (functions : List FunctionInfo) (f : FunctionInfo) (fallthrough : Option ℕ)
    (stop : ℕ) : ℕ → ℕ → Bool → Pending → Guarded (List Stmt)
  | 0, _, terminated, _ => pure (blockEnd fallthrough terminated)
  | fuel + 1, pc, terminated, pending =>
    if pc < stop then do
      let raw ← fetchWord f.proto pc
      if (opcode raw).getOpLength == 2 then
        let _ ← fetchWord f.proto (pc + 1)
      let r := renderInstruction functions f fallthrough pc pending
      let rest ← fetchBlock functions f fallthrough stop fuel (pc + (opcode raw).getOpLength)
        (terminated || r.terminated) r.pending
      pure (r.stmts ++ rest)
    else pure (blockEnd fallthrough terminated)

/-- The arms of `renderFunction`. -/
def fetchArms (functions : List FunctionInfo) (f : FunctionInfo) : Guarded (List Arm) := do
  let cuts ← fetchBlocks f.proto
  cuts.zipIdx.mapM fun (block, n) => do
    let fallthrough := cuts[n + 1]?.map (·.1)
    let body ← fetchBlock functions f fallthrough block.2 (block.2 - block.1) block.1 false none
    pure { start := block.1, body := body }

/-! ## Validated prototypes -/

theorem fetchStarts_eq (p : Proto) (fuel pc : ℕ) :
    fetchStarts p fuel pc = .ok (startsFrom p fuel pc) := by
  induction fuel generalizing pc with
  | zero => rfl
  | succ fuel ih =>
    rw [fetchStarts, startsFrom]
    split_ifs with hpc
    · rw [fetchWord_of_lt hpc]
      simp only [bind, Except.bind]
      rw [ih]
      rfl
    · rfl

/-- `blocks` fetches the words below the end of the code only, whatever the code. -/
theorem fetchBlocks_eq (p : Proto) : fetchBlocks p = .ok (blocks p) := by
  unfold fetchBlocks blocks starts
  split_ifs
  · rfl
  · rw [fetchStarts_eq]
    rfl

section Validated

variable {functions : List FunctionInfo} {f : FunctionInfo} (hc : Checked f.proto)
include hc

theorem fetchBlock_eq {fallthrough : Option ℕ} {stop fuel pc : ℕ} {terminated : Bool}
    {pending : Pending} (hstop : stop ≤ f.proto.sizecode)
    (hpc : f.proto.sizecode ≤ pc ∨ Boundary f.proto pc) :
    fetchBlock functions f fallthrough stop fuel pc terminated pending =
      .ok (renderFrom functions f fallthrough stop fuel pc terminated pending) := by
  induction fuel generalizing pc terminated pending with
  | zero => rfl
  | succ fuel ih =>
    rw [fetchBlock, renderFrom]
    split_ifs with hlt
    · have hboundary := hpc.resolve_left (by omega)
      have hfits := (hboundary.checkedAt hc).fits
      have hrest : f.proto.sizecode ≤ pc + (opcode (f.proto.word pc)).getOpLength ∨
          Boundary f.proto (pc + (opcode (f.proto.word pc)).getOpLength) :=
        (hboundary.next hc).imp_left fun h => h.ge
      rw [fetchWord_of_lt (by omega)]
      simp only [bind, Except.bind]
      cases htwo : (opcode (f.proto.word pc)).getOpLength == 2 with
      | false =>
        rw [ih hrest]
        rfl
      | true =>
        rw [beq_iff_eq] at htwo
        rw [fetchWord_of_lt (by omega), ih hrest]
        rfl
    · rfl

/-- The arms of a checked prototype are rendered inside of the code. -/
theorem fetchArms_eq : fetchArms functions f = .ok (arms functions f) := by
  unfold fetchArms arms
  rw [fetchBlocks_eq]
  refine mapM_ok fun block hblock => ?_
  have hpos : 0 < f.proto.sizecode := by
    by_contra hzero
    rw [blocks, if_pos (by omega)] at hblock
    simp at hblock
  obtain ⟨hstart, hstop⟩ : block.1.1 ∈ starts f.proto ∧ block.1.2 ≤ f.proto.sizecode := by
    have hmem := List.mem_zipIdx_iff_getElem?.1 hblock
    rw [blocks, if_neg (by omega)] at hmem
    obtain ⟨n, hn, heq⟩ := List.mem_map.1 (List.mem_of_getElem? hmem)
    rw [List.mem_range] at hn
    rw [← heq]
    refine ⟨?_, stopOf_le hc hpos n⟩
    rw [List.getD_eq_getElem _ _ hn]
    exact List.getElem_mem hn
  dsimp only
  rw [fetchBlock_eq hc hstop (.inr (boundary_of_start hc hpos hstart))]
  rfl

end Validated

/-- Validation and the passes over a validated prototype read the code below its end only, if and only
if validation comes to no prototype, before it rejects one, that ends with an instruction of one
word whose opcode is known and whose first checks pass. -/
theorem code_reads_inside_iff (root : Proto) :
    (Inside (fetchProto root) ∧
      (validateProto root = .ok () → ∀ p ∈ root.tree, Inside (fetchDecode p p.sizecode 0) ∧
        Inside (fetchBlocks p) ∧
        ∀ functions f, f.proto = p → Inside (fetchArms functions f))) ↔
      ∀ before v after, visits 129 root 0 = before ++ v :: after → PassAll 1000000 0 before →
        ¬Overruns 1000000 (totalAfter 0 before) v := by
  rw [fetchProto_inside_iff]
  refine and_iff_left fun hroot p hp => ?_
  have hvalidated : Validated p := ⟨root, hroot, hp⟩
  refine ⟨?_, ?_, ?_⟩
  · rw [hvalidated.fetchDecode_eq]
    exact fun index h => by cases h
  · rw [fetchBlocks_eq]
    exact fun index h => by cases h
  · rintro functions f rfl
    rw [fetchArms_eq hvalidated.checked]
    exact fun index h => by cases h

/-- A single return is validated, and the word behind it is read. -/
theorem return_overruns :
    let p : Proto :=
      { ident := 0, nups := 0, numparams := 0, maxstacksize := 2, code := [0x10016], k := [],
        p := [] }
    validateProto p = .ok () ∧ fetchProto p = .error (.outside 1) := by
  decide +kernel

end ByteVeil.RegisterDecompile
