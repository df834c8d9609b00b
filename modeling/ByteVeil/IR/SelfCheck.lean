import ByteVeil.IR.Analysis
import ByteVeil.IR.Validated

/-!
# The self-check accepts what the builder produces

1. The checks of a function, one group at a time, hold of the record that `addFunction` fills.
2. The ids of a module are the preorder numbers, and parents match.
3. `buildModule` fails in `validateProto` only.
-/

namespace ByteVeil.IR

open ByteVeil.Luau Fallible

/-! ## Checks -/

theorem rejectIf_ok {bad : Bool} {message : String} :
    rejectIf bad message = .ok () ↔ bad = false := check_eq_ok throw_ne_ok

theorem then_ok {x y : Except String Unit} :
    (x >>= fun _ => y) = .ok () ↔ x = .ok () ∧ y = .ok () := by
  rw [except_bind_ok]
  exact ⟨fun ⟨_, hx, hy⟩ => ⟨hx, hy⟩, fun ⟨hx, hy⟩ => ⟨(), hx, hy⟩⟩

theorem forM_ok_iff {α : Type} {l : List α} {g : α → Except String Unit} :
    l.forM g = .ok () ↔ ∀ a ∈ l, g a = .ok () := by
  refine ⟨forM_ok, fun h => ?_⟩
  induction l with
  | nil => rfl
  | cons a l ih =>
    obtain ⟨ha, hl⟩ := List.forall_mem_cons.1 h
    exact then_ok.2 ⟨ha, ih hl⟩

theorem outOfRange_eq_false {count n : ℤ} : outOfRange count n = false ↔ 0 ≤ n ∧ n < count := by
  simp [outOfRange]

theorem forall_mem_ints {l : List ℕ} {P : ℤ → Prop} :
    (∀ x ∈ ints l, P x) ↔ ∀ n ∈ l, P (n : ℤ) := List.forall_mem_map

theorem mem_setInts {s : Finset ℕ} {x : ℤ} : x ∈ setInts s ↔ ∃ n ∈ s, (n : ℤ) = x := by
  simp [setInts, ints, eq_comm]

/-! ## One function -/

/-- What the record of `addFunction` takes over from the prototype, and the lists of predecessors. -/
structure Filled (p : Proto) (f : Function) : Prop where
  graph : f.Graph
  registers : f.registers = p.maxstacksize
  constants : f.constants = p.sizek
  upvalues : f.upvalues = p.nups
  instructions : f.instructions = decode p
  predecessors : ∀ b < f.blockCount, (f.block b).predecessors =
    (f.basicBlocks.filter fun c => b ∈ c.successors).map (·.id)

theorem addFunction_filled (p : Proto) (nextId : ℕ) (parentId : ℤ) (protoIndex : ℕ) :
    Filled p (addFunction p nextId parentId protoIndex).1 := by
  have hblocks := addFunction_basicBlocks p nextId parentId protoIndex
  refine ⟨addFunction_graph p nextId parentId protoIndex, by cases p; rfl, by cases p; rfl,
    by cases p; rfl, addFunction_instructions p nextId parentId protoIndex, fun b hb => ?_⟩
  unfold Function.blockCount at hb
  unfold Function.block
  rw [hblocks] at hb ⊢
  rw [length_basicBlocksOf] at hb
  rw [List.getD_eq_getElem _ _ (by rwa [length_basicBlocksOf])]
  simp only [basicBlocksOf, List.getElem_map, List.getElem_range, List.filter_map, List.map_map]
  rfl

section Record

variable {p : Proto} {f : Function} (debug : DebugTables)

theorem blocks_eq : (functionFacts debug p f).blocks = f.blockCount := by
  simp [FunctionFacts.blocks, functionFacts, Function.blockCount]

theorem inRange {b : ℕ} (hb : b < f.blockCount) :
    outOfRange (functionFacts debug p f).blocks b = false := by
  rw [outOfRange_eq_false, blocks_eq]
  omega

theorem inFrame {r : ℕ} (hr : r < f.registers) :
    outOfRange (functionFacts debug p f).registers r = false :=
  outOfRange_eq_false.2 ⟨by omega, Int.ofNat_lt.2 hr⟩

theorem instructionAt_eq {k : ℕ} (hk : k < f.instructions.length) :
    (functionFacts debug p f).instructionAt k = instructionFacts f k := by
  simp only [FunctionFacts.instructionAt, functionFacts, Int.toNat_natCast]
  rw [List.getD_eq_getElem _ _ (by simpa using hk), List.getElem_map, List.getElem_range]

end Record

namespace Filled

variable {p : Proto} {f : Function} (h : Filled p f) (debug : DebugTables)
include h

theorem checkTables (hdebug : ∀ v ∈ debug.locvars, v.reg < p.maxstacksize ∧ 0 ≤ v.startpc ∧
    v.startpc ≤ v.endpc) : (functionFacts debug p f).checkTables = .ok () := by
  simp only [FunctionFacts.checkTables, then_ok, rejectIf_ok, forM_ok_iff]
  refine ⟨?_, ?_, fun entry hentry => ?_, ?_⟩
  · simp [functionFacts, h.constants]
  · simp [functionFacts, h.upvalues]
  · have hmem := List.mem_zipIdx_iff_getElem?.1 hentry
    simp only [functionFacts, List.getElem?_map, Option.map_eq_some_iff] at hmem
    obtain ⟨n, hn, heq⟩ := hmem
    obtain ⟨hlt, rfl⟩ := List.getElem?_eq_some_iff.1 hn
    rw [← heq, List.getElem_range]
    simp
  · refine List.forall_mem_map.2 fun v hv => ?_
    obtain ⟨hreg, hstart, hstop⟩ := hdebug v hv
    have hframe : outOfRange (functionFacts debug p f).registers v.reg = false :=
      outOfRange_eq_false.2 ⟨by omega, by
        show (v.reg : ℤ) < (f.registers : ℤ)
        rw [h.registers]
        exact_mod_cast hreg⟩
    rw [hframe]
    simp [hstart, hstop]

theorem blockAt_eq {b : ℕ} (hb : b < f.blockCount) : (functionFacts debug p f).blockAt b =
    ⟨b, ints (f.block b).instructions, ints (f.block b).successors,
      ints (f.block b).predecessors⟩ := by
  have hid := h.graph.id_eq b hb
  unfold Function.blockCount at hb
  unfold Function.block at hid ⊢
  rw [List.getD_eq_getElem _ _ hb] at hid ⊢
  simp only [FunctionFacts.blockAt, functionFacts, Int.toNat_natCast]
  rw [List.getD_eq_getElem _ _ (by simpa using hb), List.getElem_map, hid]

theorem checkVectors : (functionFacts debug p f).checkVectors = .ok () := by
  have hcount := @blocks_eq p f debug
  have hpos := h.graph.pos
  have hrising := (Function.liveness_fixed f).2.1
  simp only [FunctionFacts.checkVectors, then_ok, rejectIf_ok, forM_ok_iff, hcount]
  refine ⟨?_, ?_, ?_, ?_, fun b hb => ?_⟩
  · simpa using hpos.ne'
  · simp [functionFacts, Function.immediateDominators]
  · simp [functionFacts, Function.immediatePostDominators]
  · simp [functionFacts, hrising.length_in, hrising.length_out]
  · have hlive : ∀ (sets : List (Finset ℕ)) (x : Function.Point),
        sets.getD b ∅ ⊆ f.liveSet x → ∀ reg ∈ (sets.map setInts).getD b [],
          outOfRange (functionFacts debug p f).registers reg = false := by
      intro sets x hsub reg hreg
      have hget : (sets.map setInts).getD b [] = setInts (sets.getD b ∅) := by
        have hempty : setInts ∅ = [] := by simp [setInts, ints]
        rw [← hempty, List.getD_map]
      rw [hget, mem_setInts] at hreg
      obtain ⟨r, hr, rfl⟩ := hreg
      exact inFrame debug (Function.mem_liveSet.1 (hsub hr)).1
    exact ⟨hlive _ _ (hrising.live_in b), hlive _ _ (hrising.live_out b)⟩

theorem mem_predecessors {a b : ℕ} (hb : b < f.blockCount) :
    a ∈ (f.block b).predecessors ↔ f.Edge a b := by
  rw [h.predecessors b hb, ← h.graph.mem_predecessors]
  unfold Function.predecessors
  rw [mem_sortUnique]

/-- The number that `sourceBlock` is left with is that of the block that lists the instruction. -/
theorem sourceBlock_eq {b k : ℕ} (hb : b < f.blockCount) (hk : k ∈ (f.block b).instructions) :
    (instructionFacts f k).sourceBlock = b := by
  have hall : ∀ c ∈ f.basicBlocks.filter (fun c => k ∈ c.instructions), c.id = b := by
    intro c hc
    obtain ⟨hmem, hlists⟩ := List.mem_filter.1 hc
    obtain ⟨n, hn, rfl⟩ := List.getElem_of_mem hmem
    have hblock : f.block n = f.basicBlocks[n] := List.getD_eq_getElem _ _ hn
    rw [← hblock, decide_eq_true_eq] at hlists
    rw [← hblock, h.graph.id_eq n hn]
    exact h.graph.instruction_unique n b k hlists hk
  have hsome : f.block b ∈ f.basicBlocks.filter (fun c => k ∈ c.instructions) := by
    refine List.mem_filter.2 ⟨?_, by simpa using hk⟩
    unfold Function.blockCount at hb
    unfold Function.block
    rw [List.getD_eq_getElem _ _ hb]
    exact List.getElem_mem hb
  unfold instructionFacts
  dsimp only
  cases hlast : (f.basicBlocks.filter fun c => k ∈ c.instructions).getLast? with
  | none =>
    rw [List.getLast?_eq_none_iff.1 hlast] at hsome
    exact absurd hsome List.not_mem_nil
  | some c => exact congrArg Int.ofNat (hall c (List.mem_of_getLast? hlast))

theorem checkBlock {b : ℕ} (hb : b < f.blockCount) :
    (functionFacts debug p f).checkBlock ((functionFacts debug p f).blockAt b) = .ok () := by
  rw [h.blockAt_eq debug hb]
  simp only [FunctionFacts.checkBlock, then_ok, rejectIf_ok, forM_ok_iff, forall_mem_ints]
  refine ⟨inRange debug hb, fun target htarget => ?_, fun predecessor hpredecessor => ?_,
    fun k hk => ?_⟩
  · have hlt := h.graph.successors_lt b target htarget
    refine ⟨inRange debug hlt, ?_⟩
    rw [h.blockAt_eq debug hlt]
    have hmem := (h.mem_predecessors hlt).2 htarget
    simpa [ints] using hmem
  · have hedge := (h.mem_predecessors hb).1 hpredecessor
    have hlt := (h.graph.lt_of_edge hedge).1
    refine ⟨inRange debug hlt, ?_⟩
    rw [h.blockAt_eq debug hlt]
    have hmem : b ∈ (f.block predecessor).successors := hedge
    simpa [ints] using hmem
  · have hlt := h.graph.instruction_lt b k hk
    refine ⟨?_, ?_⟩
    · rw [outOfRange_eq_false]
      simp only [functionFacts, List.length_map, List.length_range]
      omega
    · rw [instructionAt_eq debug hlt, h.sourceBlock_eq hb hk]
      simp

theorem checkRegisters {k : ℕ} (hk : k < f.instructions.length) :
    (functionFacts debug p f).checkRegisters (instructionFacts f k) = .ok () := by
  have hdecoded : ∃ pc, f.instruction k = decodeAt p pc := by
    unfold Function.instruction
    rw [List.getD_eq_getElem _ _ hk]
    have hmem : f.instructions[k] ∈ decode p := h.instructions ▸ List.getElem_mem hk
    exact ⟨_, eq_decodeAt hmem⟩
  obtain ⟨pc, hpc⟩ := hdecoded
  have hdefinitions : ∀ r ∈ (f.instruction k).definitions, r < f.registers := by
    rw [hpc, h.registers]
    exact fun r hr => lt_of_mem_definitions hr
  simp only [FunctionFacts.checkRegisters, then_ok, rejectIf_ok, forM_ok_iff, instructionFacts,
    forall_mem_ints]
  refine ⟨?_, fun r hr => inFrame debug ?_, fun r hr => inFrame debug (hdefinitions r hr), ?_⟩
  · split_ifs with hframe
    · simp [ints]
    · have hnone : (f.instruction k).definitions = [] := by
        refine List.eq_nil_iff_forall_not_mem.2 fun r hr => hframe ⟨h.graph.pos, ?_⟩
        exact Nat.zero_lt_of_lt (hdefinitions r hr)
      simp [hnone, ints]
  · rw [hpc] at hr
    rw [h.registers]
    exact lt_of_mem_uses hr
  · cases (f.instruction k).definitions <;> simp [ints]

theorem immediateDominators_lt {d : ℤ} (hd : d ∈ f.immediateDominators) :
    -1 ≤ d ∧ d < f.blockCount := by
  have hpos := h.graph.pos
  obtain ⟨b, -, rfl⟩ := List.mem_map.1 hd
  split_ifs with hb hreach
  · omega
  · obtain ⟨c, hc, himmediate⟩ :=
      h.graph.bestDominator_isImmediate (h.graph.mem_reachable.1 hreach) hb
    have hlt := h.graph.reachable_lt
      (himmediate.1.1.reachable (h.graph.mem_reachable.1 hreach))
    omega
  · omega

omit h in
theorem immediatePostDominators_lt {d : ℤ} (hd : d ∈ f.immediatePostDominators) :
    -1 ≤ d ∧ d < f.blockCount := by
  obtain ⟨b, -, rfl⟩ := List.mem_map.1 hd
  split_ifs
  · have hchoice := Function.smaller_foldl f.postDominatorCount
      ((f.blocksOf (f.postDominators.getD b ∅)).filter (· ≠ b)) none
    cases hbest : ((f.blocksOf (f.postDominators.getD b ∅)).filter (· ≠ b)).foldl
        (smaller f.postDominatorCount) none with
    | none =>
      simp only [blockOrNone]
      omega
    | some m =>
      rw [hbest] at hchoice
      have hmem := (List.mem_filter.1 (hchoice.1.resolve_left (by simp))).1
      have hlt := List.mem_range.1 (List.mem_filter.1 hmem).1
      simp only [blockOrNone]
      omega
  · omega

end Filled

/-! ## Loop regions -/

/-- The numbers of a region before the second pass are numbers of blocks. -/
structure Loop.Within (loop : Loop) (count : ℕ) : Prop where
  header : loop.header < count
  blocks : ∀ b ∈ loop.blocks, b < count
  latches : ∀ b ∈ loop.latches, b < count

theorem mergeLoop_within {count : ℕ} {edge : ℕ × ℕ} {members : List ℕ} {loops : List Loop}
    (hlatch : edge.1 < count) (hheader : edge.2 < count) (hmembers : ∀ b ∈ members, b < count)
    (h : ∀ loop ∈ loops, loop.Within count) :
    ∀ loop ∈ mergeLoop edge members loops, loop.Within count := by
  induction loops with
  | nil =>
    intro loop hloop
    obtain rfl := List.mem_singleton.1 hloop
    exact ⟨hheader, hmembers, by simpa using hlatch⟩
  | cons first loops ih =>
    obtain ⟨hfirst, hrest⟩ := List.forall_mem_cons.1 h
    unfold mergeLoop
    split_ifs
    · refine List.forall_mem_cons.2 ⟨⟨hfirst.header, fun b hb => ?_, fun b hb => ?_⟩, hrest⟩
      · exact (List.mem_append.1 hb).elim (hfirst.blocks b) (hmembers b)
      · rcases List.mem_append.1 hb with hb | hb
        · exact hfirst.latches b hb
        · exact List.mem_singleton.1 hb ▸ hlatch
    · exact List.forall_mem_cons.2 ⟨hfirst, ih hrest⟩

namespace Filled

variable {p : Proto} {f : Function} (h : Filled p f) (debug : DebugTables)
include h

theorem backEdge_lt {edge : ℕ × ℕ} (hedge : edge ∈ f.backEdges) :
    edge.1 < f.blockCount ∧ edge.2 < f.blockCount :=
  h.graph.lt_of_edge (h.graph.mem_backEdges.1 hedge).2.1

theorem mergedLoops_within : ∀ loop ∈ f.mergedLoops, loop.Within f.blockCount := by
  have hall : ∀ (l : List ((ℕ × ℕ) × List ℕ)) (loops : List Loop),
      (∀ e ∈ l, (e.1.1 < f.blockCount ∧ e.1.2 < f.blockCount) ∧ ∀ b ∈ e.2, b < f.blockCount) →
      (∀ loop ∈ loops, loop.Within f.blockCount) →
      ∀ loop ∈ l.foldl (fun loops e => mergeLoop e.1 e.2 loops) loops,
        loop.Within f.blockCount := by
    intro l
    induction l with
    | nil => exact fun _ _ hloops => hloops
    | cons e l ih =>
      intro loops hl hloops
      obtain ⟨⟨⟨hlatch, hheader⟩, hmembers⟩, hrest⟩ := List.forall_mem_cons.1 hl
      exact ih _ hrest (mergeLoop_within hlatch hheader hmembers hloops)
  refine hall _ [] (fun e he => ?_) (by simp)
  obtain ⟨hedge, hloop⟩ := List.of_mem_zip he
  refine ⟨h.backEdge_lt hedge, fun b hb => ?_⟩
  obtain ⟨edge, -, heq⟩ := List.mem_map.1 hloop
  rw [← heq] at hb
  exact List.mem_range.1 (List.mem_filter.1 hb).1

theorem checkRegions : (functionFacts debug p f).checkRegions = .ok () := by
  have hcount := @blocks_eq p f debug
  have hbounds : ∀ d : ℤ, -1 ≤ d ∧ d < f.blockCount →
      (decide (d < -1) || decide ((f.blockCount : ℤ) ≤ d)) = false := by
    intro d hd
    simpa using ⟨hd.1, hd.2⟩
  simp only [FunctionFacts.checkRegions, then_ok, rejectIf_ok, forM_ok_iff, hcount]
  refine ⟨fun d hd => hbounds d (h.immediateDominators_lt hd),
    fun d hd => hbounds d (immediatePostDominators_lt hd), ?_, ?_⟩
  · refine List.forall_mem_map.2 fun edge hedge => ?_
    obtain ⟨hlatch, hheader⟩ := h.backEdge_lt hedge
    rw [← hcount, inRange debug hlatch, inRange debug hheader]
    rfl
  · refine List.forall_mem_map.2 fun loop hloop => ?_
    obtain ⟨merged, hmerged, rfl⟩ := List.mem_map.1 hloop
    have hwithin := h.mergedLoops_within merged hmerged
    rw [← hcount]
    simp only [forall_mem_ints]
    refine ⟨?_, fun b hb => inRange debug (hwithin.blocks b (mem_sortUnique.1 hb)),
      fun b hb => inRange debug (hwithin.latches b (mem_sortUnique.1 hb)), fun b hb => ?_⟩
    · have hheader : outOfRange (functionFacts debug p f).blocks
          (f.finishLoop merged).header = false := inRange debug hwithin.header
      rw [hheader, hcount, Bool.false_or, decide_eq_false_iff_not, not_le]
      unfold Function.finishLoop
      dsimp only
      have hpos := h.graph.pos
      split
      · rename_i outside houtside
        have hmem : outside ∈ (f.predecessors merged.header).filter
            (· ∉ sortUnique merged.blocks) := by
          rw [houtside]
          exact List.mem_singleton_self _
        have hedge := h.graph.mem_predecessors.1 (List.mem_filter.1 hmem).1
        exact Int.ofNat_lt.2 (h.graph.lt_of_edge hedge).1
      · omega
    · obtain ⟨m, -, hmem⟩ := List.mem_flatMap.1 (mem_sortUnique.1 hb)
      exact inRange debug (h.graph.successors_lt m b (List.mem_filter.1 hmem).1)

/-- The set and the list of the predecessors of a block have the same size. -/
theorem length_predecessors {b : ℕ} (hb : b < f.blockCount) :
    (f.predecessors b).length = (f.block b).predecessors.length := by
  have hids : f.basicBlocks.map (·.id) = List.range f.blockCount := by
    refine List.ext_getElem (by simp [Function.blockCount]) fun n hn _ => ?_
    rw [List.length_map] at hn
    have hid := h.graph.id_eq n hn
    unfold Function.block at hid
    rw [List.getD_eq_getElem _ _ hn] at hid
    rw [List.getElem_map, List.getElem_range, hid]
  have hnodup : ((f.basicBlocks.filter fun c => b ∈ c.successors).map (·.id)).Nodup := by
    have hall : (f.basicBlocks.map (·.id)).Nodup := by
      rw [hids]
      exact List.nodup_range
    exact hall.sublist ((List.filter_sublist (l := f.basicBlocks)).map _)
  rw [h.predecessors b hb]
  unfold Function.predecessors sortUnique
  rw [List.length_insertionSort, hnodup.dedup]

theorem checkPhis : (functionFacts debug p f).checkPhis = .ok () := by
  simp only [FunctionFacts.checkPhis, then_ok, rejectIf_ok, forM_ok_iff]
  refine List.forall_mem_map.2 fun phi hphi => ?_
  obtain ⟨b, hb, hphi⟩ := List.mem_flatMap.1 hphi
  obtain ⟨reg, hreg, rfl⟩ := List.mem_map.1 hphi
  rw [List.mem_range] at hb
  have hreg := List.mem_range.1 (List.mem_filter.1 hreg).1
  dsimp only
  rw [h.blockAt_eq debug hb]
  simp only [forall_mem_ints]
  refine ⟨?_, ?_, ?_, fun q hq => ?_⟩
  · rw [inRange debug hb, inFrame debug hreg]
    rfl
  · simp [Function.candidates, ints, h.length_predecessors hb]
  · simp [Function.candidates, ints]
  · exact inRange debug (h.graph.lt_of_edge (h.graph.mem_predecessors.1 hq)).1

/-- The self-check accepts the record of a function. -/
theorem checkFacts (hdebug : ∀ v ∈ debug.locvars, v.reg < p.maxstacksize ∧ 0 ≤ v.startpc ∧
    v.startpc ≤ v.endpc) : (functionFacts debug p f).checkFacts = .ok () := by
  simp only [FunctionFacts.checkFacts, then_ok, forM_ok_iff]
  refine ⟨h.checkTables debug hdebug, h.checkVectors debug, ?_, ?_, h.checkRegions debug,
    h.checkPhis debug⟩
  · intro block hblock
    obtain ⟨n, hn, rfl⟩ := List.getElem_of_mem hblock
    have hlt : n < f.blockCount := by
      simpa [functionFacts, Function.blockCount] using hn
    have hat : (functionFacts debug p f).basicBlocks[n] = (functionFacts debug p f).blockAt n := by
      simp only [FunctionFacts.blockAt, Int.toNat_natCast]
      rw [List.getD_eq_getElem _ _ hn]
    rw [hat]
    exact h.checkBlock debug hlt
  · refine List.forall_mem_map.2 fun k hk => ?_
    exact h.checkRegisters debug (List.mem_range.1 hk)

end Filled

/-! ## Modules -/

/-- The debug locals of a prototype lie in its frame, and their ranges are in order. -/
def DebugInOrder (debug : ℕ → DebugTables) (p : Proto) : Prop :=
  ∀ v ∈ (debug p.ident).locvars, v.reg < p.maxstacksize ∧ 0 ≤ v.startpc ∧ v.startpc ≤ v.endpc

theorem addFunction_ids (p : Proto) (nextId : ℕ) (parentId : ℤ) (protoIndex : ℕ) :
    (addFunction p nextId parentId protoIndex).1.id = nextId ∧
      (addFunction p nextId parentId protoIndex).1.parentId = parentId := by
  cases p
  exact ⟨rfl, rfl⟩

theorem buildFunction_parentId (debug : ℕ → DebugTables) (p : Proto) (nextId : ℕ) (parentId : ℤ)
    (protoIndex : ℕ) :
    (buildFunction debug p nextId parentId protoIndex).1.facts.parentId = parentId := by
  cases p
  exact (addFunction_ids _ _ _ _).2

mutual

theorem validate_buildFunction (debug : ℕ → DebugTables) :
    ∀ (p : Proto) (nextId : ℕ) (parentId : ℤ) (protoIndex : ℕ),
      (∀ q ∈ p.tree, DebugInOrder debug q) →
      validateFunctionAnalysis (buildFunction debug p nextId parentId protoIndex).1 = .ok ()
  | ⟨ident, nups, numparams, maxstacksize, code, k, children⟩, nextId, parentId, protoIndex,
      hdebug => by
    rw [Proto.tree_eq] at hdebug
    obtain ⟨hself, hchildren⟩ := List.forall_mem_cons.1 hdebug
    rw [buildFunction, validateFunctionAnalysis, then_ok]
    refine ⟨(addFunction_filled _ nextId parentId protoIndex).checkFacts _ hself, ?_⟩
    exact validate_buildChildren debug children (nextId + 1) nextId 0 hchildren

theorem validate_buildChildren (debug : ℕ → DebugTables) :
    ∀ (children : List Proto) (nextId parent index : ℕ),
      (∀ q ∈ Proto.trees children, DebugInOrder debug q) →
      validateChildren parent (buildChildren debug children nextId parent index).1 = .ok ()
  | [], _, _, _, _ => rfl
  | child :: children, nextId, parent, index, hdebug => by
    rw [Proto.trees, List.forall_mem_append] at hdebug
    rw [buildChildren, validateChildren, then_ok, then_ok, rejectIf_ok, buildFunction_parentId]
    refine ⟨by simp, validate_buildFunction debug child nextId parent index hdebug.1, ?_⟩
    exact validate_buildChildren debug children _ parent (index + 1) hdebug.2

end

mutual

/-- The ids are given out in preorder, one after another. -/
theorem collect_buildFunction (debug : ℕ → DebugTables) :
    ∀ (p : Proto) (nextId : ℕ) (parentId : ℤ) (protoIndex : ℕ),
      (buildFunction debug p nextId parentId protoIndex).2 = nextId + p.tree.length ∧
      collectIds (buildFunction debug p nextId parentId protoIndex).1 (ints (List.range nextId)) =
        .ok (ints (List.range (nextId + p.tree.length)))
  | ⟨ident, nups, numparams, maxstacksize, code, k, children⟩, nextId, parentId, protoIndex => by
    obtain ⟨hnext, hcollect⟩ := collect_buildChildren debug children (nextId + 1) nextId 0
    have hcount : (Proto.tree ⟨ident, nups, numparams, maxstacksize, code, k, children⟩).length =
        1 + (Proto.trees children).length := by
      rw [Proto.tree_eq, List.length_cons, Nat.add_comm]
    have hrange : ints (List.range nextId) ++ [(nextId : ℤ)] = ints (List.range (nextId + 1)) := by
      simp [ints, List.range_succ]
    have hfresh : (ints (List.range nextId)).contains (nextId : ℤ) = false := by
      simp [ints]
    rw [hcount, buildFunction, collectIds, ← Nat.add_assoc]
    refine ⟨hnext, ?_⟩
    simp only [functionFacts, (addFunction_ids _ nextId parentId protoIndex).1, hfresh, hrange]
    exact hcollect

theorem collect_buildChildren (debug : ℕ → DebugTables) :
    ∀ (children : List Proto) (nextId parent index : ℕ),
      (buildChildren debug children nextId parent index).2 =
        nextId + (Proto.trees children).length ∧
      collectChildren (buildChildren debug children nextId parent index).1
          (ints (List.range nextId)) =
        .ok (ints (List.range (nextId + (Proto.trees children).length)))
  | [], _, _, _ => ⟨rfl, rfl⟩
  | child :: children, nextId, parent, index => by
    obtain ⟨hnext, hcollect⟩ := collect_buildFunction debug child nextId parent index
    obtain ⟨hlast, hrest⟩ := collect_buildChildren debug children
      (nextId + child.tree.length) parent (index + 1)
    rw [buildChildren, collectChildren, Proto.trees, List.length_append, ← Nat.add_assoc]
    rw [← hnext] at hcollect hlast hrest ⊢
    rw [hcollect]
    exact ⟨hlast, hrest⟩

end

/-- The iterations of `addFunction` end, with the sets and versions that it stores. -/
structure LoopsEnd (f : Function) : Prop where
  liveness : FlowGraph.Settles f.liveStep f.liveOrder f.liveInit f.liveness
  dominators : FlowGraph.Settles (FlowGraph.lower (· ∈ f.reachable) f.nextDominators)
    (List.range' 1 (f.blockCount - 1)) f.initialDominators f.dominators
  postDominators : FlowGraph.Settles
    (FlowGraph.lower (fun block => block ∈ f.reachable ∧ ¬ (f.successors block).isEmpty)
      f.nextPostDominators) (List.range f.blockCount).reverse f.initialPostDominators
    f.postDominators
  ssa : FlowGraph.Settles f.ssaStep (List.range f.blockCount) f.ssaInit f.ssa

theorem addFunction_loopsEnd (p : Proto) (nextId : ℕ) (parentId : ℤ) (protoIndex : ℕ) :
    LoopsEnd (addFunction p nextId parentId protoIndex).1 :=
  have hf := addFunction_graph p nextId parentId protoIndex
  ⟨(Function.liveness_fixed _).1, hf.dominators_descends.settles,
    hf.postDominators_descends.settles, (Function.ssaLoop_settles _ hf).2⟩

/-- The self-check accepts every module whose debug locals are in order, the ids are the preorder
numbers, and building a module fails in `validateProto` only. -/
theorem buildModule_selfCheck (debug : ℕ → DebugTables) (root : Proto)
    (hdebug : ∀ p ∈ root.tree, DebugInOrder debug p) :
    let built := (buildFunction debug root 0 (-1) 0).1
    (∀ p ∈ root.tree, ∀ nextId parentId protoIndex,
        LoopsEnd (addFunction p nextId parentId protoIndex).1) ∧
      validateAnalysis built = .ok () ∧
      collectIds built [] = .ok (ints (List.range root.tree.length)) ∧
      buildModule debug root = (validateProto root).map fun _ => built := by
  have hvalid := validate_buildFunction debug root 0 (-1) 0 hdebug
  have hids : collectIds (buildFunction debug root 0 (-1) 0).1 [] =
      .ok (ints (List.range root.tree.length)) := by
    have hcollect := (collect_buildFunction debug root 0 (-1) 0).2
    rwa [Nat.zero_add] at hcollect
  have hanalysis : validateAnalysis (buildFunction debug root 0 (-1) 0).1 = .ok () := by
    rw [validateAnalysis, then_ok, hids]
    exact ⟨hvalid, rfl⟩
  refine ⟨fun p _ => addFunction_loopsEnd p, hanalysis, hids, ?_⟩
  rw [buildModule]
  dsimp only
  rw [hanalysis]
  cases validateProto root <;> rfl

/-- A function that returns its parameter, and a child that loops. -/
def nested : Proto :=
  { ident := 0, nups := 1, numparams := 1, maxstacksize := 2, code := [0x00020016], k := [.nil]
    p := [{ ident := 1, nups := 0, numparams := 0, maxstacksize := 1, code := [0xFFFF0018], k := []
            p := [] }] }

theorem buildModule_selfCheck_nested :
    let debug := fun _ : ℕ => (⟨[⟨[97], 0, 0, 1⟩], []⟩ : DebugTables)
    validateProto nested = .ok () ∧
      buildModule debug nested = .ok (buildFunction debug nested 0 (-1) 0).1 := by
  have hvalid : validateProto nested = .ok () := by decide +kernel
  have hbuilt := (buildModule_selfCheck (fun _ => ⟨[⟨[97], 0, 0, 1⟩], []⟩) nested (by
    intro p hp v hv
    rw [List.mem_singleton.1 hv]
    have hframe : ∀ q ∈ nested.tree, 0 < q.maxstacksize := by
      simp [nested, Proto.tree, Proto.trees]
    exact ⟨hframe p hp, by decide, by decide⟩)).2.2.2
  rw [hvalid] at hbuilt
  exact ⟨hvalid, hbuilt⟩

end ByteVeil.IR
