import ByteVeil.IR.Validate
import Mathlib.Data.List.Sort
import Mathlib.Data.List.Dedup
import Mathlib.Data.List.GetD
import Mathlib.Logic.Relation

/-!
# Basic blocks

`addFunction` up to the control-flow graph: the leaders, the blocks between them, their successors
and predecessors, and the recursion over the child prototypes. The analyses of the graph are
functions of the record built here.
-/

namespace ByteVeil.IR

open ByteVeil.Luau

/-- A basic block; `last` is the word before the next leader. -/
structure BasicBlock where
  id : ℕ
  start : ℕ
  last : ℤ
  instructions : List ℕ
  successors : List ℕ
  predecessors : List ℕ := []
  deriving Inhabited

/-- A function of the IR, with the functions of its child prototypes. -/
structure Function where
  id : ℕ
  parentId : ℤ
  prototypeIndex : ℕ
  parameters : ℕ
  registers : ℕ
  constants : ℕ
  upvalues : ℕ
  instructions : List Instruction
  basicBlocks : List BasicBlock
  children : List Function
  deriving Inhabited

/-- The content of a `std::set<int>` in its iteration order. -/
def sortUnique (l : List ℕ) : List ℕ := l.dedup.insertionSort (· ≤ ·)

@[simp] theorem mem_sortUnique {l : List ℕ} {x : ℕ} : x ∈ sortUnique l ↔ x ∈ l := by
  unfold sortUnique
  rw [List.mem_insertionSort, List.mem_dedup]

theorem sortUnique_pairwise (l : List ℕ) : (sortUnique l).Pairwise (· < ·) := by
  have hsorted : (sortUnique l).Pairwise (· ≤ ·) := List.pairwise_insertionSort _ l.dedup
  have hnodup : (sortUnique l).Nodup :=
    (List.perm_insertionSort _ l.dedup).nodup_iff.2 (List.nodup_dedup l)
  exact List.Pairwise.imp₂ (fun _ _ hle hne => lt_of_le_of_ne hle hne) hsorted hnodup

/-- The leaders: offset 0, the jump targets, and what follows a jump or a return. -/
def leaders (sizecode : ℕ) (instructions : List Instruction) : List ℕ :=
  sortUnique (0 ::
    (instructions.filter fun i => 0 ≤ i.jumpTarget).map (fun i => i.jumpTarget.toNat) ++
    (instructions.filter fun i => (0 ≤ i.jumpTarget || isReturn i.opcode) &&
      i.offset + i.length < sizecode).map fun i => i.offset + i.length)

/-- The successors of the block numbered `n` whose last instruction is `last`. -/
def successorsOf (sorted : List ℕ) (n : ℕ) (last : Instruction) : List ℕ :=
  let targets := (List.range sorted.length).filter fun j =>
    0 ≤ last.jumpTarget && (sorted.getD j 0 : ℤ) == last.jumpTarget
  let fallsThrough := isConditional last.opcode ||
    (last.jumpTarget < 0 && !isReturn last.opcode)
  sortUnique (targets ++ if fallsThrough && n + 1 < sorted.length then [n + 1] else [])

/-- The block numbered `n`, before the predecessors are known. -/
def blockAt (sizecode : ℕ) (instructions : List Instruction) (sorted : List ℕ) (n : ℕ) :
    BasicBlock :=
  let start := sorted.getD n 0
  let last : ℤ := (if n + 1 < sorted.length then (sorted.getD (n + 1) 0 : ℤ) else sizecode) - 1
  let members := (List.range instructions.length).filter fun k =>
    let offset := ((instructions.getD k default).offset : ℤ)
    (start : ℤ) ≤ offset && offset ≤ last
  { id := n, start := start, last := last, instructions := members
    successors := match members.getLast? with
      | none => []
      | some k => successorsOf sorted n (instructions.getD k default) }

theorem successors_blockAt {sizecode : ℕ} {instructions : List Instruction} {sorted : List ℕ}
    {n k : ℕ} (h : (blockAt sizecode instructions sorted n).instructions.getLast? = some k) :
    (blockAt sizecode instructions sorted n).successors =
      successorsOf sorted n (instructions.getD k default) := by
  unfold blockAt at h ⊢
  dsimp only at h ⊢
  rw [h]

/-- The basic blocks of a prototype. -/
def basicBlocksOf (sizecode : ℕ) (instructions : List Instruction) : List BasicBlock :=
  let sorted := leaders sizecode instructions
  let blocks := (List.range sorted.length).map (blockAt sizecode instructions sorted)
  blocks.map fun block => { block with
    predecessors := (blocks.filter fun b => block.id ∈ b.successors).map (·.id) }

mutual

/-- `addFunction`; the second component is the next free function id. -/
def addFunction : Proto → ℕ → ℤ → ℕ → Function × ℕ
  | ⟨ident, nups, numparams, maxstacksize, code, k, children⟩, nextId, parentId, protoIndex =>
    let p : Proto := ⟨ident, nups, numparams, maxstacksize, code, k, children⟩
    let rest := addChildren children (nextId + 1) nextId 0
    ({ id := nextId, parentId := parentId, prototypeIndex := protoIndex
       parameters := p.numparams, registers := p.maxstacksize, constants := p.sizek
       upvalues := p.nups, instructions := decode p
       basicBlocks := basicBlocksOf p.sizecode (decode p), children := rest.1 }, rest.2)

/-- The loop over the child prototypes at the end of `addFunction`. -/
def addChildren : List Proto → ℕ → ℕ → ℕ → List Function × ℕ
  | [], nextId, _, _ => ([], nextId)
  | child :: children, nextId, parent, index =>
    let first := addFunction child nextId parent index
    let rest := addChildren children first.2 parent (index + 1)
    (first.1 :: rest.1, rest.2)

end

namespace Function

variable (f : Function)

/-- The number of basic blocks. -/
def blockCount : ℕ := f.basicBlocks.length

/-- `f.basicBlocks[b]`. -/
def block (b : ℕ) : BasicBlock := f.basicBlocks.getD b default

/-- `f.basicBlocks[b].successors`. -/
def successors (b : ℕ) : List ℕ := (f.block b).successors

/-- The instruction of index `k`. -/
def instruction (k : ℕ) : Instruction := f.instructions.getD k default

/-- `predecessors[b]`, as the analyses rebuild it from the successors. -/
def predecessors (b : ℕ) : List ℕ :=
  sortUnique ((f.basicBlocks.filter fun block => b ∈ block.successors).map (·.id))

/-- An edge of the control-flow graph. -/
def Edge (a b : ℕ) : Prop := b ∈ f.successors a

/-- A block that control can reach from the entry block. -/
def Reachable (b : ℕ) : Prop := Relation.ReflTransGen f.Edge 0 b

/-- The blocks are numbered in order, their edges stay inside the function, and no instruction is in
two of them. -/
structure Graph : Prop where
  pos : 0 < f.blockCount
  id_eq : ∀ b < f.blockCount, (f.block b).id = b
  successors_lt : ∀ a b, b ∈ f.successors a → b < f.blockCount
  instruction_lt : ∀ b, ∀ k ∈ (f.block b).instructions, k < f.instructions.length
  instruction_unique : ∀ b c k, k ∈ (f.block b).instructions → k ∈ (f.block c).instructions → b = c

end Function

/-! ## The graph of `addFunction` -/

theorem mem_successorsOf_lt {sorted : List ℕ} {n s : ℕ} {last : Instruction}
    (h : s ∈ successorsOf sorted n last) : s < sorted.length := by
  unfold successorsOf at h
  rw [mem_sortUnique, List.mem_append] at h
  rcases h with h | h
  · exact List.mem_range.1 (List.mem_filter.1 h).1
  · split_ifs at h with hc
    · rw [Bool.and_eq_true, decide_eq_true_eq] at hc
      rw [List.mem_singleton.1 h]
      exact hc.2
    · simp at h

theorem length_basicBlocksOf (sizecode : ℕ) (instructions : List Instruction) :
    (basicBlocksOf sizecode instructions).length = (leaders sizecode instructions).length := by
  simp [basicBlocksOf]

theorem getD_basicBlocksOf {sizecode : ℕ} {instructions : List Instruction} {b : ℕ}
    (hb : b < (leaders sizecode instructions).length) :
    ∃ preds, (basicBlocksOf sizecode instructions).getD b default =
      { blockAt sizecode instructions (leaders sizecode instructions) b with
        predecessors := preds } := by
  rw [List.getD_eq_getElem _ _ (by rwa [length_basicBlocksOf])]
  simp only [basicBlocksOf, List.getElem_map, List.getElem_range]
  exact ⟨_, rfl⟩

theorem addFunction_basicBlocks (p : Proto) (nextId : ℕ) (parentId : ℤ) (protoIndex : ℕ) :
    (addFunction p nextId parentId protoIndex).1.basicBlocks =
      basicBlocksOf p.sizecode (decode p) := by
  cases p
  rfl

theorem addFunction_instructions (p : Proto) (nextId : ℕ) (parentId : ℤ) (protoIndex : ℕ) :
    (addFunction p nextId parentId protoIndex).1.instructions = decode p := by
  cases p
  rfl

theorem leaders_pairwise (sizecode : ℕ) (instructions : List Instruction) :
    (leaders sizecode instructions).Pairwise (· < ·) := sortUnique_pairwise _

theorem mem_blockAt {sizecode : ℕ} {instructions : List Instruction} {sorted : List ℕ} {n k : ℕ}
    (h : k ∈ (blockAt sizecode instructions sorted n).instructions) :
    k < instructions.length ∧ sorted.getD n 0 ≤ (instructions.getD k default).offset ∧
      (n + 1 < sorted.length → (instructions.getD k default).offset < sorted.getD (n + 1) 0) := by
  simp only [blockAt, List.mem_filter, List.mem_range, Bool.and_eq_true, decide_eq_true_eq] at h
  obtain ⟨hk, hstart, hlast⟩ := h
  refine ⟨hk, by omega, fun hn => ?_⟩
  rw [if_pos hn] at hlast
  omega

theorem blockAt_disjoint {sizecode : ℕ} {instructions : List Instruction} {sorted : List ℕ}
    (hs : sorted.Pairwise (· < ·)) {b c k : ℕ} (hlt : b < c) (hc : c < sorted.length)
    (hkb : k ∈ (blockAt sizecode instructions sorted b).instructions)
    (hkc : k ∈ (blockAt sizecode instructions sorted c).instructions) : False := by
  have hend := (mem_blockAt hkb).2.2 (by omega)
  have hstart := (mem_blockAt hkc).2.1
  have hle : sorted.getD (b + 1) 0 ≤ sorted.getD c 0 := by
    rcases Nat.lt_or_eq_of_le (Nat.succ_le_of_lt hlt) with h | h
    · rw [List.getD_eq_getElem sorted 0 (by omega : b + 1 < sorted.length),
        List.getD_eq_getElem sorted 0 hc]
      exact (List.pairwise_iff_getElem.1 hs (b + 1) c (by omega) hc h).le
    · rw [← h]
  omega

/-- What the blocks of `addFunction` are. -/
theorem addFunction_block (p : Proto) (nextId : ℕ) (parentId : ℤ) (protoIndex b : ℕ) :
    (b < (leaders p.sizecode (decode p)).length ∧ ∃ preds,
      (addFunction p nextId parentId protoIndex).1.block b =
        { blockAt p.sizecode (decode p) (leaders p.sizecode (decode p)) b with
          predecessors := preds }) ∨
    ((leaders p.sizecode (decode p)).length ≤ b ∧
      (addFunction p nextId parentId protoIndex).1.block b = default) := by
  unfold Function.block
  rw [addFunction_basicBlocks]
  by_cases hb : b < (leaders p.sizecode (decode p)).length
  · exact Or.inl ⟨hb, getD_basicBlocksOf hb⟩
  · exact Or.inr ⟨by omega, List.getD_eq_default _ _ (by rw [length_basicBlocksOf]; omega)⟩

theorem addFunction_graph (p : Proto) (nextId : ℕ) (parentId : ℤ) (protoIndex : ℕ) :
    (addFunction p nextId parentId protoIndex).1.Graph := by
  have hblock := addFunction_block p nextId parentId protoIndex
  have hinstructions := addFunction_instructions p nextId parentId protoIndex
  have hcount : (addFunction p nextId parentId protoIndex).1.blockCount =
      (leaders p.sizecode (decode p)).length := by
    unfold Function.blockCount
    rw [addFunction_basicBlocks, length_basicBlocksOf]
  generalize (addFunction p nextId parentId protoIndex).1 = f at *
  refine ⟨?_, fun b hb => ?_, fun a b hab => ?_, fun b k hk => ?_, ?_⟩
  · rw [hcount]
    refine List.length_pos_of_mem (a := 0) ?_
    unfold leaders
    simp
  · rcases hblock b with ⟨_, preds, h⟩ | ⟨hle, _⟩
    · rw [h]
      rfl
    · omega
  · unfold Function.successors at hab
    rcases hblock a with ⟨_, preds, h⟩ | ⟨_, h⟩
    · rw [h] at hab
      rw [hcount]
      simp only [blockAt] at hab
      split at hab
      · simp at hab
      · exact mem_successorsOf_lt hab
    · rw [h] at hab
      exact absurd hab List.not_mem_nil
  · rcases hblock b with ⟨_, preds, h⟩ | ⟨_, h⟩
    · rw [h] at hk
      rw [hinstructions]
      exact (mem_blockAt hk).1
    · rw [h] at hk
      exact absurd hk List.not_mem_nil
  · intro b c k hkb hkc
    rcases hblock b with ⟨hb, preds, h⟩ | ⟨_, h⟩
    · rcases hblock c with ⟨hc, preds', h'⟩ | ⟨_, h'⟩
      · rw [h] at hkb
        rw [h'] at hkc
        have hs := leaders_pairwise p.sizecode (decode p)
        rcases Nat.lt_trichotomy b c with hlt | heq | hlt
        · exact (blockAt_disjoint hs hlt hc hkb hkc).elim
        · exact heq
        · exact (blockAt_disjoint hs hlt hb hkc hkb).elim
      · rw [h'] at hkc
        exact absurd hkc List.not_mem_nil
    · rw [h] at hkb
      exact absurd hkb List.not_mem_nil

namespace Function

variable {f : Function}

theorem Graph.lt_of_edge (hf : f.Graph) {a b : ℕ} (h : f.Edge a b) :
    a < f.blockCount ∧ b < f.blockCount := by
  refine ⟨?_, hf.successors_lt a b h⟩
  by_contra ha
  unfold Edge successors block at h
  rw [List.getD_eq_default _ _ (Nat.le_of_not_lt ha)] at h
  exact absurd h List.not_mem_nil

/-- Behind the last block there are no edges and no instructions, so a graph is recognised on its
blocks. -/
theorem graph_of_bounded (hpos : 0 < f.blockCount)
    (hid : ∀ b < f.blockCount, (f.block b).id = b)
    (hsucc : ∀ a < f.blockCount, ∀ b ∈ f.successors a, b < f.blockCount)
    (hlt : ∀ b < f.blockCount, ∀ k ∈ (f.block b).instructions, k < f.instructions.length)
    (hunique : ∀ b < f.blockCount, ∀ c < f.blockCount, ∀ k ∈ (f.block b).instructions,
      k ∈ (f.block c).instructions → b = c) : f.Graph := by
  have hblock : ∀ b, b < f.blockCount ∨ f.block b = default := fun b =>
    (Nat.lt_or_ge b f.blockCount).imp_right (List.getD_eq_default _ _)
  refine ⟨hpos, hid, fun a b hab => ?_, fun b k hk => ?_, fun b c k hkb hkc => ?_⟩
  · rcases hblock a with ha | ha
    · exact hsucc a ha b hab
    · rw [successors, ha] at hab
      exact absurd hab List.not_mem_nil
  · rcases hblock b with hb | hb
    · exact hlt b hb k hk
    · rw [hb] at hk
      exact absurd hk List.not_mem_nil
  · rcases hblock b with hb | hb
    · rcases hblock c with hc | hc
      · exact hunique b hb c hc k hkb hkc
      · rw [hc] at hkc
        exact absurd hkc List.not_mem_nil
    · rw [hb] at hkb
      exact absurd hkb List.not_mem_nil

theorem Graph.mem_predecessors (hf : f.Graph) {a b : ℕ} :
    a ∈ f.predecessors b ↔ f.Edge a b := by
  unfold predecessors
  rw [mem_sortUnique, List.mem_map]
  constructor
  · rintro ⟨block, hblock, rfl⟩
    obtain ⟨hmem, hsucc⟩ := List.mem_filter.1 hblock
    obtain ⟨k, hk, rfl⟩ := List.getElem_of_mem hmem
    have hget : f.block k = f.basicBlocks[k] := List.getD_eq_getElem _ _ hk
    rw [← hget, hf.id_eq k hk]
    unfold Edge successors
    rw [hget]
    simpa using hsucc
  · intro h
    have ha := (hf.lt_of_edge h).1
    have hget : f.block a = f.basicBlocks[a] := List.getD_eq_getElem _ _ ha
    have hsucc : b ∈ (f.block a).successors := h
    refine ⟨f.block a, List.mem_filter.2 ⟨?_, by simpa using hsucc⟩, hf.id_eq a ha⟩
    rw [hget]
    exact List.getElem_mem _

theorem Graph.reachable_lt (hf : f.Graph) {b : ℕ} (h : f.Reachable b) : b < f.blockCount := by
  induction h with
  | refl => exact hf.pos
  | tail _ he _ => exact (hf.lt_of_edge he).2

end Function

end ByteVeil.IR
