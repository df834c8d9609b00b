import ByteVeil.RegisterDecompile.Jumps

/-!
# Transfers of control

1. The statements at the end of an arm assign the pc at which the machine continues.
2. Runs of the virtual machine stay on the instructions of the prototype.
3. The dispatcher goes where the machine goes.
-/

namespace ByteVeil.RegisterDecompile

open ByteVeil.Luau ByteVeil.IR
open ByteVeil.Lua51 (Double)

/-! ## The end of a block -/

/-- What the statements reproduce: numeric loops over numbers, and generic loops in which the
machine calls the generator. -/
def Regular {W : Type} (i : Instruction) (m : Machine W) : Prop :=
  match i.opcode with
  | .FORNPREP | .FORNLOOP => NumericAt m i.a
  | .FORGLOOP => ¬(m.registers i.a = .nil ∧ (m.registers (i.a + 1)).isTable = true)
  | _ => True

/-- The opcodes that are rendered as unsupported. -/
def isUnsupported : Opcode → Bool
  | .NATIVECALL | .NEWCLASSMEMBER | .CMPPROTO | .NEWCLASS => true
  | _ => false

section Closing

variable {W : Type} {rt : Runtime W} {cl : Closures W} {functions : List FunctionInfo}
  {f : FunctionInfo} (hc : Checked f.proto) (hpos : 0 < f.proto.sizecode) {n pc : ℕ}
  (hn : n < (starts f.proto).length) (hb : Boundary f.proto pc)
  (hlast : pc + lengthAt f.proto pc = stopOf f.proto n)
include hc hpos hn hb hlast

omit hpos hn hlast in
theorem target_eq (hjump : 0 ≤ getJumpTarget (f.proto.word pc) pc) :
    getJumpTarget (f.proto.word pc) pc =
      dispatched f.proto (getJumpTarget (f.proto.word pc) pc) := by
  obtain ⟨t, ht, heq⟩ := hb.target hc hjump
  have := ht.lt
  unfold dispatched
  rw [if_neg (by omega)]

end Closing

/-! ## Runs -/

section Runs

variable {W : Type} (rt : Runtime W) (p : Proto)

/-- The machine executes the instruction at `pc` and goes to `pc'`. -/
def VmStep (x y : ℕ × Machine W) : Prop :=
  x.1 < p.sizecode ∧ isUnsupported (opcode (p.word x.1)) = false ∧
    (vmStep rt p (decodeAt p x.1)).run x.2 = some (.goto y.1, y.2)

variable {rt p}

/-- Control goes on at the target of an instruction or behind it. -/
theorem eq_of_mem_continuations {i : Instruction} {t : ℤ}
    (hjump : 0 ≤ i.jumpTarget ↔ isJump i.opcode = true ∧ ¬(i.opcode = .LOADB ∧ i.c = 0))
    (ht : t ∈ continuations i) : (0 ≤ i.jumpTarget ∧ t = i.jumpTarget) ∨ t = i.next := by
  by_cases hskip : SkippingLoad i
  · obtain ⟨hop, hc⟩ := hskip
    unfold continuations at ht
    rw [hop] at ht
    dsimp only at ht
    rw [if_neg hc, List.mem_singleton] at ht
    exact .inl ⟨hjump.2 ⟨by rw [hop]; rfl, fun h => hc h.2⟩, ht⟩
  · rcases (mem_continuations hjump hskip).1 ht with h | ⟨-, h⟩
    · exact .inl h
    · exact .inr h

section Step

variable (hc : Checked p) {pc pc' : ℕ} {m m' : Machine W} (hb : Boundary p pc)
  (hstep : VmStep rt p (pc, m) (pc', m'))
include hc hb hstep

theorem VmStep.next : (0 ≤ getJumpTarget (p.word pc) pc ∧
    (pc' : ℤ) = getJumpTarget (p.word pc) pc) ∨ pc' = pc + lengthAt p pc := by
  rcases eq_of_mem_continuations (getJumpTarget_nonneg (hb.checkedAt hc))
    (vmStep_goto rt p pc m _ m' hstep.2.2 _ rfl) with h | h
  · exact .inl h
  · exact .inr (Int.ofNat_inj.1 h)

end Step

end Runs

/-! ## The dispatcher -/

/-- The instruction at `pc` is the last one of block `n`. -/
structure EndsBlock (p : Proto) (n pc : ℕ) : Prop where
  block : n < (starts p).length
  start : (starts p).getD n 0 ≤ pc
  stop : pc + lengthAt p pc = stopOf p n

theorem EndsBlock.pos {p : Proto} {n pc : ℕ} (h : EndsBlock p n pc) : 0 < p.sizecode := by
  by_contra hzero
  have hsize : p.sizecode = 0 := by omega
  have hstarts : starts p = [0] := by
    unfold starts
    rw [hsize]
    rfl
  have hlen := lengthAt_pos p pc
  have hstop := h.stop
  unfold stopOf at hstop
  rw [hstarts, List.getD_eq_default _ _ (by simp)] at hstop
  omega

section Dispatcher

variable {W : Type} {rt : Runtime W} {cl : Closures W} {functions : List FunctionInfo}
  {f : FunctionInfo} (hc : Checked f.proto) (hpos : 0 < f.proto.sizecode) {n pc : ℕ}
include hc hpos

omit hc hpos in
/-- Behind the last instruction of a block there is a block or the end of the code. -/
theorem stopOf_cases (n : ℕ) : stopOf f.proto n = f.proto.sizecode ∨
    (stopOf f.proto n ∈ starts f.proto ∧ (starts f.proto)[n + 1]? = some (stopOf f.proto n)) := by
  unfold stopOf
  by_cases hn : n + 1 < (starts f.proto).length
  · rw [List.getD_eq_getElem _ _ hn]
    exact .inr ⟨List.getElem_mem hn, List.getElem?_eq_getElem hn⟩
  · exact .inl (List.getD_eq_default _ _ (by omega))

variable (hb : Boundary f.proto pc) (hends : EndsBlock f.proto n pc) {m : Machine W}
include hb hends

/-- From the last instruction of a block the machine goes to the start of a block. -/
theorem VmStep.mem_starts {pc' : ℕ} {m' : Machine W}
    (hstep : VmStep rt f.proto (pc, m) (pc', m')) (hlt : pc' < f.proto.sizecode) :
    pc' ∈ starts f.proto := by
  rcases hstep.next hc hb with ⟨hle, heq⟩ | rfl
  · obtain ⟨t, ht, htarget⟩ := target_mem_starts hc hpos hb hle
    rw [htarget, Int.natCast_inj] at heq
    exact heq ▸ ht
  · rw [hends.stop] at hlt ⊢
    exact ((stopOf_cases n).resolve_left (by omega)).1

end Dispatcher

/-! ## Functions -/

mutual

/-- The functions are those of the tree. -/
theorem collect_tree : ∀ (p : Proto) (id : ℕ), (collect p id).map (·.proto) = p.tree
  | ⟨ident, nups, numparams, maxstacksize, code, k, children⟩, id => by
    rw [Proto.tree_eq, collect]
    exact congrArg _ (collectAll_trees children (id + 1))

theorem collectAll_trees : ∀ (ps : List Proto) (id : ℕ),
    (collectAll ps id).1.map (·.proto) = Proto.trees ps
  | [], _ => rfl
  | p :: ps, id => by
    rw [collectAll, Proto.trees]
    dsimp only
    rw [List.map_append, collect_tree p id, collectAll_trees ps]

end

end ByteVeil.RegisterDecompile
