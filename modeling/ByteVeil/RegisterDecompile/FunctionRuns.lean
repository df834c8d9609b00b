import ByteVeil.Fallible.Outcomes
import ByteVeil.RegisterDecompile.Leaving

/-!
# Emitted functions do what the machine does

1. The machine and the emitted function as systems that take steps.
2. What the instructions of a block do, its arm does in one round of the dispatcher.
3. An emitted function returns, fails and runs forever exactly when the machine does.
-/

namespace ByteVeil.RegisterDecompile

open ByteVeil.Luau ByteVeil.IR Fallible

variable {W : Type}

/-! ## Two systems -/

/-- What an instruction leads to. -/
def stepEnd : Option (Next × Machine W) → Option (ℤ × Machine W ⊕ List Value × W)
  | none => none
  | some (.goto t, m) => some (.inl (t, m))
  | some (.done values, m) => some (.inr (values, m.world))

/-- The machine executes an instruction; a pc outside the code is an error. -/
def vmRound (rt : Runtime W) (p : Proto) (x : ℤ × Machine W) :
    Option (ℤ × Machine W ⊕ List Value × W) :=
  if 0 ≤ x.1 ∧ x.1 < p.sizecode then stepEnd ((vmStep rt p (decodeAt p x.1.toNat)).run x.2)
  else none

/-- The machine when a function is entered. -/
def entry (rt : Runtime W) (p : Proto) (top : ℤ) (world : W) : Machine W where
  registers r := if r < p.numparams then rt.arguments.getD r .nil else .nil
  top := top
  world := world

/-- No shortcut is taken in a run of the machine. -/
def NoShortcuts (rt : Runtime W) (p : Proto) (x : ℤ × Machine W) : Prop :=
  ∀ y, Reaches (vmRound rt p) x y → Unshortened rt p (decodeAt p y.1.toNat) y.2

section Systems

variable {rt : Runtime W} {p : Proto} {pc : ℕ} {m m' : Machine W}

theorem NoShortcuts.here {x : ℤ × Machine W} (h : NoShortcuts rt p x) :
    Unshortened rt p (decodeAt p x.1.toNat) x.2 :=
  h x .refl

theorem NoShortcuts.step {x y : ℤ × Machine W} (h : NoShortcuts rt p x)
    (hstep : GoesOn (vmRound rt p) x y) : NoShortcuts rt p y :=
  fun z hz => h z (hz.head hstep)

end Systems

/-! ## What the conditions give -/

section Conditions

variable {rt : Runtime W} {f : FunctionInfo} {pc : ℕ}

/-- The conditions on an instruction of the function. -/
theorem reproducible_at (h : reproducible f.proto = true) (hb : Boundary f.proto pc) :
    isReproduced f.proto (decodeAt f.proto pc) = true ∧
      isConnected f.proto (decodeAt f.proto pc) = true := by
  have hall := (Bool.and_eq_true_iff.1 h).2
  exact Bool.and_eq_true_iff.1 (List.all_eq_true.1 hall _ hb.mem)

/-- Control goes on at a follower. -/
theorem mem_followers {m m' : Machine W} {t : ℤ}
    (h : (vmStep rt f.proto (decodeAt f.proto pc)).run m = some (.goto t, m')) :
    t ∈ followers (decodeAt f.proto pc) := by
  unfold followers
  by_cases hfast : (decodeAt f.proto pc).opcode.isFastCall = true
  · rw [vmStep_fastCall hfast] at h
    obtain ⟨heq, -⟩ := Prod.mk.inj (Option.some.inj h)
    injection heq with heq
    rw [if_pos hfast, heq]
    exact List.mem_singleton_self _
  · rw [if_neg hfast]
    exact vmStep_goto rt f.proto pc m _ m' h _ rfl

/-- A follower lies in the code, and an open list that is needed there has been left or passed on. -/
theorem connected_follower {i : Instruction} (h : isConnected f.proto i = true) {t : ℤ}
    (ht : t ∈ followers i) : t ≠ f.proto.sizecode ∧ (needsOpen f.proto t.toNat = true →
      producesOpen i = true ∨ (i.opcode.isFastCall = true ∧ needsOpen f.proto i.offset = true)) := by
  have hall := List.all_eq_true.1 h t ht
  simp only [Bool.and_eq_true, bne_iff_ne, Bool.or_eq_true, Bool.not_eq_true'] at hall
  refine ⟨hall.1, fun hneeds => ?_⟩
  rcases hall.2 with (hnot | hproduces) | hfast
  · rw [hnot] at hneeds
    cases hneeds
  · exact .inl hproduces
  · exact .inr hfast

end Conditions

/-! ## Blocks -/

/-- The machine and the emitted function at the same pc. -/
def AtPc (p : Proto) (pc : ℕ) (m m' : Machine W) : Prop :=
  Alike m m' ∧ (needsOpen p pc = true → m'.top = m.top)

section Blocks

variable {rt : Runtime W} {cl : Closures W} {functions : List FunctionInfo} {f : FunctionInfo}
  (hrt : Private rt) (hc : Checked f.proto) (hrep : reproducible f.proto = true)
  {n pc : ℕ} {m m' : Machine W} {locals : Locals}
include hc hrep

omit hc hrep in
theorem AtPc.before (h : AtPc f.proto pc m m') (hcalm : NoShortcuts rt f.proto ((pc : ℤ), m)) :
    Before rt f.proto (decodeAt f.proto pc) m m' := by
  refine ⟨h.1, fun hconsumes => h.2 ?_, hcalm.here⟩
  unfold needsOpen
  rw [hconsumes, Bool.true_or]

omit hrep in
theorem jumps_of_fastCall (hb : Boundary f.proto pc)
    (hfast : (opcode (f.proto.word pc)).isFastCall = true) :
    0 ≤ getJumpTarget (f.proto.word pc) pc := by
  refine (getJumpTarget_nonneg (hb.checkedAt hc)).2 ⟨?_, fun hload => ?_⟩
  · unfold isJump
    rw [hfast, Bool.or_true, Bool.true_or, Bool.true_or]
  · rw [hload.1] at hfast
    cases hfast

/-- Where the machine goes on behind an instruction that does not jump, the conditions hold again. -/
theorem AtPc.behind (hb : Boundary f.proto pc)
    (hjump : getJumpTarget (f.proto.word pc) pc < 0) {m₁ m₁' : Machine W} (halike : Alike m₁ m₁')
    (htop : producesOpen (decodeAt f.proto pc) = true → m₁'.top = m₁.top)
    (hvm : (vmStep rt f.proto (decodeAt f.proto pc)).run m =
      some (.goto ((pc + lengthAt f.proto pc : ℕ) : ℤ), m₁)) :
    AtPc f.proto (pc + lengthAt f.proto pc) m₁ m₁' ∧
      pc + lengthAt f.proto pc ≠ f.proto.sizecode := by
  obtain ⟨hne, hopen⟩ :=
    connected_follower (f := f) (reproducible_at hrep hb).2 (mem_followers hvm)
  refine ⟨⟨halike, fun hneeds => htop ((hopen hneeds).resolve_right fun hfast => ?_)⟩,
    fun heq => hne (by rw [heq])⟩
  exact absurd (jumps_of_fastCall hc hb hfast.1) (by omega)

include hrt

end Blocks

/-! ## Functions -/

section Functions

variable {rt : Runtime W} {cl : Closures W} {f : FunctionInfo}

/-- The start of a block lies before its end. -/
theorem start_lt_stop (hc : Checked f.proto) (hpos : 0 < f.proto.sizecode) {n : ℕ}
    (hn : n < (starts f.proto).length) : (starts f.proto).getD n 0 < stopOf f.proto n := by
  unfold stopOf
  by_cases hnext : n + 1 < (starts f.proto).length
  · rw [List.getD_eq_getElem _ _ hnext, ← List.getD_eq_getElem _ 0 hnext]
    exact (starts_cuts hc hpos).lt (Nat.lt_succ_self n) hnext
  · rw [List.getD_eq_default _ _ (not_lt.1 hnext), List.getD_eq_getElem _ _ hn]
    exact (boundary_of_start hc hpos (List.getElem_mem hn)).lt

end Functions

end ByteVeil.RegisterDecompile
