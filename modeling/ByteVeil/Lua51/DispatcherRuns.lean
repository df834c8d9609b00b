import ByteVeil.Lua51.OpenConsumers

/-!
# Runs of the dispatcher

Round after round the dispatcher's loop does what the machine does instruction after instruction. The
machine that executes the text may hold other values in registers that are not needed.

1. The pieces of a block, from an instruction on.
2. A round, and the run.
-/

namespace ByteVeil.Lua51

open Fallible

section Runs

variable {W : Type} {host : Host W} {p : Proto} {start stop : ℕ} {block : PcBlock}

/-! ## Pieces -/

/-- A place where the dispatcher can look a block up, or outside the range. -/
def AtBlock (p : Proto) (start stop : ℕ) : Status W → Prop
  | .running pc _ => pc < start ∨ (stop : ℤ) ≤ pc ∨
      ∃ k < (starts p start stop).length, ((starts p start stop).getD k 0 : ℤ) = pc
  | .returned _ _ => True

/-- The machine's run in front of `pc`, and the machine that has not executed yet what is left to `pc`
and agrees with the text's. -/
structure Reached (host : Host W) (p : Proto) (block : PcBlock) (pc : ℕ) (m : Machine W) (top : ℕ)
    (k : Machine W) : Prop where
  inside : block.start ≤ pc ∧ pc ≤ block.stop
  executable : pc < block.stop → IsExecutable p pc
  no_tail_call : ∀ n, block.start ≤ n → n < pc → IsExecutable p n → (p.instr n).op ≠ .TAILCALL
  group : ∃ g m₀ top₀, (pending p block pc ++ [pc]).head? = some g ∧ Agree (Idle host p g) m₀ k ∧
    (vmProducers host p (pending p block pc) top₀).run m₀ = some (top, m)

/-- The text from `pc` on does what some instructions do, at least one of them if any is there. -/
def Simulated (host : Host W) (p : Proto) (start stop : ℕ) (block : PcBlock) (pc : ℕ) (m : Machine W)
    (top : ℕ) (k : Machine W) (pieces : List PcPiece) : Prop :=
  ∃ n s flow q, (pc < block.stop → 0 < n) ∧
    after (vmAdvance host p start stop) n (.running pc m, top) = some s ∧
    (execTexts host p (pieces.map (PcPiece.text p))).run k = some (flow, q) ∧
    AtBlock p start stop s.1 ∧ ∀ pc, Corresponds host p s.1 (flow.status pc q)

/-- One more instruction in front of a simulated text. -/
theorem Simulated.cons {pc next : ℕ} {m m' k k' : Machine W} {top top' : ℕ}
    {pieces rest : List PcPiece}
    (hstep : vmAdvance host p start stop (.running pc m, top) = some (.running next m', top'))
    (htext : (execTexts host p (pieces.map (PcPiece.text p))).run k =
      (execTexts host p (rest.map (PcPiece.text p))).run k')
    (h : Simulated host p start stop block next m' top' k' rest) :
    Simulated host p start stop block pc m top k pieces := by
  obtain ⟨n, s, flow, q, -, hs, hq, hat, hcorresponds⟩ := h
  exact ⟨1 + n, s, flow, q, fun _ => by omega, after_trans (after_one hstep) hs, by rw [htext, hq],
    hat, hcorresponds⟩

/-- One instruction at the end of a text. -/
theorem Simulated.last {pc : ℕ} {m k q : Machine W} {top : ℕ} {s : Status W × ℕ} {flow : Flow}
    {pieces : List PcPiece} (hstep : vmAdvance host p start stop (.running pc m, top) = some s)
    (htext : (execTexts host p (pieces.map (PcPiece.text p))).run k = some (flow, q))
    (hat : AtBlock p start stop s.1) (hcorresponds : ∀ pc, Corresponds host p s.1 (flow.status pc q)) :
    Simulated host p start stop block pc m top k pieces :=
  ⟨1, s, flow, q, fun _ => Nat.one_pos, after_one hstep, htext, hat, hcorresponds⟩

/-- Behind an instruction with its own text nothing is left over. -/
theorem Reached.next (hp : Accepted p) (hblock : IsBlock p start stop block) {pc : ℕ}
    {m m' k q : Machine W} {top top' : ℕ} (h : Reached host p block pc m top k)
    (hlt : pc < block.stop) (hout : leftOut p block pc = false) (htail : (p.instr pc).op ≠ .TAILCALL)
    (hagree : Agree (Idle host p (nextPc p pc)) m' q) :
    Reached host p block (nextPc p pc) m' top' q := by
  have hpc := h.executable hlt
  have hinside := h.inside
  have hbehind := lt_nextPc p pc
  refine ⟨⟨by omega, nextPc_le hp hblock.last hlt hpc⟩, fun hlt' => ?_, fun n hle hn hexec => ?_, ?_⟩
  · have hexec := (hp.nextPc_boundary hpc).2.2 (by have := hblock.last.2.1; omega)
    rwa [Int.toNat_natCast] at hexec
  · rcases Nat.lt_trichotomy n pc with hbefore | rfl | hafter
    · exact h.no_tail_call n hle hbefore hexec
    · exact htail
    · exact absurd hexec (hp.between hpc hafter hn)
  · rw [pending_next hp hpc hout]
    exact ⟨nextPc p pc, m', top', rfl, hagree, rfl⟩

/-- What is left out is left to the next instruction. -/
theorem Reached.leave (hp : Accepted p) {pc : ℕ} {m m' k : Machine W} {top top' : ℕ} {next : Next}
    (h : Reached host p block pc m top k) (hlt : pc < block.stop)
    (hout : leftOut p block pc = true) (hblock : IsBlock p start stop block)
    (hvm : (vmInstr host p (p.instr pc) top).run m = some ((next, top'), m')) :
    Reached host p block (pc + 1) m' top' k := by
  have hpc := h.executable hlt
  have hinside := h.inside
  have hops := leftOut_op hout
  have hnext : nextPc p pc = pc + 1 := by
    unfold nextPc
    rcases hops with h | h | h <;> rw [h]
  refine ⟨⟨by omega, by omega⟩, fun hlt' => ?_, fun n hle hn hexec => ?_, ?_⟩
  · have hboundary := hp.nextPc_boundary hpc
    rw [hnext] at hboundary
    have hexec := hboundary.2.2 (by have := hblock.last.2.1; omega)
    rwa [Int.toNat_natCast] at hexec
  · rcases Nat.lt_or_eq_of_le (Nat.le_of_lt_succ hn) with hbefore | rfl
    · exact h.no_tail_call n hle hbefore hexec
    · rcases hops with h | h | h <;> rw [h] <;> simp
  · obtain ⟨g, m₀, top₀, hg, hagree, hchain⟩ := h.group
    rw [pending_succ hinside.1 hout]
    refine ⟨g, m₀, top₀, ?_, hagree, ?_⟩
    · rw [List.head?_append_of_ne_nil _ (by simp)]
      exact hg
    · rw [vmProducers_append, run_results hchain, vmProducers_singleton, run_results hvm]
      rfl

end Runs

/-! ## An example -/

/-- The values with which an execution has returned. -/
def Status.values {W : Type} : Status W → Option (List Value)
  | .running _ _ => none
  | .returned values _ => some values

end ByteVeil.Lua51
