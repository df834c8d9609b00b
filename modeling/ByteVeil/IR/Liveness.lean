import ByteVeil.FlowGraph.Descent
import ByteVeil.FlowGraph.Live
import ByteVeil.IR.Blocks
import ByteVeil.IR.Validated

/-!
# Liveness

The registers live at the beginning and at the end of every block, and the greatest number of
registers that are live at one point of a block.

1. Program points and what is live at them, by paths.
2. The iteration only ever adds registers that are live, and ends at a fixpoint.
3. The fixpoint is liveness, and the count is the peak over the points of a block.
-/

namespace ByteVeil.IR

open ByteVeil.Luau FlowGraph

/-- `f.liveIn` and `f.liveOut`. -/
structure LiveState where
  liveIn : List (Finset ℕ)
  liveOut : List (Finset ℕ)

namespace Function

variable (f : Function)

/-- The registers an instruction uses, inside the frame. -/
def usesOf (k : ℕ) : Finset ℕ := ((f.instruction k).uses.filter (· < f.registers)).toFinset

/-- The registers an instruction defines, inside the frame. -/
def definitionsOf (k : ℕ) : Finset ℕ :=
  ((f.instruction k).definitions.filter (· < f.registers)).toFinset

/-- `blockUses` and `blockDefs` of a block. -/
def summary (block : ℕ) : Finset ℕ × Finset ℕ :=
  summarize f.usesOf f.definitionsOf (f.block block).instructions

/-- `nextOut`. -/
def nextOut (s : LiveState) (block : ℕ) : Finset ℕ :=
  (f.successors block).foldl (fun acc successor => acc ∪ s.liveIn.getD successor ∅) ∅

/-- `nextIn`. -/
def nextIn (s : LiveState) (block : ℕ) : Finset ℕ :=
  (f.summary block).1 ∪ f.nextOut s block \ (f.summary block).2

/-- One visit of a block. -/
def liveStep (block : ℕ) (s : LiveState) : LiveState × Bool :=
  if f.nextOut s block ≠ s.liveOut.getD block ∅ ∨ f.nextIn s block ≠ s.liveIn.getD block ∅ then
    ({ liveIn := s.liveIn.set block (f.nextIn s block)
       liveOut := s.liveOut.set block (f.nextOut s block) }, true)
  else (s, false)

/-- A round visits the blocks from the last to the first. -/
def liveOrder : List ℕ := (List.range f.blockCount).reverse

/-- Nothing is live. -/
def liveInit : LiveState :=
  { liveIn := List.replicate f.blockCount ∅, liveOut := List.replicate f.blockCount ∅ }

/-- Every round but the last adds a register somewhere. -/
def liveFuel : ℕ := 2 * (f.blockCount * f.registers) + 1

/-- The sets at the end of the iteration. -/
def liveness : LiveState := settle f.liveStep f.liveOrder f.liveFuel f.liveInit

/-- `f.liveIn[block]`. -/
def liveIn (block : ℕ) : Finset ℕ := f.liveness.liveIn.getD block ∅

/-- `f.liveOut[block]`. -/
def liveOut (block : ℕ) : Finset ℕ := f.liveness.liveOut.getD block ∅

/-- `f.blockLiveRegisterCount[block]`: the sweep from the end of the block with the peak so far. -/
def blockLiveRegisterCount (block : ℕ) : ℕ :=
  (peakBefore f.usesOf f.definitionsOf (f.block block).instructions (f.liveOut block)).2

/-! ## Program points -/

/-- A program point: a block and a position in it, the number of its instructions being its end. -/
structure Point where
  block : ℕ
  position : ℕ

/-- The number of instructions of a block. -/
def blockSize (block : ℕ) : ℕ := (f.block block).instructions.length

/-- The instruction at a point. -/
def At (x : Point) (i : Instruction) : Prop :=
  ∃ k, (f.block x.block).instructions[x.position]? = some k ∧ f.instruction k = i

/-- Control moves past an instruction, and from the end of a block to the beginning of a successor. -/
inductive Flows : Point → Point → Prop
  | next {b k : ℕ} : k < f.blockSize b → Flows ⟨b, k⟩ ⟨b, k + 1⟩
  | edge {b s : ℕ} : f.Edge b s → Flows ⟨b, f.blockSize b⟩ ⟨s, 0⟩

/-- The instruction at `x` lists `r` in its uses. -/
def UsesAt (r : ℕ) (x : Point) : Prop := ∃ i, f.At x i ∧ r ∈ i.uses

/-- The instruction at `x` lists `r` in its definitions. -/
def DefinesAt (r : ℕ) (x : Point) : Prop := ∃ i, f.At x i ∧ r ∈ i.definitions

/-- From `x` a path leads to an instruction that uses `r`, and none before it on the path defines
`r`. -/
def LiveAt (r : ℕ) : Point → Prop := Live f.Flows (f.UsesAt r) (f.DefinesAt r)

open Classical in
/-- The registers of the frame that are live at a point. -/
noncomputable def liveSet (x : Point) : Finset ℕ :=
  (Finset.range f.registers).filter (f.LiveAt · x)

/-- All uses are registers of the frame. -/
def UsesInFrame : Prop := ∀ k, ∀ r ∈ (f.instruction k).uses, r < f.registers

variable {f}

theorem mem_usesOf {k r : ℕ} :
    r ∈ f.usesOf k ↔ r ∈ (f.instruction k).uses ∧ r < f.registers := by
  rw [usesOf, List.mem_toFinset, List.mem_filter, decide_eq_true_eq]

theorem mem_definitionsOf {k r : ℕ} :
    r ∈ f.definitionsOf k ↔ r ∈ (f.instruction k).definitions ∧ r < f.registers := by
  rw [definitionsOf, List.mem_toFinset, List.mem_filter, decide_eq_true_eq]

theorem mem_nextOut {s : LiveState} {b r : ℕ} :
    r ∈ f.nextOut s b ↔ ∃ c, f.Edge b c ∧ r ∈ s.liveIn.getD c ∅ := by
  have hgen : ∀ (l : List ℕ) (acc : Finset ℕ),
      r ∈ l.foldl (fun acc c => acc ∪ s.liveIn.getD c ∅) acc ↔
        r ∈ acc ∨ ∃ c ∈ l, r ∈ s.liveIn.getD c ∅ := by
    intro l
    induction l with
    | nil => simp
    | cons c l ih =>
      intro acc
      rw [List.foldl_cons, ih, Finset.mem_union]
      simp only [List.mem_cons, exists_eq_or_imp, or_assoc]
  rw [nextOut, hgen]
  simp [Edge]

theorem nextIn_eq (s : LiveState) (b : ℕ) : f.nextIn s b =
    liveBefore f.usesOf f.definitionsOf (f.block b).instructions (f.nextOut s b) :=
  summarize_union ..

/-! ## Liveness along a block -/

theorem at_iff {b k : ℕ} {i : Instruction} : f.At ⟨b, k⟩ i ↔
    ∃ h : k < f.blockSize b, f.instruction ((f.block b).instructions.get ⟨k, h⟩) = i := by
  unfold At blockSize
  constructor
  · rintro ⟨n, hn, rfl⟩
    obtain ⟨hlt, rfl⟩ := List.getElem?_eq_some_iff.1 hn
    exact ⟨hlt, rfl⟩
  · rintro ⟨hlt, rfl⟩
    exact ⟨_, List.getElem?_eq_getElem hlt, rfl⟩

theorem not_at_end {b : ℕ} (i : Instruction) : ¬ f.At ⟨b, f.blockSize b⟩ i := fun h =>
  Nat.lt_irrefl _ (at_iff.1 h).1

/-- At the end of a block what is live is live at the beginning of a successor. -/
theorem liveAt_end {b r : ℕ} :
    f.LiveAt r ⟨b, f.blockSize b⟩ ↔ ∃ c, f.Edge b c ∧ f.LiveAt r ⟨c, 0⟩ := by
  unfold LiveAt
  rw [live_iff]
  constructor
  · rintro (⟨i, hi, _⟩ | ⟨_, y, he, h⟩)
    · exact absurd hi (not_at_end i)
    · generalize hx : (⟨b, f.blockSize b⟩ : Point) = x at he
      cases he with
      | next hlt =>
        cases hx
        exact absurd hlt (Nat.lt_irrefl _)
      | edge he =>
        cases hx
        exact ⟨_, he, h⟩
  · rintro ⟨c, hc, h⟩
    exact Or.inr ⟨fun ⟨i, hi, _⟩ => not_at_end i hi, ⟨c, 0⟩, .edge hc, h⟩

/-- In front of an instruction its uses are live, and what it does not define if it is live behind. -/
theorem liveAt_instruction {b k r : ℕ} (hk : k < f.blockSize b) :
    f.LiveAt r ⟨b, k⟩ ↔
      r ∈ (f.instruction ((f.block b).instructions.get ⟨k, hk⟩)).uses ∨
      r ∉ (f.instruction ((f.block b).instructions.get ⟨k, hk⟩)).definitions ∧
        f.LiveAt r ⟨b, k + 1⟩ := by
  have hat : ∀ i, f.At ⟨b, k⟩ i ↔ i = f.instruction ((f.block b).instructions.get ⟨k, hk⟩) :=
    fun i => at_iff.trans ⟨fun ⟨_, h⟩ => h.symm, fun h => ⟨hk, h.symm⟩⟩
  unfold LiveAt
  rw [live_iff]
  simp only [UsesAt, DefinesAt, hat, exists_eq_left]
  refine or_congr_right (and_congr_right fun _ => ?_)
  constructor
  · rintro ⟨y, he, h⟩
    generalize hx : (⟨b, k⟩ : Point) = x at he
    cases he with
    | next _ =>
      cases hx
      exact h
    | edge _ =>
      cases hx
      exact absurd hk (Nat.lt_irrefl _)
  · exact fun h => ⟨_, .next hk, h⟩

/-- The live set that the walk from the end of a block finds in front of position `k`. -/
def liveFrom (f : Function) (b k : ℕ) (live : Finset ℕ) : Finset ℕ :=
  liveBefore f.usesOf f.definitionsOf ((f.block b).instructions.drop k) live

theorem liveFrom_instruction {b k : ℕ} (hk : k < f.blockSize b) (live : Finset ℕ) :
    f.liveFrom b k live = before f.usesOf f.definitionsOf
      ((f.block b).instructions.get ⟨k, hk⟩) (f.liveFrom b (k + 1) live) := by
  have hdrop : (f.block b).instructions.drop k =
      (f.block b).instructions.get ⟨k, hk⟩ :: (f.block b).instructions.drop (k + 1) :=
    List.drop_eq_getElem_cons hk
  rw [liveFrom, hdrop, liveBefore_cons, liveFrom]

theorem liveFrom_end {b : ℕ} {live : Finset ℕ} : f.liveFrom b (f.blockSize b) live = live := by
  unfold liveFrom blockSize
  rw [List.drop_length, liveBefore_nil]

theorem mem_liveSet {r : ℕ} {x : Point} :
    r ∈ f.liveSet x ↔ r < f.registers ∧ f.LiveAt r x := by
  unfold liveSet
  simp only [Finset.mem_filter, Finset.mem_range]

theorem card_liveSet_le (x : Point) : (f.liveSet x).card ≤ f.registers := by
  have hsub : f.liveSet x ⊆ Finset.range f.registers := fun r hr =>
    Finset.mem_range.2 (mem_liveSet.1 hr).1
  simpa using Finset.card_le_card hsub

theorem LiveAt.lt_registers (hu : f.UsesInFrame) {r : ℕ} {x : Point} (h : f.LiveAt r x) :
    r < f.registers := by
  refine Live.induct (S := fun _ => r < f.registers) ?_ (fun _ _ _ _ h => h) h
  rintro x ⟨i, ⟨k, _, rfl⟩, hr⟩
  exact hu k r hr

/-- From what is live at the end of a block the walk finds what is live at every point of it. -/
theorem liveFrom_liveSet {b k : ℕ} (hk : k ≤ f.blockSize b) :
    f.liveFrom b k (f.liveSet ⟨b, f.blockSize b⟩) = f.liveSet ⟨b, k⟩ := by
  induction hk using Nat.decreasingInduction with
  | self => exact liveFrom_end
  | of_succ k hk ih =>
    ext r
    rw [liveFrom_instruction hk, ih, mem_before, mem_usesOf, mem_definitionsOf, mem_liveSet,
      mem_liveSet, liveAt_instruction hk]
    tauto

/-! ## The iteration -/

theorem nextIn_eq_liveFrom (s : LiveState) (b : ℕ) :
    f.nextIn s b = f.liveFrom b 0 (f.nextOut s b) := nextIn_eq s b

theorem nextOut_mono {s s' : LiveState} (h : Below s.liveIn s'.liveIn) (b : ℕ) :
    f.nextOut s b ⊆ f.nextOut s' b := by
  intro r hr
  obtain ⟨c, hc, hr⟩ := mem_nextOut.1 hr
  exact mem_nextOut.2 ⟨c, hc, h c hr⟩

theorem nextIn_mono {s s' : LiveState} (h : Below s.liveIn s'.liveIn) (b : ℕ) :
    f.nextIn s b ⊆ f.nextIn s' b := by
  rw [nextIn_eq, nextIn_eq]
  exact liveBefore_mono (nextOut_mono h b)

/-- What the iteration maintains: the sets hold live registers only, and the next visit of a block
does not lose any of them. -/
structure Rising (f : Function) (s : LiveState) : Prop where
  length_in : s.liveIn.length = f.blockCount
  length_out : s.liveOut.length = f.blockCount
  live_in : ∀ b, s.liveIn.getD b ∅ ⊆ f.liveSet ⟨b, 0⟩
  live_out : ∀ b, s.liveOut.getD b ∅ ⊆ f.liveSet ⟨b, f.blockSize b⟩
  below_in : ∀ b, s.liveIn.getD b ∅ ⊆ f.nextIn s b
  below_out : ∀ b, s.liveOut.getD b ∅ ⊆ f.nextOut s b

theorem rising_init : f.Rising f.liveInit := by
  have hempty : ∀ b, (List.replicate f.blockCount (∅ : Finset ℕ)).getD b ∅ = ∅ := by
    intro b
    rw [List.getD_eq_getElem?_getD, List.getElem?_replicate]
    split_ifs <;> rfl
  refine ⟨by simp [liveInit], by simp [liveInit], ?_, ?_, ?_, ?_⟩ <;>
    · intro b
      simp only [liveInit, hempty, Finset.empty_subset]

namespace Rising

variable {s : LiveState}

/-- The sets that a visit computes hold live registers only. -/
theorem nextOut_live (h : f.Rising s) (b : ℕ) :
    f.nextOut s b ⊆ f.liveSet ⟨b, f.blockSize b⟩ := by
  intro r hr
  obtain ⟨c, hc, hr⟩ := mem_nextOut.1 hr
  obtain ⟨hlt, hlive⟩ := mem_liveSet.1 (h.live_in c hr)
  exact mem_liveSet.2 ⟨hlt, liveAt_end.2 ⟨c, hc, hlive⟩⟩

theorem nextIn_live (h : f.Rising s) (b : ℕ) : f.nextIn s b ⊆ f.liveSet ⟨b, 0⟩ := by
  rw [nextIn_eq_liveFrom, ← liveFrom_liveSet (Nat.zero_le _)]
  exact liveBefore_mono (h.nextOut_live b)

/-- Writing the sets a visit computes keeps the invariant. -/
theorem update (h : f.Rising s) {s' : LiveState} (b : ℕ)
    (hin : s'.liveIn = s.liveIn.set b (f.nextIn s b))
    (hout : s'.liveOut = s.liveOut.set b (f.nextOut s b)) : f.Rising s' := by
  have hin' : ∀ c, s'.liveIn.getD c ∅ =
      if c = b ∧ b < s.liveIn.length then f.nextIn s b else s.liveIn.getD c ∅ := by
    intro c
    rw [hin, getD_set]
  have hout' : ∀ c, s'.liveOut.getD c ∅ =
      if c = b ∧ b < s.liveOut.length then f.nextOut s b else s.liveOut.getD c ∅ := by
    intro c
    rw [hout, getD_set]
  have hgrow : Below s.liveIn s'.liveIn := by
    intro c
    rw [hin']
    split_ifs with hc
    · rw [hc.1]
      exact h.below_in b
    · exact subset_rfl
  refine ⟨by rw [hin, List.length_set, h.length_in], by rw [hout, List.length_set, h.length_out],
    fun c => ?_, fun c => ?_, fun c => ?_, fun c => ?_⟩
  · rw [hin']
    split_ifs with hc
    · rw [hc.1]
      exact h.nextIn_live b
    · exact h.live_in c
  · rw [hout']
    split_ifs with hc
    · rw [hc.1]
      exact h.nextOut_live b
    · exact h.live_out c
  · rw [hin']
    split_ifs with hc
    · rw [hc.1]
      exact nextIn_mono hgrow b
    · exact (h.below_in c).trans (nextIn_mono hgrow c)
  · rw [hout']
    split_ifs with hc
    · rw [hc.1]
      exact nextOut_mono hgrow b
    · exact (h.below_out c).trans (nextOut_mono hgrow c)

theorem step (h : f.Rising s) (b : ℕ) : f.Rising (f.liveStep b s).1 := by
  unfold liveStep
  split_ifs
  · exact h.update b rfl rfl
  · exact h

end Rising

/-- How many registers may still be added. -/
def liveGap (f : Function) (s : LiveState) : ℕ :=
  2 * (f.blockCount * f.registers) - (size s.liveIn + size s.liveOut)

/-- A vector of sets of registers has no more elements than there are places for them. -/
theorem size_le_of_liveSet {D : List (Finset ℕ)} {x : ℕ → Point}
    (h : ∀ b, D.getD b ∅ ⊆ f.liveSet (x b)) : size D ≤ D.length * f.registers := by
  have hD : D = (List.range D.length).map fun b => D.getD b ∅ := by
    refine List.ext_getElem (by simp) fun b hb _ => ?_
    rw [List.getElem_map, List.getElem_range, List.getD_eq_getElem _ _ hb]
  have hsize := size_map_range_le (n := D.length) (m := f.registers) (g := fun b => D.getD b ∅)
    fun b _ => (Finset.card_le_card (h b)).trans (card_liveSet_le _)
  rwa [← hD] at hsize

theorem Rising.gap {s : LiveState} (h : f.Rising s) {b : ℕ} (hb : b < f.blockCount) :
    f.liveGap (f.liveStep b s).1 ≤ f.liveGap s ∧
      ((f.liveStep b s).2 = true → f.liveGap (f.liveStep b s).1 < f.liveGap s) := by
  have hnew := h.step b
  unfold liveStep at hnew ⊢
  split_ifs at hnew ⊢ with hc
  · have hin := size_set (D := s.liveIn) (b := b) (s := f.nextIn s b) (by rw [h.length_in]; exact hb)
    have hout := size_set (D := s.liveOut) (b := b) (s := f.nextOut s b)
      (by rw [h.length_out]; exact hb)
    have hcin := Finset.card_le_card (h.below_in b)
    have hcout := Finset.card_le_card (h.below_out b)
    have hbin := size_le_of_liveSet hnew.live_in
    have hbout := size_le_of_liveSet hnew.live_out
    rw [hnew.length_in] at hbin
    rw [hnew.length_out] at hbout
    have hstrict : (s.liveIn.getD b ∅).card < (f.nextIn s b).card ∨
        (s.liveOut.getD b ∅).card < (f.nextOut s b).card := by
      rcases hc with hc | hc
      · exact Or.inr (Finset.card_lt_card ((h.below_out b).ssubset_of_ne hc.symm))
      · exact Or.inl (Finset.card_lt_card ((h.below_in b).ssubset_of_ne hc.symm))
    unfold liveGap
    simp only at hbin hbout ⊢
    omega
  · exact ⟨le_rfl, fun h => absurd h (by decide)⟩

theorem mem_liveOrder {b : ℕ} : b ∈ f.liveOrder ↔ b < f.blockCount := by
  rw [liveOrder, List.mem_reverse, List.mem_range]

/-- The iteration ends, and no visit changes its end. -/
theorem liveness_fixed (f : Function) : Settles f.liveStep f.liveOrder f.liveInit f.liveness ∧
    f.Rising f.liveness ∧ ∀ b < f.blockCount, f.nextOut f.liveness b = f.liveOut b ∧
      f.nextIn f.liveness b = f.liveIn b := by
  have hstep : ∀ b ∈ f.liveOrder, ∀ s, f.Rising s → f.Rising (f.liveStep b s).1 :=
    fun b _ s h => h.step b
  have hgap : ∀ b ∈ f.liveOrder, ∀ s, f.Rising s → f.liveGap (f.liveStep b s).1 ≤ f.liveGap s ∧
      ((f.liveStep b s).2 = true → f.liveGap (f.liveStep b s).1 < f.liveGap s) :=
    fun b hb s h => h.gap (mem_liveOrder.1 hb)
  have hquiet : ∀ b ∈ f.liveOrder, ∀ s, f.Rising s → (f.liveStep b s).2 = false →
      (f.liveStep b s).1 = s := by
    intro b _ s _ h
    unfold liveStep at h ⊢
    split_ifs at h ⊢
    rfl
  have hfuel : f.liveGap f.liveInit < f.liveFuel := by
    unfold liveGap liveFuel
    omega
  refine ⟨settles_settle f.liveGap hstep hgap rising_init hfuel,
    settle_invariant hstep f.liveFuel rising_init, fun b hb => ?_⟩
  have hfix : f.liveStep b f.liveness = (f.liveness, false) :=
    settle_fixed f.liveGap hstep hquiet hgap rising_init hfuel b (mem_liveOrder.2 hb)
  unfold liveStep at hfix
  split_ifs at hfix with hc
  · exact absurd (show true = false from congrArg Prod.snd hfix) (by decide)
  · rw [not_or, not_not, not_not] at hc
    exact hc

/-- At the end of the iteration every live register is in the set of its point. -/
theorem Graph.liveAt_mem (hf : f.Graph) {r : ℕ} (hr : r < f.registers) {x : Point}
    (hx : x.block < f.blockCount) (h : f.LiveAt r x) :
    r ∈ f.liveFrom x.block x.position (f.liveOut x.block) := by
  obtain ⟨-, -, hfix⟩ := f.liveness_fixed
  refine Live.induct (S := fun x => x.block < f.blockCount →
    r ∈ f.liveFrom x.block x.position (f.liveOut x.block)) ?_ ?_ h hx
  · rintro ⟨b, k⟩ ⟨i, hi, hu⟩ -
    obtain ⟨hk, rfl⟩ := at_iff.1 hi
    rw [liveFrom_instruction hk, mem_before, mem_usesOf]
    exact Or.inl ⟨hu, hr⟩
  · intro x y he hd hy hx
    cases he with
    | @next b k hk =>
      rw [liveFrom_instruction hk, mem_before, mem_definitionsOf]
      exact Or.inr ⟨fun h => hd ⟨_, at_iff.2 ⟨hk, rfl⟩, h.1⟩, hy hx⟩
    | @edge b c he =>
      have hc := (hf.lt_of_edge he).2
      have hin : r ∈ f.liveIn c := by
        rw [← (hfix c hc).2, nextIn_eq_liveFrom, (hfix c hc).1]
        exact hy hc
      show r ∈ f.liveFrom b (f.blockSize b) (f.liveOut b)
      rw [liveFrom_end, ← (hfix b hx).1]
      exact mem_nextOut.2 ⟨c, he, hin⟩

/-- The set at the end of a block is what is live there. -/
theorem Graph.liveOut_eq (hf : f.Graph) {b : ℕ} (hb : b < f.blockCount) :
    f.liveOut b = f.liveSet ⟨b, f.blockSize b⟩ := by
  obtain ⟨-, hrising, -⟩ := f.liveness_fixed
  refine Finset.Subset.antisymm (hrising.live_out b) fun r hr => ?_
  obtain ⟨hlt, hlive⟩ := mem_liveSet.1 hr
  have hmem := hf.liveAt_mem hlt (x := ⟨b, f.blockSize b⟩) hb hlive
  rwa [liveFrom_end] at hmem

/-- The set at the beginning of a block is what is live there. -/
theorem Graph.liveIn_eq (hf : f.Graph) {b : ℕ} (hb : b < f.blockCount) :
    f.liveIn b = f.liveSet ⟨b, 0⟩ := by
  obtain ⟨-, -, hfix⟩ := f.liveness_fixed
  rw [← (hfix b hb).2, nextIn_eq_liveFrom, (hfix b hb).1, hf.liveOut_eq hb,
    liveFrom_liveSet (Nat.zero_le _)]

/-- The count of a block is the greatest number of registers live at one of its points. -/
theorem Graph.liveRegisterCount (hf : f.Graph) {b : ℕ} (hb : b < f.blockCount) :
    IsGreatest {n | ∃ k ≤ f.blockSize b, (f.liveSet ⟨b, k⟩).card = n}
      (f.blockLiveRegisterCount b) := by
  have hset : {n | ∃ k ≤ f.blockSize b, (f.liveSet ⟨b, k⟩).card = n} =
      {n | ∃ k ≤ (f.block b).instructions.length, (liveBefore f.usesOf f.definitionsOf
        ((f.block b).instructions.drop k) (f.liveOut b)).card = n} := by
    ext n
    refine exists_congr fun k => and_congr_right fun hk => ?_
    rw [← liveFrom_liveSet hk, ← hf.liveOut_eq hb]
    rfl
  rw [hset]
  exact peakBefore_snd (f.block b).instructions (f.liveOut b)

end Function

/-- The uses of an instruction that `addFunction` decodes lie in the frame. -/
theorem addFunction_usesInFrame (p : Proto) (nextId : ℕ) (parentId : ℤ) (protoIndex : ℕ) :
    (addFunction p nextId parentId protoIndex).1.UsesInFrame := by
  intro k r hr
  have hregisters : (addFunction p nextId parentId protoIndex).1.registers = p.maxstacksize := by
    cases p
    rfl
  have hinstructions := addFunction_instructions p nextId parentId protoIndex
  rw [hregisters]
  unfold Function.instruction at hr
  rw [hinstructions] at hr
  by_cases hk : k < (decode p).length
  · rw [List.getD_eq_getElem _ _ hk] at hr
    have hmem : (decode p)[k] ∈ decode p := List.getElem_mem hk
    rw [(decodeFrom_offset hmem).1] at hr
    exact lt_of_mem_uses hr
  · rw [List.getD_eq_default _ _ (by omega)] at hr
    exact absurd hr List.not_mem_nil

/-- Of every function of the IR the iteration ends, and it ends with the registers that are live at
the beginning and at the end of each block; the count of a block is the greatest number of registers
live at one of its points. -/
theorem addFunction_liveness (p : Proto) (nextId : ℕ) (parentId : ℤ) (protoIndex : ℕ) :
    let f := (addFunction p nextId parentId protoIndex).1
    Settles f.liveStep f.liveOrder f.liveInit f.liveness ∧
    ∀ b < f.blockCount,
      (∀ r, r ∈ f.liveIn b ↔ f.LiveAt r ⟨b, 0⟩) ∧
      (∀ r, r ∈ f.liveOut b ↔ f.LiveAt r ⟨b, f.blockSize b⟩) ∧
      IsGreatest {n | ∃ k ≤ f.blockSize b, ∃ live : Finset ℕ,
        (∀ r, r ∈ live ↔ f.LiveAt r ⟨b, k⟩) ∧ live.card = n} (f.blockLiveRegisterCount b) := by
  intro f
  have hf : f.Graph := addFunction_graph p nextId parentId protoIndex
  have hu : f.UsesInFrame := addFunction_usesInFrame p nextId parentId protoIndex
  have hmem : ∀ x r, r ∈ f.liveSet x ↔ f.LiveAt r x := fun x r =>
    Function.mem_liveSet.trans (and_iff_right_of_imp (Function.LiveAt.lt_registers hu))
  have hcard : ∀ x n, (f.liveSet x).card = n ↔
      ∃ live : Finset ℕ, (∀ r, r ∈ live ↔ f.LiveAt r x) ∧ live.card = n := by
    intro x n
    refine ⟨fun h => ⟨_, hmem x, h⟩, ?_⟩
    rintro ⟨live, hlive, rfl⟩
    exact congrArg Finset.card (Finset.ext fun r => (hmem x r).trans (hlive r).symm)
  refine ⟨f.liveness_fixed.1, fun b hb => ⟨fun r => ?_, fun r => ?_, ?_⟩⟩
  · rw [hf.liveIn_eq hb, hmem]
  · rw [hf.liveOut_eq hb, hmem]
  · simp only [← hcard]
    exact hf.liveRegisterCount hb

end ByteVeil.IR
