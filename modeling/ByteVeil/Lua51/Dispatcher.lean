import ByteVeil.FlowGraph.Cuts
import ByteVeil.Lua51.Closed
import ByteVeil.Lua51.OpenResults

/-!
# The dispatcher

`emitPcDispatcherRange` cuts a range into blocks at its leaders and emits a loop that looks the block
of the current pc up by nested comparisons.

1. The leaders, the blocks, the comparisons and the text of a block.
2. Running the text of a block: which instructions it runs and what it assigns.
3. The comparisons find every block by its start, the assigned pcs are starts or lie outside, and a
   block runs its instructions in order exactly when its open results are resolved.
-/

namespace ByteVeil.Lua51

open FlowGraph

/-! ## Blocks -/

/-- The pcs that `emitPcDispatcherRange` adds as leaders for an instruction. -/
def leaderTargets (p : Proto) (i : Instr) : List ℤ :=
  match i.op with
  | .JMP | .FORLOOP | .FORPREP => [i.pc + 1, i.target]
  | .EQ | .LT | .LE | .TEST | .TESTSET | .TFORLOOP =>
    [i.pc + 1, i.pc + 2, followingControlTarget p i]
  | .LOADBOOL => if i.c ≠ 0 then [i.pc + 1, i.pc + 2] else []
  | .RETURN => [i.pc + 1]
  | .SETLIST => if i.c = 0 then [i.pc + 2] else []
  | .CLOSURE => [i.pc + 1 + (i.captures.length : ℤ)]
  | _ => []

/-- `leaders` contains `pc`. -/
def isLeader (p : Proto) (start stop pc : ℕ) : Bool :=
  pc == start ||
    !(p.instr pc).extraWord && (p.instr pc).closureBindingFor.isNone &&
      (List.range' start (stop - start)).any fun n =>
        !(p.instr n).extraWord && (p.instr n).closureBindingFor.isNone &&
          (leaderTargets p (p.instr n)).contains (pc : ℤ)

/-- `starts`: the leaders in order. -/
def starts (p : Proto) (start stop : ℕ) : List ℕ :=
  (List.range' start (stop - start)).filter (isLeader p start stop)

/-- `blocks[n]`. -/
def blockAt (cuts : List ℕ) (stop n : ℕ) : PcBlock :=
  ⟨cuts.getD n 0, if n + 1 < cuts.length then cuts.getD (n + 1) 0 else stop⟩

/-! ## Comparisons -/

/-- The nested comparisons around the blocks. -/
inductive Comparisons
  | block (n : ℕ)
  | less (bound : ℕ) (yes no : Comparisons)

/-- `dispatch`: the comparisons for the blocks from `first` up to `last`. -/
def dispatch (cuts : List ℕ) : ℕ → ℕ → ℕ → Comparisons
  | 0, first, _ => .block first
  | fuel + 1, first, last =>
    if last - first = 1 then .block first
    else
      let middle := first + (last - first) / 2
      .less (cuts.getD middle 0) (dispatch cuts fuel first middle) (dispatch cuts fuel middle last)

/-- The block that the comparisons select. -/
def Comparisons.select (pc : ℤ) : Comparisons → ℕ
  | block n => n
  | less bound yes no => if pc < bound then yes.select pc else no.select pc

/-! ## The text of a block -/

/-- The pieces of a block's text. -/
inductive PcPiece
  | simple (i : Instr) (colonCall : Bool)
  | jump (i : Instr) (target : ℤ)
  | branch (i : Instr) (yes no : ℤ)
  | goto (target : ℤ)

/-- `blockInstruction`: an open result from before the block is not taken. -/
def blockInstruction (p : Proto) (block : PcBlock) (i : Instr) : Instr :=
  match openProducerFor p i with
  | some n => if n < block.start then { i with openProducer := none } else i
  | none => i

/-- The text that `emitPcBlock` emits for a block from `pc` on; every round moves forward. -/
def emitPcBlock (p : Proto) (block : PcBlock) : ℕ → ℕ → List PcPiece
  | 0, _ => []
  | fuel + 1, pc =>
    let i := p.instr pc
    if block.stop ≤ pc then [.goto block.stop]
    else if i.closureBindingFor.isSome ∨ i.extraWord then emitPcBlock p block fuel (pc + 1)
    else
      match i.op with
      | .JMP | .FORPREP => [.jump i i.target]
      | .EQ | .LT | .LE | .TEST | .TESTSET | .TFORLOOP =>
        [.branch i (followingControlTarget p i) (i.pc + 2)]
      | .FORLOOP => [.branch i i.target (i.pc + 1)]
      | op =>
        let colonCall := decide (block.start < i.pc) && fusedAt p (i.pc - 1)
        let simple := if leftOut p block i.pc then []
          else [.simple (blockInstruction p block i) colonCall]
        match op with
        | .TAILCALL | .RETURN => simple
        | .LOADBOOL =>
          if i.c ≠ 0 then simple ++ [.goto (i.pc + 2)]
          else simple ++ emitPcBlock p block fuel (pc + 1)
        | .SETLIST => simple ++ emitPcBlock p block fuel (if i.c = 0 then pc + 2 else pc + 1)
        | .CLOSURE => simple ++ emitPcBlock p block fuel (pc + 1 + i.captures.length)
        | _ => simple ++ emitPcBlock p block fuel (pc + 1)

/-! ## Running a block -/

/-- The instructions that the text of `emitSimple` runs. An open `VARARG` on its own and a `SETLIST`
whose open values are not rendered are emitted as comments. -/
def simpleRuns (p : Proto) (context : RenderContext) (i : Instr) (colonCall : Bool) : List ℕ :=
  match i.op with
  | .CALL | .TAILCALL | .RETURN =>
    if colonCall then [i.pc - 1, i.pc]
    else if i.b = 0 then ((openTail p context i).map OpenText.pcs).getD [] ++ [i.pc]
    else [i.pc]
  | .SETLIST =>
    if i.b = 0 then
      match openTail p context i with
      | some tail => tail.pcs ++ [i.pc]
      | none => []
    else [i.pc]
  | .VARARG => if p.vararg / 2 % 2 ≠ 0 ∧ i.b = 0 then [] else [i.pc]
  | _ => [i.pc]

/-- What running a block's text did. -/
structure BlockRun where
  executed : List ℕ
  assigned : List ℤ
  returned : Bool
  deriving DecidableEq

/-- Running pieces in order; the conditions come out as `outcome` says. -/
def runPieces (p : Proto) (context : RenderContext) (outcome : ℕ → Bool) : List PcPiece → BlockRun
  | [] => ⟨[], [], false⟩
  | .simple i colonCall :: rest =>
    let runs := simpleRuns p context i colonCall
    if i.op = .TAILCALL ∨ i.op = .RETURN then ⟨runs, [], true⟩
    else
      let after := runPieces p context outcome rest
      { after with executed := runs ++ after.executed }
  | .jump i target :: rest =>
    let after := runPieces p context outcome rest
    { after with executed := i.pc :: after.executed, assigned := target :: after.assigned }
  | .branch i yes no :: rest =>
    let after := runPieces p context outcome rest
    { after with
      executed := i.pc :: after.executed
      assigned := (if outcome i.pc then yes else no) :: after.assigned }
  | .goto target :: rest =>
    let after := runPieces p context outcome rest
    { after with assigned := target :: after.assigned }

/-- Running the text of a block from its start. -/
def runBlock (p : Proto) (context : RenderContext) (outcome : ℕ → Bool) (block : PcBlock) :
    BlockRun :=
  runPieces p context outcome (emitPcBlock p block (block.stop - block.start + 1) block.start)

/-! ## What a range should do -/

/-- The targets that `emitPcBlock` computes for an instruction. -/
def transferTargets (p : Proto) (i : Instr) : List ℤ :=
  match i.op with
  | .JMP | .FORPREP => [i.target]
  | .EQ | .LT | .LE | .TEST | .TESTSET | .TFORLOOP => [followingControlTarget p i, i.pc + 2]
  | .FORLOOP => [i.target, i.pc + 1]
  | .LOADBOOL => if i.c ≠ 0 then [i.pc + 2] else []
  | _ => []

/-- A range between instruction boundaries whose transfer targets are executable or lie outside. -/
structure Range (p : Proto) (start stop : ℕ) : Prop where
  lt : start < stop
  first : IsExecutable p start
  last : Boundary p stop
  targets : ∀ pc, start ≤ pc → pc < stop → IsExecutable p pc →
    ∀ t ∈ transferTargets p (p.instr pc), t < start ∨ (stop : ℤ) ≤ t ∨ IsExecutable p t.toNat

/-- The instructions up to the first tail call: what stands behind it in its block cannot run. -/
def untilTailCall (p : Proto) : List ℕ → List ℕ
  | [] => []
  | pc :: pcs => pc :: if (p.instr pc).op = .TAILCALL then [] else untilTailCall p pcs

/-- The instructions that a block runs from `pc` on. -/
def instructionsFrom (p : Proto) (block : PcBlock) (pc : ℕ) : List ℕ :=
  untilTailCall p ((List.range' pc (block.stop - pc)).filter fun n => IsExecutable p n)

/-- The dispatcher of a range follows its instructions. -/
structure Dispatches (p : Proto) (context : RenderContext) (start stop : ℕ) : Prop where
  assigned : ∀ n < (starts p start stop).length, ∀ outcome,
    ∀ t ∈ (runBlock p context outcome (blockAt (starts p start stop) stop n)).assigned,
      t < start ∨ (stop : ℤ) ≤ t ∨ ∃ k < (starts p start stop).length,
        ((blockAt (starts p start stop) stop k).start : ℤ) = t
  selected : ∀ n < (starts p start stop).length,
    (dispatch (starts p start stop) (starts p start stop).length 0
      (starts p start stop).length).select (blockAt (starts p start stop) stop n).start = n
  executed : ∀ n < (starts p start stop).length, ∀ outcome,
    (runBlock p context outcome (blockAt (starts p start stop) stop n)).executed =
      instructionsFrom p (blockAt (starts p start stop) stop n)
        (blockAt (starts p start stop) stop n).start
  executable : ∀ n < (starts p start stop).length, ∀ outcome,
    ∀ pc ∈ (runBlock p context outcome (blockAt (starts p start stop) stop n)).executed,
      IsExecutable p pc
  once : ∀ n < (starts p start stop).length, ∀ outcome,
    (runBlock p context outcome (blockAt (starts p start stop) stop n)).assigned.length =
      if (runBlock p context outcome (blockAt (starts p start stop) stop n)).returned then 0 else 1

/-- Every open result of a block is taken and rendered by its consumer. -/
structure OpenResultsResolved (p : Proto) (block : PcBlock) : Prop where
  enclosed : ∀ n ∈ instructionsFrom p block block.start,
    openProducerConsumedInRange p n block.stop = true → Enclosed p block n
  below : ∀ n ∈ instructionsFrom p block block.start, block.start < n →
    openProducerConsumedInRange p (n - 1) block.stop = true →
      StartsBelow (p.instr n) (p.instr (n - 1))
  depth : ∀ n ∈ instructionsFrom p block block.start,
    openProducerConsumedInRange p n block.stop = false →
      openDepth p block n ≤ openLimit (p.instr n).op
  varargs : ∀ n ∈ instructionsFrom p block block.start, (p.instr n).op = .VARARG →
    (p.instr n).b = 0 → p.vararg / 2 % 2 ≠ 0 → openProducerConsumedInRange p n block.stop = true
  setlists : ∀ n ∈ instructionsFrom p block block.start, (p.instr n).op = .SETLIST →
    (p.instr n).b = 0 →
      block.start < n ∧ openProducerConsumedInRange p (n - 1) block.stop = true

instance (p : Proto) (block : PcBlock) : Decidable (OpenResultsResolved p block) :=
  decidable_of_iff
    ((∀ n ∈ instructionsFrom p block block.start,
      openProducerConsumedInRange p n block.stop = true → Enclosed p block n) ∧
    (∀ n ∈ instructionsFrom p block block.start, block.start < n →
      openProducerConsumedInRange p (n - 1) block.stop = true →
        StartsBelow (p.instr n) (p.instr (n - 1))) ∧
    (∀ n ∈ instructionsFrom p block block.start,
      openProducerConsumedInRange p n block.stop = false →
        openDepth p block n ≤ openLimit (p.instr n).op) ∧
    (∀ n ∈ instructionsFrom p block block.start, (p.instr n).op = .VARARG →
      (p.instr n).b = 0 → p.vararg / 2 % 2 ≠ 0 →
        openProducerConsumedInRange p n block.stop = true) ∧
    ∀ n ∈ instructionsFrom p block block.start, (p.instr n).op = .SETLIST →
      (p.instr n).b = 0 →
        block.start < n ∧ openProducerConsumedInRange p (n - 1) block.stop = true)
    ⟨fun h => ⟨h.1, h.2.1, h.2.2.1, h.2.2.2.1, h.2.2.2.2⟩,
      fun h => ⟨h.enclosed, h.below, h.depth, h.varargs, h.setlists⟩⟩

/-! ## Comparisons find their block -/

section Comparisons

variable {first : ℕ} {cuts : List ℕ} (h : Cuts first cuts)
include h

theorem select_dispatch {fuel lo hi n : ℕ} (hfuel : hi - lo ≤ fuel) (hlo : lo ≤ n) (hhi : n < hi)
    (hlen : hi ≤ cuts.length) : (dispatch cuts fuel lo hi).select (cuts.getD n 0 : ℕ) = n := by
  induction fuel generalizing lo hi with
  | zero => omega
  | succ fuel ih =>
    unfold dispatch
    dsimp only
    split_ifs with hone
    · show lo = n
      omega
    · unfold Comparisons.select
      set middle := lo + (hi - lo) / 2 with hmiddle
      have hlt : lo < middle := by omega
      have hgt : middle < hi := by omega
      by_cases hn : n < middle
      · rw [if_pos (by exact_mod_cast h.lt hn (by omega))]
        exact ih (by omega) hlo hn (by omega)
      · rw [if_neg (by have := h.le (not_lt.1 hn) (by omega); omega)]
        exact ih (by omega) (by omega) hhi hlen

end Comparisons

/-! ## Instructions of a block -/

section Instructions

variable {p : Proto} {block : PcBlock}

theorem instructionsFrom_of_le {pc : ℕ} (h : block.stop ≤ pc) : instructionsFrom p block pc = [] := by
  unfold instructionsFrom
  rw [Nat.sub_eq_zero_of_le h]
  rfl

theorem instructionsFrom_of_executable {pc : ℕ} (hlt : pc < block.stop) (h : IsExecutable p pc) :
    instructionsFrom p block pc =
      pc :: if (p.instr pc).op = .TAILCALL then [] else instructionsFrom p block (pc + 1) := by
  unfold instructionsFrom
  rw [show block.stop - pc = (block.stop - (pc + 1)) + 1 by omega, List.range'_succ,
    List.filter_cons_of_pos (by simpa using h)]
  rfl

theorem instructionsFrom_of_not_executable {pc : ℕ} (h : ¬IsExecutable p pc) :
    instructionsFrom p block pc = instructionsFrom p block (pc + 1) := by
  by_cases hlt : pc < block.stop
  · unfold instructionsFrom
    rw [show block.stop - pc = (block.stop - (pc + 1)) + 1 by omega, List.range'_succ,
      List.filter_cons_of_neg (by simpa using h)]
  · rw [instructionsFrom_of_le (by omega), instructionsFrom_of_le (by omega)]

theorem instructionsFrom_skip {pc n : ℕ} (hle : pc ≤ n) (h : ∀ k, pc ≤ k → k < n → ¬IsExecutable p k) :
    instructionsFrom p block pc = instructionsFrom p block n := by
  induction n, hle using Nat.le_induction with
  | base => rfl
  | succ n hle ih =>
    rw [ih fun k hk hlt => h k hk (by omega)]
    exact instructionsFrom_of_not_executable (h n hle (Nat.lt_succ_self n))

theorem mem_untilTailCall {pcs : List ℕ} {n : ℕ} (h : n ∈ untilTailCall p pcs) : n ∈ pcs := by
  induction pcs with
  | nil => cases h
  | cons pc pcs ih =>
    unfold untilTailCall at h
    rcases List.mem_cons.1 h with rfl | h
    · exact List.mem_cons_self ..
    · split_ifs at h
      · cases h
      · exact List.mem_cons_of_mem _ (ih h)

theorem mem_instructionsFrom {pc n : ℕ} (h : n ∈ instructionsFrom p block pc) :
    pc ≤ n ∧ n < block.stop ∧ IsExecutable p n := by
  obtain ⟨hmem, hexec⟩ := List.mem_filter.1 (mem_untilTailCall h)
  rw [List.mem_range'_1] at hmem
  exact ⟨hmem.1, by omega, by simpa using hexec⟩

/-- An instruction runs unless a tail call stands before it. -/
theorem mem_instructionsFrom_iff {pc n : ℕ} : n ∈ instructionsFrom p block pc ↔
    pc ≤ n ∧ n < block.stop ∧ IsExecutable p n ∧
      ∀ k, pc ≤ k → k < n → IsExecutable p k → (p.instr k).op ≠ .TAILCALL := by
  induction hlen : block.stop - pc generalizing pc with
  | zero =>
    rw [instructionsFrom_of_le (by omega)]
    exact iff_of_false List.not_mem_nil fun h => by omega
  | succ len ih =>
    have hlt : pc < block.stop := by omega
    have hlater := ih (show block.stop - (pc + 1) = len by omega)
    by_cases hpc : IsExecutable p pc
    · rw [instructionsFrom_of_executable hlt hpc, List.mem_cons]
      constructor
      · rintro (rfl | hn)
        · exact ⟨le_rfl, hlt, hpc, fun k hk hlt => by omega⟩
        · split_ifs at hn with htail
          · cases hn
          · obtain ⟨hle, hstop, hexec, hbefore⟩ := hlater.1 hn
            refine ⟨by omega, hstop, hexec, fun k hk hkn hkexec => ?_⟩
            rcases Nat.eq_or_lt_of_le hk with rfl | hk
            · exact htail
            · exact hbefore k hk hkn hkexec
      · rintro ⟨hle, hstop, hexec, hbefore⟩
        rcases Nat.eq_or_lt_of_le hle with rfl | hgt
        · exact Or.inl rfl
        · refine Or.inr ?_
          rw [if_neg (hbefore pc le_rfl hgt hpc)]
          exact hlater.2 ⟨hgt, hstop, hexec, fun k hk => hbefore k (by omega)⟩
    · rw [instructionsFrom_of_not_executable hpc, hlater]
      constructor
      · rintro ⟨hle, hstop, hexec, hbefore⟩
        refine ⟨by omega, hstop, hexec, fun k hk hkn hkexec => hbefore k ?_ hkn hkexec⟩
        rcases Nat.eq_or_lt_of_le hk with rfl | hk
        · exact absurd hkexec hpc
        · exact hk
      · rintro ⟨hle, hstop, hexec, hbefore⟩
        refine ⟨?_, hstop, hexec, fun k hk => hbefore k (by omega)⟩
        rcases Nat.eq_or_lt_of_le hle with rfl | hgt
        · exact absurd hexec hpc
        · exact hgt

end Instructions

/-! ## The next instruction -/

/-- The pc behind an instruction and its operand words. -/
def nextPc (p : Proto) (pc : ℕ) : ℕ :=
  match (p.instr pc).op with
  | .SETLIST => if (p.instr pc).c = 0 then pc + 2 else pc + 1
  | .CLOSURE => pc + 1 + (p.instr pc).captures.length
  | _ => pc + 1

theorem lt_nextPc (p : Proto) (pc : ℕ) : pc < nextPc p pc := by
  unfold nextPc
  split
  · split_ifs <;> omega
  · omega
  · omega

/-- Nothing between an instruction and the next one is executed. -/
theorem Accepted.between {p : Proto} (hp : Accepted p) {pc : ℕ} (hpc : IsExecutable p pc) {k : ℕ}
    (hlt : pc < k) (hk : k < nextPc p pc) : ¬IsExecutable p k := by
  unfold nextPc at hk
  split at hk
  case h_1 hop =>
    split_ifs at hk with hc
    · obtain rfl : k = pc + 1 := by omega
      intro hexec
      have hextra := (hp.extra_iff_op hexec.lt).2 (hp.afterExtraWord hpc ⟨hop, hc⟩).1
      rw [hexec.not_extra] at hextra
      cases hextra
    · omega
  case h_2 hop =>
    intro hexec
    have hbound := (hp.bound hpc hlt (by omega)).2.1
    rw [hexec.not_binding] at hbound
    cases hbound
  case h_3 => omega

theorem Accepted.nextPc_boundary {p : Proto} (hp : Accepted p) {pc : ℕ} (hpc : IsExecutable p pc) :
    Boundary p (nextPc p pc) := by
  unfold nextPc
  split
  case h_1 hop =>
    split_ifs with hc
    · exact_mod_cast (hp.afterExtraWord hpc ⟨hop, hc⟩).2
    · exact_mod_cast hp.next hpc (fun h => hc h.2) (by rw [hop]; decide)
  case h_2 hop => exact_mod_cast hp.afterBindings hpc hop
  case h_3 hlist hclosure =>
    exact_mod_cast hp.next hpc (fun h => hlist h.1) hclosure

theorem instructionsFrom_next {p : Proto} (hp : Accepted p) {block : PcBlock} {pc : ℕ}
    (hlt : pc < block.stop) (hpc : IsExecutable p pc) (hop : (p.instr pc).op ≠ .TAILCALL) :
    instructionsFrom p block pc = pc :: instructionsFrom p block (nextPc p pc) := by
  rw [instructionsFrom_of_executable hlt hpc, if_neg hop,
    instructionsFrom_skip (lt_nextPc p pc) fun k hk hlt => hp.between hpc hk hlt]

/-! ## Running from a pc -/

/-- A block between leaders. -/
structure IsBlock (p : Proto) (start stop : ℕ) (block : PcBlock) : Prop where
  lt : block.start < block.stop
  first : IsExecutable p block.start
  last : Boundary p block.stop
  within : start ≤ block.start ∧ block.stop ≤ stop
  leaders : ∀ pc, block.start ≤ pc → pc < block.stop → IsExecutable p pc →
    ∀ k : ℕ, (k : ℤ) ∈ leaderTargets p (p.instr pc) → IsExecutable p k →
      k ≤ block.start ∨ block.stop ≤ k
  target_start : ∀ pc, block.start ≤ pc → pc < block.stop → IsExecutable p pc →
    ∀ t ∈ transferTargets p (p.instr pc), t < start ∨ (stop : ℤ) ≤ t ∨
      ∃ k < (starts p start stop).length, ((starts p start stop).getD k 0 : ℤ) = t
  stop_start : block.stop = stop ∨
    ∃ k < (starts p start stop).length, (starts p start stop).getD k 0 = block.stop

/-- The instructions that end their block themselves. -/
def isControl : Op → Bool
  | .JMP | .FORPREP | .EQ | .LT | .LE | .TEST | .TESTSET | .TFORLOOP | .FORLOOP => true
  | _ => false

/-- The instructions that the text emitted at `pc` runs. -/
def runsAt (p : Proto) (context : RenderContext) (block : PcBlock) (pc : ℕ) : List ℕ :=
  simpleRuns p context (blockInstruction p block (p.instr pc))
    (decide (block.start < pc) && fusedAt p (pc - 1))

/-- `blockInstruction` only drops the open result. -/
theorem blockInstruction_eq (p : Proto) (block : PcBlock) (i : Instr) :
    (blockInstruction p block i).op = i.op ∧ (blockInstruction p block i).pc = i.pc ∧
      (blockInstruction p block i).b = i.b := by
  unfold blockInstruction
  split
  · split_ifs <;> exact ⟨rfl, rfl, rfl⟩
  · exact ⟨rfl, rfl, rfl⟩

section Run

variable {p : Proto} (hp : Accepted p) (context : RenderContext) {start stop : ℕ} {block : PcBlock}
include hp

theorem nextPc_le {pc : ℕ} (hb : Boundary p block.stop) (hlt : pc < block.stop)
    (hpc : IsExecutable p pc) : nextPc p pc ≤ block.stop := by
  by_contra hgt
  have hnext := (hp.nextPc_boundary hpc).2.1
  have hexec := hb.2.2 (by omega)
  rw [Int.toNat_natCast] at hexec
  exact hp.between hpc hlt (by omega) hexec

/-- A control instruction ends its block with one assignment. -/
theorem run_control {pc : ℕ} (fuel : ℕ) (hlt : pc < block.stop) (hpc : IsExecutable p pc)
    (hop : isControl (p.instr pc).op = true) (outcome : ℕ → Bool) :
    ∃ t ∈ transferTargets p (p.instr pc),
      runPieces p context outcome (emitPcBlock p block (fuel + 1) pc) = ⟨[pc], [t], false⟩ := by
  have hself := (hp.valid.decoded pc hpc.lt).pc_eq
  have hjump (t : ℤ) : runPieces p context outcome [.jump (p.instr pc) t] = ⟨[pc], [t], false⟩ := by
    simp only [runPieces, hself]
  have hbranch (yes no : ℤ) : runPieces p context outcome [.branch (p.instr pc) yes no] =
      ⟨[pc], [if outcome pc then yes else no], false⟩ := by
    simp only [runPieces, hself]
  unfold emitPcBlock
  dsimp only
  rw [if_neg (not_le.2 hlt), if_neg (by simp [hpc.not_binding, hpc.not_extra])]
  unfold transferTargets
  cases hkind : (p.instr pc).op <;> rw [hkind] at hop <;> try cases hop
  case JMP | FORPREP => exact ⟨_, List.mem_singleton.2 rfl, hjump _⟩
  all_goals
    refine ⟨_, ?_, hbranch _ _⟩
    split_ifs <;> simp

omit hp in
theorem leftOut_op {pc : ℕ} (hout : leftOut p block pc = true) :
    (p.instr pc).op = .CALL ∨ (p.instr pc).op = .VARARG ∨ (p.instr pc).op = .SELF := by
  rcases leftOut_iff.1 hout with h | h
  · rcases openResultProducer_cases (consumed_iff.1 h).2.2.1 with h | h
    · exact Or.inl h.1
    · exact Or.inr (Or.inl h.1)
  · exact Or.inr (Or.inr (fusedAt_cases h.2).1)

/-- What is left out adds nothing to the text. -/
theorem emitPcBlock_leftOut {pc fuel : ℕ} (hlt : pc < block.stop) (hpc : IsExecutable p pc)
    (hout : leftOut p block pc = true) :
    emitPcBlock p block (fuel + 1) pc = emitPcBlock p block fuel (pc + 1) := by
  have hself := (hp.valid.decoded pc hpc.lt).pc_eq
  have hop := leftOut_op hout
  conv_lhs => unfold emitPcBlock
  dsimp only
  rw [if_neg (not_le.2 hlt), if_neg (by simp [hpc.not_binding, hpc.not_extra])]
  rw [hself, if_pos hout]
  rcases hop with h | h | h <;> rw [h] <;> rfl

/-- The text behind an instruction that is rendered on its own. -/
def restOf (p : Proto) (block : PcBlock) (fuel pc : ℕ) : List PcPiece :=
  if (p.instr pc).op = .TAILCALL ∨ (p.instr pc).op = .RETURN then []
  else if (p.instr pc).op = .LOADBOOL ∧ (p.instr pc).c ≠ 0 then [.goto (pc + 2)]
  else emitPcBlock p block fuel (nextPc p pc)

theorem emitPcBlock_simple {pc fuel : ℕ} (hlt : pc < block.stop) (hpc : IsExecutable p pc)
    (hop : isControl (p.instr pc).op = false) (hout : leftOut p block pc = false) :
    emitPcBlock p block (fuel + 1) pc =
      .simple (blockInstruction p block (p.instr pc))
        (decide (block.start < pc) && fusedAt p (pc - 1)) :: restOf p block fuel pc := by
  have hself := (hp.valid.decoded pc hpc.lt).pc_eq
  conv_lhs => unfold emitPcBlock
  dsimp only
  rw [if_neg (not_le.2 hlt), if_neg (by simp [hpc.not_binding, hpc.not_extra])]
  rw [hself, if_neg (by simp [hout])]
  unfold restOf nextPc
  cases hkind : (p.instr pc).op <;> rw [hkind] at hop <;> try cases hop
  case LOADBOOL =>
    by_cases hc : (p.instr pc).c = 0 <;> simp [hc]
  all_goals simp

/-- The chain of open results in front of an instruction that is not left out is rendered, and the
instruction is not emitted as a comment. -/
structure ResolvedAt (p : Proto) (block : PcBlock) (pc : ℕ) : Prop where
  open_results : block.start < pc → openProducerConsumedInRange p (pc - 1) block.stop = true →
    StartsBelow (p.instr pc) (p.instr (pc - 1)) ∧ Resolved p block (pc - 1) ∧
      openDepth p block pc ≤ openLimit (p.instr pc).op
  varargs : (p.instr pc).op = .VARARG → (p.instr pc).b = 0 → p.vararg / 2 % 2 = 0
  setlist : (p.instr pc).op = .SETLIST → (p.instr pc).b = 0 →
    block.start < pc ∧ openProducerConsumedInRange p (pc - 1) block.stop = true

omit hp in
theorem not_consumed_before {pc : ℕ} (hpos : 0 < pc)
    (h : consumesOpenResults (p.instr pc).op = true → (p.instr pc).b ≠ 0) :
    openProducerConsumedInRange p (pc - 1) block.stop = false := by
  refine Bool.eq_false_iff.2 fun hconsumed => ?_
  obtain ⟨-, -, -, -, hop, hb⟩ := consumed_iff.1 hconsumed
  rw [Nat.sub_add_cancel hpos] at hop hb
  exact h hop hb

/-- A consumer whose open result is rendered in the block runs what is left to it exactly when its
chain is resolved. -/
theorem openRuns_iff {pc : ℕ} (hlt : pc < block.stop) (hpc : IsExecutable p pc)
    (hop : consumesOpenResults (p.instr pc).op = true) (hb : (p.instr pc).b = 0) :
    (∃ t, openTail p context (blockInstruction p block (p.instr pc)) = some t ∧
      t.pcs = pending p block pc) ↔
      (block.start < pc ∧ openProducerConsumedInRange p (pc - 1) block.stop = true) ∧
        StartsBelow (p.instr pc) (p.instr (pc - 1)) ∧ Resolved p block (pc - 1) ∧
          openDepth p block pc ≤ openLimit (p.instr pc).op := by
  have htail := openTail_pcs (fun n hn => hp.valid.decoded n hn) context hlt hpc.lt hop hb
  unfold blockInstruction
  cases hfor : openProducerFor p (p.instr pc) with
  | none =>
    dsimp only
    rw [htail]
    constructor
    · rintro ⟨hfed, hbelow, hdepth⟩
      exact ⟨⟨hfed.inside, hfed.consumed⟩, hbelow, hfed.resolved, hdepth⟩
    · rintro ⟨⟨hinside, hconsumed⟩, hbelow, hresolved, hdepth⟩
      exact ⟨⟨hinside, hconsumed, hresolved⟩, hbelow, hdepth⟩
  | some m =>
    dsimp only
    have hm := (openProducerFor_some hfor).1
    rw [(hp.valid.decoded pc hpc.lt).pc_eq] at hm
    split_ifs with hbefore
    · refine iff_of_false ?_ fun h => absurd h.1.1 (by omega)
      rintro ⟨t, ht, -⟩
      obtain ⟨n, levels, hnone, -⟩ := openTail_some ht
      cases hnone
    · rw [htail]
      constructor
      · rintro ⟨hfed, hbelow, hdepth⟩
        exact ⟨⟨hfed.inside, hfed.consumed⟩, hbelow, hfed.resolved, hdepth⟩
      · rintro ⟨⟨hinside, hconsumed⟩, hbelow, hresolved, hdepth⟩
        exact ⟨⟨hinside, hconsumed, hresolved⟩, hbelow, hdepth⟩

/-- Only an open result of the block is rendered. -/
theorem openTail_inside {pc : ℕ} {t : OpenText} (hlt : pc < block.stop) (hpc : IsExecutable p pc)
    (hop : consumesOpenResults (p.instr pc).op = true) (hb : (p.instr pc).b = 0)
    (ht : openTail p context (blockInstruction p block (p.instr pc)) = some t) :
    block.start < pc ∧ openProducerConsumedInRange p (pc - 1) block.stop = true ∧
      openTail p context (p.instr pc) = some t := by
  unfold blockInstruction at ht
  cases hfor : openProducerFor p (p.instr pc) with
  | none =>
    rw [hfor] at ht
    obtain ⟨n, levels, hsome, -⟩ := openTail_some ht
    rw [hfor] at hsome
    cases hsome
  | some m =>
    rw [hfor] at ht
    dsimp only at ht
    obtain ⟨hm, hproducer⟩ := openProducerFor_some hfor
    rw [(hp.valid.decoded pc hpc.lt).pc_eq] at hm
    subst hm
    split_ifs at ht with hbefore
    · obtain ⟨n, levels, hnone, -⟩ := openTail_some ht
      cases hnone
    · exact ⟨by omega, consumed_iff.2 ⟨hlt, hpc.lt, hproducer, hfor, hop, hb⟩, ht⟩

omit hp in
theorem pending_of_open {pc : ℕ} (hb : (p.instr pc).b = 0)
    (h : ¬(block.start < pc ∧ openProducerConsumedInRange p (pc - 1) block.stop = true)) :
    pending p block pc = [] := by
  cases pc with
  | zero => rfl
  | succ n =>
    refine pending_of_not fun hle => ?_
    rw [← Bool.not_eq_true, leftOut_iff]
    rintro (hconsumed | ⟨-, hfused⟩)
    · exact h ⟨by omega, hconsumed⟩
    · have := (fusedAt_cases hfused).2.2
      omega

/-- With an open operand list the text runs what is left to it exactly when the chain is resolved. -/
theorem openRuns_eq {pc : ℕ} (hlt : pc < block.stop) (hpc : IsExecutable p pc)
    (hop : consumesOpenResults (p.instr pc).op = true) (hb : (p.instr pc).b = 0) :
    (((openTail p context (blockInstruction p block (p.instr pc))).map OpenText.pcs).getD [] =
      pending p block pc) ↔
      (block.start < pc → openProducerConsumedInRange p (pc - 1) block.stop = true →
        StartsBelow (p.instr pc) (p.instr (pc - 1)) ∧ Resolved p block (pc - 1) ∧
          openDepth p block pc ≤ openLimit (p.instr pc).op) := by
  by_cases hinside : block.start < pc ∧
      openProducerConsumedInRange p (pc - 1) block.stop = true
  · have hiff := openRuns_iff hp context hlt hpc hop hb
    have hne : pending p block pc ≠ [] := by
      obtain ⟨n, rfl⟩ : ∃ n, pc = n + 1 := ⟨pc - 1, by omega⟩
      rw [pending_succ (n := n) (by omega) (leftOut_iff.2 (Or.inl hinside.2))]
      simp
    rw [show (block.start < pc → openProducerConsumedInRange p (pc - 1) block.stop = true →
      StartsBelow (p.instr pc) (p.instr (pc - 1)) ∧ Resolved p block (pc - 1) ∧
        openDepth p block pc ≤ openLimit (p.instr pc).op) ↔
      (block.start < pc ∧ openProducerConsumedInRange p (pc - 1) block.stop = true) ∧
        StartsBelow (p.instr pc) (p.instr (pc - 1)) ∧ Resolved p block (pc - 1) ∧
          openDepth p block pc ≤ openLimit (p.instr pc).op from
      ⟨fun h => ⟨hinside, h hinside.1 hinside.2⟩, fun h _ _ => h.2⟩, ← hiff]
    cases openTail p context (blockInstruction p block (p.instr pc)) with
    | none => exact iff_of_false (Ne.symm hne) (by simp)
    | some t => simp
  · rw [pending_of_open hb hinside]
    refine iff_of_true ?_ fun h₁ h₂ => absurd ⟨h₁, h₂⟩ hinside
    cases ht : openTail p context (blockInstruction p block (p.instr pc)) with
    | none => rfl
    | some t =>
      obtain ⟨h₁, h₂, -⟩ := openTail_inside hp context hlt hpc hop hb ht
      exact absurd ⟨h₁, h₂⟩ hinside

omit hp in
theorem not_fused_of_op {pc : ℕ} (hcall : (p.instr pc).op ≠ .CALL)
    (htail : (p.instr pc).op ≠ .TAILCALL) : fusedAt p (pc - 1) = false ∨ pc = 0 := by
  refine not_fused_before fun hpos => Bool.eq_false_iff.2 fun h => ?_
  obtain ⟨-, hop, -⟩ := fusedAt_cases h
  rw [Nat.sub_add_cancel hpos] at hop
  exact hop.elim hcall htail

omit hp in
/-- An instruction without open operands and without a method is resolved. -/
theorem resolvedAt_of_closed {pc : ℕ}
    (hop : consumesOpenResults (p.instr pc).op = true → (p.instr pc).b ≠ 0)
    (hvararg : (p.instr pc).op = .VARARG → (p.instr pc).b = 0 → p.vararg / 2 % 2 = 0) :
    ResolvedAt p block pc := by
  refine ⟨fun hinside hconsumed => ?_, hvararg, fun hlist hb => ?_⟩
  · rw [not_consumed_before (by omega) hop] at hconsumed
    cases hconsumed
  · exact absurd hb (hop (by rw [hlist]; rfl))

/-- A call or return runs what is left to it exactly when it is resolved. -/
theorem callRuns_iff {pc : ℕ} (hlt : pc < block.stop) (hpc : IsExecutable p pc)
    (hop : (p.instr pc).op = .CALL ∨ (p.instr pc).op = .TAILCALL ∨ (p.instr pc).op = .RETURN) :
    (if (decide (block.start < pc) && fusedAt p (pc - 1)) = true then [pc - 1, pc]
      else if (p.instr pc).b = 0 then
        ((openTail p context (blockInstruction p block (p.instr pc))).map OpenText.pcs).getD [] ++
          [pc]
      else [pc]) = pending p block pc ++ [pc] ↔ ResolvedAt p block pc := by
  have hconsumes : consumesOpenResults (p.instr pc).op = true := by
    rcases hop with h | h | h <;> rw [h] <;> rfl
  have hvararg : (p.instr pc).op ≠ .VARARG := by
    rcases hop with h | h | h <;> rw [h] <;> simp
  have hlist : (p.instr pc).op ≠ .SETLIST := by
    rcases hop with h | h | h <;> rw [h] <;> simp
  by_cases hcolon : (decide (block.start < pc) && fusedAt p (pc - 1)) = true
  · rw [if_pos hcolon]
    simp only [Bool.and_eq_true, decide_eq_true_eq] at hcolon
    obtain ⟨n, rfl⟩ : ∃ n, pc = n + 1 := ⟨pc - 1, by omega⟩
    have hfused : fusedAt p n = true := hcolon.2
    rw [pending_method hfused hlt, if_pos (by omega)]
    refine iff_of_true rfl (resolvedAt_of_closed (fun _ => ?_) fun h => absurd h hvararg)
    have := (fusedAt_cases hfused).2.2
    omega
  rw [if_neg hcolon]
  by_cases hb : (p.instr pc).b = 0
  · rw [if_pos hb, List.append_left_inj, openRuns_eq hp context hlt hpc hconsumes hb]
    exact ⟨fun h => ⟨h, fun h => absurd h hvararg, fun h => absurd h hlist⟩,
      fun h => h.open_results⟩
  · rw [if_neg hb]
    have hnil : pending p block pc = [] := by
      cases pc with
      | zero => rfl
      | succ n =>
        refine pending_of_not fun hle => ?_
        rw [← Bool.not_eq_true, leftOut_iff]
        rintro (hconsumed | ⟨-, hfused⟩)
        · exact hb (consumed_iff.1 hconsumed).2.2.2.2.2
        · exact hcolon (by simp [hfused]; omega)
    rw [hnil]
    exact iff_of_true rfl (resolvedAt_of_closed (fun _ => hb) fun h => absurd h hvararg)

/-- An instruction that is rendered on its own runs what is left to it, and itself, exactly when it
is resolved. -/
theorem runsAt_iff {pc : ℕ} (hlt : pc < block.stop) (hpc : IsExecutable p pc) :
    runsAt p context block pc = pending p block pc ++ [pc] ↔ ResolvedAt p block pc := by
  obtain ⟨hop, hself, hb⟩ := blockInstruction_eq p block (p.instr pc)
  rw [(hp.valid.decoded pc hpc.lt).pc_eq] at hself
  have hplain (hcall : (p.instr pc).op ≠ .CALL) (htail : (p.instr pc).op ≠ .TAILCALL)
      (hclosed : consumesOpenResults (p.instr pc).op = true → (p.instr pc).b ≠ 0)
      (hvararg : (p.instr pc).op = .VARARG → (p.instr pc).b = 0 → p.vararg / 2 % 2 = 0) :
      [pc] = pending p block pc ++ [pc] ↔ ResolvedAt p block pc := by
    rw [pending_of_closed (not_fused_of_op hcall htail) hclosed]
    exact iff_of_true rfl (resolvedAt_of_closed hclosed hvararg)
  unfold runsAt simpleRuns
  rw [hop, hself, hb]
  cases hkind : (p.instr pc).op
  case CALL => exact callRuns_iff hp context hlt hpc (Or.inl hkind)
  case TAILCALL => exact callRuns_iff hp context hlt hpc (Or.inr (Or.inl hkind))
  case RETURN => exact callRuns_iff hp context hlt hpc (Or.inr (Or.inr hkind))
  case VARARG =>
    dsimp only
    split_ifs with hopen
    · refine iff_of_false (by simp) fun h => ?_
      exact hopen.1 (h.varargs hkind hopen.2)
    · refine hplain (by rw [hkind]; decide) (by rw [hkind]; decide)
        (by rw [hkind]; rintro ⟨⟩) ?_
      exact fun _ hzero => not_not.1 fun hv => hopen ⟨hv, hzero⟩
  case SETLIST =>
    dsimp only
    by_cases hzero : (p.instr pc).b = 0
    · rw [if_pos hzero]
      have hconsumes : consumesOpenResults (p.instr pc).op = true := by rw [hkind]; rfl
      have hopen := openRuns_eq hp context hlt hpc hconsumes hzero
      cases ht : openTail p context (blockInstruction p block (p.instr pc)) with
      | none =>
        rw [ht] at hopen
        refine iff_of_false (by simp) fun h => ?_
        obtain ⟨hinside, hconsumed⟩ := h.setlist hkind hzero
        have hnil := hopen.2 h.open_results
        obtain ⟨n, rfl⟩ : ∃ n, pc = n + 1 := ⟨pc - 1, by omega⟩
        rw [pending_succ (n := n) (by omega) (leftOut_iff.2 (Or.inl hconsumed))] at hnil
        simp at hnil
      | some t =>
        rw [ht] at hopen
        dsimp only
        rw [List.append_left_inj]
        refine Iff.trans hopen ⟨fun h => ⟨h, ?_, fun _ _ => ?_⟩, fun h => h.open_results⟩
        · intro h
          rw [hkind] at h
          cases h
        · obtain ⟨h₁, h₂, -⟩ := openTail_inside hp context hlt hpc hconsumes hzero ht
          exact ⟨h₁, h₂⟩
    · rw [if_neg hzero]
      exact hplain (by rw [hkind]; decide) (by rw [hkind]; decide) (fun _ => hzero)
        (by rw [hkind]; rintro ⟨⟩)
  all_goals
    exact hplain (by rw [hkind]; simp) (by rw [hkind]; simp) (by rw [hkind]; simp [consumesOpenResults])
      (by rw [hkind]; simp)

/-- What running a block from `pc` on amounts to. -/
structure RunsFrom (p : Proto) (start stop : ℕ) (block : PcBlock) (pc : ℕ) (r : BlockRun) :
    Prop where
  executed_iff : r.executed = pending p block pc ++ instructionsFrom p block pc ↔
    ∀ n ∈ instructionsFrom p block pc, leftOut p block n = false → ResolvedAt p block n
  executed_mem : ∀ n ∈ r.executed, pc ≤ n ∨ leftOut p block n = true
  assigned : ∀ t ∈ r.assigned, t < start ∨ (stop : ℤ) ≤ t ∨
    ∃ k < (starts p start stop).length, ((starts p start stop).getD k 0 : ℤ) = t
  once : r.assigned.length = if r.returned then 0 else 1

omit hp in
theorem leftOut_lt {n : ℕ} (h : leftOut p block n = true) : n + 1 < block.stop := by
  rcases leftOut_iff.1 h with h | h
  · exact (consumed_iff.1 h).1
  · exact h.1

omit hp in
theorem pending_of_stop_le {n : ℕ} (h : block.stop ≤ n) : pending p block n = [] := by
  cases n with
  | zero => rfl
  | succ n =>
    refine pending_of_not fun _ => Bool.eq_false_iff.2 fun hout => ?_
    have := leftOut_lt hout
    omega

omit hp in
theorem runsFrom_stop (hblock : IsBlock p start stop block) {fuel : ℕ} (outcome : ℕ → Bool) :
    RunsFrom p start stop block block.stop
      (runPieces p context outcome (emitPcBlock p block (fuel + 1) block.stop)) := by
  have htext : emitPcBlock p block (fuel + 1) block.stop = [.goto block.stop] := by
    unfold emitPcBlock
    exact if_pos le_rfl
  rw [htext]
  refine ⟨?_, by simp [runPieces], ?_, rfl⟩
  · rw [pending_of_stop_le le_rfl, instructionsFrom_of_le le_rfl]
    simp [runPieces]
  · show ∀ t ∈ [(block.stop : ℤ)], _
    rw [List.forall_mem_singleton]
    rcases hblock.stop_start with h | ⟨k, hk, h⟩
    · exact Or.inr (Or.inl (by omega))
    · exact Or.inr (Or.inr ⟨k, hk, by rw [h]⟩)

/-- An instruction before a leader is the last one of its block. -/
theorem instructionsFrom_last (hblock : IsBlock p start stop block) {pc : ℕ}
    (hle : block.start ≤ pc) (hlt : pc < block.stop) (hpc : IsExecutable p pc)
    (hleader : ((pc + 1 : ℕ) : ℤ) ∈ leaderTargets p (p.instr pc)) (hnext : nextPc p pc = pc + 1) :
    instructionsFrom p block pc = [pc] := by
  by_cases htail : (p.instr pc).op = .TAILCALL
  · rw [instructionsFrom_of_executable hlt hpc, if_pos htail]
  rw [instructionsFrom_next hp hlt hpc htail, hnext]
  refine congrArg _ (instructionsFrom_of_le ?_)
  by_contra hgt
  have hboundary := hp.nextPc_boundary hpc
  rw [hnext] at hboundary
  have hexec := hboundary.2.2 (by have := hblock.last.2.1; omega)
  rw [Int.toNat_natCast] at hexec
  rcases hblock.leaders pc hle hlt hpc _ hleader hexec with h | h <;> omega

/-- Besides itself an instruction runs only what is left out before it. -/
theorem runsAt_shape {pc : ℕ} (hlt : pc < block.stop) (hpc : IsExecutable p pc) :
    runsAt p context block pc = [] ∨ ∃ before, runsAt p context block pc = before ++ [pc] ∧
      ∀ n ∈ before, n < pc ∧ leftOut p block n = true := by
  obtain ⟨hop, hself, hb⟩ := blockInstruction_eq p block (p.instr pc)
  rw [(hp.valid.decoded pc hpc.lt).pc_eq] at hself
  have halone : ∃ before, [pc] = before ++ [pc] ∧ ∀ n ∈ before, n < pc ∧ leftOut p block n = true :=
    ⟨[], rfl, List.forall_mem_nil _⟩
  have hopen {t : OpenText} (hconsumes : consumesOpenResults (p.instr pc).op = true)
      (hzero : (p.instr pc).b = 0)
      (ht : openTail p context (blockInstruction p block (p.instr pc)) = some t) :
      ∃ before, t.pcs ++ [pc] = before ++ [pc] ∧ ∀ n ∈ before, n < pc ∧ leftOut p block n = true := by
    obtain ⟨-, -, htail⟩ := openTail_inside hp context hlt hpc hconsumes hzero ht
    exact ⟨t.pcs, rfl, openTail_leftOut (fun n hn => hp.valid.decoded n hn) hlt hpc.lt hconsumes
      hzero htail⟩
  have hcall (hconsumes : consumesOpenResults (p.instr pc).op = true) :
      ∃ before, (if (decide (block.start < pc) && fusedAt p (pc - 1)) = true then [pc - 1, pc]
        else if (p.instr pc).b = 0 then
          ((openTail p context (blockInstruction p block (p.instr pc))).map OpenText.pcs).getD [] ++
            [pc]
        else [pc]) = before ++ [pc] ∧ ∀ n ∈ before, n < pc ∧ leftOut p block n = true := by
    split_ifs with hcolon hzero
    · simp only [Bool.and_eq_true, decide_eq_true_eq] at hcolon
      refine ⟨[pc - 1], rfl, List.forall_mem_singleton.2 ⟨by omega, leftOut_iff.2 (Or.inr ?_)⟩⟩
      exact ⟨by omega, hcolon.2⟩
    · cases ht : openTail p context (blockInstruction p block (p.instr pc)) with
      | none => exact halone
      | some t => exact hopen hconsumes hzero ht
    · exact halone
  unfold runsAt simpleRuns
  rw [hop, hself, hb]
  cases hkind : (p.instr pc).op
  case CALL | TAILCALL | RETURN => exact Or.inr (hcall (by rw [hkind]; rfl))
  case VARARG =>
    dsimp only
    split_ifs
    · exact Or.inl rfl
    · exact Or.inr halone
  case SETLIST =>
    dsimp only
    split_ifs with hzero
    · cases ht : openTail p context (blockInstruction p block (p.instr pc)) with
      | none => exact Or.inl rfl
      | some t => exact Or.inr (hopen (by rw [hkind]; rfl) hzero ht)
    · exact Or.inr halone
  all_goals exact Or.inr halone

/-- What is left out is executed. -/
theorem leftOut_executable {n : ℕ} (hn : n < p.size) (hout : leftOut p block n = true) :
    IsExecutable p n := by
  have hop := leftOut_op hout
  refine hp.executable_of_op hn ?_ ?_ ?_ <;> rcases hop with h | h | h <;> rw [h] <;> simp

/-- Nothing is left to the pc behind an instruction that is rendered on its own. -/
theorem pending_next {pc : ℕ} (hpc : IsExecutable p pc) (hout : leftOut p block pc = false) :
    pending p block (nextPc p pc) = [] := by
  have hlt := lt_nextPc p pc
  have hsize := (hp.nextPc_boundary hpc).2.1
  obtain ⟨n, hn⟩ : ∃ n, nextPc p pc = n + 1 := ⟨nextPc p pc - 1, by omega⟩
  rw [hn]
  refine pending_of_not fun _ => ?_
  rcases Nat.lt_or_eq_of_le (show pc ≤ n by omega) with hgt | rfl
  · refine Bool.eq_false_iff.2 fun h => ?_
    exact hp.between hpc hgt (by omega) (leftOut_executable hp (by omega) h)
  · exact hout

/-- An instruction rendered on its own and the text behind it. -/
theorem RunsFrom.cons {pc next : ℕ} {r : BlockRun} (hlt : pc < block.stop)
    (hpc : IsExecutable p pc) (hout : leftOut p block pc = false) (hnext : pc < next)
    (hnil : pending p block next = [])
    (hlist : instructionsFrom p block pc = pc :: instructionsFrom p block next)
    (h : RunsFrom p start stop block next r) :
    RunsFrom p start stop block pc
      { r with executed := runsAt p context block pc ++ r.executed } := by
  have hshape := runsAt_shape hp context hlt hpc
  have hmem : ∀ n ∈ runsAt p context block pc, pc ≤ n ∨ leftOut p block n = true := by
    intro n hn
    rcases hshape with hshape | ⟨before, hshape, hbefore⟩
    · rw [hshape] at hn
      cases hn
    · rw [hshape] at hn
      rcases List.mem_append.1 hn with hn | hn
      · exact Or.inr (hbefore n hn).2
      · exact Or.inl (List.mem_singleton.1 hn).ge
  have hnot : pc ∉ r.executed := by
    intro hpc'
    rcases h.executed_mem pc hpc' with hle | hleft
    · omega
    · rw [hout] at hleft
      cases hleft
  refine ⟨?_, fun n hn => ?_, h.assigned, h.once⟩
  · have hiff := h.executed_iff
    rw [hnil, List.nil_append] at hiff
    rw [hlist, List.forall_mem_cons, ← runsAt_iff hp context hlt hpc, ← hiff]
    dsimp only
    constructor
    · intro heq
      rcases hshape with hshape | ⟨before, hshape, hbefore⟩
      · rw [hshape, List.nil_append] at heq
        exact absurd (by rw [heq]; simp) hnot
      · have hsplit : before ++ pc :: r.executed =
            pending p block pc ++ pc :: instructionsFrom p block next := by
          rw [← heq, hshape]
          simp
        have hfresh : pc ∉ before := fun hmem => lt_irrefl pc (hbefore pc hmem).1
        obtain ⟨heq', -, hrest⟩ := (List.append_cons_inj_of_notMem hfresh hnot).1 hsplit
        exact ⟨fun _ => by rw [hshape, heq'], hrest⟩
    · rintro ⟨hpc', hrest⟩
      rw [hpc' hout, hrest]
      simp
  · rcases List.mem_append.1 hn with hn | hn
    · exact hmem n hn
    · rcases h.executed_mem n hn with hle | hleft
      · exact Or.inl (by omega)
      · exact Or.inr hleft

/-- A control instruction stands alone in the text and at the end of its block. -/
theorem control_facts {pc : ℕ} (hpc : IsExecutable p pc)
    (hop : isControl (p.instr pc).op = true) :
    leftOut p block pc = false ∧ ((pc + 1 : ℕ) : ℤ) ∈ leaderTargets p (p.instr pc) ∧
      nextPc p pc = pc + 1 ∧ runsAt p context block pc = [pc] := by
  have hself := (hp.valid.decoded pc hpc.lt).pc_eq
  obtain ⟨hkind, hpc', -⟩ := blockInstruction_eq p block (p.instr pc)
  refine ⟨Bool.eq_false_iff.2 fun hout => ?_, ?_, ?_, ?_⟩
  · rcases leftOut_op hout with h | h | h <;> rw [h] at hop <;> cases hop
  · unfold leaderTargets
    split <;> simp_all [isControl]
  · unfold nextPc
    split <;> simp_all [isControl]
  · unfold runsAt simpleRuns
    rw [hkind, hpc', hself]
    split <;> simp_all [isControl]

/-- A block that is left behind `pc` without running anything else. -/
theorem runsFrom_last {pc : ℕ} {assigned : List ℤ} {returned : Bool}
    (hassigned : ∀ t ∈ assigned, t < start ∨ (stop : ℤ) ≤ t ∨
      ∃ k < (starts p start stop).length, ((starts p start stop).getD k 0 : ℤ) = t)
    (honce : assigned.length = if returned then 0 else 1) (hlt : pc < block.stop)
    (hpc : IsExecutable p pc) (hout : leftOut p block pc = false)
    (hlist : instructionsFrom p block pc = [pc]) :
    RunsFrom p start stop block pc ⟨runsAt p context block pc, assigned, returned⟩ := by
  have hempty : RunsFrom p start stop block (block.stop + 1) ⟨[], assigned, returned⟩ := by
    have hnil : instructionsFrom p block (block.stop + 1) = [] :=
      instructionsFrom_of_le (Nat.le_succ _)
    refine ⟨?_, List.forall_mem_nil _, hassigned, honce⟩
    rw [hnil, pending_of_stop_le (Nat.le_succ _)]
    exact iff_of_true rfl (List.forall_mem_nil _)
  rw [show (⟨runsAt p context block pc, assigned, returned⟩ : BlockRun) =
    ⟨runsAt p context block pc ++ [], assigned, returned⟩ by rw [List.append_nil]]
  refine hempty.cons hp context hlt hpc hout (by omega) (pending_of_stop_le (Nat.le_succ _)) ?_
  rw [hlist, instructionsFrom_of_le (Nat.le_succ _)]

/-- Running a block from any of its instructions. -/
theorem runsFrom (hblock : IsBlock p start stop block) (outcome : ℕ → Bool) {fuel pc : ℕ}
    (hfuel : block.stop - pc < fuel) (hle : block.start ≤ pc) (hstop : pc ≤ block.stop)
    (hpc : pc < block.stop → IsExecutable p pc) :
    RunsFrom p start stop block pc
      (runPieces p context outcome (emitPcBlock p block fuel pc)) := by
  induction fuel generalizing pc with
  | zero => omega
  | succ fuel ih =>
  rcases Nat.eq_or_lt_of_le hstop with rfl | hlt
  · exact runsFrom_stop context hblock outcome
  have hpc := hpc hlt
  have hself := (hp.valid.decoded pc hpc.lt).pc_eq
  have hboundary := hp.nextPc_boundary hpc
  have hnext : RunsFrom p start stop block (nextPc p pc)
      (runPieces p context outcome (emitPcBlock p block fuel (nextPc p pc))) := by
    have hbehind := lt_nextPc p pc
    have hbefore := nextPc_le hp hblock.last hlt hpc
    refine ih (by omega) (by omega) hbefore fun hlt' => ?_
    have hexec := hboundary.2.2 (by have := hblock.last.2.1; omega)
    rwa [Int.toNat_natCast] at hexec
  by_cases hcontrol : isControl (p.instr pc).op = true
  · obtain ⟨t, ht, hrun⟩ := run_control hp context fuel hlt hpc hcontrol outcome
    obtain ⟨hout, hleader, hnextPc, hruns⟩ := control_facts hp context hpc hcontrol
    rw [hrun, ← hruns]
    exact runsFrom_last hp context (List.forall_mem_singleton.2
      (hblock.target_start pc hle hlt hpc t ht)) rfl hlt hpc hout
      (instructionsFrom_last hp hblock hle hlt hpc hleader hnextPc)
  by_cases hout : leftOut p block pc = true
  · rw [emitPcBlock_leftOut hp hlt hpc hout]
    have hnextPc : nextPc p pc = pc + 1 := by
      unfold nextPc
      rcases leftOut_op hout with h | h | h <;> rw [h]
    have htail : (p.instr pc).op ≠ .TAILCALL := by
      rcases leftOut_op hout with h | h | h <;> rw [h] <;> simp
    rw [hnextPc] at hnext
    refine ⟨?_, fun n hn => ?_, hnext.assigned, hnext.once⟩
    · rw [instructionsFrom_next hp hlt hpc htail, hnextPc, List.forall_mem_cons,
        List.append_cons, ← pending_succ hle hout, hnext.executed_iff]
      refine ⟨fun h => ⟨fun hfalse => ?_, h⟩, fun h => h.2⟩
      rw [hout] at hfalse
      cases hfalse
    · rcases hnext.executed_mem n hn with h | h
      · exact Or.inl (by omega)
      · exact Or.inr h
  rw [Bool.not_eq_true] at hcontrol hout
  rw [emitPcBlock_simple hp hlt hpc hcontrol hout]
  obtain ⟨hkind, -, -⟩ := blockInstruction_eq p block (p.instr pc)
  unfold restOf
  unfold runPieces
  dsimp only
  rw [hkind]
  by_cases hreturns : (p.instr pc).op = .TAILCALL ∨ (p.instr pc).op = .RETURN
  · rw [if_pos hreturns]
    refine runsFrom_last hp context (List.forall_mem_nil _) rfl hlt hpc hout ?_
    rcases hreturns with h | h
    · rw [instructionsFrom_of_executable hlt hpc, if_pos h]
    · refine instructionsFrom_last hp hblock hle hlt hpc ?_ (by unfold nextPc; rw [h])
      unfold leaderTargets
      rw [h, hself]
      simp
  rw [if_neg hreturns, if_neg hreturns]
  by_cases hskip : (p.instr pc).op = .LOADBOOL ∧ (p.instr pc).c ≠ 0
  · rw [if_pos hskip]
    have htarget : ((pc : ℤ) + 2) ∈ transferTargets p (p.instr pc) := by
      unfold transferTargets
      rw [hskip.1, hself]
      simp [hskip.2]
    have hlist : instructionsFrom p block pc = [pc] := by
      refine instructionsFrom_last hp hblock hle hlt hpc ?_ (by unfold nextPc; rw [hskip.1])
      unfold leaderTargets
      rw [hskip.1, hself]
      simp [hskip.2]
    have hlast : RunsFrom p start stop block pc
        ⟨runsAt p context block pc, [(pc : ℤ) + 2], false⟩ :=
      runsFrom_last hp context (List.forall_mem_singleton.2
        (hblock.target_start pc hle hlt hpc _ htarget)) rfl hlt hpc hout hlist
    rwa [← List.append_nil (runsAt p context block pc)] at hlast
  · rw [if_neg hskip]
    exact hnext.cons hp context hlt hpc hout (lt_nextPc p pc) (pending_next hp hpc hout)
      (instructionsFrom_next hp hlt hpc fun h => hreturns (Or.inl h))

end Run

/-! ## Open results of a block -/

section Resolution

variable {p : Proto} {block : PcBlock}

/-- What consumes an open result is left out only as an open result itself. -/
theorem consumed_of_leftOut {n : ℕ} (hop : consumesOpenResults (p.instr n).op = true)
    (hout : leftOut p block n = true) : openProducerConsumedInRange p n block.stop = true := by
  rcases leftOut_iff.1 hout with h | ⟨-, h⟩
  · exact h
  · rw [(fusedAt_cases h).1] at hop
    cases hop

theorem mem_before (hp : Accepted p) {n : ℕ} (hn : n ∈ instructionsFrom p block block.start)
    (hlt : block.start < n) (h : openProducerConsumedInRange p (n - 1) block.stop = true) :
    n - 1 ∈ instructionsFrom p block block.start := by
  obtain ⟨hle, hstop, hexec, hbefore⟩ := mem_instructionsFrom_iff.1 hn
  have hsize := hexec.lt
  exact mem_instructionsFrom_iff.2 ⟨by omega, by omega,
    leftOut_executable hp (by omega) (leftOut_iff.2 (Or.inl h)),
    fun k hk hlt => hbefore k hk (by omega)⟩

theorem mem_behind (hp : Accepted p) {n : ℕ} (hn : n ∈ instructionsFrom p block block.start)
    (h : openProducerConsumedInRange p n block.stop = true) :
    n + 1 ∈ instructionsFrom p block block.start := by
  obtain ⟨hle, hstop, hexec, hbefore⟩ := mem_instructionsFrom_iff.1 hn
  obtain ⟨hlt, hsize, hproducer, -, hop, -⟩ := consumed_iff.1 h
  refine mem_instructionsFrom_iff.2 ⟨by omega, hlt, ?_, fun k hk hlt hkexec => ?_⟩
  · refine hp.executable_of_op hsize ?_ ?_ ?_ <;> rintro hkind <;> rw [hkind] at hop <;> cases hop
  · rcases Nat.lt_or_eq_of_le (Nat.le_of_lt_succ hlt) with hkn | rfl
    · exact hbefore k hk hkn hkexec
    · rcases openResultProducer_cases hproducer with h | h <;> rw [h.1] <;> simp

/-- If every instruction of the block that is rendered on its own is resolved, so is every chain. -/
theorem resolved_of_mem (hp : Accepted p)
    (h : ∀ n ∈ instructionsFrom p block block.start, leftOut p block n = false →
      ResolvedAt p block n) {n : ℕ} (hn : n ∈ instructionsFrom p block block.start)
    (hconsumed : openProducerConsumedInRange p n block.stop = true) :
    StartsBelow (p.instr (n + 1)) (p.instr n) ∧ Resolved p block n := by
  induction hlen : block.stop - n using Nat.strong_induction_on generalizing n with
  | _ len ih =>
  obtain ⟨hle, hstop, -⟩ := mem_instructionsFrom_iff.1 hn
  have hbehind := mem_behind hp hn hconsumed
  obtain ⟨-, -, -, -, hop, hb⟩ := consumed_iff.1 hconsumed
  by_cases hout : leftOut p block (n + 1) = true
  · have hnext := consumed_of_leftOut hop hout
    obtain ⟨-, hresolved⟩ := ih (block.stop - (n + 1)) (by omega) hbehind hnext rfl
    have hcall : (p.instr (n + 1)).op = .CALL := by
      rcases openResultProducer_cases (consumed_iff.1 hnext).2.2.1 with h | h
      · exact h.1
      · rw [h.1] at hop
        cases hop
    obtain ⟨ha, hr⟩ := hresolved.2 hcall hb
    refine ⟨?_, hr⟩
    unfold StartsBelow
    rw [hcall]
    exact ha
  · have hat := (h _ hbehind (Bool.not_eq_true _ ▸ hout)).open_results (by omega) hconsumed
    exact ⟨hat.1, hat.2.1⟩

/-- The chains of a block are resolved when each of its links is. -/
theorem OpenResultsResolved.resolved (hp : Accepted p) (h : OpenResultsResolved p block) {n : ℕ}
    (hn : n ∈ instructionsFrom p block block.start)
    (hconsumed : openProducerConsumedInRange p n block.stop = true) : Resolved p block n := by
  induction n with
  | zero => exact h.enclosed 0 hn hconsumed
  | succ n ih =>
    have henclosed := h.enclosed _ hn hconsumed
    refine ⟨henclosed, fun hcall hb => ?_⟩
    obtain ⟨hinside, hbefore⟩ := henclosed.open_args hcall hb
    have hbelow := h.below _ hn hinside hbefore
    unfold StartsBelow at hbelow
    rw [hcall] at hbelow
    exact ⟨hbelow, ih (mem_before hp hn hinside hbefore) hbefore⟩

theorem not_leftOut_of_not_consumed {n : ℕ} (hself : (p.instr n).op ≠ .SELF)
    (h : openProducerConsumedInRange p n block.stop = false) : leftOut p block n = false := by
  refine Bool.eq_false_iff.2 fun hout => ?_
  rcases leftOut_iff.1 hout with hconsumed | ⟨-, hfused⟩
  · rw [h] at hconsumed
    cases hconsumed
  · exact hself (fusedAt_cases hfused).1

theorem openDepth_of_not {n : ℕ} (h : ¬(block.start < n ∧
    openProducerConsumedInRange p (n - 1) block.stop = true)) : openDepth p block n = 0 := by
  cases n with
  | zero => rfl
  | succ n => exact if_neg fun hc => h ⟨by omega, hc.2⟩

theorem resolved_iff (hp : Accepted p) :
    (∀ n ∈ instructionsFrom p block block.start, leftOut p block n = false →
      ResolvedAt p block n) ↔ OpenResultsResolved p block := by
  constructor
  · intro h
    refine ⟨fun n hn hconsumed => (resolved_of_mem hp h hn hconsumed).2.enclosed,
      fun n hn hinside hconsumed => ?_, fun n hn hconsumed => ?_, fun n hn hop hb hvararg => ?_,
      fun n hn hop hb => ?_⟩
    · have hbelow := (resolved_of_mem hp h (mem_before hp hn hinside hconsumed) hconsumed).1
      rwa [Nat.sub_add_cancel (by omega)] at hbelow
    · by_cases hinside : block.start < n ∧
          openProducerConsumedInRange p (n - 1) block.stop = true
      · have hop := (consumed_iff.1 hinside.2).2.2.2.2.1
        rw [Nat.sub_add_cancel (by omega)] at hop
        have hself : (p.instr n).op ≠ .SELF := by
          rintro hkind
          rw [hkind] at hop
          cases hop
        exact ((h n hn (not_leftOut_of_not_consumed hself hconsumed)).open_results hinside.1
          hinside.2).2.2
      · rw [openDepth_of_not hinside]
        exact Nat.zero_le _
    · by_contra hconsumed
      rw [Bool.not_eq_true] at hconsumed
      have hat := h n hn (not_leftOut_of_not_consumed (by rw [hop]; decide) hconsumed)
      exact hvararg (hat.varargs hop hb)
    · refine (h n hn (Bool.eq_false_iff.2 fun hout => ?_)).setlist hop hb
      rcases leftOut_op hout with h | h | h <;> rw [hop] at h <;> cases h
  · intro h n hn hout
    have hconsumed : openProducerConsumedInRange p n block.stop = false :=
      Bool.eq_false_iff.2 fun hc => by rw [leftOut_iff.2 (Or.inl hc)] at hout; cases hout
    refine ⟨fun hinside hbefore => ⟨h.below n hn hinside hbefore,
      h.resolved hp (mem_before hp hn hinside hbefore) hbefore, h.depth n hn hconsumed⟩,
      fun hop hb => ?_, h.setlists n hn⟩
    by_contra hvararg
    rw [h.varargs n hn hop hb hvararg] at hconsumed
    cases hconsumed

end Resolution

/-! ## The blocks of a range -/

theorem transferTargets_subset (p : Proto) (i : Instr) :
    ∀ t ∈ transferTargets p i, t ∈ leaderTargets p i := by
  intro t ht
  unfold transferTargets at ht
  unfold leaderTargets
  cases hop : i.op <;> rw [hop] at ht <;> dsimp only at ht ⊢
  case LOADBOOL =>
    split_ifs at ht ⊢
    · exact List.mem_cons_of_mem _ ht
    · cases ht
  case JMP | EQ | LT | LE | TEST | TESTSET | FORLOOP | FORPREP | TFORLOOP =>
    simp only [List.mem_cons, List.not_mem_nil, or_false] at ht ⊢
    tauto
  all_goals cases ht

section Blocks

variable {p : Proto} {start stop : ℕ}

theorem mem_starts {k : ℕ} :
    k ∈ starts p start stop ↔ start ≤ k ∧ k < stop ∧ isLeader p start stop k = true := by
  unfold starts
  rw [List.mem_filter, List.mem_range'_1]
  constructor
  · rintro ⟨⟨hle, hlt⟩, h⟩
    exact ⟨hle, by omega, h⟩
  · rintro ⟨hle, hlt, h⟩
    exact ⟨⟨hle, by omega⟩, h⟩

theorem starts_cuts (hlt : start < stop) : Cuts start (starts p start stop) := by
  refine ⟨(List.pairwise_lt_range' ..).filter _, ?_⟩
  unfold starts
  rw [show stop - start = (stop - start - 1) + 1 by omega, List.range'_succ,
    List.filter_cons_of_pos (by simp [isLeader])]
  rfl

theorem starts_executable (h : Range p start stop) {k : ℕ} (hk : k ∈ starts p start stop) :
    IsExecutable p k := by
  obtain ⟨hle, hlt, hleader⟩ := mem_starts.1 hk
  have hstop := h.last.2.1
  simp only [isLeader, Bool.or_eq_true, Bool.and_eq_true, beq_iff_eq, Bool.not_eq_true',
    Option.isNone_iff_eq_none] at hleader
  rcases hleader with rfl | ⟨⟨hextra, hbinding⟩, -⟩
  · exact h.first
  · exact ⟨by omega, hextra, hbinding⟩

/-- The targets of an instruction of the range that are executed in it are leaders. -/
theorem mem_starts_of_target {n k : ℕ} (hn : start ≤ n) (hstop : n < stop)
    (hexec : IsExecutable p n) (htarget : (k : ℤ) ∈ leaderTargets p (p.instr n))
    (hk : IsExecutable p k) (hle : start ≤ k) (hlt : k < stop) : k ∈ starts p start stop := by
  refine mem_starts.2 ⟨hle, hlt, ?_⟩
  unfold isLeader
  rw [hk.not_extra, hk.not_binding, Bool.or_eq_true]
  refine Or.inr ?_
  rw [Bool.and_eq_true, List.any_eq_true]
  refine ⟨rfl, n, List.mem_range'_1.2 ⟨hn, by omega⟩, ?_⟩
  rw [hexec.not_extra, hexec.not_binding]
  simpa using htarget

theorem isBlock_blockAt (h : Range p start stop) {n : ℕ}
    (hn : n < (starts p start stop).length) :
    IsBlock p start stop (blockAt (starts p start stop) stop n) := by
  have hcuts := starts_cuts (p := p) h.lt
  have hmem {k : ℕ} (hk : k < (starts p start stop).length) :
      (starts p start stop).getD k 0 ∈ starts p start stop := by
    rw [List.getD_eq_getElem _ _ hk]
    exact List.getElem_mem hk
  have hindex {k : ℕ} (hk : k ∈ starts p start stop) :
      ∃ m < (starts p start stop).length, (starts p start stop).getD m 0 = k := by
    obtain ⟨m, hm, rfl⟩ := List.mem_iff_getElem.1 hk
    exact ⟨m, hm, List.getD_eq_getElem _ _ hm⟩
  have hstart := mem_starts.1 (hmem hn)
  have hlast : (blockAt (starts p start stop) stop n).stop ≤ stop ∧
      (blockAt (starts p start stop) stop n).start < (blockAt (starts p start stop) stop n).stop := by
    unfold blockAt
    dsimp only
    split_ifs with hnext
    · exact ⟨(mem_starts.1 (hmem hnext)).2.1.le, hcuts.lt (Nat.lt_succ_self n) hnext⟩
    · exact ⟨le_rfl, hstart.2.1⟩
  have hleaders : ∀ k ∈ starts p start stop, k ≤ (blockAt (starts p start stop) stop n).start ∨
      (blockAt (starts p start stop) stop n).stop ≤ k := by
    intro k hk
    obtain ⟨m, hm, rfl⟩ := hindex hk
    rcases Nat.lt_or_ge n m with hlt | hle
    · refine Or.inr ?_
      unfold blockAt
      dsimp only
      rw [if_pos (by omega)]
      exact hcuts.le hlt hm
    · exact Or.inl (hcuts.le hle hn)
  refine ⟨hlast.2, starts_executable h (hmem hn), ?_, ⟨hstart.1, hlast.1⟩,
    fun pc hle hlt hexec k htarget hk => ?_, fun pc hle hlt hexec t ht => ?_, ?_⟩
  · unfold blockAt
    dsimp only
    split_ifs with hnext
    · have hexec := starts_executable h (hmem hnext)
      exact boundary_of rfl hexec.lt.le fun _ => hexec
    · exact h.last
  · by_cases hrange : start ≤ k ∧ k < stop
    · exact hleaders k (mem_starts_of_target (le_trans hstart.1 hle) (lt_of_lt_of_le hlt hlast.1)
        hexec htarget hk hrange.1 hrange.2)
    · rcases not_and_or.1 hrange with hout | hout
      · exact Or.inl (le_trans (not_le.1 hout).le hstart.1)
      · exact Or.inr (le_trans hlast.1 (not_lt.1 hout))
  · have hpc : start ≤ pc := le_trans hstart.1 hle
    have hpc' : pc < stop := lt_of_lt_of_le hlt hlast.1
    rcases h.targets pc hpc hpc' hexec t ht with hout | hout | hk
    · exact Or.inl hout
    · exact Or.inr (Or.inl hout)
    · by_cases hrange : (start : ℤ) ≤ t ∧ t < stop
      · obtain ⟨k, rfl⟩ := Int.eq_ofNat_of_zero_le (show 0 ≤ t by omega)
        rw [Int.toNat_natCast] at hk
        obtain ⟨m, hm, heq⟩ := hindex (mem_starts_of_target hpc hpc' hexec
          (transferTargets_subset p _ _ ht) hk (by omega) (by omega))
        exact Or.inr (Or.inr ⟨m, hm, by rw [heq]⟩)
      · rcases not_and_or.1 hrange with hout | hout
        · exact Or.inl (not_le.1 hout)
        · exact Or.inr (Or.inl (not_lt.1 hout))
  · unfold blockAt
    dsimp only
    split_ifs with hnext
    · exact Or.inr ⟨n + 1, hnext, rfl⟩
    · exact Or.inl rfl

/-- The dispatcher of a range follows its instructions exactly when the open results of its blocks
are resolved. -/
theorem dispatches_iff (hp : Accepted p) (context : RenderContext) (h : Range p start stop) :
    Dispatches p context start stop ↔ ∀ n < (starts p start stop).length,
      OpenResultsResolved p (blockAt (starts p start stop) stop n) := by
  have hcuts := starts_cuts (p := p) h.lt
  have hruns (n : ℕ) (hn : n < (starts p start stop).length) (outcome : ℕ → Bool) :
      RunsFrom p start stop (blockAt (starts p start stop) stop n)
        (blockAt (starts p start stop) stop n).start
        (runBlock p context outcome (blockAt (starts p start stop) stop n)) :=
    have hblock := isBlock_blockAt h hn
    runsFrom hp context hblock outcome (Nat.lt_succ_self _) le_rfl hblock.lt.le fun _ => hblock.first
  have hexecuted (n : ℕ) (hn : n < (starts p start stop).length) (outcome : ℕ → Bool) :
      (runBlock p context outcome (blockAt (starts p start stop) stop n)).executed =
        instructionsFrom p (blockAt (starts p start stop) stop n)
          (blockAt (starts p start stop) stop n).start ↔
        OpenResultsResolved p (blockAt (starts p start stop) stop n) := by
    have hiff := (hruns n hn outcome).executed_iff
    rwa [pending_start, List.nil_append, resolved_iff hp] at hiff
  constructor
  · intro hd n hn
    exact (hexecuted n hn fun _ => true).1 (hd.executed n hn _)
  · intro hresolved
    have hrun (n : ℕ) (hn : n < (starts p start stop).length) (outcome : ℕ → Bool) :=
      (hexecuted n hn outcome).2 (hresolved n hn)
    refine ⟨fun n hn outcome => (hruns n hn outcome).assigned, fun n hn => ?_, hrun,
      fun n hn outcome pc hpc => ?_, fun n hn outcome => (hruns n hn outcome).once⟩
    · exact select_dispatch hcuts (by omega) (Nat.zero_le n) hn le_rfl
    · rw [hrun n hn outcome] at hpc
      exact (mem_instructionsFrom hpc).2.2

end Blocks

/-- The bytes of the string constant `f`. -/
def nameConstant : List UInt8 := [4] ++ word 2 ++ [102, 0]

/-- The call `f(f())` before a jump: `GETGLOBAL 0 f`, `GETGLOBAL 1 f`, `CALL 1 1 0`, `CALL 0 0 1`,
`JMP 5`, `RETURN`. -/
def twoCalls : Proto :=
  mainOf (chunkHeader ++ functionBytes 0 0 0 2
    [5, 5 + 64, 28 + 64 + 8388608, 28 + 16384, 22 + 131071 * 16384, 30 + 8388608]
    [nameConstant] [])

theorem twoCalls_dispatches : Accepted twoCalls ∧ starts twoCalls 0 6 = [0, 5] ∧
    Dispatches twoCalls { stateMachine := true } 0 6 := by
  have haccepted : Accepted twoCalls := accepted_mainOf (by decide +kernel)
  have hrange : Range twoCalls 0 6 := by
    refine ⟨by decide, by decide +kernel, by decide +kernel, fun pc _ hlt _ => ?_⟩
    have htargets : ∀ pc < 6, ∀ t ∈ transferTargets twoCalls (twoCalls.instr pc), t = 5 := by
      decide +kernel
    intro t ht
    rw [htargets pc hlt t ht]
    exact Or.inr (Or.inr (by decide +kernel))
  refine ⟨haccepted, by decide +kernel, (dispatches_iff haccepted _ hrange).2 ?_⟩
  decide +kernel

/-- Eighteen nested calls `f(f(… f()))`. -/
def nestedCalls : Proto :=
  mainOf (chunkHeader ++ functionBytes 0 0 0 18
    ((List.range 18).map (fun r => 5 + 64 * r) ++ [28 + 64 * 17 + 8388608] ++
      (List.range 16).map (fun r => 28 + 64 * (16 - r)) ++ [28 + 16384, 30 + 8388608])
    [nameConstant] [])

/-- The call that is left runs, and none of the seventeen that were left to it. -/
theorem nestedCalls_not_dispatches : Accepted nestedCalls ∧ Range nestedCalls 0 37 ∧
    ¬Dispatches nestedCalls { stateMachine := true } 0 37 := by
  have haccepted : Accepted nestedCalls := accepted_mainOf (by decide +kernel)
  have hrange : Range nestedCalls 0 37 := by
    refine ⟨by decide, by decide +kernel, by decide +kernel, fun pc _ hlt _ => ?_⟩
    have htargets : ∀ pc < 37, transferTargets nestedCalls (nestedCalls.instr pc) = [] := by
      decide +kernel
    rw [htargets pc hlt]
    exact List.forall_mem_nil _
  refine ⟨haccepted, hrange, fun h => ?_⟩
  have hexecuted := h.executed 0 (by decide +kernel) fun _ => true
  revert hexecuted
  decide +kernel

end ByteVeil.Lua51
