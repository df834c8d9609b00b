import ByteVeil.Lua51.Ranges

/-!
# Loops

The shapes of `emitRange` that are loops, and the ones that leave a loop or go on with it. Each is
looked for in the order of the source and with its checks; what it emits lies in the code and inside
the range.
-/

namespace ByteVeil.Lua51

open Fallible

/-! ## `repeat` -/

/-- The test at the end of a `repeat`. -/
structure Latch where
  repeatStart : ℤ
  repeatLatch : ℤ
  uniqueLatch : Bool

/-- The latch of the `repeat` that starts first. -/
def findLatch (p : Proto) (start stop : ℤ) : Search (Option Latch) :=
  (interval start (stop - 1)).foldlM (fun found scan => do
    let jump ← codeAt p (scan + 1)
    let i ← codeAt p scan
    if isCondition i.op = true ∧ jump.op = .JMP ∧ start ≤ jump.target ∧ jump.target < scan then
      match found with
      | none => return some ⟨jump.target, scan, true⟩
      | some latch =>
        if jump.target < latch.repeatStart then return some ⟨jump.target, scan, true⟩
        else if jump.target = latch.repeatStart then return some { latch with uniqueLatch := false }
        else return some latch
    else return found) none

/-- Another jump leads to where the `repeat` starts. -/
def otherLatch (p : Proto) (stop : ℤ) (latch : Latch) : Search Bool :=
  anyOf (fun edge => do
    let i ← codeAt p edge
    return i.op == .JMP && edge != latch.repeatLatch + 1 && i.target == latch.repeatStart)
    (interval (latch.repeatStart + 1) stop)

/-- `takenTarget`; there is none behind the last word. -/
def takenTarget (p : Proto) (pc : ℤ) (prior : Instr) : Search (Option ℤ) := do
  if prior.op = .JMP then return some prior.target
  else if isTest prior.op = true then
    if p.size ≤ pc + 1 then return none
    else
      let skipped ← codeAt p (pc + 1)
      return some (skipped.pc + skipped.sbx + 1)
  else if prior.op = .FORLOOP ∨ prior.op = .FORPREP then return some prior.target
  else return some (-1)

/-- The instruction in front of the `repeat` leads past its start, or ends the function. -/
def leavesPrefix (p : Proto) (repeatStart pc : ℤ) : Search Bool := do
  let prior ← codeAt p pc
  match ← takenTarget p pc prior with
  | none => return true
  | some target =>
    return decide (repeatStart ≤ target) ||
      (prior.op == .LOADBOOL && prior.c != 0 && decide (repeatStart ≤ pc + 2)) ||
      (prior.op == .SETLIST && prior.c == 0 && decide (repeatStart ≤ pc + 2)) ||
      prior.op == .TAILCALL || prior.op == .RETURN

/-- A `repeat` whose latch is found from the start of the range. -/
def repeatFromStart (p : Proto) (a : Activation) (pc : ℤ) : Search Step := do
  ensure (pc = a.start)
  match ← findLatch p a.start a.stop with
  | none => .error .absent
  | some latch =>
    let other ← both (latch.uniqueLatch = true) (otherLatch p a.stop latch)
    ensure (latch.uniqueLatch = true ∧ other = false)
    let leaves ← anyOf (leavesPrefix p latch.repeatStart) (interval a.start latch.repeatStart)
    ensure (leaves = false)
    return {
      parts := rangeUnlessEmpty (a.within a.start latch.repeatStart) ++
        [line .repeatDo,
          range { start := latch.repeatStart, stop := latch.repeatLatch, allowInfiniteLoop := false,
                  loopBreakTarget := latch.repeatLatch + 2 },
          line (.untilDo (.of latch.repeatLatch))]
      next := some (latch.repeatLatch + 2) }

/-! ## `while true` -/

/-- The edges back to a loop's first instruction: how many, whether the last is a jump of its own, and
where the last one stands. -/
structure BackEdges where
  count : ℕ
  unconditional : Bool
  last : ℤ

/-- The edges back to `pc`. -/
def backEdges (p : Proto) (pc stop : ℤ) : Search BackEdges :=
  (interval pc stop).foldlM (fun edges scan => do
    let i ← codeAt p scan
    let ofTest ← both (i.op = .JMP ∧ pc < scan) do
      let previous ← codeAt p (scan - 1)
      return isTest previous.op
    if ofTest = true then return edges
    else if loopTarget p i = pc ∧ pc < scan then
      return ⟨edges.count + 1, i.op == .JMP,
        max edges.last (scan + if i.op = .JMP then 0 else 1)⟩
    else return edges) ⟨0, false, pc⟩

/-- The first target behind the last edge back. -/
def loopEnd (p : Proto) (pc stop last : ℤ) : Search ℤ :=
  (interval pc stop).foldlM (fun loopEnd scan => do
    let i ← codeAt p scan
    if last < loopTarget p i then return min loopEnd (loopTarget p i) else return loopEnd) stop

/-- An edge leads out of the loop other than to its end. -/
def leavesLoop (p : Proto) (pc loopEnd : ℤ) : Search Bool :=
  anyOf (fun scan => do
    let i ← codeAt p scan
    let target := loopTarget p i
    return decide (0 ≤ target ∧ target ≠ pc ∧ (target ≤ pc ∨ loopEnd < target)))
    (interval pc loopEnd)

/-- The only pc in the loop to which edges lead from outside. -/
def externalTailStart (p : Proto) (pc loopEnd : ℤ) : Search (Option ℤ) :=
  p.code.foldlM (fun tail edge =>
    let target := loopTarget p edge
    if (pc ≤ edge.pc ∧ edge.pc < loopEnd) ∨ ¬(pc < target ∧ target < loopEnd) then return tail
    else if tail = none ∨ tail = some target then return some target
    else .error .absent) none

/-- The instruction leads elsewhere than on. -/
def isControlTransfer (i : Instr) : Bool :=
  match i.op with
  | .JMP | .EQ | .LT | .LE | .TEST | .TESTSET | .TAILCALL | .RETURN | .FORLOOP | .FORPREP
  | .TFORLOOP => true
  | .LOADBOOL => i.c != 0
  | .SETLIST => i.c == 0
  | _ => false

/-- The tail is straight-line code behind the last edge back and a jump out of the loop, and nothing
in the loop leads into it. -/
def checkTail (p : Proto) (pc loopEnd last tail : ℤ) : Search Unit := do
  ensure (last < tail ∧ pc < tail ∧ tail < loopEnd ∧ 0 < tail)
  let guarded ← jumpTo p (tail - 1) loopEnd
  ensure (guarded = true)
  let control ← anyOf (fun scan => do
    let i ← codeAt p scan
    return isControlTransfer i) (interval tail loopEnd)
  ensure (control = false)
  let entered ← anyOf (fun scan => do
    let i ← codeAt p scan
    return decide (tail ≤ loopTarget p i ∧ loopTarget p i < loopEnd)) (interval pc tail)
  ensure (entered = false)

/-- A loop with edges back to `pc` is emitted as `while true`. -/
def endlessLoop (p : Proto) (a : Activation) (pc : ℤ) : Search Step := do
  ensure ((a.allowInfiniteLoop = true ∨ 0 ≤ a.loopBreakTarget) ∧ a.loopContinueTarget ≠ pc)
  let edges ← backEdges p pc a.stop
  ensure (2 ≤ edges.count ∨ (edges.count = 1 ∧ (pc = a.start ∨ edges.unconditional = true)))
  let stop ← loopEnd p pc a.stop edges.last
  ensure (edges.last < stop)
  let leaves ← leavesLoop p pc stop
  ensure (leaves = false)
  match ← externalTailStart p pc stop with
  | none => pure ()
  | some tail => checkTail p pc stop edges.last tail
  return {
    parts := [line .whileTrue,
      range { start := pc, stop := stop, loopBreakTarget := stop, loopContinueTarget := pc },
      line .endDo]
    next := some stop }

/-! ## `for` -/

/-- `continueTarget`: a `CLOSE` at the end of the body belongs to going on with the loop. -/
def continueTarget (p : Proto) (bodyBegin bodyEnd : ℤ) : Search ℤ := do
  let closes ← both (bodyBegin < bodyEnd) do
    let i ← codeAt p (bodyEnd - 1)
    return i.op == .CLOSE
  return if closes = true then bodyEnd - 1 else bodyEnd

/-- A loop's body, in a `repeat` of its own where it is continued with a jump. -/
def loopBody (p : Proto) (pc bodyBegin bodyEnd loopBreakTarget : ℤ) : Search (List RangePart) := do
  let continueTarget ← continueTarget p bodyBegin bodyEnd
  let needsContinueWrapper ← hasLoopEdgeTo p bodyBegin bodyEnd continueTarget
  let breakFlag := Flag.loopBreak pc
  let body : Activation :=
    { start := bodyBegin, stop := bodyEnd, loopBreakTarget := loopBreakTarget,
      loopContinueTarget := continueTarget,
      loopBreakFlag := if needsContinueWrapper = true then some breakFlag else none }
  if needsContinueWrapper = true then
    return [line (.localFlag breakFlag), line .repeatDo, range body, line .untilTrue,
      line (.breakIf breakFlag)]
  else return [range body]

/-- A captured loop variable gets a cell of its own in each iteration. -/
def freshCells (p : Proto) (registers : List ℕ) (pc : ℤ) : List RangePart :=
  (registers.filter fun r => managedCapturedLocal p r).map fun r => line (.freshCell r pc)

/-- `FORPREP` with its `FORLOOP`. -/
def numericFor (p : Proto) (a : Activation) (pc : ℤ) : Search Step := do
  let i ← codeAt p pc
  ensure (i.op = .FORPREP ∧ pc < i.target ∧ i.target < a.stop ∧ i.target < p.size)
  let loop ← codeAt p i.target
  ensure (loop.op = .FORLOOP)
  let body ← loopBody p i.pc (pc + 1) i.target (i.target + 1)
  return {
    parts := line (.forNumeric pc) :: freshCells p [i.a + 3] (pc + 1) ++ body ++ [line .endDo]
    next := some (i.target + 1) }

/-- A jump to a `TFORLOOP` whose own jump leads back behind it. -/
def genericFor (p : Proto) (_ : Activation) (pc : ℤ) : Search Step := do
  let i ← codeAt p pc
  ensure (i.op = .JMP ∧ pc < i.target ∧ i.target + 1 < p.size)
  let loop ← codeAt p i.target
  ensure (loop.op = .TFORLOOP)
  let back ← jumpTo p (i.target + 1) (pc + 1)
  ensure (back = true)
  let body ← loopBody p i.pc (pc + 1) i.target (i.target + 2)
  return {
    parts := line (.forGeneric pc i.target) ::
      freshCells p (List.range' (loop.a + 3) loop.c) (pc + 1) ++ body ++ [line .endDo]
    next := some (i.target + 2) }

/-! ## Leaving a loop and going on with it -/

/-- The lines that set the flag of the loop that is left. -/
def setBreakFlag (a : Activation) : List RangePart :=
  match a.loopBreakFlag with
  | some f => [line (.setFlag f true)]
  | none => []

/-- A `TESTSET` whose jump leaves the loop. -/
def testsetBreak (p : Proto) (a : Activation) (pc : ℤ) : Search Step := do
  let i ← codeAt p pc
  ensure (0 ≤ a.loopBreakTarget ∧ i.op = .TESTSET ∧ pc + 1 < a.stop)
  let leaves ← jumpTo p (pc + 1) a.loopBreakTarget
  ensure (leaves = true)
  return {
    parts := [line (.ifThen (.tested pc)), line (.assignTested pc)] ++ setBreakFlag a ++
      [line .breakLoop, line .endDo]
    next := some (pc + 2) }

/-- A test whose jump leaves the loop. -/
def testBreak (p : Proto) (a : Activation) (pc : ℤ) : Search Step := do
  let i ← codeAt p pc
  ensure (0 ≤ a.loopBreakTarget ∧ isCondition i.op = true ∧ pc + 1 < a.stop)
  let leaves ← jumpTo p (pc + 1) a.loopBreakTarget
  ensure (leaves = true)
  return {
    parts := [line (.ifThen (.negated pc))] ++ setBreakFlag a ++ [line .breakLoop, line .endDo]
    next := some (pc + 2) }

/-- A test whose jump steps over a jump that leaves the loop. -/
def testBreakOver (p : Proto) (a : Activation) (pc : ℤ) : Search Step := do
  let i ← codeAt p pc
  ensure (0 ≤ a.loopBreakTarget ∧ isCondition i.op = true ∧ pc + 2 < a.stop)
  let skips ← jumpTo p (pc + 1) (pc + 3)
  ensure (skips = true)
  let leaves ← jumpTo p (pc + 2) a.loopBreakTarget
  ensure (leaves = true)
  return {
    parts := [line (.ifThen (.of pc))] ++ setBreakFlag a ++ [line .breakLoop, line .endDo]
    next := some (pc + 3) }

/-- A test whose jump goes on with the loop. -/
def testContinue (p : Proto) (a : Activation) (pc : ℤ) : Search Step := do
  let i ← codeAt p pc
  ensure (0 ≤ a.loopContinueTarget ∧ isCondition i.op = true ∧ pc + 1 < a.stop)
  let goesOn ← jumpTo p (pc + 1) a.loopContinueTarget
  ensure (goesOn = true)
  return {
    parts := line (.ifThen (.of pc)) :: rangeUnlessEmpty (a.allowing false (pc + 2) a.stop) ++
      match a.loopBreakFlag with
      | none => [line .endDo]
      | some _ => [line .elseDo, line .breakLoop, line .endDo]
    next := none }

/-- A `TESTSET` whose jump goes on with the loop. -/
def testsetContinue (p : Proto) (a : Activation) (pc : ℤ) : Search Step := do
  let i ← codeAt p pc
  ensure (0 ≤ a.loopContinueTarget ∧ i.op = .TESTSET ∧ pc + 1 < a.stop)
  let goesOn ← jumpTo p (pc + 1) a.loopContinueTarget
  ensure (goesOn = true)
  return {
    parts := [line (.ifThen (.tested pc)), line (.assignTested pc)] ++
      (match a.loopBreakFlag with
        | none => []
        | some _ => [line .breakLoop]) ++
      line .elseDo :: rangeUnlessEmpty (a.allowing false (pc + 2) a.stop) ++ [line .endDo]
    next := none }

/-! ## What is emitted lies inside -/

section Finds

variable {p : Proto} {a : Activation} {pc : ℤ} (ha : a.InRange p) (hpc : a.start ≤ pc)
  (hlt : pc < a.stop)

@[simp] theorem allInner_setBreakFlag : AllInner p a (setBreakFlag a) := by
  unfold setBreakFlag
  split <;> simp

@[simp] theorem allInner_freshCells {registers : List ℕ} {pc : ℤ} :
    AllInner p a (freshCells p registers pc) := by
  unfold freshCells
  exact allInner_map_line

theorem finds_findLatch {start stop : ℤ} (hstart : 0 ≤ start) (hstop : stop ≤ p.size) :
    Finds (findLatch p start stop) fun found => ∀ latch ∈ found,
      start ≤ latch.repeatStart ∧ latch.repeatStart < latch.repeatLatch ∧
        latch.repeatLatch + 1 < stop := by
  refine finds_foldlM (by simp) (fun scan hscan found hfound => ?_) fun _ h => h
  rw [mem_interval] at hscan
  simp only [finds_bind, finds_codeAt]
  refine ⟨by omega, by omega, by omega, by omega, ?_⟩
  rw [finds_ite]
  refine ⟨fun h => ?_, fun _ => hfound⟩
  have hnew : ∀ latch ∈ some (Latch.mk (p.at (scan + 1)).target scan true),
      start ≤ latch.repeatStart ∧ latch.repeatStart < latch.repeatLatch ∧
        latch.repeatLatch + 1 < stop := by
    rintro latch hlatch
    obtain rfl := Option.some.inj hlatch
    refine ⟨h.2.2.1, h.2.2.2, ?_⟩
    dsimp only
    omega
  cases found with
  | none => exact hnew
  | some latch =>
    have hlatch := hfound latch rfl
    rw [finds_ite]
    refine ⟨fun _ => hnew, fun _ => ?_⟩
    rw [finds_ite]
    refine ⟨fun _ => ?_, fun _ => hfound⟩
    rintro _ h
    obtain rfl := Option.some.inj h
    exact hlatch

theorem finds_otherLatch {stop : ℤ} {latch : Latch} {P : Bool → Prop}
    (hstart : 0 ≤ latch.repeatStart) (hstop : stop ≤ p.size) (hP : ∀ b, P b) :
    Finds (otherLatch p stop latch) P := by
  refine finds_anyOf (fun edge hedge => ?_) hP
  rw [mem_interval] at hedge
  rw [finds_bind, finds_codeAt]
  exact ⟨by omega, by omega, trivial⟩

theorem finds_leavesPrefix {repeatStart pc : ℤ} (hpc : 0 ≤ pc) (hlt : pc < p.size) :
    Finds (leavesPrefix p repeatStart pc) fun _ => True := by
  unfold leavesPrefix
  rw [finds_bind, finds_codeAt]
  refine ⟨hpc, hlt, ?_⟩
  have htaken : Finds (takenTarget p pc (p.at pc)) fun _ => True := by
    unfold takenTarget
    simp only [finds_ite, finds_bind, finds_codeAt, finds_pure, implies_true, and_true, true_and]
    omega
  rw [finds_bind]
  refine htaken.mono fun target _ => ?_
  cases target <;> trivial

theorem finds_backEdges {pc stop : ℤ} (hpc : 0 ≤ pc) (hstop : stop ≤ p.size) :
    Finds (backEdges p pc stop) fun edges => pc ≤ edges.last := by
  refine finds_foldlM (I := fun edges : BackEdges => pc ≤ edges.last) le_rfl
    (fun scan hscan edges hedges => ?_) fun _ h => h
  rw [mem_interval] at hscan
  simp only [finds_bind, finds_codeAt, finds_both, finds_ite, finds_pure]
  refine ⟨by omega, by omega, fun h => ⟨by omega, by omega, ?_⟩, fun _ => ?_⟩
  all_goals
    refine ⟨fun _ => hedges, fun _ => ⟨fun _ => ?_, fun _ => hedges⟩⟩
    exact le_max_of_le_left hedges

theorem finds_loopEnd {pc stop last : ℤ} (hpc : 0 ≤ pc) (hstop : stop ≤ p.size) :
    Finds (loopEnd p pc stop last) fun n => n ≤ stop := by
  refine finds_foldlM (I := fun n => n ≤ stop) le_rfl (fun scan hscan n hn => ?_) fun _ h => h
  rw [mem_interval] at hscan
  simp only [finds_bind, finds_codeAt, finds_ite, finds_pure]
  exact ⟨by omega, by omega, fun _ => min_le_of_left_le hn, fun _ => hn⟩

theorem finds_externalTailStart {pc stop : ℤ} {P : Option ℤ → Prop} (hP : ∀ tail, P tail) :
    Finds (externalTailStart p pc stop) P := by
  refine finds_foldlM (I := fun _ => True) trivial (fun edge _ tail _ => ?_) fun tail _ => hP tail
  dsimp only
  rw [finds_ite]
  refine ⟨fun _ => trivial, fun _ => ?_⟩
  rw [finds_ite]
  exact ⟨fun _ => trivial, fun _ => trivial⟩

theorem finds_checkTail {pc stop last tail : ℤ} {P : Unit → Prop} (hpc : 0 ≤ pc)
    (hstop : stop ≤ p.size) (hP : P ()) : Finds (checkTail p pc stop last tail) P := by
  unfold checkTail
  simp only [finds_bind, finds_ensure, finds_jumpTo]
  refine fun h => ⟨by omega, by omega, fun _ => ?_⟩
  refine finds_anyInstr (by omega) hstop fun _ _ => ?_
  exact finds_anyInstr hpc (by omega) fun _ _ => hP

include ha hpc hlt

theorem finds_repeatFromStart : FindsInner p a (repeatFromStart p a pc) := by
  have := ha.start_nonneg
  have := ha.stop_le
  unfold FindsInner repeatFromStart
  simp only [finds_bind, finds_ensure]
  rintro rfl
  refine (finds_findLatch ha.start_nonneg ha.stop_le).mono fun found hfound => ?_
  cases found with
  | none => trivial
  | some latch =>
    obtain ⟨h₁, h₂, h₃⟩ := hfound latch rfl
    simp only [finds_bind, finds_ensure, finds_both]
    have hrest : Finds (anyOf (leavesPrefix p latch.repeatStart)
        (interval a.start latch.repeatStart)) fun leaves => leaves = false → AllInner p a
          (rangeUnlessEmpty (a.within a.start latch.repeatStart) ++
            [line .repeatDo,
              range { start := latch.repeatStart, stop := latch.repeatLatch,
                      allowInfiniteLoop := false, loopBreakTarget := latch.repeatLatch + 2 },
              line (.untilDo (.of latch.repeatLatch))]) := by
      refine finds_anyOf (fun k hk => ?_) fun _ _ => ?_
      · rw [mem_interval] at hk
        exact finds_leavesPrefix (by omega) (by omega)
      · simp only [allInner_append, allInner_rangeUnlessEmpty, allInner_line, allInner_range,
          allInner_nil, and_true, Activation.within]
        refine ⟨fun h => ⟨⟨by omega, by omega, by dsimp only; omega⟩, Or.inr ⟨rfl, Or.inl ?_⟩⟩,
          ⟨⟨by dsimp only; omega, by dsimp only; omega, by dsimp only; omega⟩, ?_⟩⟩
        · dsimp only
          omega
        · unfold Activation.Smaller
          dsimp only
          omega
    refine ⟨fun _ => ?_, fun _ _ => hrest⟩
    exact finds_otherLatch (by omega) ha.stop_le fun _ _ => hrest

omit hlt in
theorem finds_endlessLoop : FindsInner p a (endlessLoop p a pc) := by
  have := ha.start_nonneg
  have := ha.stop_le
  unfold FindsInner endlessLoop
  simp only [finds_bind, finds_ensure]
  intro hcontinue
  refine (finds_backEdges (by omega) ha.stop_le).mono fun edges hedges _ => ?_
  refine (finds_loopEnd (by omega) ha.stop_le).mono fun stop hstop hlast => ?_
  refine finds_anyInstr (by omega) (by omega) fun _ _ => ?_
  have hinner : Inner p a
      { start := pc, stop := stop, loopBreakTarget := stop, loopContinueTarget := pc } := by
    refine ⟨⟨by dsimp only; omega, by dsimp only; omega, by dsimp only; omega⟩, ?_⟩
    unfold Activation.Smaller
    dsimp only
    -- the same range comes again only as the body of its own loop
    have := hcontinue.2
    rcases lt_or_eq_of_le hpc with h | h
    · exact Or.inl h
    · rcases lt_or_eq_of_le hstop with h' | h'
      · exact Or.inr ⟨h.symm, Or.inl h'⟩
      · exact Or.inr ⟨h.symm, Or.inr ⟨h', rfl, by rw [h]; exact this⟩⟩
  refine finds_externalTailStart fun tail => ?_
  have hparts : AllInner p a [line .whileTrue,
      range { start := pc, stop := stop, loopBreakTarget := stop, loopContinueTarget := pc },
      line .endDo] := by
    simpa using hinner
  cases tail with
  | none => exact hparts
  | some tail =>
    dsimp only
    rw [finds_bind]
    exact finds_checkTail (by omega) (by omega) hparts

omit hpc hlt in
/-- The body of a loop lies behind the start. -/
theorem finds_loopBody {start stop target : ℤ} (hstart : a.start < start) (hle : start ≤ stop)
    (hstop : stop ≤ p.size) : Finds (loopBody p pc start stop target) (AllInner p a) := by
  have := ha.start_nonneg
  unfold loopBody
  have hcontinue : Finds (continueTarget p start stop) fun _ => True := by
    unfold continueTarget
    simp only [finds_bind, finds_both, finds_codeAt, finds_pure, implies_true, and_true]
    omega
  rw [finds_bind]
  refine hcontinue.mono fun continueTarget _ => ?_
  rw [finds_bind]
  refine finds_hasLoopEdgeTo (by omega) hstop fun wrapper => ?_
  rw [finds_ite]
  constructor <;> intro _ <;>
    simpa [finds_pure] using inner_of_later ha hstart hle hstop

theorem finds_numericFor : FindsInner p a (numericFor p a pc) := by
  have := ha.start_nonneg
  have := ha.stop_le
  unfold FindsInner numericFor
  simp only [finds_bind, finds_codeAt, finds_ensure]
  refine ⟨by omega, by omega, fun h => ⟨by omega, by omega, fun _ => ?_⟩⟩
  refine (finds_loopBody ha (by omega) (by omega) (by omega)).mono fun body hbody => ?_
  simp [finds_pure, hbody]

theorem finds_genericFor : FindsInner p a (genericFor p a pc) := by
  have := ha.start_nonneg
  have := ha.stop_le
  unfold FindsInner genericFor
  simp only [finds_bind, finds_codeAt, finds_ensure, finds_jumpTo]
  refine ⟨by omega, by omega, fun h => ⟨by omega, by omega, fun _ => ⟨by omega, by omega, fun _ => ?_⟩⟩⟩
  refine (finds_loopBody ha (by omega) (by omega) (by omega)).mono fun body hbody => ?_
  simp [finds_pure, hbody]

theorem finds_testsetBreak : FindsInner p a (testsetBreak p a pc) := by
  have := ha.start_nonneg
  have := ha.stop_le
  unfold FindsInner testsetBreak
  simp only [finds_bind, finds_codeAt, finds_ensure, finds_jumpTo, finds_pure]
  refine ⟨by omega, by omega, fun h => ⟨by omega, by omega, fun _ => ?_⟩⟩
  simp

theorem finds_testBreak : FindsInner p a (testBreak p a pc) := by
  have := ha.start_nonneg
  have := ha.stop_le
  unfold FindsInner testBreak
  simp only [finds_bind, finds_codeAt, finds_ensure, finds_jumpTo, finds_pure]
  refine ⟨by omega, by omega, fun h => ⟨by omega, by omega, fun _ => ?_⟩⟩
  simp

theorem finds_testBreakOver : FindsInner p a (testBreakOver p a pc) := by
  have := ha.start_nonneg
  have := ha.stop_le
  unfold FindsInner testBreakOver
  simp only [finds_bind, finds_codeAt, finds_ensure, finds_jumpTo, finds_pure]
  refine ⟨by omega, by omega, fun h => ⟨by omega, by omega, fun _ => ⟨by omega, by omega, fun _ => ?_⟩⟩⟩
  simp

theorem finds_testContinue : FindsInner p a (testContinue p a pc) := by
  have := ha.start_nonneg
  have := ha.stop_le
  unfold FindsInner testContinue
  simp only [finds_bind, finds_codeAt, finds_ensure, finds_jumpTo, finds_pure]
  refine ⟨by omega, by omega, fun h => ⟨by omega, by omega, fun _ => ?_⟩⟩
  have hinner (h : pc + 2 < a.stop) : Inner p a (a.allowing false (pc + 2) a.stop) :=
    inner_of_later ha (by show a.start < pc + 2; omega) h.le ha.stop_le
  cases hflag : a.loopBreakFlag with
  | none => simpa using hinner
  | some f => simpa using hinner

theorem finds_testsetContinue : FindsInner p a (testsetContinue p a pc) := by
  have := ha.start_nonneg
  have := ha.stop_le
  unfold FindsInner testsetContinue
  simp only [finds_bind, finds_codeAt, finds_ensure, finds_jumpTo, finds_pure]
  refine ⟨by omega, by omega, fun h => ⟨by omega, by omega, fun _ => ?_⟩⟩
  have hinner (h : pc + 2 < a.stop) : Inner p a (a.allowing false (pc + 2) a.stop) :=
    inner_of_later ha (by show a.start < pc + 2; omega) h.le ha.stop_le
  cases hflag : a.loopBreakFlag with
  | none => simpa using hinner
  | some f => simpa using hinner

end Finds

end ByteVeil.Lua51
