import ByteVeil.Lua51.ChainShapes

/-!
# Chains of tests with one exit

The shape of `emitRange` for tests whose failure leads to one shared join, with calls and early
returns between them. The body may compute a truth value that is returned, or end in a jump over an
`else` arm.
-/

namespace ByteVeil.Lua51

open Fallible

/-! ## The tests -/

/-- `directReturnTarget`: the test leads to a single return behind the join. -/
def directReturnTarget (p : Proto) (stop sharedJoin conditionPc : ℤ) : Search (Option ℤ) := do
  let test ← testAt p stop conditionPc
  if test = true then
    let target ← targetAt p (conditionPc + 1)
    if sharedJoin < target ∧ target < stop then
      let i ← codeAt p target
      return if i.op = .RETURN then some target else none
    else return none
  else return none

/-- The end of the code behind a test; in at most 64 steps. -/
def exitGapEnd (p : Proto) (stop sharedJoin gapBegin : ℤ) : ℕ → ℤ → Search ℤ
  | 0, cursor => .ok cursor
  | n + 1, cursor => do
    if cursor < stop ∧ cursor < sharedJoin ∧ cursor - gapBegin < 64 then
      let early ← directReturnTarget p stop sharedJoin cursor
      if early.isSome = true then exitGapEnd p stop sharedJoin gapBegin n (cursor + 2)
      else
        let i ← codeAt p cursor
        if separatedConditionGap i = true then exitGapEnd p stop sharedJoin gapBegin n (cursor + 1)
        else return cursor
    else return cursor

/-- A test that leads to the join. -/
def exitTestAt (p : Proto) (stop sharedJoin pc : ℤ) : Search Bool := do
  let test ← testAt p stop pc
  both (test = true) do
    let target ← targetAt p (pc + 1)
    return target == sharedJoin

/-- A test, and the code behind it where a further test follows. -/
structure ExitTest where
  pc : ℤ
  gap : Option ConditionGap

/-- `exitTests` and `exitGaps`. -/
def exitTestsFrom (p : Proto) (stop sharedJoin : ℤ) : ℕ → ℤ → Search (List ExitTest)
  | 0, _ => .ok []
  | n + 1, testPc => do
    let test ← exitTestAt p stop sharedJoin testPc
    if test = true then
      let gapBegin := testPc + 2
      let cursor ← exitGapEnd p stop sharedJoin gapBegin 64 gapBegin
      let more ← both (gapBegin < cursor) (exitTestAt p stop sharedJoin cursor)
      if more = true then
        let rest ← exitTestsFrom p stop sharedJoin n cursor
        return ⟨testPc, some ⟨gapBegin, cursor⟩⟩ :: rest
      else return [⟨testPc, none⟩]
    else return []

/-! ## The body -/

/-- The tests with the body behind them. -/
structure ExitChain where
  tests : List ExitTest
  sharedJoin : ℤ
  bodyBegin : ℤ
  booleanResultTail : Bool
  elseResume : ℤ

section Fields

variable (e : ExitChain)

/-- `exitGaps`. -/
def ExitChain.gaps : List ConditionGap := e.tests.filterMap ExitTest.gap

/-- `booleanTestPc`. -/
def ExitChain.booleanTestPc : ℤ := e.sharedJoin - 2

/-- `bodyTailJumpPc`. -/
def ExitChain.bodyTailJumpPc : ℤ := e.sharedJoin - 1

/-- `sharedElseTail`. -/
def ExitChain.sharedElseTail : Bool := !e.booleanResultTail && decide (0 ≤ e.elseResume)

/-- `guardBodyEnd`. -/
def ExitChain.guardBodyEnd : ℤ :=
  if e.booleanResultTail = true then e.booleanTestPc
  else if e.sharedElseTail = true then e.bodyTailJumpPc else e.sharedJoin

/-- `handledEnd`. -/
def ExitChain.handledEnd : ℤ :=
  if e.booleanResultTail = true then e.sharedJoin + 3
  else if e.sharedElseTail = true then e.elseResume else e.sharedJoin

end Fields

/-- `booleanResultTail`: a last test decides between two truth values, and one is returned. -/
def booleanResultTail (p : Proto) (stop sharedJoin bodyBegin : ℤ) : Search Bool := do
  let booleanTestPc := sharedJoin - 2
  let tail ← attempt do
    ensure (sharedJoin + 2 < stop ∧ bodyBegin ≤ booleanTestPc)
    let test ← codeAt p booleanTestPc
    ensure (isCondition test.op = true)
    let jump ← jumpTo p (booleanTestPc + 1) (sharedJoin + 1)
    ensure (jump = true)
    let no ← codeAt p sharedJoin
    ensure (no.op = .LOADBOOL ∧ no.b = 0 ∧ no.c = 1)
    let yes ← codeAt p (sharedJoin + 1)
    ensure (yes.op = .LOADBOOL ∧ yes.a = no.a ∧ yes.b = 1 ∧ yes.c = 0)
    let returns ← codeAt p (sharedJoin + 2)
    ensure (returns.op = .RETURN ∧ returns.a = no.a ∧ returns.b = 2)
  return tail.isSome

/-- `elseResume`: the body's last jump leads over an `else` arm. -/
def elseResume (p : Proto) (stop sharedJoin bodyBegin : ℤ) : Search ℤ := do
  let bodyTailJumpPc := sharedJoin - 1
  if bodyBegin ≤ bodyTailJumpPc ∧ 0 ≤ bodyTailJumpPc ∧ bodyTailJumpPc < stop then
    let i ← codeAt p bodyTailJumpPc
    return if i.op = .JMP ∧ sharedJoin < i.target ∧ i.target ≤ stop then i.target else -1
  else return -1

/-- The chain that starts at `pc`. The first test sets the join: no target is negative. -/
def exitChainAt (p : Proto) (stop pc : ℤ) : Search ExitChain := do
  let test ← testAt p stop pc
  ensure (test = true)
  let sharedJoin ← targetAt p (pc + 1)
  let tests ← exitTestsFrom p stop sharedJoin 128 pc
  match tests.getLast? with
  | none => .error .absent
  | some last =>
    let bodyBegin := last.pc + 2
    let booleanResultTail ← booleanResultTail p stop sharedJoin bodyBegin
    let elseResume ← elseResume p stop sharedJoin bodyBegin
    return ⟨tests, sharedJoin, bodyBegin, booleanResultTail, elseResume⟩

/-! ## The edges -/

/-- The instruction leads elsewhere than on, or skips one. -/
def leadsAway (i : Instr) : Bool :=
  match i.op with
  | .JMP | .EQ | .LT | .LE | .TEST | .TESTSET | .FORLOOP | .FORPREP | .TFORLOOP => true
  | .LOADBOOL => i.c != 0
  | _ => false

/-- `earlyReturnTargets`: the tests in the gaps that lead to a return. -/
def earlyReturns (p : Proto) (stop sharedJoin : ℤ) (gaps : List ConditionGap) :
    Search (List (ℤ × ℤ)) :=
  (gaps.flatMap fun gap => interval gap.start (gap.stop - 1)).foldlM (fun early scan => do
    match ← directReturnTarget p stop sharedJoin scan with
    | some target => return early ++ [(scan, target)]
    | none => return early) []

/-- `allowedConditions`. -/
def ExitChain.allowsCondition (e : ExitChain) (early : List (ℤ × ℤ)) (pc : ℤ) : Bool :=
  (e.tests.any fun test => test.pc == pc) || (early.any fun entry => entry.1 == pc) ||
    (e.booleanResultTail && e.booleanTestPc == pc)

/-- `allowedJumps`, and where they may lead. -/
def ExitChain.allowsJump (e : ExitChain) (early : List (ℤ × ℤ)) (pc target : ℤ) : Bool :=
  (e.allowsCondition early (pc - 1) || (e.sharedElseTail && pc == e.bodyTailJumpPc)) &&
    (target == e.sharedJoin ||
      (e.booleanResultTail && pc == e.booleanTestPc + 1 && target == e.sharedJoin + 1) ||
      (e.sharedElseTail && pc == e.bodyTailJumpPc && target == e.elseResume) ||
      early.any fun entry => entry.1 == pc - 1 && entry.2 == target)

/-- An instruction of the chain that leads away from it, or one that leads into it. -/
def ExitChain.brokenBy (e : ExitChain) (p : Proto) (pc : ℤ) (early : List (ℤ × ℤ)) (edge : Instr) :
    Bool :=
  if pc ≤ edge.pc ∧ edge.pc < e.sharedJoin then
    !(isCondition edge.op && e.allowsCondition early edge.pc) &&
      !(edge.op == .JMP && e.allowsJump early edge.pc edge.target) && leadsAway edge
  else decide (pc < flowTarget p edge ∧ flowTarget p edge < e.handledEnd)

/-- Open results that are not taken in the chain, or control flow in its `else` arm. -/
def ExitChain.unsafeAt (e : ExitChain) (p : Proto) (scan : ℤ) : Search Bool := do
  let i ← codeAt p scan
  let producerEnd := if e.sharedElseTail = true then e.elseResume else e.sharedJoin
  return (openResultProducer i && !openProducerConsumedInRange p scan.toNat producerEnd.toNat) ||
    (i.op == .CALL && i.b == 0 && (openProducerFor p i).isNone) ||
    (e.sharedElseTail && decide (e.sharedJoin ≤ scan) && leadsAway i)

/-! ## What is emitted -/

/-- `emitGuardGap`: the code between two tests, with its early returns; from `scan` on so many
instructions are left, and those from `cursor` on are not emitted yet. -/
def emitGuardGap (p : Proto) (a : Activation) (sharedJoin gapEnd : ℤ) :
    ℕ → ℤ → ℤ → Search (List RangePart)
  | 0, _, cursor => .ok (rangeUnlessEmpty (a.allowing true cursor gapEnd))
  | n + 1, scan, cursor => do
    if scan + 1 < gapEnd then
      match ← directReturnTarget p a.stop sharedJoin scan with
      | none => emitGuardGap p a sharedJoin gapEnd n (scan + 1) cursor
      | some returnTarget =>
        let rest ← emitGuardGap p a sharedJoin gapEnd n (scan + 2) (scan + 2)
        return rangeUnlessEmpty (a.allowing true cursor scan) ++
          [line (.ifThen (.negated scan)),
            range (a.allowing false returnTarget (returnTarget + 1)), line .endDo] ++ rest
    else return rangeUnlessEmpty (a.allowing true cursor gapEnd)

/-- A test with the code behind it. -/
def exitTestParts (p : Proto) (a : Activation) (sharedJoin : ℤ) (test : ExitTest) :
    Search (List RangePart) :=
  match test.gap with
  | none => .ok [line (.ifThen (.of test.pc))]
  | some gap => do
    let parts ← emitGuardGap p a sharedJoin gap.stop (gap.stop - gap.start).toNat gap.start gap.start
    return line (.ifThen (.of test.pc)) :: parts

/-- Tests, with code between them, that share their exit. -/
def exitChain (p : Proto) (a : Activation) (pc : ℤ) : Search Step := do
  let e ← exitChainAt p a.stop pc
  ensure (2 ≤ e.tests.length ∧ e.gaps.length + 1 = e.tests.length ∧ e.bodyBegin ≤ e.guardBodyEnd ∧
    e.handledEnd ≤ a.stop)
  let early ← earlyReturns p a.stop e.sharedJoin e.gaps
  ensure ((p.code.any fun edge => e.brokenBy p pc early edge) = false)
  let unsafeInstr ← anyOf (fun scan => e.unsafeAt p scan) (interval pc e.handledEnd)
  ensure (unsafeInstr = false)
  let flag := Flag.condition pc
  let tests ← e.tests.mapM (exitTestParts p a e.sharedJoin)
  let needsMatchedFlag := e.booleanResultTail || e.sharedElseTail
  return {
    parts :=
      (if needsMatchedFlag = true then [line .doBlock, line (.localFlag flag)] else []) ++
      tests.flatten ++ [range (a.allowing true e.bodyBegin e.guardBodyEnd)] ++
      (if e.sharedElseTail = true then [line (.setFlag flag true)] else []) ++
      (if e.booleanResultTail = true then
        [line (.ifThen (.of e.booleanTestPc)), line (.setFlag flag false), line .elseDo,
          line (.setFlag flag true), line .endDo]
      else []) ++
      (e.tests.map fun _ => line .endDo) ++
      (if e.sharedElseTail = true then
        [line (.ifThen (.noFlag flag)), range (a.allowing true e.sharedJoin e.elseResume),
          line .endDo]
      else []) ++
      (if e.booleanResultTail = true then [line (.returnFlag flag)] else []) ++
      (if needsMatchedFlag = true then [line .endDo] else [])
    next := some e.handledEnd }

/-! ## What is emitted lies inside -/

section Finds

variable {p : Proto} {a : Activation} {pc stop sharedJoin : ℤ}

theorem finds_directReturnTarget {P : Option ℤ → Prop} (hpc : 0 ≤ pc) (hjoin : 0 ≤ sharedJoin)
    (hstop : stop ≤ p.size)
    (hP : ∀ early : Option ℤ, (∀ t ∈ early, sharedJoin < t ∧ t < stop ∧ pc + 1 < stop) → P early) :
    Finds (directReturnTarget p stop sharedJoin pc) P := by
  have hnone : P none := hP none (by simp)
  unfold directReturnTarget
  rw [finds_bind]
  refine finds_testAt hpc hstop fun test htest => ?_
  rw [finds_ite]
  refine ⟨fun h => ?_, fun _ => hnone⟩
  have hlt := (htest h).1
  simp only [finds_bind, finds_targetAt]
  refine ⟨by omega, by omega, ?_⟩
  rw [finds_ite]
  refine ⟨fun ht => ?_, fun _ => hnone⟩
  simp only [finds_bind, finds_codeAt, finds_pure]
  refine ⟨by omega, by omega, ?_⟩
  split_ifs with hreturn
  · refine hP _ fun t h => ?_
    obtain rfl := Option.some.inj h
    exact ⟨ht.1, ht.2, hlt⟩
  · exact hnone

theorem finds_exitGapEnd {gapBegin : ℤ} {n : ℕ} (hpc : 0 ≤ pc) (hle : pc ≤ stop)
    (hjoin : 0 ≤ sharedJoin) (hstop : stop ≤ p.size) :
    Finds (exitGapEnd p stop sharedJoin gapBegin n pc) fun k => pc ≤ k ∧ k ≤ stop := by
  induction n generalizing pc with
  | zero => exact ⟨le_refl pc, hle⟩
  | succ n ih =>
    unfold exitGapEnd
    rw [finds_ite]
    refine ⟨fun hlt => ?_, fun _ => ⟨le_refl pc, hle⟩⟩
    rw [finds_bind]
    refine finds_directReturnTarget hpc hjoin hstop fun early hearly => ?_
    rw [finds_ite]
    refine ⟨fun h => ?_, fun _ => ?_⟩
    · obtain ⟨t, rfl⟩ := Option.isSome_iff_exists.1 h
      have := (hearly t rfl).2.2
      exact (ih (by omega) (by omega)).mono fun k hk => ⟨by omega, hk.2⟩
    · simp only [finds_bind, finds_codeAt]
      refine ⟨by omega, by omega, ?_⟩
      rw [finds_ite]
      refine ⟨fun _ => ?_, fun _ => ⟨le_refl pc, hle⟩⟩
      exact (ih (by omega) (by omega)).mono fun k hk => ⟨by omega, hk.2⟩

theorem finds_exitTestAt {P : Bool → Prop} (hpc : 0 ≤ pc) (hstop : stop ≤ p.size)
    (hP : ∀ b, (b = true → pc + 1 < stop) → P b) : Finds (exitTestAt p stop sharedJoin pc) P := by
  unfold exitTestAt
  rw [finds_bind]
  refine finds_testAt hpc hstop fun test htest => ?_
  rw [finds_both]
  refine ⟨fun h => ?_, fun _ => hP false fun h => by cases h⟩
  have := (htest h).1
  simp only [finds_bind, finds_targetAt, finds_pure]
  exact ⟨by omega, by omega, hP _ fun _ => this⟩

/-- The code between two tests lies between `pc` and `stop`. -/
structure ConditionGap.In (gap : ConditionGap) (pc stop : ℤ) : Prop where
  start_ge : pc ≤ gap.start
  start_le : gap.start ≤ gap.stop
  stop_le : gap.stop ≤ stop

/-- The test and the code behind it lie between `pc` and `stop`. -/
structure ExitTest.In (test : ExitTest) (pc stop : ℤ) : Prop where
  pc_le : pc ≤ test.pc
  lt_stop : test.pc + 1 < stop
  gap_in : ∀ gap ∈ test.gap, gap.In (pc + 2) stop

theorem finds_exitTestsFrom {n : ℕ} (hpc : 0 ≤ pc) (hjoin : 0 ≤ sharedJoin) (hstop : stop ≤ p.size) :
    Finds (exitTestsFrom p stop sharedJoin n pc) fun tests => ∀ test ∈ tests, test.In pc stop := by
  induction n generalizing pc with
  | zero => simp [exitTestsFrom, finds_ok]
  | succ n ih =>
    unfold exitTestsFrom
    rw [finds_bind]
    refine finds_exitTestAt hpc hstop fun found hfound => ?_
    rw [finds_ite]
    refine ⟨fun h => ?_, fun _ => by simp [finds_pure]⟩
    have hlt := hfound h
    simp only [finds_bind]
    refine (finds_exitGapEnd (by omega) (by omega) hjoin hstop).mono fun cursor hcursor => ?_
    have hlast : Finds (pure [⟨pc, none⟩] : Search (List ExitTest)) fun tests =>
        ∀ test ∈ tests, test.In pc stop := by
      rw [finds_pure]
      intro test htest
      obtain rfl := List.mem_singleton.1 htest
      exact ⟨le_refl pc, hlt, by simp⟩
    rw [finds_both]
    refine ⟨fun hgap => ?_, fun _ => hlast⟩
    refine finds_exitTestAt (by omega) hstop fun more _ => ?_
    rw [finds_ite]
    refine ⟨fun _ => ?_, fun _ => hlast⟩
    rw [finds_bind]
    refine (ih (by omega)).mono fun rest hrest => ?_
    rw [finds_pure]
    intro test htest
    rcases List.mem_cons.1 htest with rfl | htest
    · refine ⟨le_refl pc, hlt, fun gap h => ?_⟩
      obtain rfl := Option.some.inj h
      exact ⟨le_refl _, hcursor.1, hcursor.2⟩
    · have hin := hrest test htest
      have := hin.pc_le
      refine ⟨by omega, hin.lt_stop, fun gap h => ?_⟩
      have hgap := hin.gap_in gap h
      exact { hgap with start_ge := by have := hgap.start_ge; omega }

/-- The chain lies between `pc` and `stop`. -/
structure ExitChain.In (e : ExitChain) (pc stop : ℤ) : Prop where
  tests_in : ∀ test ∈ e.tests, test.In pc stop
  join_nonneg : 0 ≤ e.sharedJoin
  bodyBegin_ge : pc + 2 ≤ e.bodyBegin
  resume_gt : 0 ≤ e.elseResume → e.sharedJoin < e.elseResume

theorem finds_booleanResultTail {bodyBegin : ℤ} {P : Bool → Prop} (hbody : 0 ≤ bodyBegin)
    (hstop : stop ≤ p.size) (hP : ∀ b, P b) :
    Finds (booleanResultTail p stop sharedJoin bodyBegin) P := by
  unfold booleanResultTail
  rw [finds_bind, finds_attempt]
  refine ⟨?_, fun _ => hP false⟩
  simp only [finds_bind, finds_ensure, finds_codeAt, finds_jumpTo]
  exact fun h => ⟨by omega, by omega, fun _ => ⟨by omega, by omega, fun _ => ⟨by omega, by omega,
    fun _ => ⟨by omega, by omega, fun _ => ⟨by omega, by omega, fun _ => hP true⟩⟩⟩⟩⟩

theorem finds_elseResume {bodyBegin : ℤ} (hstop : stop ≤ p.size) :
    Finds (elseResume p stop sharedJoin bodyBegin) fun k => 0 ≤ k → sharedJoin < k := by
  unfold elseResume
  rw [finds_ite]
  refine ⟨fun h => ?_, fun _ h => absurd h (by decide)⟩
  rw [finds_bind, finds_codeAt]
  refine ⟨by omega, by omega, ?_⟩
  rw [finds_pure]
  split_ifs with htarget
  · exact fun _ => htarget.2.1
  · exact fun h => absurd h (by decide)

theorem finds_exitChainAt (hjumps : JumpsInside p) (hpc : 0 ≤ pc) (hstop : stop ≤ p.size) :
    Finds (exitChainAt p stop pc) fun e => e.In pc stop := by
  unfold exitChainAt
  rw [finds_bind]
  refine finds_testAt hpc hstop fun test htest => ?_
  simp only [finds_bind, finds_ensure, finds_targetAt]
  intro h
  obtain ⟨hlt, hjump⟩ := htest h
  have hjoin := (hjumps (pc + 1) (by omega) (by omega) hjump).1
  refine ⟨by omega, by omega, (finds_exitTestsFrom hpc hjoin hstop).mono fun tests htests => ?_⟩
  cases hlast : tests.getLast? with
  | none => trivial
  | some last =>
    have hin := htests last (List.mem_of_getLast? hlast)
    have := hin.pc_le
    simp only [finds_bind]
    refine finds_booleanResultTail (by omega) hstop fun _ => ?_
    refine (finds_elseResume hstop).mono fun resume hresume => ?_
    exact ⟨htests, hjoin, by dsimp only; omega, hresume⟩

/-- A body with an `else` arm computes no truth value. -/
theorem ExitChain.of_sharedElseTail {e : ExitChain} (h : e.sharedElseTail = true) :
    e.booleanResultTail = false ∧ 0 ≤ e.elseResume := by
  unfold ExitChain.sharedElseTail at h
  simpa using h

/-- The body ends in front of the join, and the join is in front of where the chain ends. -/
theorem ExitChain.In.ends {e : ExitChain} (he : e.In pc stop) :
    e.guardBodyEnd ≤ e.sharedJoin ∧ e.sharedJoin ≤ e.handledEnd := by
  unfold ExitChain.guardBodyEnd ExitChain.handledEnd
  cases hboolean : e.booleanResultTail with
  | true =>
    simp only [if_true, ExitChain.booleanTestPc]
    omega
  | false =>
    cases helse : e.sharedElseTail with
    | true =>
      have := he.resume_gt (ExitChain.of_sharedElseTail helse).2
      simp only [Bool.false_eq_true, if_false, if_true, ExitChain.bodyTailJumpPc]
      omega
    | false => simp

theorem finds_earlyReturns {gaps : List ConditionGap} (hpc : 0 ≤ pc) (hjoin : 0 ≤ sharedJoin)
    (hstop : stop ≤ p.size) (hgaps : ∀ gap ∈ gaps, gap.In pc stop) :
    Finds (earlyReturns p stop sharedJoin gaps) fun _ => True := by
  refine finds_foldlM (I := fun _ => True) trivial (fun scan hscan early _ => ?_) fun _ _ => trivial
  obtain ⟨gap, hgap, hscan⟩ := List.mem_flatMap.1 hscan
  rw [mem_interval] at hscan
  have := (hgaps gap hgap).start_ge
  rw [finds_bind]
  refine finds_directReturnTarget (by omega) hjoin hstop fun found _ => ?_
  cases found <;> trivial

theorem finds_unsafeAt {e : ExitChain} (hpc : 0 ≤ pc) (hlt : pc < p.size) :
    Finds (e.unsafeAt p pc) fun _ => True := by
  unfold ExitChain.unsafeAt
  rw [finds_bind, finds_codeAt]
  exact ⟨hpc, hlt, trivial⟩

variable (ha : a.InRange p) (hpc : a.start ≤ pc)

include ha

/-- The code of a gap, and the returns behind the join, lie behind the start. -/
theorem finds_emitGuardGap {gapEnd scan cursor : ℤ} {n : ℕ} (hjoin : a.start ≤ sharedJoin)
    (hcursor : a.start < cursor) (hle : cursor ≤ scan) (hend : gapEnd ≤ a.stop) :
    Finds (emitGuardGap p a sharedJoin gapEnd n scan cursor) (AllInner p a) := by
  have := ha.start_nonneg
  have := ha.stop_le
  have hrest {cursor : ℤ} (h : a.start < cursor) :
      AllInner p a (rangeUnlessEmpty (a.allowing true cursor gapEnd)) := by
    rw [allInner_rangeUnlessEmpty]
    exact fun hlt => inner_of_later ha h hlt.le (by show gapEnd ≤ _; omega)
  induction n generalizing scan cursor with
  | zero => exact hrest hcursor
  | succ n ih =>
    unfold emitGuardGap
    rw [finds_ite]
    refine ⟨fun hlt => ?_, fun _ => hrest hcursor⟩
    rw [finds_bind]
    refine finds_directReturnTarget (by omega) (by omega) ha.stop_le fun early hearly => ?_
    cases early with
    | none => exact ih hcursor (by omega)
    | some returnTarget =>
      obtain ⟨h₁, h₂, -⟩ := hearly returnTarget rfl
      dsimp only
      rw [finds_bind]
      refine (ih (by omega) le_rfl).mono fun rest htail => ?_
      rw [finds_pure]
      have hreturn : Inner p a (a.allowing false returnTarget (returnTarget + 1)) :=
        inner_of_later ha (by show a.start < returnTarget; omega)
          (by show returnTarget ≤ returnTarget + 1; omega) (by show returnTarget + 1 ≤ _; omega)
      have hbefore : AllInner p a (rangeUnlessEmpty (a.allowing true cursor scan)) := by
        rw [allInner_rangeUnlessEmpty]
        exact fun hlt => inner_of_later ha hcursor hlt.le (by show scan ≤ _; omega)
      simpa only [allInner_append, allInner_line, allInner_range, allInner_nil, and_true] using
        ⟨⟨hbefore, hreturn⟩, htail⟩

include hpc

theorem finds_exitTestParts {test : ExitTest} (htest : test.In pc a.stop)
    (hjoin : a.start ≤ sharedJoin) : Finds (exitTestParts p a sharedJoin test) (AllInner p a) := by
  unfold exitTestParts
  cases hgap : test.gap with
  | none => simp [finds_ok]
  | some gap =>
    have hin := htest.gap_in gap hgap
    have := hin.start_ge
    dsimp only
    rw [finds_bind]
    refine (finds_emitGuardGap ha hjoin (by omega) le_rfl hin.stop_le).mono fun parts hparts => ?_
    rw [finds_pure]
    simpa using hparts

theorem finds_exitChain (hjumps : JumpsInside p) : FindsInner p a (exitChain p a pc) := by
  have := ha.start_nonneg
  have := ha.stop_le
  unfold FindsInner exitChain
  rw [finds_bind]
  refine (finds_exitChainAt hjumps (by omega) ha.stop_le).mono fun e he => ?_
  have := he.bodyBegin_ge
  have hends := he.ends
  simp only [finds_bind, finds_ensure]
  intro hchain
  have hgaps : ∀ gap ∈ e.gaps, gap.In pc a.stop := by
    intro gap hgap
    obtain ⟨test, htest, hgap⟩ := List.mem_filterMap.1 hgap
    have hin := (he.tests_in test htest).gap_in gap hgap
    exact { hin with start_ge := by have := hin.start_ge; omega }
  refine (finds_earlyReturns (by omega) he.join_nonneg ha.stop_le hgaps).mono fun early _ _ => ?_
  refine finds_anyOf (fun scan hscan => ?_) fun _ _ => ?_
  · rw [mem_interval] at hscan
    exact finds_unsafeAt (by omega) (by omega)
  refine (finds_mapM fun test htest =>
    finds_exitTestParts ha hpc (he.tests_in test htest) (by omega)).mono fun tests htests => ?_
  rw [finds_pure]
  have hflatten : AllInner p a tests.flatten := by
    intro part hpart
    obtain ⟨parts, hparts, hpart⟩ := List.mem_flatten.1 hpart
    exact htests parts hparts part hpart
  have hbody : Inner p a (a.allowing true e.bodyBegin e.guardBodyEnd) :=
    inner_of_later ha (by show a.start < e.bodyBegin; omega) hchain.2.2.1
      (by show e.guardBodyEnd ≤ _; omega)
  have helse (h : e.sharedElseTail = true) : Inner p a (a.allowing true e.sharedJoin e.elseResume) := by
    have := he.resume_gt (ExitChain.of_sharedElseTail h).2
    have hresume : e.handledEnd = e.elseResume := by
      simp [ExitChain.handledEnd, h, (ExitChain.of_sharedElseTail h).1]
    exact inner_of_later ha (by show a.start < e.sharedJoin; omega)
      (by show e.sharedJoin ≤ e.elseResume; omega) (by show e.elseResume ≤ _; omega)
  simp only [allInner_append, allInner_ite, allInner_line, allInner_range, allInner_nil,
    allInner_map_line, hflatten, hbody, and_true, true_and, implies_true]
  exact helse

end Finds

end ByteVeil.Lua51
