import ByteVeil.Lua51.GuardShapes

/-!
# Chains of conditions

The shapes of `emitRange` for conditions that are joined by `and` and `or`: tests directly behind each
other, tests with straight-line code between them, whose operands must stay lazy, and candidates that
are tried one after the other.
-/

namespace ByteVeil.Lua51

open Fallible

/-- A test of a chain and where its jump leads. -/
structure ConditionJump where
  pc : ℤ
  target : ℤ

/-- The code between two tests of a chain. -/
structure ConditionGap where
  start : ℤ
  stop : ℤ

/-! ## Candidates -/

/-- `seekCondition`. -/
def seekCondition (p : Proto) (stop pc : ℤ) : Search (Option ℤ) := do
  let cursor ← safeGapEnd p stop pc
  let found ← testAt p stop cursor
  return if found = true then some cursor else none

/-- A candidate: a first test over its payload, and a second one that leads to the join. -/
structure GuardedConditionCandidate where
  primaryPc : ℤ
  prefixBegin : ℤ
  payloadBegin : ℤ
  secondaryPc : ℤ
  nextBegin : ℤ

/-- Candidates, where they join, and where the code for no match begins. -/
structure Candidates where
  guarded : List GuardedConditionCandidate
  join : ℤ
  fallbackBegin : ℤ

/-- The candidates from `candidatePc` on, at most so many. -/
def candidatesFrom (p : Proto) (stop : ℤ) : ℕ → Option ℤ → ℤ → ℤ → Search Candidates
  | 0, _, _, _ => .error .absent
  | n + 1, join, candidatePc, prefixBegin => do
    let primary ← testAt p stop candidatePc
    ensure (primary = true)
    match ← seekCondition p stop (candidatePc + 2) with
    | none => .error .absent
    | some secondaryPc =>
      let nextBegin := secondaryPc + 2
      let primaryTarget ← targetAt p (candidatePc + 1)
      let secondaryTarget ← targetAt p (secondaryPc + 1)
      ensure (primaryTarget = nextBegin ∧ nextBegin < secondaryTarget ∧ secondaryTarget ≤ stop ∧
        (join = none ∨ join = some secondaryTarget))
      let candidate : GuardedConditionCandidate :=
        ⟨candidatePc, prefixBegin, candidatePc + 2, secondaryPc, nextBegin⟩
      match ← seekCondition p stop nextBegin with
      | some nextPrimary =>
        let rest ← candidatesFrom p stop n (some secondaryTarget) nextPrimary nextBegin
        return { rest with guarded := candidate :: rest.guarded }
      | none =>
        ensure (secondaryTarget - nextBegin ≤ 16)
        let unsafeGap ← anyOf (fun fallbackPc => do
          let i ← codeAt p fallbackPc
          return !guardedGapSafe i) (interval nextBegin secondaryTarget)
        ensure (unsafeGap = false)
        return ⟨[candidate], secondaryTarget, nextBegin⟩

/-- An instruction between the first candidate and the join that is not one of the chain's tests and
jumps, or a jump into it from outside. -/
def breaksCandidates (c : Candidates) (pc : ℤ) (edge : Instr) : Bool :=
  let inside : Bool := decide (pc ≤ edge.pc ∧ edge.pc < c.join)
  let allowedCondition := c.guarded.any fun g => edge.pc == g.primaryPc || edge.pc == g.secondaryPc
  let allowedJump := c.guarded.any fun g =>
    (edge.pc == g.primaryPc + 1 && edge.target == g.nextBegin) ||
      (edge.pc == g.secondaryPc + 1 && edge.target == c.join)
  match edge.op with
  | .JMP => if inside then !allowedJump else decide (pc < edge.target ∧ edge.target < c.join)
  | .FORLOOP | .FORPREP => inside || decide (pc < edge.target ∧ edge.target < c.join)
  | .EQ | .LT | .LE | .TEST => inside && !allowedCondition
  | .TESTSET | .TFORLOOP => inside
  | _ => false

/-- The lines of one candidate. -/
def candidateParts (a : Activation) (flag : Flag) (g : GuardedConditionCandidate) :
    List RangePart :=
  line (.ifThen (.of g.primaryPc)) ::
    rangeUnlessEmpty (a.allowing true g.payloadBegin g.secondaryPc) ++
    [line (.ifThen (.negated g.secondaryPc)), line (.setFlag flag true), line .endDo, line .endDo]

/-- Candidates that are tried until one matches. -/
def guardedChain (p : Proto) (a : Activation) (pc : ℤ) : Search Step := do
  let c ← candidatesFrom p a.stop 128 none pc pc
  ensure ((p.code.any fun edge => breaksCandidates c pc edge) = false)
  let flag := Flag.condition pc
  return {
    parts := [line .doBlock, line (.localFlag flag)] ++
      (c.guarded.take 1).flatMap (candidateParts a flag) ++
      ((c.guarded.drop 1).flatMap fun g =>
        line (.ifThen (.noFlag flag)) :: rangeUnlessEmpty (a.allowing true g.prefixBegin g.primaryPc) ++
          candidateParts a flag g ++ [line .endDo]) ++
      line (.ifThen (.noFlag flag)) :: rangeUnlessEmpty (a.allowing true c.fallbackBegin c.join) ++
      [line .endDo, line .endDo]
    next := some c.join }

/-! ## Tests with code between them -/

/-- Further tests of a chain, each with the code in front of it; the first must have some. -/
def separatedFrom (p : Proto) (stop : ℤ) :
    ℕ → Bool → ℤ → Search (List (ConditionGap × ConditionJump))
  | 0, _, _ => .ok []
  | n + 1, sawGap, gapBegin => do
    if gapBegin < stop then
      let cursor ← skipWhile (fun k => both (k < stop) do
        let i ← codeAt p k
        return straightLineConditionGap i) 16 gapBegin
      let found ← both (¬(cursor = gapBegin ∧ sawGap = false)) (testAt p stop cursor)
      if found = true then
        let target ← targetAt p (cursor + 1)
        let rest ← separatedFrom p stop n (sawGap || decide (gapBegin < cursor)) (cursor + 2)
        return (⟨gapBegin, cursor⟩, ⟨cursor, target⟩) :: rest
      else return []
    else return []

/-- A test and the ones behind it, with the code between them. -/
structure SeparatedChain where
  first : ConditionJump
  rest : List (ConditionGap × ConditionJump)

/-- `firstTarget`. -/
def firstTarget (p : Proto) (stop pc : ℤ) : Search ℤ := do
  let hasJump ← both (pc + 1 < stop) (jumpAt p (pc + 1))
  if hasJump = true then targetAt p (pc + 1) else return -1

/-- `separatedChain` and `separatedGaps`. -/
def separatedTests (p : Proto) (stop pc : ℤ) : Search SeparatedChain := do
  let firstTarget ← firstTarget p stop pc
  if 0 ≤ firstTarget then
    let rest ← separatedFrom p stop 8 false (pc + 2)
    return ⟨⟨pc, firstTarget⟩, rest⟩
  else return ⟨⟨pc, firstTarget⟩, []⟩

/-- Where a separated chain goes on, and whether it has an `else` arm that ends there. -/
structure Resume where
  resume : ℤ
  hasElse : Bool
  bodyEndsInReturn : Bool

/-- `resume` for a body that ends in a jump over an `else` arm or in a return. -/
def resumeOf (p : Proto) (stop bodyBegin join : ℤ) : Search Resume := do
  let last ← codeAt p (join - 1)
  let jumps : Bool := last.op == .JMP && decide (join < last.target)
  let resume := if jumps then last.target else join
  let hasElse := jumps && decide (resume ≤ stop)
  if hasElse = false ∧ (last.op = .TAILCALL ∨ last.op = .RETURN) then
    let jumpsToJoin ← anyOf (fun bodyPc => do
      let i ← codeAt p bodyPc
      return i.op == .JMP && i.target == join) (interval bodyBegin (join - 1))
    return if jumpsToJoin = true then ⟨resume, hasElse, false⟩ else ⟨stop, true, true⟩
  else return ⟨resume, hasElse, false⟩

/-- The body turns the chain into a truth value, and a call stands between the tests. -/
def callSeparatedBooleanTail (p : Proto) (stop : ℤ) (chain : SeparatedChain) (bodyBegin : ℤ)
    (last : ConditionJump) : Search Bool := do
  let tail ← attempt do
    ensure (0 ≤ bodyBegin ∧ bodyBegin + 2 < stop ∧ chain.first.target = bodyBegin ∧
      last.target = bodyBegin + 1)
    let no ← codeAt p bodyBegin
    ensure (no.op = .LOADBOOL ∧ no.b = 0 ∧ no.c = 1)
    let yes ← codeAt p (bodyBegin + 1)
    ensure (yes.op = .LOADBOOL ∧ yes.a = no.a ∧ yes.b = 1 ∧ yes.c = 0)
    let returns ← codeAt p (bodyBegin + 2)
    ensure (returns.op = .RETURN ∧ returns.a = no.a ∧ returns.b = 2)
  match tail with
  | none => return false
  | some _ =>
    anyOf (fun gapPc => do
      let i ← codeAt p gapPc
      return i.op == .CALL) (chain.rest.flatMap fun entry => interval entry.1.start entry.1.stop)

/-- The tests of a chain in which only the first leads into the body, and the others behind it. -/
def orAndParts (a : Activation) (flag : Flag) (chain : SeparatedChain) : List RangePart :=
  [line (.ifThen (.negated chain.first.pc)), line (.setFlag flag true), line .elseDo] ++
    (chain.rest.flatMap fun entry =>
      [range (a.allowing true entry.1.start entry.1.stop), line (.ifThen (.of entry.2.pc))]) ++
    line (.setFlag flag true) :: (chain.rest.map fun _ => line .endDo) ++ [line .endDo]

/-- The tests of a chain in which all but the last lead into the body. -/
def orParts (a : Activation) (flag : Flag) (chain : SeparatedChain) (last : ConditionJump) :
    List RangePart :=
  let pcs := chain.first.pc :: chain.rest.map fun entry => entry.2.pc
  ((pcs.zip chain.rest).flatMap fun (pc, entry) =>
    [line (.ifThen (.negated pc)), line (.setFlag flag true), line .elseDo,
      range (a.allowing true entry.1.start entry.1.stop)]) ++
    line (.assignFlag flag (.of last.pc)) :: chain.rest.map fun _ => line .endDo

/-- Tests with code between them and one body. -/
def separatedChain (p : Proto) (a : Activation) (pc : ℤ) (chain : SeparatedChain) :
    Search Step := do
  match chain.rest.getLast? with
  | none => .error .absent
  | some (_, last) =>
    let bodyBegin := last.pc + 2
    let join := last.target
    ensure (bodyBegin < join ∧ join ≤ a.stop)
    let targets := chain.rest.map fun entry => entry.2.target
    let commonOrPrefix := (chain.first.target :: targets.dropLast).all fun t => t == bodyBegin
    let commonOrAnd := chain.first.target == bodyBegin && targets.all fun t => t == join
    ensure ((commonOrPrefix || commonOrAnd) = true)
    let resume ← resumeOf p a.stop bodyBegin join
    let truthValue ← both (commonOrPrefix = true) (callSeparatedBooleanTail p a.stop chain bodyBegin last)
    ensure (truthValue = false ∧
      (p.code.any fun edge => !decide (pc ≤ edge.pc ∧ edge.pc < resume.resume) &&
        decide (pc < flowTarget p edge ∧ flowTarget p edge < resume.resume)) = false)
    let flag := Flag.condition pc
    let bodyEnd := if resume.hasElse = true ∧ resume.bodyEndsInReturn = false then join - 1 else join
    return {
      parts := [line .doBlock, line (.localFlag flag)] ++
        (if commonOrAnd = true then orAndParts a flag chain else orParts a flag chain last) ++
        line (.ifThen (.flag flag)) :: rangeUnlessEmpty (a.allowing true bodyBegin bodyEnd) ++
        (if resume.hasElse = true then
          line .elseDo :: rangeUnlessEmpty (a.allowing true join resume.resume)
        else []) ++
        [line .endDo, line .endDo]
      next := some resume.resume }

/-! ## Tests directly behind each other -/

/-- `chain`. -/
def conditionChain (p : Proto) (stop : ℤ) : ℕ → ℤ → Search (List ConditionJump)
  | 0, _ => .ok []
  | n + 1, cursor => do
    let test ← testAt p stop cursor
    if test = true then
      let target ← targetAt p (cursor + 1)
      let rest ← conditionChain p stop n (cursor + 2)
      return ⟨cursor, target⟩ :: rest
    else return []

/-- Tests whose jumps all lead behind one body. -/
def andChain (p : Proto) (a : Activation) (pc : ℤ) (chain : List ConditionJump) : Search Step := do
  match chain.head?, chain.getLast? with
  | some first, some last =>
    ensure (2 ≤ chain.length)
    let bodyBegin := last.pc + 2
    let join := first.target
    let loopLatch ← both (0 < join ∧ join ≤ a.stop) (jumpTo p (join - 1) pc)
    ensure (loopLatch = false ∧ bodyBegin < join ∧ join ≤ a.stop ∧
      (chain.all fun test => test.target == join) = true)
    return {
      parts := [line (.ifThen (.allOf (chain.map ConditionJump.pc))),
        range (a.allowing true bodyBegin join), line .endDo]
      next := some join }
  | _, _ => .error .absent

/-- The tests up to `last`, the others of which lead into one body. -/
def orChainAt (a : Activation) (before : List ConditionJump) (last : ConditionJump) :
    Search Step := do
  let bodyBegin := last.pc + 2
  ensure (bodyBegin < last.target ∧ last.target ≤ a.stop ∧
    (before.all fun test => test.target == bodyBegin) = true)
  return {
    parts := [line (.ifThen (.someOf (before.map ConditionJump.pc) last.pc)),
      range (a.allowing true bodyBegin last.target), line .endDo]
    next := some last.target }

/-- The first tests of the chain that guard one body together. -/
def orChain (a : Activation) (chain : List ConditionJump) : Search Step :=
  firstOf ((List.range' 1 (chain.length - 1)).map fun final =>
    match chain[final]? with
    | some last => orChainAt a (chain.take final) last
    | none => .error .absent)

/-! ## What is emitted lies inside -/

section Finds

variable {p : Proto} {a : Activation} {pc stop : ℤ}

/-- Looking for the next test ends at one in the range. -/
theorem finds_seekCondition {P : Option ℤ → Prop} (hpc : 0 ≤ pc) (hle : pc ≤ stop)
    (hstop : stop ≤ p.size) (hnone : P none)
    (hP : ∀ k, pc ≤ k → k + 1 < stop → P (some k)) : Finds (seekCondition p stop pc) P := by
  unfold seekCondition
  rw [finds_bind]
  refine finds_safeGapEnd hpc hle hstop fun k hk hkstop => ?_
  rw [finds_bind]
  refine finds_testAt (by omega) hstop fun found hfound => ?_
  rw [finds_pure]
  split_ifs with h
  · exact hP k hk (hfound h).1
  · exact hnone

/-- The candidate lies between `pc` and `stop`. -/
structure GuardedConditionCandidate.In (g : GuardedConditionCandidate) (pc stop : ℤ) : Prop where
  prefix_ge : pc ≤ g.prefixBegin
  primary_lt : g.primaryPc < g.payloadBegin
  primary_ge : pc ≤ g.primaryPc
  payload_le : g.payloadBegin ≤ g.secondaryPc
  secondary_lt : g.secondaryPc < stop

/-- The candidates lie in the range; the prefixes of the further ones behind the first. -/
structure Candidates.In (c : Candidates) (pc stop : ℤ) : Prop where
  each : ∀ g ∈ c.guarded, g.In pc stop
  behind : ∀ g ∈ c.guarded.drop 1, pc < g.prefixBegin
  fallback_gt : pc < c.fallbackBegin
  fallback_le : c.fallbackBegin ≤ c.join
  join_le : c.join ≤ stop

theorem finds_candidatesFrom {n : ℕ} {join : Option ℤ} {before : ℤ} (hbefore : 0 ≤ before)
    (hpc : before ≤ pc) (hstop : stop ≤ p.size) :
    Finds (candidatesFrom p stop n join pc before) fun c => c.In before stop := by
  induction n generalizing join pc before with
  | zero => trivial
  | succ n ih =>
    unfold candidatesFrom
    rw [finds_bind]
    refine finds_testAt (by omega) hstop fun primary hprimary => ?_
    simp only [finds_bind, finds_ensure]
    intro h
    have hlt := (hprimary h).1
    refine finds_seekCondition (by omega) (by omega) hstop trivial fun k hk hkstop => ?_
    simp only [finds_bind, finds_targetAt, finds_ensure]
    refine ⟨by omega, by omega, by omega, by omega, fun htargets => ?_⟩
    have hin : GuardedConditionCandidate.In ⟨pc, before, pc + 2, k, k + 2⟩ before stop :=
      ⟨le_refl before, by dsimp only; omega, hpc, hk, by dsimp only; omega⟩
    refine finds_seekCondition (by omega) (by omega) hstop ?_ fun m hm hmstop => ?_
    · simp only [finds_bind, finds_ensure]
      intro hgap
      refine finds_anyInstr (by omega) (by omega) fun _ _ => ?_
      rw [finds_pure]
      refine ⟨fun g hg => ?_, by simp, by dsimp only; omega, by dsimp only; omega, htargets.2.2.1⟩
      obtain rfl := List.mem_singleton.1 hg
      exact hin
    · dsimp only
      rw [finds_bind]
      refine (ih (by omega) (by omega)).mono fun c hc => ?_
      rw [finds_pure]
      refine ⟨fun g hg => ?_, fun g hg => ?_, ?_, hc.fallback_le, hc.join_le⟩
      · rcases List.mem_cons.1 hg with rfl | hg
        · exact hin
        · have := hc.each g hg
          exact { this with
            prefix_ge := by have := this.prefix_ge; omega
            primary_ge := by have := this.primary_ge; omega }
      · have := (hc.each g hg).prefix_ge
        omega
      · have := hc.fallback_gt
        dsimp only
        omega

/-- The gap and the test behind it lie between `pc` and `stop`. -/
structure EntryIn (entry : ConditionGap × ConditionJump) (pc stop : ℤ) : Prop where
  start_ge : pc ≤ entry.1.start
  start_le : entry.1.start ≤ entry.1.stop
  test_ge : entry.1.stop ≤ entry.2.pc
  test_lt : entry.2.pc + 1 < stop

theorem finds_separatedFrom {n : ℕ} {sawGap : Bool} (hpc : 0 ≤ pc) (hstop : stop ≤ p.size) :
    Finds (separatedFrom p stop n sawGap pc) fun rest => ∀ entry ∈ rest, EntryIn entry pc stop := by
  induction n generalizing sawGap pc with
  | zero => simp [separatedFrom, finds_ok]
  | succ n ih =>
    unfold separatedFrom
    rw [finds_ite]
    refine ⟨fun hlt => ?_, fun _ => by simp [finds_pure]⟩
    rw [finds_bind]
    refine finds_skipWhile stop (fun k hk => ?_) fun k hk hkstop => ?_
    · simp only [finds_both, finds_bind, finds_codeAt, finds_pure]
      exact ⟨fun h => ⟨by omega, by omega, fun _ => h⟩, fun _ h => by cases h⟩
    rw [finds_bind, finds_both]
    refine ⟨fun _ => ?_, fun _ => by simp [finds_pure]⟩
    refine finds_testAt (by omega) hstop fun found hfound => ?_
    rw [finds_ite]
    refine ⟨fun h => ?_, fun _ => by simp [finds_pure]⟩
    have hk' := (hfound h).1
    simp only [finds_bind, finds_targetAt]
    refine ⟨by omega, by omega, (ih (by omega)).mono fun rest hrest => ?_⟩
    rw [finds_pure]
    intro entry hentry
    rcases List.mem_cons.1 hentry with rfl | hentry
    · exact ⟨le_refl pc, hk, le_refl k, hk'⟩
    · have := hrest entry hentry
      exact { this with start_ge := by have := this.start_ge; omega }

theorem finds_separatedTests (hpc : 0 ≤ pc) (hstop : stop ≤ p.size) :
    Finds (separatedTests p stop pc) fun chain =>
      ∀ entry ∈ chain.rest, EntryIn entry (pc + 2) stop := by
  unfold separatedTests
  have hfirst : Finds (firstTarget p stop pc) fun _ => True := by
    unfold firstTarget
    simp only [finds_bind, finds_both, finds_jumpAt, finds_ite, finds_targetAt, finds_pure,
      implies_true, and_true]
    refine ⟨fun _ => ⟨by omega, by omega, fun _ => by omega⟩, fun _ h => ?_⟩
    cases h
  rw [finds_bind]
  refine hfirst.mono fun target _ => ?_
  rw [finds_ite]
  refine ⟨fun _ => ?_, fun _ => by simp [finds_pure]⟩
  rw [finds_bind]
  exact finds_separatedFrom (by omega) hstop

theorem finds_resumeOf {bodyBegin join : ℤ} (hbody : 0 ≤ bodyBegin) (hlt : bodyBegin < join)
    (hle : join ≤ stop) (hstop : stop ≤ p.size) : Finds (resumeOf p stop bodyBegin join) fun r =>
      r.hasElse = true → join ≤ r.resume ∧ r.resume ≤ stop := by
  unfold resumeOf
  rw [finds_bind, finds_codeAt]
  refine ⟨by omega, by omega, ?_⟩
  dsimp only
  -- the `else` arm starts behind the body's last jump, which leads on
  obtain ⟨jumps, hjumps⟩ : ∃ jumps : Bool, jumps = ((p.at (join - 1)).op == .JMP &&
    decide (join < (p.at (join - 1)).target)) := ⟨_, rfl⟩
  rw [← hjumps]
  have helse : (jumps && decide ((if jumps = true then (p.at (join - 1)).target else join) ≤ stop))
      = true → join ≤ (if jumps = true then (p.at (join - 1)).target else join) ∧
        (if jumps = true then (p.at (join - 1)).target else join) ≤ stop := by
    intro h
    obtain ⟨rfl, hresume⟩ := Bool.and_eq_true_iff.1 h
    have := of_decide_eq_true (Bool.and_eq_true_iff.1 hjumps.symm).2
    simp only [if_true, decide_eq_true_iff] at hresume ⊢
    omega
  rw [finds_ite]
  refine ⟨fun _ => ?_, fun _ => helse⟩
  rw [finds_bind]
  refine finds_anyInstr hbody (by omega) fun found => ?_
  rw [finds_pure]
  cases found with
  | false => exact fun _ => ⟨hle, le_refl stop⟩
  | true => exact helse

theorem finds_callSeparatedBooleanTail {chain : SeparatedChain} {bodyBegin : ℤ}
    {last : ConditionJump} {P : Bool → Prop} (hpc : 0 ≤ pc) (hstop : stop ≤ p.size)
    (hchain : ∀ entry ∈ chain.rest, EntryIn entry pc stop) (hP : ∀ b, P b) :
    Finds (callSeparatedBooleanTail p stop chain bodyBegin last) P := by
  unfold callSeparatedBooleanTail
  rw [finds_bind, finds_attempt]
  refine ⟨?_, fun _ => hP false⟩
  simp only [finds_bind, finds_ensure, finds_codeAt]
  refine fun h => ⟨by omega, by omega, fun _ => ⟨by omega, by omega, fun _ => ⟨by omega, by omega, fun _ => ?_⟩⟩⟩
  refine finds_anyOf (fun k hk => ?_) hP
  obtain ⟨entry, hentry, hk⟩ := List.mem_flatMap.1 hk
  rw [mem_interval] at hk
  have hin := hchain entry hentry
  have := hin.start_ge
  have := hin.test_ge
  have := hin.test_lt
  rw [finds_bind, finds_codeAt]
  exact ⟨by omega, by omega, trivial⟩

theorem finds_conditionChain {n : ℕ} (hpc : 0 ≤ pc) (hstop : stop ≤ p.size) :
    Finds (conditionChain p stop n pc) fun chain => ∀ test ∈ chain, pc ≤ test.pc := by
  induction n generalizing pc with
  | zero => simp [conditionChain, finds_ok]
  | succ n ih =>
    unfold conditionChain
    rw [finds_bind]
    refine finds_testAt hpc hstop fun found hfound => ?_
    rw [finds_ite]
    refine ⟨fun h => ?_, fun _ => by simp [finds_pure]⟩
    have hlt := (hfound h).1
    simp only [finds_bind, finds_targetAt]
    refine ⟨by omega, by omega, (ih (by omega)).mono fun rest hrest => ?_⟩
    rw [finds_pure]
    intro test htest
    rcases List.mem_cons.1 htest with rfl | htest
    · exact le_refl pc
    · have := hrest test htest
      omega

variable (ha : a.InRange p) (hpc : a.start ≤ pc)

include ha hpc

theorem finds_guardedChain : FindsInner p a (guardedChain p a pc) := by
  have := ha.start_nonneg
  have := ha.stop_le
  unfold FindsInner guardedChain
  rw [finds_bind]
  refine (finds_candidatesFrom (by omega) (le_refl pc) ha.stop_le).mono fun c hc => ?_
  simp only [finds_bind, finds_ensure, finds_pure]
  intro _
  have hpayload : ∀ g ∈ c.guarded, Inner p a (a.allowing true g.payloadBegin g.secondaryPc) := by
    intro g hg
    have hin := hc.each g hg
    have := hin.primary_ge
    have := hin.primary_lt
    have := hin.secondary_lt
    exact inner_of_later ha (by show a.start < g.payloadBegin; omega) hin.payload_le
      (by show g.secondaryPc ≤ _; omega)
  have hpre : ∀ g ∈ c.guarded.drop 1, g.prefixBegin < g.primaryPc →
      Inner p a (a.allowing true g.prefixBegin g.primaryPc) := by
    intro g hg hlt
    have hin := hc.each g (List.mem_of_mem_drop hg)
    have := hc.behind g hg
    have := hin.primary_lt
    have := hin.payload_le
    have := hin.secondary_lt
    exact inner_of_later ha (by show a.start < g.prefixBegin; omega) hlt.le
      (by show g.primaryPc ≤ _; omega)
  have hfallback : Inner p a (a.allowing true c.fallbackBegin c.join) := by
    have := hc.fallback_gt
    have := hc.join_le
    exact inner_of_later ha (by show a.start < c.fallbackBegin; omega) hc.fallback_le
      (by show c.join ≤ _; omega)
  have hcandidate : ∀ g ∈ c.guarded, AllInner p a (candidateParts a (.condition pc) g) := by
    intro g hg
    simp [candidateParts, hpayload g hg]
  simp only [allInner_append, allInner_flatMap, allInner_line, allInner_nil, true_and, and_true,
    allInner_rangeUnlessEmpty, Activation.allowing_start, Activation.allowing_stop, List.cons_append]
  exact ⟨⟨fun g hg => hcandidate g (List.mem_of_mem_take hg),
    fun g hg => ⟨hpre g hg, hcandidate g (List.mem_of_mem_drop hg)⟩⟩, fun _ => hfallback⟩

theorem finds_separatedChain {chain : SeparatedChain}
    (hchain : ∀ entry ∈ chain.rest, EntryIn entry (pc + 2) a.stop) :
    FindsInner p a (separatedChain p a pc chain) := by
  have := ha.start_nonneg
  have := ha.stop_le
  unfold FindsInner separatedChain
  split
  case h_1 => trivial
  case h_2 gap last hlast =>
  have hend := hchain _ (List.mem_of_getLast? hlast)
  have := hend.start_ge
  have := hend.start_le
  have := hend.test_ge
  simp only [finds_bind, finds_ensure]
  dsimp only at *
  intro hjoin hcommon
  refine (finds_resumeOf (by omega) hjoin.1 hjoin.2 ha.stop_le).mono fun r hr => ?_
  have hgap : ∀ entry ∈ chain.rest, Inner p a (a.allowing true entry.1.start entry.1.stop) := by
    intro entry hentry
    have hin := hchain entry hentry
    have := hin.start_ge
    have := hin.test_ge
    have := hin.test_lt
    exact inner_of_later ha (by show a.start < entry.1.start; omega) hin.start_le
      (by show entry.1.stop ≤ _; omega)
  have hand : AllInner p a (orAndParts a (.condition pc) chain) := by
    simp only [orAndParts, allInner_append, allInner_flatMap, allInner_line, allInner_range,
      allInner_nil, and_true, List.cons_append, List.nil_append]
    exact ⟨hgap, allInner_map_line⟩
  have hor : AllInner p a (orParts a (.condition pc) chain last) := by
    simp only [orParts, allInner_append, allInner_flatMap, allInner_line, allInner_range,
      allInner_nil, and_true]
    exact ⟨fun entry hentry => hgap entry.2 (List.of_mem_zip hentry).2,
      allInner_map_line⟩
  have hbody (n : ℤ) (h : last.pc + 2 < n) (hn : n ≤ last.target) :
      Inner p a (a.allowing true (last.pc + 2) n) :=
    inner_of_later ha (by show a.start < last.pc + 2; omega) h.le (by show n ≤ _; omega)
  have helse : r.hasElse = true → Inner p a (a.allowing true last.target r.resume) := by
    intro h
    have := hr h
    exact inner_of_later ha (by show a.start < last.target; omega) this.1
      (by show r.resume ≤ _; omega)
  have hparts : AllInner p a ([line .doBlock, line (.localFlag (.condition pc))] ++
      (if (chain.first.target == last.pc + 2 &&
        (chain.rest.map fun entry => entry.2.target).all fun t => t == last.target) = true
        then orAndParts a (.condition pc) chain else orParts a (.condition pc) chain last) ++
      line (.ifThen (.flag (.condition pc))) :: rangeUnlessEmpty (a.allowing true (last.pc + 2)
        (if r.hasElse = true ∧ r.bodyEndsInReturn = false then last.target - 1 else last.target)) ++
      (if r.hasElse = true then
        line .elseDo :: rangeUnlessEmpty (a.allowing true last.target r.resume) else []) ++
      [line .endDo, line .endDo]) := by
    simp only [allInner_append, allInner_line, allInner_nil, and_true, List.cons_append,
      List.nil_append, allInner_rangeUnlessEmpty, Activation.allowing_start,
      Activation.allowing_stop]
    refine ⟨⟨?_, fun h => hbody _ h (by split_ifs <;> omega)⟩, ?_⟩
    · split_ifs
      · exact hand
      · exact hor
    · split_ifs with h
      · simpa using fun _ => helse h
      · exact allInner_nil
  rw [finds_both]
  refine ⟨fun _ => ?_, fun _ => ?_⟩
  · refine finds_callSeparatedBooleanTail (by omega) ha.stop_le hchain fun _ _ => ?_
    exact hparts
  · intro _
    exact hparts

theorem finds_andChain {chain : List ConditionJump} (hchain : ∀ test ∈ chain, pc ≤ test.pc) :
    FindsInner p a (andChain p a pc chain) := by
  have := ha.start_nonneg
  have := ha.stop_le
  unfold FindsInner andChain
  split
  case h_1 first last hfirst hlast =>
    have := hchain last (List.mem_of_getLast? hlast)
    simp only [finds_bind, finds_ensure, finds_both, finds_jumpTo, finds_pure]
    intro _
    have hrest (loopLatch : Bool) : loopLatch = false ∧ last.pc + 2 < first.target ∧
        first.target ≤ a.stop ∧ (chain.all fun test => test.target == first.target) = true →
        AllInner p a [line (.ifThen (.allOf (chain.map ConditionJump.pc))),
          range (a.allowing true (last.pc + 2) first.target), line .endDo] := by
      intro h
      simpa using inner_of_later (b := a.allowing true (last.pc + 2) first.target) ha
        (by show a.start < last.pc + 2; omega) (by show last.pc + 2 ≤ first.target; omega)
        (by show first.target ≤ _; omega)
    exact ⟨fun _ => ⟨by omega, by omega, hrest _⟩, fun _ h => hrest false ⟨rfl, h.2⟩⟩
  case h_2 => trivial

theorem finds_orChain {chain : List ConditionJump} (hchain : ∀ test ∈ chain, pc ≤ test.pc) :
    FindsInner p a (orChain a chain) := by
  have := ha.start_nonneg
  have := ha.stop_le
  refine finds_firstOf fun x hx => ?_
  obtain ⟨final, -, rfl⟩ := List.mem_map.1 hx
  cases hlast : chain[final]? with
  | none => trivial
  | some last =>
    have := hchain last (List.mem_of_getElem? hlast)
    unfold orChainAt
    simp only [finds_bind, finds_ensure, finds_pure]
    intro h
    simpa using inner_of_later (b := a.allowing true (last.pc + 2) last.target) ha
      (by show a.start < last.pc + 2; omega) (by show last.pc + 2 ≤ last.target; omega)
      (by show last.target ≤ _; omega)

end Finds

end ByteVeil.Lua51
