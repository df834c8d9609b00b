import ByteVeil.Lua51.LoopShapes

/-!
# Branches

The shapes of `emitRange` that are branches: a branch that leaves the range, a `TESTSET`, a test with
a jump backwards, and `if` with its `else` arm. An arm may be widened to where nested branches go on.

1. `allPathsReturn` walks the code depth first, and marks what it has come to.
2. The shapes, in the order of the source.
3. What is emitted lies inside.
-/

namespace ByteVeil.Lua51

open Fallible

/-! ## Paths that return -/

/-- `state`: what `visit` knows of an instruction. -/
inductive Visit
  | unseen | active | returns | leaves
  deriving DecidableEq

/-- The instructions from which all paths must return, if paths that go on from here may. -/
def pathsBehind (p : Proto) (stop pc : ℤ) : Search (Option (List ℤ)) := do
  let i ← codeAt p pc
  match i.op with
  | .TAILCALL | .RETURN => return some []
  | .JMP => return some [i.target]
  | .EQ | .LT | .LE | .TEST | .TESTSET =>
    let jumps ← both (pc + 1 < stop) (jumpAt p (pc + 1))
    if jumps = true then
      let target ← targetAt p (pc + 1)
      return some [pc + 2, target]
    else return some [pc + 1, pc + 2]
  | .LOADBOOL => return some [if i.c ≠ 0 then pc + 2 else pc + 1]
  | .FORLOOP | .FORPREP | .TFORLOOP => return none
  | _ => return some [pc + 1]

/-- Whether the visits of all these return, up to the first that does not. -/
def visitAll (visit : List Visit → ℤ → Search (Bool × List Visit)) :
    List Visit → List ℤ → Search (Bool × List Visit)
  | state, [] => .ok (true, state)
  | state, pc :: pcs => do
    let (returns, state) ← visit state pc
    if returns = true then visitAll visit state pcs else return (false, state)

/-- Whether the paths behind an instruction return. -/
def visitBehind (visit : List Visit → ℤ → Search (Bool × List Visit)) (p : Proto) (stop : ℤ)
    (state : List Visit) (pc : ℤ) : Search (Bool × List Visit) := do
  match ← pathsBehind p stop pc with
  | some pcs => visitAll visit state pcs
  | none => return (false, state)

/-- `visit`, of at most so many instructions inside each other. -/
def visitPaths (p : Proto) (start stop : ℤ) : ℕ → List Visit → ℤ → Search (Bool × List Visit)
  | 0, _, _ => .error .outside
  | n + 1, state, pc => do
    if pc < start ∨ stop ≤ pc then return (false, state)
    else
      let current ← fetch state (pc - start)
      match current with
      | .returns => return (true, state)
      | .active | .leaves => return (false, state)
      | .unseen =>
        let (returns, state) ← visitBehind (visitPaths p start stop n) p stop
          (state.set (pc - start).toNat .active) pc
        return (returns, state.set (pc - start).toNat (if returns = true then .returns else .leaves))

/-- `allPathsReturn`. -/
def allPathsReturn (p : Proto) (start stop : ℤ) : Search Bool := do
  if start < 0 ∨ stop ≤ start ∨ p.size < stop ∨ 32 < stop - start then return false
  else
    let size := (stop - start).toNat
    let (returns, _) ← visitPaths p start stop (size + 1) (List.replicate size .unseen) start
    return returns

/-! ## Branches out of the range -/

/-- A branch behind the end: the code there is emitted when all its paths return. -/
def escapingBranch (p : Proto) (a : Activation) (pc : ℤ) : Search Step := do
  let i ← codeAt p pc
  ensure (pc + 1 < a.stop)
  let jump ← codeAt p (pc + 1)
  ensure (jump.op = .JMP ∧ a.stop < jump.target ∧ isBranch i.op = true)
  let target := jump.target
  let terminalTail ← both (a.stop ≤ target ∧ target < p.size) (allPathsReturn p target p.size)
  let tail := if terminalTail = true then range (a.allowing false target p.size)
    else line (.escapes pc target)
  let inside := rangeUnlessEmpty (a.allowing false (pc + 2) a.stop)
  return {
    parts :=
      if i.op = .TESTSET then
        [line (.ifThen (.tested pc)), line (.assignTested pc), tail, line .elseDo] ++ inside ++
          [line .endDo]
      else line (.ifThen (.of pc)) :: inside ++ [line .elseDo, tail, line .endDo]
    next := none }

/-! ## `TESTSET`, `repeat` and `while` -/

/-- A `TESTSET` with a jump forwards. -/
def testsetValue (p : Proto) (a : Activation) (pc : ℤ) : Search Step := do
  let i ← codeAt p pc
  ensure (i.op = .TESTSET ∧ pc + 1 < a.stop)
  let jump ← codeAt p (pc + 1)
  ensure (jump.op = .JMP ∧ pc + 1 < jump.target)
  let join := jump.target
  return {
    parts := [line (.ifThen (.tested pc)), line (.assignTested pc)] ++
      (if pc + 2 < join then [line .elseDo, range (a.allowing true (pc + 2) join)] else []) ++
      [line .endDo]
    next := some join }

/-- A test with a jump backwards. -/
def repeatBackward (p : Proto) (a : Activation) (pc : ℤ) : Search Step := do
  let test ← testAt p a.stop pc
  ensure (test = true)
  let target ← targetAt p (pc + 1)
  ensure (a.start ≤ target ∧ target < pc)
  return {
    parts := [line .repeatDo, range { start := target, stop := pc, loopBreakTarget := pc + 2 },
      line (.untilDo (.of pc))]
    next := some (pc + 2) }

/-- A test in front of a body that jumps back to it. -/
def whileLoop (p : Proto) (a : Activation) (pc : ℤ) : Search Step := do
  let test ← testAt p a.stop pc
  ensure (test = true)
  let exit ← targetAt p (pc + 1)
  ensure (pc + 1 < exit ∧ exit ≤ a.stop ∧ pc + 2 < exit)
  let back ← jumpTo p (exit - 1) pc
  ensure (back = true)
  return {
    parts := [line (.whileDo (.of pc)),
      range { start := pc + 2, stop := exit - 1, loopBreakTarget := exit, loopContinueTarget := pc },
      line .endDo]
    next := some exit }

/-! ## `if` -/

/-- Where the `then` arm ends, and where both arms join. -/
structure Arms where
  trueEnd : ℤ
  join : ℤ

/-- `hasNestedSharedBranch` and `exitsOnlyAtJoin`: a branch in the arm leads to the join or to the
`else` arm, and jumps leave the arm only to the join. -/
def sharesJoin (p : Proto) (trueBegin falseBegin join : ℤ) : Search Bool := do
  let leaves ← anyOf (fun branch => do
    let nested ← codeAt p branch
    return nested.op == .JMP && decide (falseBegin < nested.target) && nested.target != join)
    (interval trueBegin falseBegin)
  both (leaves = false) (anyOf (fun branch => do
    let nested ← codeAt p branch
    both (branch + 1 < falseBegin ∧ isBranch nested.op = true) do
      let jump ← codeAt p (branch + 1)
      return jump.op == .JMP && (jump.target == join || jump.target == falseBegin))
    (interval trueBegin falseBegin))

/-- The arms as the jump at the end of the `then` arm has them. -/
def ownArms (p : Proto) (trueBegin falseBegin : ℤ) : Search Arms := do
  if trueBegin ≤ falseBegin - 1 then
    let tailJump ← codeAt p (falseBegin - 1)
    if tailJump.op = .JMP then
      let predicate ← both (trueBegin ≤ falseBegin - 2) do
        let i ← codeAt p (falseBegin - 2)
        return isBranch i.op
      let condition ← both (trueBegin ≤ falseBegin - 2) do
        let i ← codeAt p (falseBegin - 2)
        return isCondition i.op
      let predicateOwnsTailJump := predicate && decide (falseBegin ≤ tailJump.target)
      let repeatLatch := condition &&
        decide (trueBegin ≤ tailJump.target ∧ tailJump.target < falseBegin - 2)
      if falseBegin < tailJump.target then
        let join := tailJump.target
        let shares ← sharesJoin p trueBegin falseBegin join
        return ⟨if predicateOwnsTailJump = true ∨ shares = true then join else falseBegin - 1, join⟩
      else if tailJump.target = falseBegin ∧ repeatLatch = false then
        return ⟨if predicateOwnsTailJump = true then falseBegin else falseBegin - 1, falseBegin⟩
      else return ⟨falseBegin, falseBegin⟩
    else return ⟨falseBegin, falseBegin⟩
  else return ⟨falseBegin, falseBegin⟩

/-- The one target of a list. -/
def sharedTarget : List ℤ → Option ℤ
  | [] => none
  | target :: targets => if (targets.all fun t => t == target) = true then some target else none

/-- Where an instruction of the `then` arm leads. -/
def armTarget (p : Proto) (falseBegin branch : ℤ) : Search ℤ := do
  let i ← codeAt p branch
  if i.op = .JMP then return i.target
  else
    let jumps ← both (isBranch i.op = true ∧ branch + 1 < falseBegin) (jumpAt p (branch + 1))
    if jumps = true then targetAt p (branch + 1)
    else return if i.op = .LOADBOOL ∧ i.c ≠ 0 then i.target else -1

/-- `validSharedElse`: the `then` arm leads behind straight-line code, the `else` arm, which nothing
else leads to. -/
def sharedElse (p : Proto) (stop pc trueBegin falseBegin : ℤ) : Search ℤ := do
  let targets ← (interval trueBegin falseBegin).mapM (armTarget p falseBegin)
  ensure ((targets.all fun target => target != falseBegin) = true)
  match sharedTarget (targets.filter fun target => falseBegin < target) with
  | none => .error .absent
  | some sharedJoin =>
    ensure (falseBegin < sharedJoin ∧ sharedJoin < stop)
    let broken ← anyOf (fun scan => do
      let i ← codeAt p scan
      return !guardedGapSafe i) (interval falseBegin sharedJoin)
    ensure (broken = false ∧
      ((interval (falseBegin + 1) sharedJoin).any fun target => hasControlEntryAt p target.toNat) =
        false ∧
      (p.code.any fun edge => decide ((edge.pc < pc ∨ sharedJoin ≤ edge.pc) ∧
        falseBegin ≤ edgeTarget p edge ∧ edgeTarget p edge ≤ sharedJoin)) = false)
    return sharedJoin

/-- `validSharedContinuation`: the `else` arm leads over code that the `then` arm jumps to. -/
def sharedContinuation (p : Proto) (stop pc falseBegin join : ℤ) : Search ℤ := do
  let targets ← (interval falseBegin join).mapM fun branch => do
    let i ← codeAt p branch
    return edgeTarget p i
  match sharedTarget (targets.filter fun target => join < target) with
  | none => .error .absent
  | some sharedJoin =>
    ensure (join < sharedJoin ∧ sharedJoin < stop ∧
      (p.code.any fun edge =>
        let target := edgeTarget p edge
        let withinExpandedIf := decide (pc ≤ edge.pc ∧ edge.pc < sharedJoin)
        !withinExpandedIf &&
          (decide (falseBegin ≤ target ∧ target < sharedJoin ∧
              ¬(edge.pc = pc + 1 ∧ target = falseBegin)) ||
            decide (join ≤ target ∧ target < sharedJoin))) = false)
    return sharedJoin

/-- The arms, widened to where nested branches go on. -/
def armsOf (p : Proto) (stop pc falseBegin : ℤ) : Search Arms := do
  let own ← ownArms p (pc + 2) falseBegin
  let tail ← attempt do
    ensure (own.join = falseBegin ∧ falseBegin < stop)
    sharedElse p stop pc (pc + 2) falseBegin
  let arms := tail.elim own fun join => ⟨join, join⟩
  let tail ← attempt do
    ensure (falseBegin < arms.join ∧ arms.join < stop)
    sharedContinuation p stop pc falseBegin arms.join
  return tail.elim arms fun join => ⟨join, join⟩

/-- A test in front of a `then` arm, and an `else` arm where there is one. -/
def ifElse (p : Proto) (a : Activation) (pc : ℤ) : Search Step := do
  let test ← testAt p a.stop pc
  ensure (test = true)
  let falseBegin ← targetAt p (pc + 1)
  ensure (pc + 1 < falseBegin)
  let arms ← armsOf p a.stop pc falseBegin
  return {
    parts := [line (.ifThen (.of pc)), range (a.allowing true (pc + 2) arms.trueEnd)] ++
      (if falseBegin < arms.join then
        [line .elseDo, range (a.allowing true falseBegin arms.join)]
      else []) ++
      [line .endDo]
    next := some arms.join }

/-! ## Jumps -/

/-- A jump out of the loop. -/
def breakJump (p : Proto) (a : Activation) (pc : ℤ) : Search Step := do
  let i ← codeAt p pc
  ensure (i.op = .JMP ∧ 0 ≤ a.loopBreakTarget ∧ i.target = a.loopBreakTarget)
  return { parts := setBreakFlag a ++ [line .breakLoop], next := none }

/-- A jump that goes on with the loop. -/
def continueJump (p : Proto) (a : Activation) (pc : ℤ) : Search Step := do
  let i ← codeAt p pc
  ensure (i.op = .JMP ∧ 0 ≤ a.loopContinueTarget ∧ i.target = a.loopContinueTarget)
  return { parts := if a.loopBreakFlag.isSome = true then [line .breakLoop] else [], next := none }

/-- A jump is followed. -/
def followJump (p : Proto) (pc : ℤ) : Search Step := do
  let i ← codeAt p pc
  ensure (i.op = .JMP)
  return { parts := [], next := some (if 0 ≤ i.target then i.target else pc + 1) }

/-! ## What is emitted lies inside -/

section Finds

variable {p : Proto} {a : Activation} {pc start stop : ℤ}

theorem finds_pathsBehind {P : Option (List ℤ) → Prop} (hpc : 0 ≤ pc) (hlt : pc < stop)
    (hstop : stop ≤ p.size) (hP : ∀ paths, P paths) : Finds (pathsBehind p stop pc) P := by
  unfold pathsBehind
  rw [finds_bind, finds_codeAt]
  refine ⟨hpc, by omega, ?_⟩
  cases (p.at pc).op
  case EQ | LT | LE | TEST | TESTSET =>
    simp only [finds_bind, finds_both, finds_jumpAt, finds_ite, finds_targetAt, finds_pure]
    exact ⟨fun h => ⟨by omega, by omega, fun _ => ⟨by omega, by omega, hP _⟩, fun _ => hP _⟩,
      fun _ => ⟨fun h => (by cases h), fun _ => hP _⟩⟩
  all_goals exact hP _

/-- What the walk keeps: as many marks, and none is taken away. -/
def Visit.Kept (state : List Visit) (result : Bool × List Visit) : Prop :=
  result.2.length = state.length ∧ result.2.count .unseen ≤ state.count .unseen

theorem finds_visitAll {visit : List Visit → ℤ → Search (Bool × List Visit)} {n : ℕ}
    (hvisit : ∀ state pc, state.length = (stop - start).toNat → state.count .unseen < n →
      Finds (visit state pc) (Visit.Kept state))
    {pcs : List ℤ} {state : List Visit} (hlength : state.length = (stop - start).toNat)
    (hcount : state.count .unseen < n) : Finds (visitAll visit state pcs) (Visit.Kept state) := by
  induction pcs generalizing state with
  | nil => exact ⟨rfl, le_rfl⟩
  | cons pc pcs ih =>
    unfold visitAll
    rw [finds_bind]
    refine (hvisit state pc hlength hcount).mono fun result hresult => ?_
    dsimp only
    rw [finds_ite]
    refine ⟨fun _ => ?_, fun _ => hresult⟩
    refine (ih (hresult.1.trans hlength) (lt_of_le_of_lt hresult.2 hcount)).mono fun last hlast => ?_
    exact ⟨hlast.1.trans hresult.1, hlast.2.trans hresult.2⟩

/-- The walk goes no deeper than there are instructions it has not come to. -/
theorem finds_visitPaths {n : ℕ} {state : List Visit} (hstart : 0 ≤ start) (hstop : stop ≤ p.size)
    (hlength : state.length = (stop - start).toNat) (hcount : state.count .unseen < n) :
    Finds (visitPaths p start stop n state pc) (Visit.Kept state) := by
  induction n generalizing state pc with
  | zero => omega
  | succ n ih =>
    unfold visitPaths
    rw [finds_ite]
    refine ⟨fun _ => ⟨rfl, le_rfl⟩, fun hin => ?_⟩
    have : Inhabited Visit := ⟨.unseen⟩
    rw [finds_bind, finds_fetch]
    have hk : (pc - start).toNat < state.length := by omega
    refine ⟨by omega, by omega, ?_⟩
    rw [List.getD_eq_getElem _ _ hk]
    cases hcurrent : state[(pc - start).toNat] with
    | returns | active | leaves => exact ⟨rfl, le_rfl⟩
    | unseen =>
      -- the mark that is set here is the one the bound gives up
      have hless : (state.set (pc - start).toNat .active).count .unseen + 1 =
          state.count .unseen := by
        have : 0 < state.count .unseen := List.count_pos_iff.2 (hcurrent ▸ List.getElem_mem hk)
        rw [List.count_set hk, hcurrent]
        simp only [beq_self_eq_true, if_true]
        rw [if_neg (by decide)]
        omega
      have hbehind : Finds (visitBehind (visitPaths p start stop n) p stop
          (state.set (pc - start).toNat .active) pc)
          (Visit.Kept (state.set (pc - start).toNat .active)) := by
        unfold visitBehind
        rw [finds_bind]
        refine finds_pathsBehind (by omega) (by omega) hstop fun paths => ?_
        cases paths with
        | none => exact ⟨rfl, le_rfl⟩
        | some pcs =>
          exact finds_visitAll (fun _ _ h₁ h₂ => ih h₁ h₂) (by simpa using hlength) (by omega)
      dsimp only
      rw [finds_bind]
      refine hbehind.mono fun result hresult => ?_
      have hsize : result.2.length = state.length := by simpa using hresult.1
      have hmark (v : Visit) (hv : (v == .unseen) = false) :
          Visit.Kept state (result.1, result.2.set (pc - start).toNat v) := by
        refine ⟨by simpa using hsize, ?_⟩
        have := hresult.2
        dsimp only
        rw [List.count_set (by omega), hv]
        simp only [Bool.false_eq_true, if_false]
        omega
      exact hmark _ (by cases result.1 <;> rfl)

theorem finds_allPathsReturn {P : Bool → Prop} (hP : ∀ b, P b) :
    Finds (allPathsReturn p start stop) P := by
  unfold allPathsReturn
  rw [finds_ite]
  refine ⟨fun _ => hP false, fun h => ?_⟩
  rw [finds_bind]
  refine (finds_visitPaths (by omega) (by omega) (by simp) ?_).mono fun result _ => hP _
  simp

/-- The arms lie in the code. -/
structure Arms.In (arms : Arms) (p : Proto) (trueBegin falseBegin : ℤ) : Prop where
  trueEnd_ge : trueBegin ≤ arms.trueEnd
  trueEnd_le : arms.trueEnd ≤ p.size
  join_ge : falseBegin ≤ arms.join
  join_le : arms.join ≤ p.size

section Arms

variable {trueBegin falseBegin join : ℤ} (htrue : 0 ≤ trueBegin) (hle : trueBegin ≤ falseBegin)
  (hfalse : falseBegin ≤ p.size)

include htrue hfalse

theorem finds_sharesJoin {P : Bool → Prop} (hP : ∀ b, P b) :
    Finds (sharesJoin p trueBegin falseBegin join) P := by
  unfold sharesJoin
  rw [finds_bind]
  refine finds_anyInstr htrue hfalse fun leaves => ?_
  rw [finds_both]
  refine ⟨fun _ => finds_anyOf (fun branch hbranch => ?_) hP, fun _ => hP false⟩
  rw [mem_interval] at hbranch
  simp only [finds_bind, finds_codeAt, finds_both, finds_pure, implies_true, and_true]
  omega

include hle

theorem finds_ownArms (hjumps : JumpsInside p) : Finds (ownArms p trueBegin falseBegin) fun arms =>
    arms.In p trueBegin falseBegin := by
  have hown : Arms.In ⟨falseBegin, falseBegin⟩ p trueBegin falseBegin := ⟨hle, hfalse, le_rfl, hfalse⟩
  unfold ownArms
  rw [finds_ite]
  refine ⟨fun hlt => ?_, fun _ => hown⟩
  rw [finds_bind, finds_codeAt]
  refine ⟨by omega, by omega, ?_⟩
  rw [finds_ite]
  refine ⟨fun hjump => ?_, fun _ => hown⟩
  have htarget := (hjumps (falseBegin - 1) (by omega) (by omega) hjump).2
  have hpredicate (test : Op → Bool) : Finds (both (trueBegin ≤ falseBegin - 2) do
      let i ← codeAt p (falseBegin - 2)
      return test i.op) fun _ => True := by
    simp only [finds_both, finds_bind, finds_codeAt, finds_pure, implies_true, and_true]
    omega
  rw [finds_bind]
  refine (hpredicate isBranch).mono fun predicate _ => ?_
  rw [finds_bind]
  refine (hpredicate isCondition).mono fun condition _ => ?_
  dsimp only
  rw [finds_ite]
  refine ⟨fun hforward => ?_, fun _ => ?_⟩
  · rw [finds_bind]
    refine finds_sharesJoin htrue hfalse fun shares => ?_
    rw [finds_pure]
    refine ⟨?_, ?_, hforward.le, htarget⟩ <;> dsimp only <;> split_ifs <;> omega
  · rw [finds_ite]
    refine ⟨fun _ => ?_, fun _ => hown⟩
    rw [finds_pure]
    refine ⟨?_, ?_, le_rfl, hfalse⟩ <;> dsimp only <;> split_ifs <;> omega

omit htrue hle hfalse in
theorem finds_armTarget {branch : ℤ} (hbranch : 0 ≤ branch) (hlt : branch < falseBegin)
    (hfalse : falseBegin ≤ p.size) : Finds (armTarget p falseBegin branch) fun _ => True := by
  unfold armTarget
  simp only [finds_bind, finds_codeAt, finds_ite, finds_both, finds_jumpAt, finds_targetAt,
    finds_pure, implies_true, and_true, true_and]
  refine ⟨by omega, by omega, fun _ => ⟨fun h => ⟨by omega, by omega, by omega⟩, fun _ h => ?_⟩⟩
  cases h

theorem finds_sharedElse (hstop : stop ≤ p.size) :
    Finds (sharedElse p stop pc trueBegin falseBegin) fun join => falseBegin ≤ join ∧ join ≤ stop := by
  unfold sharedElse
  rw [finds_bind]
  refine (finds_mapM (Q := fun _ => True) fun branch hbranch => ?_).mono fun targets _ => ?_
  · rw [mem_interval] at hbranch
    exact finds_armTarget (by omega) hbranch.2 hfalse
  rw [finds_bind, finds_ensure]
  intro _
  cases sharedTarget (targets.filter fun target => falseBegin < target) with
  | none => trivial
  | some sharedJoin =>
    simp only [finds_bind, finds_ensure]
    intro h
    refine finds_anyInstr (by omega) (by omega) fun _ _ => ?_
    exact ⟨h.1.le, h.2.le⟩

omit hfalse in
theorem finds_sharedContinuation (hjoin : join ≤ p.size) :
    Finds (sharedContinuation p stop pc falseBegin join) fun next => join ≤ next ∧ next ≤ stop := by
  unfold sharedContinuation
  rw [finds_bind]
  refine (finds_mapM (Q := fun _ => True) fun branch hbranch => ?_).mono fun targets _ => ?_
  · rw [mem_interval] at hbranch
    rw [finds_bind, finds_codeAt]
    exact ⟨by omega, by omega, trivial⟩
  cases sharedTarget (targets.filter fun target => join < target) with
  | none => trivial
  | some sharedJoin =>
    simp only [finds_bind, finds_ensure]
    exact fun h => ⟨h.1.le, h.2.1.le⟩

end Arms

theorem finds_armsOf {falseBegin : ℤ} (hjumps : JumpsInside p) (hpc : 0 ≤ pc)
    (hlt : pc + 1 < falseBegin) (hfalse : falseBegin ≤ p.size) (hstop : stop ≤ p.size) :
    Finds (armsOf p stop pc falseBegin) fun arms => arms.In p (pc + 2) falseBegin := by
  have hle : pc + 2 ≤ falseBegin := by omega
  unfold armsOf
  rw [finds_bind]
  refine (finds_ownArms (by omega) hle hfalse hjumps).mono fun own hown => ?_
  have hwider (join : ℤ) (h : falseBegin ≤ join ∧ join ≤ stop) :
      Arms.In ⟨join, join⟩ p (pc + 2) falseBegin :=
    ⟨by dsimp only; omega, by dsimp only; omega, h.1, by dsimp only; omega⟩
  have hcontinue (arms : Arms) (h : arms.In p (pc + 2) falseBegin) : Finds (do
      let tail ← attempt do
        ensure (falseBegin < arms.join ∧ arms.join < stop)
        sharedContinuation p stop pc falseBegin arms.join
      return tail.elim arms fun join => (⟨join, join⟩ : Arms)) fun arms =>
        arms.In p (pc + 2) falseBegin := by
    rw [finds_bind, finds_attempt]
    refine ⟨?_, fun _ => h⟩
    rw [finds_bind, finds_ensure]
    intro hlt
    refine (finds_sharedContinuation (by omega) hle h.join_le).mono fun join hjoin => ?_
    exact hwider join ⟨by omega, hjoin.2⟩
  dsimp only
  rw [finds_bind, finds_attempt]
  refine ⟨?_, fun _ => hcontinue own hown⟩
  rw [finds_bind, finds_ensure]
  intro _
  exact (finds_sharedElse (by omega) hle hfalse hstop).mono fun join hjoin =>
    hcontinue _ (hwider join hjoin)

variable (ha : a.InRange p) (hpc : a.start ≤ pc)

include ha hpc

theorem finds_escapingBranch (hlt : pc < a.stop) : FindsInner p a (escapingBranch p a pc) := by
  have := ha.start_nonneg
  have := ha.stop_le
  unfold FindsInner escapingBranch
  simp only [finds_bind, finds_codeAt, finds_ensure]
  refine ⟨by omega, by omega, fun hnext => ⟨by omega, by omega, fun h => ?_⟩⟩
  have hinside : AllInner p a (rangeUnlessEmpty (a.allowing false (pc + 2) a.stop)) := by
    rw [allInner_rangeUnlessEmpty]
    exact fun h => inner_of_later ha (by show a.start < pc + 2; omega) h.le ha.stop_le
  have hparts (tail : RangePart) (htail : AllInner p a [tail]) : AllInner p a
      (if (p.at pc).op = .TESTSET then
        [line (.ifThen (.tested pc)), line (.assignTested pc), tail, line .elseDo] ++
          rangeUnlessEmpty (a.allowing false (pc + 2) a.stop) ++ [line .endDo]
      else line (.ifThen (.of pc)) :: rangeUnlessEmpty (a.allowing false (pc + 2) a.stop) ++
        [line .elseDo, tail, line .endDo]) := by
    have hend (parts : List RangePart) : AllInner p a (tail :: parts) ↔ AllInner p a parts :=
      allInner_append.trans (and_iff_right htail)
    simp [allInner_ite, hend, hinside]
  have hescapes : AllInner p a [line (.escapes pc (p.at (pc + 1)).target)] := by simp
  rw [finds_both]
  refine ⟨fun htail => finds_allPathsReturn fun terminalTail => ?_, fun _ => hparts _ hescapes⟩
  rw [finds_pure]
  have htarget : AllInner p a [range (a.allowing false (p.at (pc + 1)).target p.size)] := by
    simpa using inner_of_later (b := a.allowing false (p.at (pc + 1)).target p.size) ha
      (by show a.start < (p.at (pc + 1)).target; omega) htail.2.le (le_refl _)
  cases terminalTail with
  | true => exact hparts _ htarget
  | false => exact hparts _ hescapes

theorem finds_testsetValue (hjumps : JumpsInside p) (hlt : pc < a.stop) :
    FindsInner p a (testsetValue p a pc) := by
  have := ha.start_nonneg
  have := ha.stop_le
  unfold FindsInner testsetValue
  simp only [finds_bind, finds_codeAt, finds_ensure, finds_pure]
  refine ⟨by omega, by omega, fun hset => ⟨by omega, by omega, fun hjump => ?_⟩⟩
  have hle := (hjumps (pc + 1) (by omega) (by omega) hjump.1).2
  simp only [allInner_append, allInner_ite, allInner_line, allInner_range, allInner_nil, and_true,
    true_and, implies_true]
  exact fun h => inner_of_later ha (by show a.start < pc + 2; omega) h.le hle

theorem finds_repeatBackward : FindsInner p a (repeatBackward p a pc) := by
  have := ha.start_nonneg
  have := ha.stop_le
  unfold FindsInner repeatBackward
  rw [finds_bind]
  refine finds_testAt (by omega) ha.stop_le fun test htest => ?_
  simp only [finds_bind, finds_ensure, finds_targetAt, finds_pure]
  intro h
  have := (htest h).1
  refine ⟨by omega, by omega, fun htarget => ?_⟩
  have hinner : Inner p a
      { start := (p.at (pc + 1)).target, stop := pc, loopBreakTarget := pc + 2 } := by
    refine ⟨⟨by dsimp only; omega, by dsimp only; omega, by dsimp only; omega⟩, ?_⟩
    unfold Activation.Smaller
    dsimp only
    omega
  simpa using hinner

theorem finds_whileLoop : FindsInner p a (whileLoop p a pc) := by
  have := ha.start_nonneg
  have := ha.stop_le
  unfold FindsInner whileLoop
  rw [finds_bind]
  refine finds_testAt (by omega) ha.stop_le fun test htest => ?_
  simp only [finds_bind, finds_ensure, finds_targetAt, finds_jumpTo, finds_pure]
  intro h
  have := (htest h).1
  refine ⟨by omega, by omega, fun hexit => ⟨by omega, by omega, fun _ => ?_⟩⟩
  have hinner : Inner p a
      { start := pc + 2, stop := (p.at (pc + 1)).target - 1,
        loopBreakTarget := (p.at (pc + 1)).target, loopContinueTarget := pc } :=
    inner_of_later ha (by dsimp only; omega) (by dsimp only; omega) (by dsimp only; omega)
  simpa using hinner

theorem finds_ifElse (hjumps : JumpsInside p) : FindsInner p a (ifElse p a pc) := by
  have := ha.start_nonneg
  have := ha.stop_le
  unfold FindsInner ifElse
  rw [finds_bind]
  refine finds_testAt (by omega) ha.stop_le fun test htest => ?_
  simp only [finds_bind, finds_ensure, finds_targetAt]
  intro h
  obtain ⟨hnext, hjump⟩ := htest h
  have hfalse := (hjumps (pc + 1) (by omega) (by omega) hjump).2
  refine ⟨by omega, by omega, fun hforward => ?_⟩
  refine (finds_armsOf hjumps (by omega) hforward hfalse ha.stop_le).mono fun arms harms => ?_
  have htrue : Inner p a (a.allowing true (pc + 2) arms.trueEnd) :=
    inner_of_later ha (by show a.start < pc + 2; omega) harms.trueEnd_ge harms.trueEnd_le
  have helse : Inner p a (a.allowing true (p.at (pc + 1)).target arms.join) :=
    inner_of_later ha (by show a.start < (p.at (pc + 1)).target; omega) harms.join_ge harms.join_le
  simp [finds_pure, allInner_ite, htrue, helse]

omit ha hpc in
theorem finds_breakJump (hpc : 0 ≤ pc) (hlt : pc < p.size) : FindsInner p a (breakJump p a pc) := by
  unfold FindsInner breakJump
  simp only [finds_bind, finds_codeAt, finds_ensure, finds_pure]
  exact ⟨hpc, hlt, fun _ => by simp⟩

omit ha hpc in
theorem finds_continueJump (hpc : 0 ≤ pc) (hlt : pc < p.size) :
    FindsInner p a (continueJump p a pc) := by
  unfold FindsInner continueJump
  simp only [finds_bind, finds_codeAt, finds_ensure, finds_pure]
  exact ⟨hpc, hlt, fun _ => by simp [allInner_ite]⟩

omit ha hpc in
theorem finds_followJump (hpc : 0 ≤ pc) (hlt : pc < p.size) : FindsInner p a (followJump p pc) := by
  unfold FindsInner followJump
  simp only [finds_bind, finds_codeAt, finds_ensure, finds_pure]
  exact ⟨hpc, hlt, fun _ => allInner_nil⟩

end Finds

end ByteVeil.Lua51
