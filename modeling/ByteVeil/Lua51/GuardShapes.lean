import ByteVeil.Lua51.Ranges

/-!
# Guards

The shapes of `emitRange` in which several tests guard one arm: checks that return together, checks
in front of a body that returns, and a comparison whose truth value is stored or returned.
-/

namespace ByteVeil.Lua51

open Fallible

/-! ## Chains of guards -/

/-- A test that guards what follows, where its jump leads, and the straight-line code behind it. -/
structure Guard where
  pc : ℤ
  target : ℤ
  gapBegin : ℤ
  gapEnd : ℤ

/-- The end of the straight-line code from `pc` on, of at most sixteen instructions. -/
def safeGapEnd (p : Proto) (stop pc : ℤ) : Search ℤ :=
  skipWhile (fun next => both (next < stop) do
    let i ← codeAt p next
    return guardedGapSafe i) 16 pc

/-- A test at `pc` whose jump leads to where the chain goes on. -/
def guardAt (p : Proto) (stop : ℤ) (joins : ℤ → Bool) (pc : ℤ) : Search Bool := do
  let test ← testAt p stop pc
  both (test = true) do
    let target ← targetAt p (pc + 1)
    return joins target

/-- The guards from `pc` on, at most so many; further ones must join the chain. -/
def guardsFrom (p : Proto) (stop : ℤ) (joins : ℤ → Bool) : ℕ → ℤ → Search (List Guard)
  | 0, _ => .ok []
  | n + 1, pc => do
    let test ← testAt p stop pc
    if test = true then
      let target ← targetAt p (pc + 1)
      let next ← safeGapEnd p stop (pc + 2)
      let more ← guardAt p stop joins next
      if more = true then
        let guards ← guardsFrom p stop joins n next
        return ⟨pc, target, pc + 2, next⟩ :: guards
      else return [⟨pc, target, pc + 2, pc + 2⟩]
    else return []

/-- The first, the ones between and the last of at least two guards. -/
def firstAndLast (guards : List Guard) : Search (Guard × Guard) :=
  match guards.head?, guards.getLast? with
  | some first, some last => if 2 ≤ guards.length then .ok (first, last) else .error .absent
  | _, _ => .error .absent

/-- The code in a guard's gap. -/
def gapRange (a : Activation) (guard : Guard) : List RangePart :=
  rangeUnlessEmpty (a.within guard.gapBegin guard.gapEnd)

/-! ## Checks that return together -/

/-- What the arm that returns must not hold. -/
def breaksReturnArm (i : Instr) : Bool :=
  match i.op with
  | .JMP | .EQ | .LT | .LE | .TEST | .TESTSET | .TAILCALL | .RETURN | .FORLOOP | .FORPREP
  | .TFORLOOP | .CLOSE | .CLOSURE => true
  | .LOADBOOL => i.c != 0
  | _ => false

/-- An edge enters an arm from in front of the guards, or leaves the function's tail. -/
def crossesArms (p : Proto) (pc failureBegin successBegin stop : ℤ) (edge : Instr) : Bool :=
  let target := edgeTarget p edge
  decide (edge.pc < pc ∧ failureBegin ≤ target ∧ target < stop) ||
    decide (successBegin ≤ edge.pc ∧ 0 ≤ target ∧ (target < successBegin ∨ stop < target))

/-- Several tests whose jumps lead to one short return, which the last one steps over. -/
def sharedReturnGuards (p : Proto) (a : Activation) (pc : ℤ) : Search Step := do
  let test ← testAt p a.stop pc
  ensure (test = true ∧ a.stop = p.size)
  let guards ← guardsFrom p a.stop (fun _ => true) 8 pc
  let (first, last) ← firstAndLast guards
  let failureBegin := first.target
  let successBegin := last.target
  ensure (last.pc + 1 < failureBegin ∧ failureBegin < successBegin ∧ successBegin < a.stop ∧
    last.pc + 2 = failureBegin ∧ (guards.dropLast.all fun guard => guard.target == failureBegin) = true)
  let returns ← codeAt p (successBegin - 1)
  ensure (returns.op = .RETURN ∧ successBegin - failureBegin ≤ 32)
  let broken ← anyOf (fun scan => do
    let i ← codeAt p scan
    return breaksReturnArm i) (interval failureBegin (successBegin - 1))
  ensure (broken = false ∧
    (p.code.any fun edge => crossesArms p pc failureBegin successBegin a.stop edge) = false)
  let failure := range (a.allowing false failureBegin successBegin)
  return {
    parts :=
      (guards.dropLast.flatMap fun guard => line (.ifThen (.of guard.pc)) :: gapRange a guard) ++
      gapRange a last ++
      [line (.ifThen (.of last.pc)), failure, line .elseDo, range (a.within successBegin a.stop),
        line .endDo] ++
      guards.dropLast.flatMap fun _ => [line .elseDo, failure, line .endDo]
    next := some a.stop }

/-! ## Checks in front of a body that returns -/

/-- The jump of the test at `scan` does not lead on inside the arm. -/
def testLeaves (p : Proto) (join scan : ℤ) : Search Bool := do
  if join ≤ scan + 1 then return true
  else
    let jump ← codeAt p (scan + 1)
    return jump.op != .JMP || decide (jump.target ≤ scan + 1 ∨ join < jump.target)

/-- What the body must not hold. -/
def breaksBody (p : Proto) (join scan : ℤ) : Search Bool := do
  let i ← codeAt p scan
  match i.op with
  | .JMP => return decide (i.target ≤ scan ∨ join < i.target)
  | .EQ | .LT | .LE | .TEST | .TESTSET => testLeaves p join scan
  | .TAILCALL | .RETURN | .FORLOOP | .FORPREP | .TFORLOOP | .CLOSE | .CLOSURE => return true
  | .LOADBOOL => return i.c != 0
  | _ => return false

/-- `hasExternalEntry`. -/
def hasExternalEntry (p : Proto) (start bodyBegin join target : ℤ) : Bool :=
  p.code.any fun i => edgeTarget p i == target &&
    !decide ((i.pc : ℤ) < start ∨ (bodyBegin ≤ i.pc ∧ (i.pc : ℤ) < join))

/-- Several tests whose jumps all lead behind a body that returns. -/
def sharedBodyGuards (p : Proto) (a : Activation) (pc : ℤ) : Search Step := do
  let test ← testAt p a.stop pc
  ensure (test = true)
  let join ← targetAt p (pc + 1)
  let guards ← guardsFrom p a.stop (fun target => target == join) 8 pc
  let (_, last) ← firstAndLast guards
  let bodyBegin := last.pc + 2
  ensure (bodyBegin < join ∧ join ≤ a.stop ∧ join - bodyBegin ≤ 64)
  let returns ← codeAt p (join - 1)
  ensure (returns.op = .RETURN ∧ (guards.all fun guard => guard.target == join) = true)
  let broken ← anyOf (breaksBody p join) (interval bodyBegin (join - 1))
  let entered := hasExternalEntry p a.start bodyBegin join
  ensure (broken = false ∧
    (guards.any fun guard => (guard.pc != pc && entered guard.pc) ||
      (interval guard.gapBegin guard.gapEnd).any entered) = false ∧
    (interval bodyBegin join).any entered = false)
  return {
    parts :=
      (guards.flatMap fun guard => line (.ifThen (.of guard.pc)) :: gapRange a guard) ++
      range (a.allowing false bodyBegin join) :: guards.flatMap fun _ => [line .endDo]
    next := some join }

/-! ## Truth values -/

/-- The two `LOADBOOL`s that turn a comparison into a truth value. -/
def booleanPair (p : Proto) (pc : ℤ) : Search (Instr × Instr) := do
  let skips ← codeAt p pc
  ensure (skips.op = .LOADBOOL ∧ skips.c = 1)
  let plain ← codeAt p (pc + 1)
  ensure (plain.op = .LOADBOOL ∧ plain.c = 0 ∧ skips.a = plain.a ∧ skips.b ≠ plain.b)
  return (skips, plain)

/-- Where the truth value at `joinPc` is returned. -/
def returnBehind (p : Proto) (stop joinPc : ℤ) : Search ℤ := do
  let join ← codeAt p joinPc
  if join.op = .RETURN then return joinPc
  else
    ensure (join.op = .JMP ∧ joinPc < join.target ∧ join.target < stop)
    let i ← codeAt p join.target
    ensure (i.op = .RETURN)
    return join.target

/-- A comparison whose truth value is stored and returned. -/
def booleanValue (p : Proto) (a : Activation) (pc : ℤ) : Search Step := do
  let i ← codeAt p pc
  ensure (isCondition i.op = true ∧ pc + 4 ≤ a.stop ∧ pc + 4 < p.size)
  let jump ← jumpTo p (pc + 1) (pc + 3)
  ensure (jump = true)
  let (fallthroughValue, _) ← booleanPair p (pc + 2)
  let returnPc ← returnBehind p a.stop (pc + 4)
  let returns ← codeAt p returnPc
  ensure (returns.a = fallthroughValue.a ∧ returns.b = 2)
  return {
    parts := [line (.assignCondition fallthroughValue.a pc (fallthroughValue.b == 0))]
    next := some (pc + 4) }

/-- The tests from `trueBegin` on whose jump leads to `join`. -/
def countJoins (p : Proto) (trueBegin falseBegin join : ℤ) : Search ℕ :=
  (interval trueBegin (falseBegin - 1)).foldlM (fun count scan => do
    let i ← codeAt p scan
    let joins ← both (isCondition i.op = true) (jumpTo p (scan + 1) join)
    return if joins = true then count + 1 else count) 0

/-- What the arm that computes the truth value must not hold. -/
def breaksTrueArm (p : Proto) (join scan : ℤ) : Search Bool := do
  let i ← codeAt p scan
  match i.op with
  | .JMP => return decide (i.target ≤ scan ∨ join < i.target)
  | .EQ | .LT | .LE | .TEST | .TESTSET => testLeaves p join scan
  | .FORLOOP | .FORPREP | .TFORLOOP | .SETLIST | .CLOSE | .CLOSURE => return true
  | .LOADBOOL => return i.c != 0 && decide (join < i.target)
  | _ => return false

/-- A test that returns one truth value, in front of code that computes the other. -/
def booleanReturnTail (p : Proto) (a : Activation) (pc : ℤ) : Search Step := do
  let test ← testAt p a.stop pc
  ensure (test = true)
  let falseBegin ← targetAt p (pc + 1)
  let join := falseBegin + 2
  let trueBegin := pc + 2
  let tail ← attempt do
    ensure (trueBegin ≤ falseBegin ∧ join + 1 = a.stop ∧ join < p.size)
    let (falseValue, _) ← booleanPair p falseBegin
    let returns ← codeAt p join
    ensure (returns.op = .RETURN ∧ returns.a = falseValue.a ∧ returns.b = 2)
    return falseValue
  let sharedReturnGuards ← countJoins p trueBegin falseBegin join
  match tail with
  | none => .error .absent
  | some falseValue =>
    ensure (2 ≤ sharedReturnGuards)
    let broken ← anyOf (breaksTrueArm p join) (interval trueBegin join)
    ensure (broken = false ∧
      (p.code.any fun edge =>
        let target := edgeTarget p edge
        decide (trueBegin ≤ target ∧ target < join ∧ ((edge.pc : ℤ) < pc ∨ join ≤ edge.pc) ∧
          ¬((edge.pc : ℤ) = pc + 1 ∧ target = falseBegin))) = false)
    return {
      parts := [line (.ifThen (.of pc)), range (a.within trueBegin (join + 1)), line .elseDo,
        line (.returnBoolean (falseValue.b != 0)), line .endDo]
      next := some (join + 1) }

/-! ## What is emitted lies inside -/

/-- The guard is a test in the range with its gap behind it. -/
structure Guard.In (guard : Guard) (stop pc : ℤ) : Prop where
  pc_le : pc ≤ guard.pc
  lt_stop : guard.pc + 1 < stop
  gapBegin_eq : guard.gapBegin = guard.pc + 2
  gapBegin_le : guard.gapBegin ≤ guard.gapEnd
  gapEnd_le : guard.gapEnd ≤ stop

section Finds

variable {p : Proto} {a : Activation} {pc stop : ℤ}

/-- Stepping over straight-line code ends in the range. -/
theorem finds_safeGapEnd {P : ℤ → Prop} (hpc : 0 ≤ pc) (hle : pc ≤ stop) (hstop : stop ≤ p.size)
    (hP : ∀ k, pc ≤ k → k ≤ stop → P k) : Finds (safeGapEnd p stop pc) P := by
  refine finds_skipWhile stop (fun k hk => ?_) fun k hk hend => hP k hk (by omega)
  simp only [finds_both, finds_bind, finds_codeAt, finds_pure]
  exact ⟨fun h => ⟨by omega, by omega, fun _ => h⟩, fun _ h => by cases h⟩

theorem finds_guardAt {joins : ℤ → Bool} {P : Bool → Prop} (hpc : 0 ≤ pc) (hstop : stop ≤ p.size)
    (hP : ∀ b, P b) : Finds (guardAt p stop joins pc) P := by
  unfold guardAt
  rw [finds_bind]
  refine finds_testAt hpc hstop fun test htest => ?_
  rw [finds_both]
  refine ⟨fun h => ?_, fun _ => hP false⟩
  have := (htest h).1
  simp only [finds_bind, finds_targetAt, finds_pure]
  exact ⟨by omega, by omega, hP _⟩

theorem finds_guardsFrom {joins : ℤ → Bool} {n : ℕ} (hpc : 0 ≤ pc) (hstop : stop ≤ p.size) :
    Finds (guardsFrom p stop joins n pc) fun guards => ∀ guard ∈ guards, guard.In stop pc := by
  induction n generalizing pc with
  | zero => simp [guardsFrom, finds_ok]
  | succ n ih =>
    unfold guardsFrom
    rw [finds_bind]
    refine finds_testAt hpc hstop fun test htest => ?_
    rw [finds_ite]
    refine ⟨fun h => ?_, fun _ => by simp [finds_pure]⟩
    have hlt := (htest h).1
    simp only [finds_bind, finds_targetAt]
    refine ⟨by omega, by omega, finds_safeGapEnd (by omega) (by omega) hstop fun next h₁ h₂ => ?_⟩
    refine finds_guardAt (by omega) hstop fun more => ?_
    rw [finds_ite]
    refine ⟨fun _ => ?_, fun _ => ?_⟩
    · rw [finds_bind]
      refine (ih (by omega)).mono fun guards hguards => ?_
      rw [finds_pure]
      rintro guard hguard
      rcases List.mem_cons.1 hguard with rfl | hguard
      · exact ⟨le_refl pc, hlt, rfl, h₁, h₂⟩
      · have := hguards guard hguard
        exact { this with pc_le := by have := this.pc_le; omega }
    · rw [finds_pure]
      rintro guard hguard
      obtain rfl := List.mem_singleton.1 hguard
      exact ⟨le_refl pc, hlt, rfl, le_refl _, by dsimp only; omega⟩

theorem finds_firstAndLast {guards : List Guard} {P : Guard × Guard → Prop}
    (hP : ∀ first ∈ guards, ∀ last ∈ guards, P (first, last)) : Finds (firstAndLast guards) P := by
  unfold firstAndLast
  split
  case h_1 first last hfirst hlast =>
    rw [finds_ite]
    exact ⟨fun _ => hP first (List.mem_of_head? hfirst) last (List.mem_of_getLast? hlast),
      fun _ => trivial⟩
  case h_2 => trivial

theorem finds_testLeaves {join scan : ℤ} (hscan : 0 ≤ scan) (hjoin : join ≤ p.size) :
    Finds (testLeaves p join scan) fun _ => True := by
  unfold testLeaves
  simp only [finds_ite, finds_bind, finds_codeAt, finds_pure, implies_true, and_true, true_and]
  omega

theorem finds_breaksBody {join scan : ℤ} (hscan : 0 ≤ scan) (hlt : scan < join)
    (hjoin : join ≤ p.size) : Finds (breaksBody p join scan) fun _ => True := by
  unfold breaksBody
  rw [finds_bind, finds_codeAt]
  refine ⟨hscan, by omega, ?_⟩
  cases (p.at scan).op
  case EQ | LT | LE | TEST | TESTSET => exact finds_testLeaves hscan hjoin
  all_goals trivial

theorem finds_breaksTrueArm {join scan : ℤ} (hscan : 0 ≤ scan) (hlt : scan < join)
    (hjoin : join ≤ p.size) : Finds (breaksTrueArm p join scan) fun _ => True := by
  unfold breaksTrueArm
  rw [finds_bind, finds_codeAt]
  refine ⟨hscan, by omega, ?_⟩
  cases (p.at scan).op
  case EQ | LT | LE | TEST | TESTSET => exact finds_testLeaves hscan hjoin
  all_goals trivial

variable (ha : a.InRange p) (hpc : a.start ≤ pc) (hlt : pc < a.stop)

include ha hpc

theorem inner_gapRange {guard : Guard} (h : guard.In a.stop pc) : AllInner p a (gapRange a guard) := by
  have := h.pc_le
  have := h.gapBegin_eq
  unfold gapRange
  rw [allInner_rangeUnlessEmpty]
  intro _
  exact inner_of_later ha (by show a.start < guard.gapBegin; omega) h.gapBegin_le
    (le_trans h.gapEnd_le ha.stop_le)

theorem finds_sharedReturnGuards : FindsInner p a (sharedReturnGuards p a pc) := by
  have := ha.start_nonneg
  have := ha.stop_le
  unfold FindsInner sharedReturnGuards
  rw [finds_bind]
  refine finds_testAt (by omega) ha.stop_le fun test _ => ?_
  simp only [finds_bind, finds_ensure]
  intro _
  refine (finds_guardsFrom (by omega) ha.stop_le).mono fun guards hguards => ?_
  refine finds_firstAndLast fun first _ last hlast => ?_
  simp only [finds_codeAt]
  have hend := hguards last hlast
  have := hend.pc_le
  intro harms
  refine ⟨by omega, by omega, fun _ => ?_⟩
  refine finds_anyInstr (by omega) (by omega) fun _ _ => ?_
  have hfailure : Inner p a (a.allowing false first.target last.target) :=
    inner_of_later ha (by show a.start < first.target; omega)
      (by show first.target ≤ last.target; omega) (by show last.target ≤ _; omega)
  have hsuccess : Inner p a (a.within last.target a.stop) :=
    inner_of_later ha (by show a.start < last.target; omega)
      (by show last.target ≤ a.stop; omega) ha.stop_le
  have hgaps : ∀ guard ∈ guards, AllInner p a (gapRange a guard) := fun guard hguard =>
    inner_gapRange ha hpc (hguards guard hguard)
  simp only [finds_pure, allInner_append, allInner_flatMap, allInner_line, allInner_range,
    allInner_nil, hfailure, hsuccess, and_true, implies_true]
  exact ⟨fun guard hguard => hgaps guard (List.dropLast_subset guards hguard), hgaps last hlast⟩

theorem finds_sharedBodyGuards : FindsInner p a (sharedBodyGuards p a pc) := by
  have := ha.start_nonneg
  have := ha.stop_le
  unfold FindsInner sharedBodyGuards
  rw [finds_bind]
  refine finds_testAt (by omega) ha.stop_le fun test htest => ?_
  simp only [finds_bind, finds_ensure, finds_targetAt]
  intro h
  have := (htest h).1
  refine ⟨by omega, by omega, ?_⟩
  refine (finds_guardsFrom (by omega) ha.stop_le).mono fun guards hguards => ?_
  refine finds_firstAndLast fun first _ last hlast => ?_
  have := (hguards last hlast).pc_le
  simp only [finds_codeAt]
  refine fun hjoin => ⟨by omega, by omega, fun _ => ?_⟩
  refine finds_anyOf (fun scan hscan => ?_) fun broken _ => ?_
  · rw [mem_interval] at hscan
    exact finds_breaksBody (by omega) (by omega) (by omega)
  have hbody : Inner p a (a.allowing false (last.pc + 2) (p.at (pc + 1)).target) :=
    inner_of_later ha (by show a.start < last.pc + 2; omega)
      (by show last.pc + 2 ≤ (p.at (pc + 1)).target; omega)
      (by show (p.at (pc + 1)).target ≤ _; omega)
  simp only [finds_pure, allInner_append, allInner_flatMap, allInner_line, allInner_range,
    allInner_nil, hbody, implies_true, and_true]
  exact fun guard hguard => inner_gapRange ha hpc (hguards guard hguard)

include hlt in
theorem finds_booleanValue : FindsInner p a (booleanValue p a pc) := by
  have := ha.start_nonneg
  have := ha.stop_le
  unfold FindsInner booleanValue booleanPair returnBehind
  simp only [finds_bind, finds_codeAt, finds_ensure, finds_jumpTo, finds_pure, finds_ite]
  refine ⟨by omega, by omega, fun h => ?_⟩
  refine ⟨by omega, by omega, fun _ => ⟨by omega, by omega, fun _ => ?_⟩⟩
  refine ⟨by omega, by omega, fun _ => ⟨by omega, by omega, ?_, ?_⟩⟩
  · exact fun _ => ⟨by omega, by omega, fun _ => by simp⟩
  · exact fun _ hjump => ⟨by omega, by omega, fun _ => ⟨by omega, by omega, fun _ => by simp⟩⟩

theorem finds_booleanReturnTail (hjumps : JumpsInside p) :
    FindsInner p a (booleanReturnTail p a pc) := by
  have := ha.start_nonneg
  have := ha.stop_le
  unfold FindsInner booleanReturnTail
  rw [finds_bind]
  refine finds_testAt (by omega) ha.stop_le fun test htest => ?_
  simp only [finds_bind, finds_ensure, finds_targetAt]
  intro h
  obtain ⟨hlt, hjump⟩ := htest h
  have htarget := hjumps (pc + 1) (by omega) (by omega) hjump
  refine ⟨by omega, by omega, ?_⟩
  have hcount {P : ℕ → Prop} (hP : ∀ count, P count) : Finds (countJoins p (pc + 2)
      (p.at (pc + 1)).target ((p.at (pc + 1)).target + 2)) P := by
    refine finds_foldlM (I := fun _ => True) trivial (fun scan hscan count _ => ?_) fun n _ => hP n
    rw [mem_interval] at hscan
    simp only [finds_bind, finds_codeAt, finds_both, finds_jumpTo, finds_pure, implies_true,
      and_true]
    omega
  rw [finds_attempt]
  refine ⟨?_, fun _ => hcount fun _ => trivial⟩
  unfold booleanPair
  simp only [finds_bind, finds_ensure, finds_codeAt, finds_pure]
  intro htail
  refine ⟨by omega, by omega, fun _ => ⟨by omega, by omega, fun _ => ⟨by omega, by omega, fun _ => ?_⟩⟩⟩
  refine hcount fun count _ => ?_
  refine finds_anyOf (fun scan hscan => ?_) fun broken _ => ?_
  · rw [mem_interval] at hscan
    exact finds_breaksTrueArm (by omega) (by omega) (by omega)
  have hbody : Inner p a (a.within (pc + 2) ((p.at (pc + 1)).target + 2 + 1)) :=
    inner_of_later ha (by show a.start < pc + 2; omega)
      (by show pc + 2 ≤ (p.at (pc + 1)).target + 2 + 1; omega)
      (by show (p.at (pc + 1)).target + 2 + 1 ≤ _; omega)
  simpa using hbody

end Finds

end ByteVeil.Lua51
