import ByteVeil.Lua51.BranchShapes
import ByteVeil.Lua51.ExitChain
import ByteVeil.Lua51.GlobalCall
import Mathlib.Data.Prod.Lex

/-!
# The structured renderer ends

`emitRange` looks for the shapes one after the other, emits the first it finds, and goes on behind it;
the ranges inside a shape are emitted in the same way, and so are the functions that a `CLOSURE`
makes.

1. One step of the loop has no fault, always emits something, and its ranges are inner ones.
2. The ranges of a function, and the functions of a chunk, are emitted as tasks.
3. Each task leads to smaller ones, so that all of them end.
-/

namespace ByteVeil.Lua51

open Fallible

/-! ## One step -/

/-- The shapes that start with a comparison or a test. -/
def conditionShapes (p : Proto) (a : Activation) (pc : ℤ) : Search Step := do
  let i ← codeAt p pc
  ensure (isCondition i.op = true)
  firstOf [booleanValue p a pc, booleanReturnTail p a pc, do
    let chain ← conditionChain p a.stop (a.stop - pc).toNat pc
    let separated ← separatedTests p a.stop pc
    firstOf [guardedChain p a pc, separatedChain p a pc separated, exitChain p a pc,
      andChain p a pc chain, orChain a chain]]

/-- The shapes in the order in which they are looked for. -/
def shapes (format : Double → List Char) (p : Proto) (context : RenderContext) (a : Activation)
    (pc : ℤ) : List (Search Step) :=
  [repeatFromStart p a pc, endlessLoop p a pc, globalCall p a pc, numericFor p a pc,
    genericFor p a pc, testsetBreak p a pc, testBreak p a pc, testBreakOver p a pc,
    testContinue p a pc, testsetContinue p a pc, sharedReturnGuards p a pc, sharedBodyGuards p a pc,
    conditionShapes p a pc, escapingBranch p a pc, testsetValue p a pc, repeatBackward p a pc,
    whileLoop p a pc, ifElse p a pc, breakJump p a pc, continueJump p a pc, followJump p pc,
    simpleInstr format p context a pc]

/-- What the loop of `emitRange` does at a pc of the range. -/
def emitStep (format : Double → List Char) (p : Proto) (context : RenderContext) (a : Activation)
    (pc : ℤ) : Search Step := do
  let i ← codeAt p pc
  if i.closureBindingFor.isSome = true then return { parts := [], next := some (pc + 1) }
  else if i.op = .JMP ∧ i.target = pc then return { parts := [line .endlessLoop], next := none }
  else firstOf (shapes format p context a pc)

section Step

variable {format : Double → List Char} {p : Proto} {context : RenderContext} {a : Activation}
  {pc : ℤ}

/-- In an accepted prototype all jumps lead into the code. -/
theorem Accepted.jumpsInside (hp : Accepted p) : JumpsInside p := by
  intro pc hpc hlt hop
  have hn : pc.toNat < p.size := by omega
  unfold Proto.at at hop ⊢
  have hexec : IsExecutable p pc.toNat := hp.executable_of_op hn (by rw [hop]; decide)
    (by rw [hop]; decide) (by rw [hop]; decide)
  obtain ⟨hboundary, hlt⟩ := hp.target hexec (Or.inr (Or.inl hop))
  exact ⟨hboundary.1, hlt.le⟩

variable (format context) (hp : JumpsInside p) (ha : a.InRange p) (hpc : a.start ≤ pc)
  (hlt : pc < a.stop)

include hp ha hpc hlt

theorem finds_conditionShapes : FindsInner p a (conditionShapes p a pc) := by
  have := ha.start_nonneg
  have := ha.stop_le
  unfold FindsInner conditionShapes
  simp only [finds_bind, finds_codeAt, finds_ensure]
  refine ⟨by omega, by omega, fun _ => finds_firstOf fun x hx => ?_⟩
  simp only [List.mem_cons, List.not_mem_nil, or_false] at hx
  rcases hx with rfl | rfl | rfl
  · exact finds_booleanValue ha hpc hlt
  · exact finds_booleanReturnTail ha hpc hp
  · rw [finds_bind]
    refine (finds_conditionChain (by omega) ha.stop_le).mono fun chain hchain => ?_
    rw [finds_bind]
    refine (finds_separatedTests (by omega) ha.stop_le).mono fun separated hseparated => ?_
    refine finds_firstOf fun x hx => ?_
    simp only [List.mem_cons, List.not_mem_nil, or_false] at hx
    rcases hx with rfl | rfl | rfl | rfl | rfl
    · exact finds_guardedChain ha hpc
    · exact finds_separatedChain ha hpc hseparated
    · exact finds_exitChain ha hpc hp
    · exact finds_andChain ha hpc hchain
    · exact finds_orChain ha hpc hchain

/-- A step has no fault, and always has a result: an instruction can be emitted on its own. -/
theorem emitStep_ok :
    ∃ step, emitStep format p context a pc = .ok step ∧ AllInner p a step.parts := by
  have := ha.start_nonneg
  have := ha.stop_le
  have hfinds : ∀ x ∈ shapes format p context a pc, FindsInner p a x := by
    unfold shapes
    simp only [List.forall_mem_cons, List.not_mem_nil, IsEmpty.forall_iff, implies_true, and_true]
    exact ⟨finds_repeatFromStart ha hpc hlt, finds_endlessLoop ha hpc,
      finds_globalCall ha (by omega) (by omega), finds_numericFor ha hpc hlt,
      finds_genericFor ha hpc hlt, finds_testsetBreak ha hpc hlt, finds_testBreak ha hpc hlt,
      finds_testBreakOver ha hpc hlt, finds_testContinue ha hpc hlt,
      finds_testsetContinue ha hpc hlt, finds_sharedReturnGuards ha hpc,
      finds_sharedBodyGuards ha hpc, finds_conditionShapes hp ha hpc hlt,
      finds_escapingBranch ha hpc hlt, finds_testsetValue ha hpc hp hlt,
      finds_repeatBackward ha hpc, finds_whileLoop ha hpc, finds_ifElse ha hpc hp,
      finds_breakJump (by omega) (by omega), finds_continueJump (by omega) (by omega),
      finds_followJump (by omega) (by omega), finds_simpleInstr ha (by omega) (by omega)⟩
  have hsettles : Settles (firstOf (shapes format p context a pc)) :=
    settles_firstOf (x := simpleInstr format p context a pc) (by simp [shapes]) settles_simpleInstr
  refine Finds.exists_ok ?_ (settles_bind settles_fetch fun i => ?_)
  · unfold emitStep
    rw [finds_bind, finds_codeAt]
    refine ⟨by omega, by omega, ?_⟩
    simp only [finds_ite]
    exact ⟨fun _ => allInner_nil, fun _ => ⟨fun _ => by simp [finds_pure], fun _ =>
      finds_firstOf hfinds⟩⟩
  · exact settles_ite settles_ok (settles_ite settles_ok hsettles)

end Step

/-! ## Tasks -/

/-- What `needsPcDispatcher` and `findSingleExitDispatcherRegion` read from the structured text: there
is a marker, and the branches out of a range where all markers are of this kind. -/
structure Markers where
  needsPcDispatcher : Bool
  branches : Option (List (ℕ × ℕ))

/-- What is emitted: a range from a pc on, after the pcs that its loop has come to, or the body of a
function. -/
inductive Task
  | loop (p : Proto) (context : RenderContext) (a : Activation) (visited : List ℤ) (pc : ℤ)
  | body (p : Proto) (context : RenderContext)

/-- A part of what is emitted for a task. -/
abbrev TaskPart := Part Line Task

/-- A range from its start on. -/
def Task.range (p : Proto) (context : RenderContext) (a : Activation) : Task :=
  .loop p context a [] a.start

/-- The body of the function that the instruction at `pc` makes. -/
def closureBody (p : Proto) (context : RenderContext) (pc : ℕ) : List TaskPart :=
  let i := p.instr pc
  if i.op = .CLOSURE ∧ i.closureBindingFor = none then
    match p.children[i.bx]? with
    | some child =>
      [.task (.body child (closureContext p i context (captureCellParameters p i child context))),
        .line .endFunction]
    | none => []
  else []

/-- The functions that a line makes. -/
def functionsIn (p : Proto) (context : RenderContext) : Line → List TaskPart
  | .simple pc _ _ _ => closureBody p context pc.toNat
  | .dispatcher start stop =>
    (interval start stop).flatMap fun pc => closureBody p context pc.toNat
  | _ => []

/-- A part of a range. -/
def ofRange (p : Proto) (context : RenderContext) : RangePart → List TaskPart
  | .line l => .line l :: functionsIn p context l
  | .task b => [.task (.range p context b)]
  | .trial b => [.trial (.range p context b)]

/-- `emitReadableBody`. -/
def readableBody (markers : Proto → RenderContext → Markers) (p : Proto) (context : RenderContext) :
    List TaskPart :=
  let whole := Task.range p context { start := 0, stop := p.size }
  let dispatcher := fun (context : RenderContext) (start stop : ℕ) =>
    ofRange p context (.line (.dispatcher start stop))
  if context.stateMachine = true then dispatcher context 0 p.size
  else if (markers p context).needsPcDispatcher = true then
    .trial whole ::
      match (markers p context).branches.bind (findSingleExitDispatcherRegion p) with
      | some region =>
        (if 0 < region.begin then
          [.task (.range p context { start := 0, stop := region.begin })] else []) ++
        dispatcher context region.begin region.stop ++
        (if region.stop < p.size then
          [.task (.range p context { start := region.stop, stop := p.size })] else [])
      | none => dispatcher { context with stateMachine := true } 0 p.size
  else [.task whole]

/-- What a task comes to; a range that was left or came back to a pc ends with a line that says so. -/
def expand (format : Double → List Char) (markers : Proto → RenderContext → Markers) :
    Task → Search (List TaskPart)
  | .loop p context a visited pc =>
    if a.stop ≤ pc then .ok []
    else if pc < a.start then .ok [.line (.left pc)]
    else if visited.contains pc = true then .ok [.line (.repeatedPc pc)]
    else do
      let step ← emitStep format p context a pc
      return step.parts.flatMap (ofRange p context) ++
        match step.next with
        | some next => [.task (.loop p context a (pc :: visited) next)]
        | none => []
  | .body p context => .ok (readableBody markers p context)

/-- `emitRange`, with ranges and functions at most so deep inside each other. -/
def emitRange (format : Double → List Char) (markers : Proto → RenderContext → Markers) (depth : ℕ)
    (p : Proto) (context : RenderContext) (a : Activation) : Option (List Line) :=
  perform (expand format markers) depth (.range p context a)

/-- The pcs that the loop of a range has come to, and the one it is at. -/
inductive Visits (format : Double → List Char) (p : Proto) (context : RenderContext)
    (a : Activation) : List ℤ → ℤ → Prop
  | start : Visits format p context a [] a.start
  | next {visited : List ℤ} {pc next : ℤ} {step : Step} : Visits format p context a visited pc →
      a.start ≤ pc → pc < a.stop → pc ∉ visited → emitStep format p context a pc = .ok step →
      step.next = some next → Visits format p context a (pc :: visited) next

/-! ## Each task leads to smaller ones -/

/-- What decreases from a range to those inside it: how much of the code is left behind its start,
where it ends, and whether it may still be emitted as the body of the loop it starts with. -/
def Activation.measure (a : Activation) (p : Proto) : ℕ ×ₗ ℕ ×ₗ ℕ :=
  toLex ((p.size - a.start).toNat,
    toLex (a.stop.toNat, if a.loopContinueTarget = a.start then 0 else 1))

/-- What decreases from a task to those it leads to: the function, whether it is a range of it, the
range, and how many pcs its loop has not come to. -/
def Task.rank : Task → ℕ ×ₗ ℕ ×ₗ (ℕ ×ₗ ℕ ×ₗ ℕ) ×ₗ ℕ
  | .loop p _ a visited _ => toLex (p.tree.length, toLex (0,
      toLex (a.measure p, (a.stop - a.start).toNat - visited.length)))
  | .body p _ => toLex (p.tree.length, toLex (1, toLex (toLex (0, toLex (0, 0)), 0)))

/-- The function is accepted, and the loop has come to each pc of its range once at most. -/
def Task.Good : Task → Prop
  | .loop p _ a visited _ => Accepted p ∧ a.InRange p ∧ visited.Nodup ∧
      ∀ v ∈ visited, a.start ≤ v ∧ v < a.stop
  | .body p _ => Accepted p

section Smaller

variable {p : Proto} {context : RenderContext} {a b : Activation} {visited : List ℤ} {pc : ℤ}
  {t : Task}

theorem Inner.measure_lt (ha : a.InRange p) (h : Inner p a b) : b.measure p < a.measure p := by
  have := ha.start_nonneg
  have := ha.stop_le
  have := ha.start_le
  have := h.inRange.start_nonneg
  have := h.inRange.start_le
  have := h.inRange.stop_le
  unfold Activation.measure
  simp only [Prod.Lex.toLex_lt_toLex]
  rcases h.smaller with hlt | ⟨hstart, hlt | ⟨hstop, hbody, hother⟩⟩
  · exact Or.inl (by omega)
  · exact Or.inr ⟨by rw [hstart], Or.inl (by omega)⟩
  · refine Or.inr ⟨by rw [hstart], Or.inr ⟨by rw [hstop], ?_⟩⟩
    rw [if_pos hbody, if_neg hother]
    exact Nat.zero_lt_one

/-- A loop that has not come to a pc of its range has come to fewer pcs than there are. -/
theorem length_lt_of_not_mem (hnodup : visited.Nodup)
    (hrange : ∀ v ∈ visited, a.start ≤ v ∧ v < a.stop) (hpc : a.start ≤ pc) (hlt : pc < a.stop)
    (hmem : pc ∉ visited) : visited.length < (a.stop - a.start).toNat := by
  have hsub : pc :: visited ⊆ interval a.start a.stop := by
    intro v hv
    rw [mem_interval]
    rcases List.mem_cons.1 hv with rfl | hv
    · exact ⟨hpc, hlt⟩
    · exact hrange v hv
  have := ((List.nodup_cons.2 ⟨hmem, hnodup⟩).subperm hsub).length_le
  have hlength : (interval a.start a.stop).length = (a.stop - a.start).toNat := by simp [interval]
  rw [List.length_cons, hlength] at this
  omega

/-- A range inside, or one of the function around it. -/
theorem range_rank_lt (h : b.measure p < a.measure p) :
    (Task.range p context b).rank < (Task.loop p context a visited pc).rank := by
  simp only [Task.range, Task.rank, Prod.Lex.toLex_lt_toLex, lt_irrefl, false_or, true_and]
  exact Or.inl h

theorem range_rank_lt_body : (Task.range p context b).rank < (Task.body p context).rank := by
  simp [Task.range, Task.rank, Prod.Lex.toLex_lt_toLex]

theorem tree_length_lt {child : Proto} (h : child ∈ p.children) :
    child.tree.length < p.tree.length := by
  have hle : ∀ ps : List Proto, child ∈ ps → child.tree.length ≤ (Proto.trees ps).length := by
    intro ps hmem
    induction ps with
    | nil => cases hmem
    | cons q ps ih =>
      rw [Proto.trees, List.length_append]
      rcases List.mem_cons.1 hmem with rfl | hmem
      · omega
      · have := ih hmem
        omega
  rw [Proto.tree_eq p, List.length_cons]
  have := hle p.children h
  omega

/-- A function is smaller than anything of the function around it. -/
theorem of_mem_closureBody (hp : Accepted p) {part : TaskPart} {n : ℕ}
    (h : part ∈ closureBody p context n) (ht : part.IsTask t) :
    t.Good ∧ ∀ rest, t.rank < toLex (p.tree.length, rest) := by
  unfold closureBody at h
  dsimp only at h
  split_ifs at h with hclosure
  · cases hchild : p.children[(p.instr n).bx]? with
    | none =>
      rw [hchild] at h
      cases h
    | some child =>
      rw [hchild] at h
      have hmem := List.mem_of_getElem? hchild
      rcases List.mem_cons.1 h with rfl | h
      · obtain rfl := ht
        obtain ⟨data, root, hparse, hroot⟩ := hp
        refine ⟨⟨data, root, hparse, mem_tree_of_child hroot hmem⟩, fun rest => ?_⟩
        exact Prod.Lex.toLex_lt_toLex.2 (Or.inl (tree_length_lt hmem))
      · obtain rfl := List.mem_singleton.1 h
        exact ht.elim
  · cases h

/-- The tasks of a part of a range: functions, or the range itself. -/
theorem of_mem_ofRange (hp : Accepted p) {part : TaskPart} {source : RangePart}
    (h : part ∈ ofRange p context source) (ht : part.IsTask t) :
    (∃ b, source.IsTask b ∧ t = Task.range p context b) ∨
      (t.Good ∧ ∀ rest, t.rank < toLex (p.tree.length, rest)) := by
  cases source with
  | task b =>
    obtain rfl := List.mem_singleton.1 h
    exact Or.inl ⟨b, rfl, ht.symm⟩
  | trial b =>
    obtain rfl := List.mem_singleton.1 h
    exact Or.inl ⟨b, rfl, ht.symm⟩
  | line l =>
    right
    rcases List.mem_cons.1 h with rfl | h
    · exact ht.elim
    · cases l with
      | simple pc => exact of_mem_closureBody hp h ht
      | dispatcher start stop =>
        obtain ⟨pc, -, h⟩ := List.mem_flatMap.1 h
        exact of_mem_closureBody hp h ht
      | _ => cases h

theorem good_range (hp : Accepted p) (ha : a.InRange p) : (Task.range p context a).Good :=
  ⟨hp, ha, List.nodup_nil, by simp⟩

/-- What a function's body comes to is smaller than the body. -/
theorem of_mem_readableBody {markers : Proto → RenderContext → Markers} (hp : Accepted p)
    {part : TaskPart} (h : part ∈ readableBody markers p context) (ht : part.IsTask t) :
    t.Good ∧ t.rank < (Task.body p context).rank := by
  have hrange (b : Activation) (hb : b.InRange p) : (Task.range p context b).Good ∧
      (Task.range p context b).rank < (Task.body p context).rank :=
    ⟨good_range hp hb, range_rank_lt_body⟩
  have hwhole : Activation.InRange { start := 0, stop := p.size } p :=
    ⟨le_rfl, by dsimp only; omega, le_rfl⟩
  have hdispatcher {context' : RenderContext} {start stop : ℤ}
      (h : part ∈ ofRange p context' (.line (.dispatcher start stop))) :
      t.Good ∧ t.rank < (Task.body p context).rank := by
    rcases of_mem_ofRange hp h ht with ⟨b, hb, -⟩ | ⟨hgood, hlt⟩
    · exact hb.elim
    · exact ⟨hgood, hlt _⟩
  unfold readableBody at h
  dsimp only at h
  split_ifs at h with hmachine hneeds
  · exact hdispatcher h
  · rcases List.mem_cons.1 h with rfl | h
    · obtain rfl := ht
      exact hrange _ hwhole
    · cases hregion : (markers p context).branches.bind (findSingleExitDispatcherRegion p) with
      | none =>
        rw [hregion] at h
        exact hdispatcher h
      | some region =>
        rw [hregion] at h
        obtain ⟨branches, -, hfound⟩ := Option.bind_eq_some_iff.1 hregion
        have hcandidate := ((findSingleExitDispatcherRegion_eq_some hp.valid.decoded).1
          (show findSingleExitDispatcherRegion p branches = some ⟨region.begin, region.stop⟩
            from hfound)).candidate
        have := hcandidate.region.lo_lt_hi
        have := hcandidate.in_code
        rcases List.mem_append.1 h with h | h
        · rcases List.mem_append.1 h with h | h
          · split_ifs at h
            · obtain rfl := List.mem_singleton.1 h
              obtain rfl := ht
              exact hrange _ ⟨le_rfl, by dsimp only; omega, by dsimp only; omega⟩
            · cases h
          · exact hdispatcher h
        · split_ifs at h
          · obtain rfl := List.mem_singleton.1 h
            obtain rfl := ht
            exact hrange _ ⟨by dsimp only; omega, by dsimp only; omega, by dsimp only; omega⟩
          · cases h
  · obtain rfl := List.mem_singleton.1 h
    obtain rfl := ht
    exact hrange _ hwhole

end Smaller

/-! ## All tasks end -/

section Returns

variable {format : Double → List Char} {markers : Proto → RenderContext → Markers} {p : Proto}
  {context : RenderContext} {a : Activation}

/-- A task has no fault, and leads to smaller tasks. -/
theorem expand_ok {t : Task} (ht : t.Good) : ∃ parts, expand format markers t = .ok parts ∧
    ∀ part ∈ parts, ∀ u, part.IsTask u → u.Good ∧ u.rank < t.rank := by
  cases t with
  | body p context => exact ⟨_, rfl, fun part h u hu => of_mem_readableBody ht h hu⟩
  | loop p context a visited pc =>
    obtain ⟨hp, ha, hnodup, hrange⟩ := ht
    unfold expand
    dsimp only
    split_ifs with hstop hstart hvisited
    · exact ⟨[], rfl, by simp⟩
    · refine ⟨_, rfl, fun part h u hu => ?_⟩
      obtain rfl := List.mem_singleton.1 h
      exact hu.elim
    · refine ⟨_, rfl, fun part h u hu => ?_⟩
      obtain rfl := List.mem_singleton.1 h
      exact hu.elim
    · have hpc : a.start ≤ pc := by omega
      have hlt : pc < a.stop := by omega
      have hmem : pc ∉ visited := by simpa using hvisited
      obtain ⟨step, hstep, hinner⟩ := emitStep_ok format context hp.jumpsInside ha hpc hlt
      rw [hstep]
      refine ⟨_, rfl, fun part h u hu => ?_⟩
      rcases List.mem_append.1 h with h | h
      · obtain ⟨source, hsource, h⟩ := List.mem_flatMap.1 h
        rcases of_mem_ofRange hp h hu with ⟨b, hb, rfl⟩ | ⟨hgood, hlt⟩
        · have hin := hinner source hsource b hb
          exact ⟨good_range hp hin.inRange, range_rank_lt (hin.measure_lt ha)⟩
        · exact ⟨hgood, hlt _⟩
      · cases hnext : step.next with
        | none =>
          rw [hnext] at h
          cases h
        | some next =>
          rw [hnext] at h
          obtain rfl := List.mem_singleton.1 h
          obtain rfl := hu
          refine ⟨⟨hp, ha, List.nodup_cons.2 ⟨hmem, hnodup⟩, ?_⟩, ?_⟩
          · exact List.forall_mem_cons.2 ⟨⟨hpc, hlt⟩, hrange⟩
          · have := length_lt_of_not_mem hnodup hrange hpc hlt hmem
            simp only [Task.rank, Prod.Lex.toLex_lt_toLex, lt_irrefl, false_or, true_and,
              List.length_cons]
            omega

theorem visits_nodup {visited : List ℤ} {pc : ℤ} (h : Visits format p context a visited pc) :
    visited.Nodup ∧ ∀ v ∈ visited, a.start ≤ v ∧ v < a.stop := by
  induction h with
  | start => exact ⟨List.nodup_nil, by simp⟩
  | next _ hpc hlt hmem _ _ ih =>
    exact ⟨List.nodup_cons.2 ⟨hmem, ih.1⟩, List.forall_mem_cons.2 ⟨⟨hpc, hlt⟩, ih.2⟩⟩

/-- Every range of an accepted function is emitted: the loop comes to each pc once at most, each step
reads inside the code, and the ranges it leads to are smaller and lie in the code. -/
theorem emitRange_returns (format : Double → List Char) (markers : Proto → RenderContext → Markers)
    {p : Proto} (hp : Accepted p) (context : RenderContext) {a : Activation} (ha : a.InRange p) :
    (∃ depth lines, emitRange format markers depth p context a = some lines) ∧
      (∀ visited pc, Visits format p context a visited pc →
        visited.Nodup ∧ ∀ v ∈ visited, a.start ≤ v ∧ v < a.stop) ∧
      ∀ pc, a.start ≤ pc → pc < a.stop → ∃ step, emitStep format p context a pc = .ok step ∧
        ∀ part ∈ step.parts, ∀ b, part.IsTask b → b.InRange p ∧ b.measure p < a.measure p := by
  refine ⟨?_, fun visited pc h => visits_nodup h, fun pc hpc hlt => ?_⟩
  · exact perform_returns (InvImage.wf Task.rank wellFounded_lt) (fun t ht => expand_ok ht)
      (good_range hp ha)
  · obtain ⟨step, hstep, hinner⟩ := emitStep_ok format context hp.jumpsInside ha hpc hlt
    refine ⟨step, hstep, fun part hpart b hb => ?_⟩
    have hin := hinner part hpart b hb
    exact ⟨hin.inRange, hin.measure_lt ha⟩

/-- Two nested conditionals are emitted. -/
theorem nestedTests_returns : Accepted nestedTests ∧
    ∃ depth lines, emitRange (fun _ => ['0']) (fun _ _ => ⟨false, none⟩) depth nestedTests {}
      { start := 0, stop := 7 } = some lines := by
  have hsize : nestedTests.size = 7 := by decide +kernel
  exact ⟨nestedTests_accepted, (emitRange_returns _ _ nestedTests_accepted {}
    ⟨by decide, by decide, by rw [hsize]; decide⟩).1⟩

end Returns

end ByteVeil.Lua51
