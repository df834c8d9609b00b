import ByteVeil.MoonSec.VirtualTree
import Mathlib.Algebra.BigOperators.Group.List.Basic
import Mathlib.Algebra.Group.Prod
import Mathlib.Tactic.Abel

/-!
# The two readers agree

1. In lockstep the readers stand at the same place with the same counters.
2. The counters of the second reader count the tree that it builds.
3. One reader accepts a payload if and only if the other does and the tree keeps an instruction.
-/

namespace ByteVeil.MoonSec

open Fallible

/-! ## Lockstep -/

/-- The readers stand at the same place and have counted the same. -/
structure Synchronous (r : SerializedReader) (v : VirtualTreeReader) : Prop where
  position : r.position = v.position
  functions : r.metrics.functions = v.functions
  instructions : r.metrics.instructions = v.instructions
  constants : r.metrics.constants = v.constants

section Lockstep

variable (data : List UInt8) (tags : List ConstantKind)

/-- Both succeed in step with any results. -/
abbrev InStep {α β : Type} (x : Partial SerializedReader α) (y : Partial VirtualTreeReader β) : Prop :=
  Lockstep Synchronous (fun _ _ => True) x y

theorem inStep_need (n : ℕ) : InStep (SerializedReader.need data n) (VirtualTreeReader.need data n) :=
  lockstep_demand fun _ _ h => by rw [h.position]

theorem inStep_advance (n : ℕ) : InStep
    (modify fun r : SerializedReader => { r with position := r.position + n })
    (modify fun v : VirtualTreeReader => { v with position := v.position + n }) :=
  lockstep_modify fun _ _ h =>
    ⟨congrArg (· + n) h.position, h.functions, h.instructions, h.constants⟩

/-- Changes of the counters that only the first reader has. -/
theorem inStep_count {f : Metrics → Metrics} {β : Type} {b : β}
    (hf : ∀ m, (f m).functions = m.functions ∧ (f m).instructions = m.instructions ∧
      (f m).constants = m.constants) : InStep (SerializedReader.count f) (pure b : Partial _ β) :=
  fun _ _ h => .some ⟨trivial, h.position, (hf _).1.trans h.functions, (hf _).2.1.trans h.instructions,
    (hf _).2.2.trans h.constants⟩

theorem lockstep_readNumber (n : ℕ) : Lockstep Synchronous Eq (SerializedReader.readNumber data n)
    (VirtualTreeReader.readNumber data n) := by
  refine (inStep_need data n).bind fun _ _ _ => ?_
  refine Lockstep.bind (lockstep_inspect fun _ _ h => h.position) fun p q hpq => ?_
  subst hpq
  exact (inStep_advance n).bind fun _ _ _ => lockstep_pure rfl

theorem inStep_readI16 : InStep (SerializedReader.readU16 data) (VirtualTreeReader.readI16 data) :=
  (lockstep_readNumber data 2).map_right fun _ _ _ => trivial

theorem inStep_readI32 : InStep (SerializedReader.readU32 data) (VirtualTreeReader.readI32 data) :=
  (lockstep_readNumber data 4).map_right fun _ _ _ => trivial

theorem inStep_readBytes (n : ℕ) :
    InStep (SerializedReader.skip data n) (VirtualTreeReader.readBytes data n) := by
  refine (inStep_need data n).bind fun _ _ _ => ?_
  intro r v h
  exact .some ⟨trivial, congrArg (· + n) h.position, h.functions, h.instructions, h.constants⟩

/-- A number that the first reader passes over. -/
theorem inStep_skip (n : ℕ) :
    InStep (SerializedReader.skip data n) (VirtualTreeReader.readNumber data n) := by
  refine (inStep_need data n).bind fun _ _ _ => ?_
  intro r v h
  exact .some ⟨trivial, congrArg (· + n) h.position, h.functions, h.instructions, h.constants⟩

theorem inStep_parseConstant : InStep (SerializedReader.parseConstant data tags)
    (VirtualTreeReader.parseConstant data tags) := by
  refine (lockstep_readNumber data 1).bind fun tag _ htag => ?_
  subst htag
  dsimp only
  cases kindOf tags tag with
  | unknown => exact lockstep_pure trivial
  | boolean =>
    refine (inStep_skip data 1).bind fun _ _ _ => ?_
    exact inStep_count fun _ => ⟨rfl, rfl, rfl⟩
  | number =>
    refine (inStep_readBytes data 8).bind fun _ _ _ => ?_
    exact inStep_count fun _ => ⟨rfl, rfl, rfl⟩
  | string =>
    refine (lockstep_readNumber data 4).bind fun length _ hlength => ?_
    subst hlength
    refine (inStep_need data length).bind fun _ _ _ => ?_
    refine Lockstep.bind (lockstep_demand fun _ _ _ => rfl) fun _ _ _ => ?_
    refine (inStep_readBytes data length).bind fun _ _ _ => ?_
    exact inStep_count fun _ => ⟨rfl, rfl, rfl⟩

theorem inStep_parseConstants : InStep (SerializedReader.parseConstants data tags)
    (VirtualTreeReader.parseConstants data tags) := by
  refine (lockstep_readNumber data 4).bind fun n _ hn => ?_
  subst hn
  refine Lockstep.bind (lockstep_demand fun _ _ h => by rw [h.constants]) fun _ _ _ => ?_
  refine (inStep_need data n).bind fun _ _ _ => ?_
  refine Lockstep.bind (lockstep_modify fun _ _ h => ⟨h.position, h.functions, h.instructions,
    congrArg (· + n) h.constants⟩) fun _ _ _ => ?_
  exact lockstep_repeated (inStep_parseConstant data tags) n

theorem inStep_parseInstruction : InStep (SerializedReader.parseInstruction data)
    (VirtualTreeReader.parseInstruction data) := by
  refine (lockstep_readNumber data 1).bind fun descriptor _ hdescriptor => ?_
  subst hdescriptor
  dsimp only
  split_ifs with hdiscarded
  · exact lockstep_pure trivial
  · refine (inStep_readI16 data).bind fun _ opNum _ => (inStep_readI16 data).bind fun _ a _ => ?_
    have hcount : ∀ i : VirtualInstruction, InStep
        (SerializedReader.count fun m => { m with instructions := m.instructions + 1 })
        (modify (fun v : VirtualTreeReader => { v with instructions := v.instructions + 1 }) >>=
          fun _ => pure i) := fun i =>
      Lockstep.map_right (lockstep_modify fun _ _ h => ⟨h.position, h.functions,
        congrArg (· + 1) h.instructions, h.constants⟩) fun _ _ _ => trivial
    -- the four operand formats
    have hformat : descriptor / 2 % 4 < 4 := Nat.mod_lt _ (by decide)
    generalize descriptor / 2 % 4 = format at hformat
    match format, hformat with
    | 0, _ =>
      exact (inStep_readI16 data).bind fun _ _ _ => (inStep_readI16 data).bind fun _ _ _ =>
        hcount _
    | 1, _ => exact (inStep_readI32 data).bind fun _ _ _ => hcount _
    | 2, _ => exact (inStep_readI32 data).bind fun _ _ _ => hcount _
    | 3, _ =>
      exact (inStep_readI32 data).bind fun _ _ _ => (inStep_readI16 data).bind fun _ _ _ =>
        hcount _

theorem inStep_parseInstructions : InStep (SerializedReader.parseInstructions data)
    (VirtualTreeReader.parseInstructions data) := by
  refine (lockstep_readNumber data 4).bind fun n _ hn => ?_
  subst hn
  refine Lockstep.bind (lockstep_demand fun _ _ h => by rw [h.instructions]) fun _ _ _ => ?_
  refine (inStep_need data n).bind fun _ _ _ => ?_
  exact (lockstep_repeated (inStep_parseInstruction data) n).map_right fun _ _ _ => trivial

section Functions

variable {child : Partial SerializedReader Unit} {child' : Partial VirtualTreeReader VirtualFunction}
  (hchild : InStep child child')
include hchild

theorem inStep_parseFunctions : InStep (SerializedReader.parseFunctions data child)
    (VirtualTreeReader.parseFunctions data child') := by
  refine (lockstep_readNumber data 4).bind fun n _ hn => ?_
  subst hn
  refine Lockstep.bind (lockstep_demand fun _ _ h => by rw [h.functions]) fun _ _ _ => ?_
  exact lockstep_repeated hchild n

theorem inStep_parseStep (output : VirtualFunction) (step : Step) :
    InStep (SerializedReader.parseStep data tags child step)
      (VirtualTreeReader.parseStep data tags child' output step) := by
  cases step with
  | constants => exact (inStep_parseConstants data tags).map_right fun _ _ _ => trivial
  | instructions => exact (inStep_parseInstructions data).map_right fun _ _ _ => trivial
  | functions => exact (inStep_parseFunctions data hchild).map_right fun _ _ _ => trivial
  | parameters => exact (lockstep_readNumber data 1).bind fun _ _ _ => lockstep_pure trivial

theorem inStep_parseSteps (output : VirtualFunction) (steps : List Step) :
    InStep (SerializedReader.parseSteps data tags child steps)
      (VirtualTreeReader.parseSteps data tags child' output steps) := by
  induction steps generalizing output with
  | nil => exact lockstep_pure trivial
  | cons step steps ih =>
    exact (inStep_parseStep data tags hchild output step).bind fun _ output _ => ih output

end Functions

/-- The readers parse a function in step, whatever the order of its steps. -/
theorem inStep_parseFunction (order : List Step) (levels : ℕ) :
    InStep (SerializedReader.parseFunction data order tags levels)
      (VirtualTreeReader.parseFunction data order tags levels) := by
  induction levels with
  | zero => exact lockstep_failure
  | succ levels ih =>
    refine Lockstep.bind (lockstep_demand fun _ _ h => by rw [h.functions]) fun _ _ _ => ?_
    refine Lockstep.bind (lockstep_modify fun _ _ h => ⟨h.position,
      congrArg (· + 1) h.functions, h.instructions, h.constants⟩) fun _ _ _ => ?_
    exact inStep_parseSteps data tags ih {} order

end Lockstep

/-! ## Counting -/

/-- What the second reader has counted. -/
def VirtualTreeReader.counters (v : VirtualTreeReader) : ℕ × ℕ × ℕ :=
  (v.functions, v.instructions, v.constants)

/-- A successful computation adds the count of its result to the counters. -/
def Adds {α : Type} (count : α → ℕ × ℕ × ℕ) (x : Partial VirtualTreeReader α) : Prop :=
  ∀ v a v', x.run v = some (a, v') → v'.counters = v.counters + count a

section Rules

variable {α β : Type} {count : β → ℕ × ℕ × ℕ}

theorem adds_pure {b : β} (h : count b = 0) : Adds count (pure b) := by
  intro v b' v' hrun
  obtain ⟨rfl, rfl⟩ := Prod.mk.inj (Option.some.inj hrun)
  rw [h, add_zero]

theorem Adds.bind {x : Partial VirtualTreeReader α} {f : α → Partial VirtualTreeReader β}
    (hx : Adds (fun _ => 0) x) (hf : ∀ a, Adds count (f a)) : Adds count (x >>= f) := by
  intro v b v' hrun
  obtain ⟨a, v₁, ha, hb⟩ := partial_bind_ok.1 hrun
  rw [hf a v₁ b v' hb, hx v a v₁ ha, add_zero]

theorem Adds.map {count' : α → ℕ × ℕ × ℕ} {x : Partial VirtualTreeReader α} {g : α → β}
    (hx : Adds count' x) (hg : ∀ a, count (g a) = count' a) :
    Adds count (x >>= fun a => pure (g a)) := by
  intro v b v' hrun
  obtain ⟨a, v₁, ha, hb⟩ := partial_bind_ok.1 hrun
  obtain ⟨rfl, rfl⟩ := Prod.mk.inj (Option.some.inj hb)
  rw [hx v a v₁ ha, hg]

theorem adds_demand (c : VirtualTreeReader → Bool) : Adds (fun _ => 0) (demand c) := by
  intro v u v' hrun
  obtain ⟨-, rfl⟩ := demand_ok.1 hrun
  rw [add_zero]

theorem adds_inspect (f : VirtualTreeReader → β) : Adds (fun _ => 0) (inspect f) := by
  intro v b v' hrun
  obtain ⟨-, rfl⟩ := inspect_ok.1 hrun
  rw [add_zero]

theorem adds_modify {f : VirtualTreeReader → VirtualTreeReader} {k : ℕ × ℕ × ℕ}
    (hf : ∀ v, (f v).counters = v.counters + k) :
    Adds (fun _ => k) (modify f : Partial VirtualTreeReader Unit) := by
  intro v u v' hrun
  obtain rfl := modify_ok.1 hrun
  exact hf v

theorem adds_gather {x : Partial VirtualTreeReader β} (hx : Adds count x) (n : ℕ) :
    Adds (fun l => (l.map count).sum) (gather n x) := by
  induction n with
  | zero => exact adds_pure rfl
  | succ n ih =>
    intro v l v' hrun
    obtain ⟨a, v₁, ha, hrun⟩ := partial_bind_ok.1 hrun
    obtain ⟨l, v₂, hl, hrun⟩ := partial_bind_ok.1 hrun
    obtain ⟨rfl, rfl⟩ := Prod.mk.inj (Option.some.inj hrun)
    show _ = v.counters + ((a :: l).map count).sum
    rw [ih v₁ l v₂ hl, hx v a v₁ ha, List.map_cons, List.sum_cons, add_assoc]

end Rules

section Counting

variable (data : List UInt8) (tags : List ConstantKind)

theorem adds_readNumber (n : ℕ) : Adds (fun _ => 0) (VirtualTreeReader.readNumber data n) :=
  (adds_demand _).bind fun _ => (adds_inspect _).bind fun _ =>
    (adds_modify fun _ => rfl).bind fun _ => adds_pure rfl

theorem adds_readI16 : Adds (fun _ => 0) (VirtualTreeReader.readI16 data) :=
  (adds_readNumber data 2).map fun _ => rfl

theorem adds_readI32 : Adds (fun _ => 0) (VirtualTreeReader.readI32 data) :=
  (adds_readNumber data 4).map fun _ => rfl

theorem adds_readBytes (n : ℕ) : Adds (fun _ => 0) (VirtualTreeReader.readBytes data n) :=
  (adds_demand _).bind fun _ => (adds_inspect _).bind fun _ =>
    (adds_modify fun _ => rfl).bind fun _ => adds_pure rfl

theorem adds_parseConstant : Adds (fun _ => 0) (VirtualTreeReader.parseConstant data tags) := by
  refine (adds_readNumber data 1).bind fun tag => ?_
  dsimp only
  cases kindOf tags tag with
  | unknown => exact adds_pure rfl
  | boolean => exact (adds_readNumber data 1).map fun _ => rfl
  | number => exact (adds_readBytes data 8).map fun _ => rfl
  | string =>
    exact (adds_readNumber data 4).bind fun length => (adds_demand _).bind fun _ =>
      (adds_demand _).bind fun _ => (adds_readBytes data length).map fun _ => rfl

theorem adds_parseConstants :
    Adds (fun l => (0, 0, l.length)) (VirtualTreeReader.parseConstants data tags) := by
  refine (adds_readNumber data 4).bind fun n => (adds_demand _).bind fun _ =>
    (adds_demand _).bind fun _ => ?_
  intro v l v' hrun
  obtain ⟨_, v₁, hmodify, hrun⟩ := partial_bind_ok.1 hrun
  have hquiet : v'.counters = v₁.counters + (l.map fun _ => 0).sum :=
    adds_gather (adds_parseConstant data tags) n v₁ l v' hrun
  rw [List.map_const', List.sum_replicate, nsmul_zero, add_zero] at hquiet
  obtain rfl := modify_ok.1 hmodify
  show _ = v.counters + (0, 0, l.length)
  rw [hquiet, gather_length hrun]
  rfl

/-- What an instruction counts for. -/
def tallyInstruction (i : VirtualInstruction) : ℕ × ℕ × ℕ := (0, if i.discarded then 0 else 1, 0)

theorem adds_parseInstruction :
    Adds tallyInstruction (VirtualTreeReader.parseInstruction data) := by
  refine (adds_readNumber data 1).bind fun descriptor => ?_
  dsimp only
  split_ifs with hdiscarded
  · exact adds_pure rfl
  · refine (adds_readI16 data).bind fun opNum => (adds_readI16 data).bind fun a => ?_
    have hcount : ∀ i : VirtualInstruction, i.discarded = false → Adds tallyInstruction
        (modify (fun v : VirtualTreeReader => { v with instructions := v.instructions + 1 }) >>=
          fun _ => pure i) := by
      intro i hi
      have hone : Adds (fun _ => (0, 1, 0))
          (modify fun v : VirtualTreeReader => { v with instructions := v.instructions + 1 }) :=
        adds_modify fun _ => rfl
      exact hone.map fun _ => by simp [tallyInstruction, hi]
    have hformat : descriptor / 2 % 4 < 4 := Nat.mod_lt _ (by decide)
    generalize descriptor / 2 % 4 = format at hformat
    match format, hformat with
    | 0, _ =>
      exact (adds_readI16 data).bind fun _ => (adds_readI16 data).bind fun _ => hcount _ rfl
    | 1, _ => exact (adds_readI32 data).bind fun _ => hcount _ rfl
    | 2, _ => exact (adds_readI32 data).bind fun _ => hcount _ rfl
    | 3, _ =>
      exact (adds_readI32 data).bind fun _ => (adds_readI16 data).bind fun _ => hcount _ rfl

theorem sum_tallyInstruction (l : List VirtualInstruction) :
    (l.map tallyInstruction).sum = (0, (l.filter fun i => !i.discarded).length, 0) := by
  induction l with
  | nil => rfl
  | cons i l ih =>
    rw [List.map_cons, List.sum_cons, ih]
    unfold tallyInstruction
    cases hi : i.discarded with
    | true => simp [hi]
    | false => simp [hi, add_comm]

theorem adds_parseInstructions :
    Adds (fun l => (l.map tallyInstruction).sum) (VirtualTreeReader.parseInstructions data) := by
  refine (adds_readNumber data 4).bind fun n => (adds_demand _).bind fun _ =>
    (adds_demand _).bind fun _ => (adds_gather (adds_parseInstruction data) n).map fun l => ?_
  -- the pc does not count
  have hsame : (l.zipIdx.map fun item : VirtualInstruction × ℕ =>
      { item.1 with pc := item.2 }).map tallyInstruction =
      (l.zipIdx.map Prod.fst).map tallyInstruction := by
    rw [List.map_map, List.map_map]
    rfl
  rw [List.zipIdx_map_fst] at hsame
  exact congrArg List.sum hsame

/-- What a tree counts for. -/
def VirtualFunction.tally (f : VirtualFunction) : ℕ × ℕ × ℕ := (f.nodes, f.kept, f.constantCount)

theorem sum_tally (l : List VirtualFunction) : (l.map VirtualFunction.tally).sum =
    (VirtualFunction.totalAll (fun _ => 1) l,
      VirtualFunction.totalAll (fun g => (g.instructions.filter fun i => !i.discarded).length) l,
      VirtualFunction.totalAll (fun g => g.constants.length) l) := by
  induction l with
  | nil => rfl
  | cons f l ih =>
    rw [List.map_cons, List.sum_cons, ih]
    rfl

/-- The tally of a tree, part by part. -/
theorem tally_eq (f : VirtualFunction) : f.tally = (1, 0, 0) +
    (f.instructions.map tallyInstruction).sum + (0, 0, f.constants.length) +
      (f.children.map VirtualFunction.tally).sum := by
  rw [sum_tally, sum_tallyInstruction]
  unfold VirtualFunction.tally VirtualFunction.nodes VirtualFunction.kept
    VirtualFunction.constantCount
  rw [VirtualFunction.total_eq, VirtualFunction.total_eq, VirtualFunction.total_eq]
  simp

/-- The part of a step is still missing. -/
def Unset (output : VirtualFunction) : Step → Prop
  | .constants => output.constants = []
  | .instructions => output.instructions = []
  | .functions => output.children = []
  | .parameters => True

section Functions

variable {child : Partial VirtualTreeReader VirtualFunction}
  (hchild : Adds VirtualFunction.tally child)
include hchild

theorem adds_parseFunctions : Adds (fun l => (l.map VirtualFunction.tally).sum)
    (VirtualTreeReader.parseFunctions data child) :=
  (adds_readNumber data 4).bind fun n => (adds_demand _).bind fun _ => adds_gather hchild n

/-- A step counts what it adds to the function, and leaves the other parts alone. -/
theorem parseStep_tally {output : VirtualFunction} {step : Step} (hunset : Unset output step)
    {v v' : VirtualTreeReader} {f : VirtualFunction}
    (hrun : (VirtualTreeReader.parseStep data tags child output step).run v = some (f, v')) :
    v'.counters + output.tally = v.counters + f.tally ∧
      ∀ other, other ≠ step → Unset output other → Unset f other := by
  cases step with
  | constants =>
    obtain ⟨l, v₁, hl, hpure⟩ := partial_bind_ok.1 hrun
    obtain ⟨rfl, rfl⟩ := Prod.mk.inj (Option.some.inj hpure)
    have hzero : ((0, 0, output.constants.length) : ℕ × ℕ × ℕ) = 0 := by
      rw [show output.constants = [] from hunset]
      rfl
    refine ⟨?_, fun other hne hother => ?_⟩
    · rw [adds_parseConstants data tags v l v₁ hl, tally_eq, tally_eq, hzero]
      abel
    · cases other <;> first | exact absurd rfl hne | exact hother
  | instructions =>
    obtain ⟨l, v₁, hl, hpure⟩ := partial_bind_ok.1 hrun
    obtain ⟨rfl, rfl⟩ := Prod.mk.inj (Option.some.inj hpure)
    refine ⟨?_, fun other hne hother => ?_⟩
    · rw [adds_parseInstructions data v l v₁ hl, tally_eq, tally_eq,
        show output.instructions = [] from hunset, List.map_nil, List.sum_nil]
      abel
    · cases other <;> first | exact absurd rfl hne | exact hother
  | functions =>
    obtain ⟨l, v₁, hl, hpure⟩ := partial_bind_ok.1 hrun
    obtain ⟨rfl, rfl⟩ := Prod.mk.inj (Option.some.inj hpure)
    refine ⟨?_, fun other hne hother => ?_⟩
    · rw [adds_parseFunctions data hchild v l v₁ hl, tally_eq, tally_eq,
        show output.children = [] from hunset, List.map_nil, List.sum_nil]
      abel
    · cases other <;> first | exact absurd rfl hne | exact hother
  | parameters =>
    obtain ⟨n, v₁, hn, hpure⟩ := partial_bind_ok.1 hrun
    obtain ⟨rfl, rfl⟩ := Prod.mk.inj (Option.some.inj hpure)
    refine ⟨?_, fun other hne hother => ?_⟩
    · rw [adds_readNumber data 1 v n v₁ hn, tally_eq, tally_eq, add_zero]
    · cases other <;> first | exact absurd rfl hne | exact hother

theorem parseSteps_tally {steps : List Step} (hnodup : steps.Nodup) {output : VirtualFunction}
    (hunset : ∀ step ∈ steps, Unset output step) {v v' : VirtualTreeReader} {f : VirtualFunction}
    (hrun : (VirtualTreeReader.parseSteps data tags child output steps).run v = some (f, v')) :
    v'.counters + output.tally = v.counters + f.tally := by
  induction steps generalizing output v with
  | nil =>
    obtain ⟨rfl, rfl⟩ := Prod.mk.inj (Option.some.inj hrun)
    rfl
  | cons step steps ih =>
    obtain ⟨mid, v₁, hstep, hrest⟩ := partial_bind_ok.1 hrun
    obtain ⟨hnot, hnodup⟩ := List.nodup_cons.1 hnodup
    obtain ⟨hhere, hunset⟩ := List.forall_mem_cons.1 hunset
    obtain ⟨htally, hkeep⟩ := parseStep_tally data tags hchild hhere hstep
    have hrest := ih hnodup (fun other hother => hkeep other (fun heq => hnot (heq ▸ hother))
      (hunset other hother)) hrest
    refine add_right_cancel (b := mid.tally) ?_
    calc v'.counters + output.tally + mid.tally
        = v'.counters + mid.tally + output.tally := by abel
      _ = v₁.counters + output.tally + f.tally := by rw [hrest]; abel
      _ = v.counters + f.tally + mid.tally := by rw [htally]; abel

end Functions

/-- The counters count the tree. -/
theorem adds_parseFunction {order : List Step} (hnodup : order.Nodup) (levels : ℕ) :
    Adds VirtualFunction.tally (VirtualTreeReader.parseFunction data order tags levels) := by
  induction levels with
  | zero =>
    intro v f v' hrun
    cases hrun
  | succ levels ih =>
    refine (adds_demand _).bind fun _ => ?_
    intro v f v' hrun
    obtain ⟨_, v₁, hmodify, hrun⟩ := partial_bind_ok.1 hrun
    obtain rfl := modify_ok.1 hmodify
    have hsteps := parseSteps_tally data tags ih hnodup (fun step _ => by
      cases step <;> first | rfl | trivial) hrun
    refine add_right_cancel (b := (1, 0, 0)) ?_
    calc v'.counters + (1, 0, 0) = v.counters + (1, 0, 0) + f.tally := hsteps
      _ = v.counters + f.tally + (1, 0, 0) := by abel

end Counting

/-! ## Agreement -/

/-- The two readers at the end of their walks over a payload. -/
structure Agreement (data : List UInt8) (order : List Step) (tags : List ConstantKind)
    (metrics : Metrics) (root : VirtualFunction) : Prop where
  functions : metrics.functions = root.nodes
  instructions : metrics.instructions = root.kept
  constants : metrics.constants = root.constantCount
  consumed : ∃ r, (SerializedReader.parseFunction data order tags (kMaxPrototypeDepth + 1)).run {} =
    some ((), r) ∧ r.position = data.length
  consumed' : ∃ v, (VirtualTreeReader.parseFunction data order tags (kMaxPrototypeDepth + 1)).run {} =
    some (root, v) ∧ v.position = data.length

/-- The steps in the order of their enumeration. -/
def steps : List Step := [.constants, .instructions, .functions, .parameters]

section Parse

variable (data : List UInt8) {order : List Step} (horder : order.Perm steps)
  (tags : List ConstantKind)
include horder

theorem parse_agreement : (SerializedReader.parse data order tags = none ∧
      ∀ root, VirtualTreeReader.parse data order tags = some root → root.kept = 0) ∨
    ∃ metrics root, SerializedReader.parse data order tags = some metrics ∧
      VirtualTreeReader.parse data order tags = some root ∧ root.kept ≠ 0 ∧
      Agreement data order tags metrics root := by
  have hlock := (inStep_parseFunction data tags order (kMaxPrototypeDepth + 1)).run
    (s := {}) (t := {}) ⟨rfl, rfl, rfl, rfl⟩
  unfold SerializedReader.parse VirtualTreeReader.parse
  rcases hlock with ⟨hr, hv⟩ | ⟨_, r, root, v, hr, hv, -, hsync⟩
  · rw [hr, hv]
    exact .inl ⟨rfl, fun root h => by cases h⟩
  · have hadds := adds_parseFunction data tags (horder.nodup_iff.2 (by decide))
      (kMaxPrototypeDepth + 1) _ root v hv
    have hfunctions : r.metrics.functions = root.nodes :=
      hsync.functions.trans ((congrArg Prod.fst hadds).trans (Nat.zero_add _))
    have hinstructions : r.metrics.instructions = root.kept :=
      hsync.instructions.trans ((congrArg (·.2.1) hadds).trans (Nat.zero_add _))
    have hconstants : r.metrics.constants = root.constantCount :=
      hsync.constants.trans ((congrArg (·.2.2) hadds).trans (Nat.zero_add _))
    have hnodes : root.nodes ≠ 0 := by
      unfold VirtualFunction.nodes
      rw [VirtualFunction.total_eq]
      omega
    rw [hr, hv]
    dsimp only
    rw [hsync.position, hfunctions, hinstructions]
    by_cases hend : v.position = data.length
    · rw [if_pos hend]
      by_cases hkept : root.kept = 0
      · rw [if_pos (.inr (.inr hkept))]
        exact .inl ⟨rfl, fun root' h => Option.some.inj h ▸ hkept⟩
      · rw [if_neg (by tauto)]
        exact .inr ⟨r.metrics, root, rfl, rfl, hkept, hfunctions, hinstructions, hconstants,
          ⟨r, hr, hsync.position.trans hend⟩, ⟨v, hv, hend⟩⟩
    · rw [if_pos (.inl hend), if_neg hend]
      exact .inl ⟨rfl, fun root h => by cases h⟩

end Parse

end ByteVeil.MoonSec
