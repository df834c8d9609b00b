import ByteVeil.Fallible.Expansion
import ByteVeil.Lua51.ArgumentSetup
import ByteVeil.Lua51.Scopes

/-!
# Ranges of instructions and what is emitted for them

`emitRange` emits the instructions of a range. It looks for one shape after the other at the pc it has
come to; a shape is emitted as lines and as smaller ranges inside it.

1. The ranges, the lines, and what one shape comes to.
2. Reading the code: every position is checked.
3. Where the instructions lead, as the shapes see it.
-/

namespace ByteVeil.Lua51

open Fallible

/-! ## Ranges and lines -/

/-- The flag variables. -/
inductive Flag
  | loopBreak (pc : ℤ)
  | condition (pc : ℤ)
  deriving DecidableEq

/-- The name of a flag variable. -/
def Flag.name (p : Proto) (context : RenderContext) : Flag → List Char
  | loopBreak pc => loopBreakFlagName p pc.toNat context
  | condition pc => conditionChainFlagName p pc.toNat context

/-- The arguments of `emitRange`; `loopBreakFlag` is the flag of the loop that a `break` leaves. -/
structure Activation where
  start : ℤ
  stop : ℤ
  allowInfiniteLoop : Bool := true
  loopBreakTarget : ℤ := -1
  loopContinueTarget : ℤ := -1
  loopBreakFlag : Option Flag := none
  deriving DecidableEq

/-- Another range inside the same loop. -/
def Activation.within (a : Activation) (start stop : ℤ) : Activation :=
  { a with start := start, stop := stop }

/-- Another range inside the same loop, which may or may not hold an endless loop. -/
def Activation.allowing (a : Activation) (allowInfiniteLoop : Bool) (start stop : ℤ) : Activation :=
  { a with start := start, stop := stop, allowInfiniteLoop := allowInfiniteLoop }

section Fields

variable (a : Activation) (allowInfiniteLoop : Bool) (start stop : ℤ)

@[simp] theorem Activation.within_start : (a.within start stop).start = start := rfl

@[simp] theorem Activation.within_stop : (a.within start stop).stop = stop := rfl

@[simp] theorem Activation.allowing_start :
    (a.allowing allowInfiniteLoop start stop).start = start := rfl

@[simp] theorem Activation.allowing_stop :
    (a.allowing allowInfiniteLoop start stop).stop = stop := rfl

end Fields

/-- A condition as it is printed, by the pcs of its tests. -/
inductive Condition
  | of (pc : ℤ)
  | negated (pc : ℤ)
  | tested (pc : ℤ)
  | allOf (pcs : List ℤ)
  | someOf (negated : List ℤ) (last : ℤ)
  | flag (f : Flag)
  | noFlag (f : Flag)
  deriving DecidableEq

/-- A line, by the pcs and the registers it is printed from. -/
inductive Line
  | left (pc : ℤ)
  | repeatedPc (pc : ℤ)
  | escapes (pc target : ℤ)
  | endlessLoop
  | whileTrue
  | whileDo (c : Condition)
  | repeatDo
  | untilDo (c : Condition)
  | untilTrue
  | forNumeric (pc : ℤ)
  | forGeneric (pc loopPc : ℤ)
  | freshCell (r : ℕ) (pc : ℤ)
  | ifThen (c : Condition)
  | elseDo
  | doBlock
  | endDo
  | localFlag (f : Flag)
  | setFlag (f : Flag) (value : Bool)
  | assignFlag (f : Flag) (c : Condition)
  | breakLoop
  | breakIf (f : Flag)
  | assignTested (pc : ℤ)
  | assignCondition (r : ℕ) (pc : ℤ) (negated : Bool)
  | returnBoolean (value : Bool)
  | returnFlag (f : Flag)
  | globalCall (pc : ℤ)
  | simple (pc : ℤ) (colonCall inlineReadBase inlineCallTarget : Bool)
  | endFunction
  | dispatcher (start stop : ℤ)
  deriving DecidableEq

/-- A part of what is emitted for a range. -/
abbrev RangePart := Part Line Activation

/-- What is emitted at a pc, and the pc to go on at; at none the range is done. -/
structure Step where
  parts : List RangePart
  next : Option ℤ

/-- A line. -/
def line (l : Line) : RangePart := .line l

/-- A range inside. -/
def range (a : Activation) : RangePart := .task a

/-- A range that is emitted when it is not empty. -/
def rangeUnlessEmpty (a : Activation) : List RangePart :=
  if a.start < a.stop then [range a] else []

/-! ## Inner ranges -/

/-- The range lies in the code. -/
structure Activation.InRange (a : Activation) (p : Proto) : Prop where
  start_nonneg : 0 ≤ a.start
  start_le : a.start ≤ a.stop
  stop_le : a.stop ≤ p.size

/-- The range starts later, ends earlier, or is now the body of a loop that starts with it. -/
def Activation.Smaller (b a : Activation) : Prop :=
  a.start < b.start ∨ (b.start = a.start ∧ (b.stop < a.stop ∨
    (b.stop = a.stop ∧ b.loopContinueTarget = b.start ∧ a.loopContinueTarget ≠ a.start)))

/-- What a range is emitted for inside another. -/
structure Inner (p : Proto) (a b : Activation) : Prop where
  inRange : b.InRange p
  smaller : b.Smaller a

/-- All ranges of the parts are inner ones. -/
def AllInner (p : Proto) (a : Activation) (parts : List RangePart) : Prop :=
  ∀ part ∈ parts, ∀ b, part.IsTask b → Inner p a b

section Inner

variable {p : Proto} {a b : Activation} {parts : List RangePart}

theorem inner_of_later (ha : a.InRange p) (hlt : a.start < b.start) (hle : b.start ≤ b.stop)
    (hstop : b.stop ≤ p.size) : Inner p a b := by
  have := ha.start_nonneg
  exact ⟨⟨by omega, hle, hstop⟩, Or.inl hlt⟩

@[simp] theorem allInner_nil : AllInner p a [] := by
  intro part h
  cases h

@[simp] theorem allInner_line {l : Line} :
    AllInner p a (line l :: parts) ↔ AllInner p a parts := by
  unfold AllInner
  rw [List.forall_mem_cons]
  exact and_iff_right fun b h => h.elim

@[simp] theorem allInner_range :
    AllInner p a (range b :: parts) ↔ Inner p a b ∧ AllInner p a parts := by
  unfold AllInner
  rw [List.forall_mem_cons]
  exact and_congr_left fun _ => ⟨fun h => h b rfl, by rintro h _ rfl; exact h⟩

@[simp] theorem allInner_append {parts' : List RangePart} :
    AllInner p a (parts ++ parts') ↔ AllInner p a parts ∧ AllInner p a parts' :=
  List.forall_mem_append

@[simp] theorem allInner_rangeUnlessEmpty :
    AllInner p a (rangeUnlessEmpty b) ↔ (b.start < b.stop → Inner p a b) := by
  unfold rangeUnlessEmpty
  split_ifs with h
  · simp [h]
  · simp [h]

theorem allInner_ite {c : Prop} [Decidable c] {parts' : List RangePart} :
    AllInner p a (if c then parts else parts') ↔
      (c → AllInner p a parts) ∧ (¬c → AllInner p a parts') := by
  split_ifs with h <;> simp [h]

@[simp] theorem allInner_map_line {α : Type} {xs : List α} {f : α → Line} :
    AllInner p a (xs.map fun x => line (f x)) := by
  intro part hpart b hb
  obtain ⟨x, -, rfl⟩ := List.mem_map.1 hpart
  exact hb.elim

theorem allInner_flatMap {α : Type} {xs : List α} {f : α → List RangePart} :
    AllInner p a (xs.flatMap f) ↔ ∀ x ∈ xs, AllInner p a (f x) := by
  unfold AllInner
  simp only [List.mem_flatMap]
  exact ⟨fun h x hx part hpart => h part ⟨x, hx, hpart⟩,
    fun h part ⟨x, hx, hpart⟩ => h x hx part hpart⟩

end Inner

/-! ## Reading the code -/

/-- `p.code[pc]`. -/
def codeAt (p : Proto) (pc : ℤ) : Search Instr := fetch p.code pc

/-- The instruction that is read at a position of the code. -/
def Proto.at (p : Proto) (pc : ℤ) : Instr := p.instr pc.toNat

theorem finds_codeAt {p : Proto} {pc : ℤ} {P : Instr → Prop} :
    Finds (codeAt p pc) P ↔ 0 ≤ pc ∧ pc < p.size ∧ P (p.at pc) :=
  finds_fetch

/-- `isCondition`. -/
def isCondition : Op → Bool
  | .EQ | .LT | .LE | .TEST => true
  | _ => false

/-- `isCondition(op) || op == 27`. -/
def isBranch (op : Op) : Bool := isCondition op || op == .TESTSET

/-- There is a jump. -/
def jumpAt (p : Proto) (pc : ℤ) : Search Bool := do
  let i ← codeAt p pc
  return i.op == .JMP

/-- There is a jump to `target`. -/
def jumpTo (p : Proto) (pc target : ℤ) : Search Bool := do
  let i ← codeAt p pc
  return i.op == .JMP && i.target == target

/-- The target field of an instruction. -/
def targetAt (p : Proto) (pc : ℤ) : Search ℤ := do
  let i ← codeAt p pc
  return i.target

/-- A comparison or a test with its jump, before `stop`. -/
def testAt (p : Proto) (stop pc : ℤ) : Search Bool :=
  both (pc + 1 < stop) do
    let i ← codeAt p pc
    both (isCondition i.op = true) (jumpAt p (pc + 1))

/-- All jumps lead into the code or to its end. -/
def JumpsInside (p : Proto) : Prop :=
  ∀ pc : ℤ, 0 ≤ pc → pc < p.size → (p.at pc).op = .JMP →
    0 ≤ (p.at pc).target ∧ (p.at pc).target ≤ p.size

section Reads

variable {p : Proto} {pc stop target : ℤ}

theorem finds_jumpAt {P : Bool → Prop} : Finds (jumpAt p pc) P ↔
    0 ≤ pc ∧ pc < p.size ∧ P ((p.at pc).op == .JMP) := by
  unfold jumpAt
  rw [finds_bind, finds_codeAt]
  exact Iff.rfl

theorem finds_jumpTo {P : Bool → Prop} : Finds (jumpTo p pc target) P ↔
    0 ≤ pc ∧ pc < p.size ∧ P ((p.at pc).op == .JMP && (p.at pc).target == target) := by
  unfold jumpTo
  rw [finds_bind, finds_codeAt]
  exact Iff.rfl

theorem finds_targetAt {P : ℤ → Prop} : Finds (targetAt p pc) P ↔
    0 ≤ pc ∧ pc < p.size ∧ P (p.at pc).target := by
  unfold targetAt
  rw [finds_bind, finds_codeAt]
  exact Iff.rfl

/-- Looking for a test has no fault in a range of the code. -/
theorem finds_testAt {P : Bool → Prop} (hpc : 0 ≤ pc) (hstop : stop ≤ p.size)
    (hP : ∀ b, (b = true → pc + 1 < stop ∧ (p.at (pc + 1)).op = .JMP) → P b) :
    Finds (testAt p stop pc) P := by
  unfold testAt
  rw [finds_both]
  refine ⟨fun hlt => ?_, fun _ => hP false fun h => by cases h⟩
  rw [finds_bind, finds_codeAt]
  refine ⟨hpc, by omega, ?_⟩
  rw [finds_both]
  refine ⟨fun _ => ?_, fun _ => hP false fun h => by cases h⟩
  rw [finds_jumpAt]
  exact ⟨by omega, by omega, hP _ fun h => ⟨hlt, beq_iff_eq.1 h⟩⟩

/-- Looking at each instruction of a range has no fault. -/
theorem finds_anyInstr {start : ℤ} {test : Instr → Bool} {P : Bool → Prop}
    (hstart : 0 ≤ start) (hstop : stop ≤ p.size) (hP : ∀ b, P b) :
    Finds (anyOf (fun scan => do let i ← codeAt p scan; return test i) (interval start stop)) P := by
  refine finds_anyOf (fun scan hscan => ?_) hP
  rw [mem_interval] at hscan
  rw [finds_bind, finds_codeAt]
  exact ⟨by omega, by omega, trivial⟩

end Reads

/-- What a shape comes to lies inside the range. -/
abbrev FindsInner (p : Proto) (a : Activation) (x : Search Step) : Prop :=
  Finds x fun step => AllInner p a step.parts

/-! ## Where instructions lead -/

/-- The target of the jump behind `i`, if there is one. -/
def jumpBehind (p : Proto) (i : Instr) : ℤ :=
  if i.pc + 1 < p.size ∧ (p.instr (i.pc + 1)).op = .JMP then (p.instr (i.pc + 1)).target else -1

/-- Where an instruction leads by its target or by the jump behind it. -/
def edgeTarget (p : Proto) (i : Instr) : ℤ :=
  match i.op with
  | .JMP | .FORLOOP | .FORPREP | .TFORLOOP => i.target
  | .EQ | .LT | .LE | .TEST | .TESTSET => jumpBehind p i
  | .LOADBOOL => if i.c ≠ 0 then i.target else -1
  | _ => -1

/-- Where an instruction leads inside or out of a loop. -/
def loopTarget (p : Proto) (i : Instr) : ℤ :=
  match i.op with
  | .JMP | .FORLOOP | .FORPREP => i.target
  | .EQ | .LT | .LE | .TEST | .TESTSET => jumpBehind p i
  | .TFORLOOP => followingControlTarget p i
  | _ => -1

/-- Where an instruction leads by its target or by the word behind it. -/
def flowTarget (p : Proto) (i : Instr) : ℤ :=
  match i.op with
  | .JMP | .FORLOOP | .FORPREP => i.target
  | .EQ | .LT | .LE | .TEST | .TESTSET | .TFORLOOP => followingControlTarget p i
  | _ => -1

/-- `straightLineConditionGap`. -/
def straightLineConditionGap (i : Instr) : Bool :=
  match i.op with
  | .MOVE | .LOADK | .LOADBOOL | .LOADNIL | .GETUPVAL | .GETGLOBAL | .GETTABLE | .SETGLOBAL
  | .SETUPVAL | .SETTABLE | .NEWTABLE | .SELF | .ADD | .SUB | .MUL | .DIV | .MOD | .POW | .UNM
  | .NOT | .LEN | .CONCAT | .CLOSE | .CLOSURE => true
  | .CALL => decide (0 < i.b) && decide (0 < i.c)
  | .SETLIST | .VARARG => decide (0 < i.b)
  | _ => false

/-- `separatedConditionGap`. -/
def separatedConditionGap (i : Instr) : Bool :=
  !(i.op == .LOADBOOL && i.c != 0) && (straightLineConditionGap i || i.op == .CALL)

/-- `guardedGapSafe`. -/
def guardedGapSafe (i : Instr) : Bool :=
  straightLineConditionGap i && !(i.op == .LOADBOOL && i.c != 0)

/-- `hasLoopEdgeTo`. -/
def hasLoopEdgeTo (p : Proto) (start stop target : ℤ) : Search Bool :=
  anyOf (fun pc => do
    let i ← codeAt p pc
    if i.op = .JMP ∧ i.target = target then return true
    else both (isBranch i.op = true ∧ pc + 1 < stop) (jumpTo p (pc + 1) target))
    (interval start stop)

theorem finds_hasLoopEdgeTo {p : Proto} {start stop target : ℤ} {P : Bool → Prop}
    (hstart : 0 ≤ start) (hstop : stop ≤ p.size) (hP : ∀ b, P b) :
    Finds (hasLoopEdgeTo p start stop target) P := by
  refine finds_anyOf (fun pc hpc => ?_) hP
  rw [mem_interval] at hpc
  rw [finds_bind, finds_codeAt]
  refine ⟨by omega, by omega, ?_⟩
  rw [finds_ite]
  refine ⟨fun _ => trivial, fun _ => ?_⟩
  rw [finds_both]
  refine ⟨fun h => ?_, fun _ => trivial⟩
  rw [finds_jumpTo]
  exact ⟨by omega, by omega, trivial⟩

end ByteVeil.Lua51
