import ByteVeil.Fallible.Pace
import ByteVeil.Lua51.OpenRuns

/-!
# The dispatcher as a program

The loop that `emitPcDispatcherRange` emits, run round by round, beside the machine, run instruction
by instruction.

1. The texts of a block, and the two systems.
2. The conditions under which a block's text says what its instructions do.
3. What running the text of one instruction amounts to.
-/

namespace ByteVeil.Lua51

open Fallible

/-! ## Texts -/

/-- The text of an instruction that `emitPcBlock` hands to `emitSimple`. -/
def simpleText (p : Proto) (i : Instr) (colonCall : Bool) : InstrText :=
  if i.op = .CLOSURE then
    if i.bx < p.children.length then .create i.a i.pc else .stmts [.comment]
  else if consumesOpenResults i.op ∧ i.b = 0 then openText p i
  else .stmts (emitSimple p i colonCall)

/-- The text of a piece of a block. -/
def PcPiece.text (p : Proto) : PcPiece → InstrText
  | simple i colonCall => simpleText p i colonCall
  | jump i _ | branch i _ _ => .stmts (emitPcInstr p ⟨i.pc, i.pc + 1⟩ i.pc).stmts
  | goto target => .stmts [.setPc target]

/-- Where an execution is. -/
inductive Status (W : Type)
  | running (pc : ℤ) (m : Machine W)
  | returned (values : List Value) (m : Machine W)

section Systems

variable {W : Type} (host : Host W) (p : Proto) (start stop : ℕ)

/-- Running texts in order. -/
def execTexts : List InstrText → Exec W Flow
  | [] => return .next none
  | t :: ts => do
    match ← t.exec host p with
    | .returned values => return .returned values
    | .next none => execTexts ts
    | .next (some pc) =>
      match ← execTexts ts with
      | .next none => return .next (some pc)
      | flow => return flow

/-- Where an instruction leads. -/
def Next.status (m : Machine W) : Next → Status W
  | .goto pc => .running pc m
  | .done values => .returned values m

/-- Where a round of the loop leads. -/
def Flow.status (pc : ℤ) (m : Machine W) : Flow → Status W
  | .next none => .running pc m
  | .next (some target) => .running target m
  | .returned values => .returned values m

/-- One instruction, as long as the pc lies in the range; the top of the open results is kept. -/
def vmAdvance : Status W × ℕ → Option (Status W × ℕ)
  | (.running pc m, top) =>
    if start ≤ pc ∧ pc < stop then
      ((vmInstr host p (p.instr pc.toNat) top).run m).map fun x => (x.1.1.status x.2, x.1.2)
    else some (.running pc m, top)
  | (.returned values m, top) => some (.returned values m, top)

/-- The same place, and machines that agree but for idle registers; or the same values. -/
inductive Corresponds : Status W → Status W → Prop
  | running {pc : ℤ} {m n : Machine W} : Agree (Idle host p pc) m n →
      Corresponds (.running pc m) (.running pc n)
  | returned {values : List Value} {m n : Machine W} : m.world = n.world →
      Corresponds (.returned values m) (.returned values n)

end Systems

/-! ## Conditions -/

section Texts

variable {W : Type} {host : Host W} {p : Proto} {block : PcBlock} {m n : Machine W}

/-- The pcs to which a computation can lead are in the list. -/
def LeadsInto (x : Exec W Flow) (ts : List ℤ) : Prop :=
  ∀ m n t, x.run m = some (.next (some t), n) → t ∈ ts

theorem leadsInto_next {ts : List ℤ} : LeadsInto (pure (.next none) : Exec W Flow) ts :=
  fun _ _ _ h => by cases h

theorem leadsInto_returned {values : List Value} {ts : List ℤ} :
    LeadsInto (pure (.returned values) : Exec W Flow) ts := fun _ _ _ h => by cases h

theorem LeadsInto.bind {α : Type} {x : Exec W α} {f : α → Exec W Flow} {ts : List ℤ}
    (h : ∀ a, LeadsInto (f a) ts) : LeadsInto (x >>= f) ts := by
  intro m n t hrun
  obtain ⟨a, k, -, hf⟩ := partial_bind_ok.1 hrun
  exact h a k n t hf

theorem LeadsInto.mono {x : Exec W Flow} {ts ts' : List ℤ} (h : LeadsInto x ts)
    (hsub : ∀ t ∈ ts, t ∈ ts') : LeadsInto x ts' := fun m n t hrun => hsub t (h m n t hrun)

mutual

/-- A statement leads to a pc only by assigning it. -/
theorem leadsInto_exec (rt : Runtime W) (s : Stmt) : LeadsInto (s.exec rt) s.assignedPcs := by
  cases s with
  | setPc pc =>
    intro m n t h
    rw [Stmt.exec_setPc] at h
    cases h
    exact List.mem_singleton_self _
  | ifElse condition yes no =>
    rw [Stmt.exec]
    refine LeadsInto.bind fun v => ?_
    split_ifs
    · exact (leadsInto_execAll rt yes).mono fun t ht => List.mem_append_left _ ht
    · exact (leadsInto_execAll rt no).mono fun t ht => List.mem_append_right _ ht
  | comment => exact leadsInto_next
  | assignVarargs | detach => exact .bind fun _ => leadsInto_next
  | assign | assignUpvalue | assignCall | assignMethodCall =>
    exact .bind fun _ => .bind fun _ => leadsInto_next
  | assignGlobal => exact .bind fun _ => .bind fun _ => .bind fun _ => leadsInto_next
  | assignIndex => exact .bind fun _ => .bind fun _ => .bind fun _ => .bind fun _ => leadsInto_next
  | returnValues | returnCall | returnMethodCall => exact .bind fun _ => leadsInto_returned

theorem leadsInto_execAll (rt : Runtime W) (ss : List Stmt) :
    LeadsInto (execAll rt ss) (assignedPcs ss) := by
  cases ss with
  | nil => exact leadsInto_next
  | cons s ss =>
    intro m n t hrun
    have hs := leadsInto_exec rt s
    have hss := leadsInto_execAll rt ss
    rw [execAll] at hrun
    obtain ⟨flow, k, hflow, hrest⟩ := partial_bind_ok.1 hrun
    show t ∈ s.assignedPcs ++ assignedPcs ss
    rw [List.mem_append]
    rcases flow with (_ | pc) | values
    · exact Or.inr (hss k n t hrest)
    · obtain ⟨flow', k', hflow', hlast⟩ := partial_bind_ok.1 hrest
      rcases flow' with (_ | pc') | values
      · cases hlast
        exact Or.inl (hs m _ _ hflow)
      · cases hlast
        exact Or.inr (hss k _ _ hflow')
      · cases hlast
    · cases hrest

end

end Texts

end ByteVeil.Lua51
