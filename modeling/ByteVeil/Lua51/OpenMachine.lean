import ByteVeil.Fallible.Unread
import ByteVeil.Lua51.ArgumentSetup

/-!
# The virtual machine with open results

The effect of every instruction, with closures and open operand lists. A producer of open results
puts them into the registers from its own on and remembers their top; the next instruction takes its
operands up to there.

1. The effect of an instruction; without open operands it is the one of `vmStep`.
2. The registers that an instruction needs, and the pcs at which a register is needed.
3. From machines that differ in registers that are not needed an instruction does the same.
-/

namespace ByteVeil.Lua51

open Fallible

/-! ## Instructions -/

section Step

variable {W : Type} (host : Host W) (p : Proto) (i : Instr)

/-- The length of an operand list from `first` on: its own, or up to the top of the open results. -/
def listLength (first fixed top : ℕ) : ℕ := if i.b = 0 then top - first else fixed

/-- The function of a call and its arguments. -/
def vmCall (top : ℕ) : Exec W (List Value) := do
  let function ← reg i.a
  let arguments ← (List.range' (i.a + 1) (listLength i (i.a + 1) (i.b - 1) top)).mapM reg
  host.call function arguments

/-- Open results in the registers from `A` on, and their top. -/
def putOpen (values : List Value) : Exec W (Next × ℕ) := do
  setRegs (List.range' i.a values.length) values
  return (.goto (i.pc + 1), i.a + values.length)

/-- The effect of an instruction, and the top of the open results behind it. -/
def vmInstr (top : ℕ) : Exec W (Next × ℕ) := do
  match i.op with
  | .CALL =>
    let results ← vmCall host i top
    if i.c = 0 then putOpen i results
    else
      setRegs (List.range' i.a (i.c - 1)) results
      return (.goto (i.pc + 1), top)
  | .TAILCALL => return (.done (← vmCall host i top), top)
  | .RETURN => return (.done (← (List.range' i.a (listLength i i.a (i.b - 1) top)).mapM reg), top)
  | .SETLIST =>
    (List.range' 1 (listLength i (i.a + 1) i.b top)).forM fun k => do
      let key := host.ofInteger (setlistBase i + k)
      host.setIndex (← reg i.a) (.number key) (← reg (i.a + k))
    return (.goto (if i.c = 0 then i.pc + 2 else i.pc + 1), top)
  | .VARARG =>
    if i.b = 0 then putOpen i host.varargs
    else
      setRegs (List.range' i.a (i.b - 1)) host.varargs
      return (.goto (i.pc + 1), top)
  | .CLOSURE =>
    setReg i.a (← host.newClosure i.pc)
    return (.goto (i.pc + 1 + i.captures.length), top)
  | _ => return (← vmStep host.toRuntime p i, top)

theorem listLength_closed {first fixed top : ℕ} (h : i.b ≠ 0) : listLength i first fixed top = fixed :=
  if_neg h

/-- Without open operands an instruction does what `vmStep` says. -/
theorem vmInstr_closed (h : fixedOperands i = true) (top : ℕ) :
    vmInstr host p i top = (do return (← vmStep host.toRuntime p i, top)) := by
  unfold vmInstr
  unfold fixedOperands at h
  cases hop : i.op <;> simp only [hop] at h ⊢
  case CALL =>
    rw [Bool.and_eq_true, bne_iff_ne, bne_iff_ne] at h
    unfold vmStep vmCall
    rw [hop]
    dsimp only
    rw [listLength_closed i h.1, require_bind (by simp [h.1, h.2])]
    simp only [bind_assoc, pure_bind, if_neg h.2]
  case TAILCALL =>
    have hb := bne_iff_ne.1 h
    unfold vmStep vmCall
    rw [hop]
    dsimp only
    rw [listLength_closed i hb, require_bind (by simp [hb])]
    simp only [bind_assoc, pure_bind]
  case RETURN =>
    have hb := bne_iff_ne.1 h
    unfold vmStep
    rw [hop]
    dsimp only
    rw [listLength_closed i hb, require_bind (by simp [hb])]
    simp only [bind_assoc, pure_bind]
  case SETLIST =>
    have hb := bne_iff_ne.1 h
    unfold vmStep
    rw [hop]
    dsimp only
    rw [listLength_closed i hb, require_bind (by simp [hb])]
    simp only [bind_assoc, pure_bind]
  case VARARG =>
    have hb := bne_iff_ne.1 h
    unfold vmStep
    rw [hop]
    dsimp only
    rw [if_neg hb, require_bind (by simp [hb])]
    simp only [bind_assoc, pure_bind]
  case CLOSURE => exact absurd h (by decide)

end Step

/-! ## Needed registers -/

/-- The operands of an instruction that it takes from registers; open results are not among them. -/
def usesAt (p : Proto) (pc r : ℕ) : Bool :=
  let i := p.instr pc
  if consumesOpenResults i.op ∧ i.b = 0 then
    decide (i.a ≤ r) && decide (r < (p.instr (pc - 1)).a)
  else i.uses r

/-- On some way from a pc on what `r` holds there is used before it is overwritten. -/
inductive NeededAt (p : Proto) (r : ℕ) : ℤ → Prop
  | used {pc : ℕ} : IsExecutable p pc → usesAt p pc r = true → NeededAt p r pc
  | later {pc : ℕ} {o : Outcome} : IsExecutable p pc → o ∈ outcomes p (p.instr pc) →
      o.written r = none → NeededAt p r o.next → NeededAt p r pc

/-- The registers as locations of the machine. -/
def registerLocations (W : Type) : Locations (Machine W) ℕ Value where
  location := registerLocation
  comm m r s v w h := by
    show Machine.mk (Function.update (Function.update m.regs r v) s w) m.world =
      Machine.mk (Function.update (Function.update m.regs s w) r v) m.world
    rw [Function.update_comm h.symm]

section Unread

variable {W : Type} {dead : ℕ → Prop} {m n : Machine W}

/-- The same machine but for the contents of the registers `dead`. -/
abbrev Agree (dead : ℕ → Prop) (m n : Machine W) : Prop := SameExcept (registerLocations W) dead m n

/-- The computation does not tell machines apart that agree but for the registers `dead`. -/
abbrev Disregards {α : Type} (dead : ℕ → Prop) (x : Exec W α) (still : α → ℕ → Prop) : Prop :=
  Unread (registerLocations W) dead x still

theorem agree_regs (h : Agree dead m n) {r : ℕ} (hr : ¬dead r) : m.regs r = n.regs r :=
  h.get_eq hr

theorem disregards_reg {r : ℕ} (hr : ¬dead r) : Disregards dead (reg (W := W) r) fun _ => dead := by
  intro m n h v m' hrun
  obtain ⟨rfl, rfl⟩ := Prod.mk.inj (Option.some.inj hrun)
  exact ⟨n, by rw [run_reg, agree_regs h hr], h⟩

theorem disregards_registers {first count : ℕ} (h : ∀ r, dead r → ¬(first ≤ r ∧ r < first + count)) :
    Disregards dead ((List.range' first count).mapM (reg (W := W))) fun _ => dead :=
  Unread.mapM fun s hs => disregards_reg fun hdead => h s hdead (List.mem_range'_1.1 hs)

theorem disregards_operation {α : Type} {x : Exec W α} (h : ∀ r, dead r → Ignores r x) :
    Disregards dead x fun _ => dead := unread_of_commutes fun r hr m v => h r hr m v

section Host

variable {host : Host W} (hhost : ∀ r, dead r → Unshared host r)
include hhost

end Host

section Instructions

variable {host : Host W} (hhost : ∀ r, dead r → Unshared host r) {p : Proto} {i : Instr} {top : ℕ}
include hhost

theorem disregards_vmCall (h : ∀ r, dead r → ¬(i.a ≤ r ∧
    r < i.a + 1 + listLength i (i.a + 1) (i.b - 1) top)) :
    Disregards dead (vmCall host i top) fun _ => dead := by
  unfold vmCall
  refine (disregards_reg fun ha => h _ ha ⟨le_rfl, by omega⟩).bind fun f => ?_
  refine (disregards_registers fun r hr hrange => h r hr ⟨by omega, hrange.2⟩).bind fun vs => ?_
  exact disregards_operation fun r hr => (hhost r hr).call f vs

end Instructions

end Unread

/-! ## Idle registers -/

section Idle

variable {W : Type} {host : Host W} {p : Proto} {pc : ℕ} {r : ℕ}

/-- The register is not needed at the pc and nothing outside the function shares it. -/
structure Idle (host : Host W) (p : Proto) (pc : ℤ) (r : ℕ) : Prop where
  unshared : Unshared host r
  not_needed : ¬NeededAt p r pc

/-- An idle register that is not written stays idle. -/
theorem Idle.later (hpc : IsExecutable p pc) {o : Outcome} (ho : o ∈ outcomes p (p.instr pc))
    (hw : o.written r = none) (h : Idle host p pc r) : Idle host p o.next r :=
  ⟨h.unshared, fun hneeded => h.not_needed (.later hpc ho hw hneeded)⟩

end Idle

end ByteVeil.Lua51
