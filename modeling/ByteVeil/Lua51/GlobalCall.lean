import ByteVeil.Lua51.SimpleInstr

/-!
# Calls of globals

`emitRange` emits `GETGLOBAL`, `MOVE` and a call of one argument as one statement.
-/

namespace ByteVeil.Lua51

open Fallible

/-- The three instructions are a call of a global with one argument. -/
def foldsGlobalCall (load move call : Instr) : Bool :=
  load.op == .GETGLOBAL && move.op == .MOVE && (call.op == .CALL || call.op == .TAILCALL) &&
    call.a == load.a && move.a == call.a + 1 && call.b == 2 && (call.op == .TAILCALL || call.c == 1)

/-- A call of a global in one statement. -/
def globalCall (p : Proto) (a : Activation) (pc : ℤ) : Search Step := do
  let load ← codeAt p pc
  ensure (load.op = .GETGLOBAL ∧ pc + 2 < a.stop)
  let move ← codeAt p (pc + 1)
  let call ← codeAt p (pc + 2)
  ensure (foldsGlobalCall load move call = true)
  return {
    parts := [line (.globalCall pc)]
    next := if call.op = .TAILCALL then none else some (pc + 3) }

theorem finds_globalCall {p : Proto} {a : Activation} {pc : ℤ} (ha : a.InRange p) (hpc : 0 ≤ pc)
    (hlt : pc < p.size) : FindsInner p a (globalCall p a pc) := by
  have := ha.stop_le
  unfold FindsInner globalCall
  simp only [finds_bind, finds_codeAt, finds_ensure, finds_pure]
  exact ⟨hpc, hlt, fun h => ⟨by omega, by omega, by omega, by omega, fun _ => by simp⟩⟩

end ByteVeil.Lua51
