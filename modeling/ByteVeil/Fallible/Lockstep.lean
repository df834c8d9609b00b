import Mathlib.Control.Monad.Basic
import Mathlib.Data.List.Basic
import Mathlib.Data.Option.Basic
import Mathlib.Tactic.Common

/-!
# Two computations in lockstep

Stateful computations that may fail, run side by side from related states: either both fail, or both
succeed with related states and results. The rules follow the structure of the computations.
-/

namespace Fallible

/-- Stateful computations that may fail. -/
abbrev Partial (σ α : Type) := StateT σ Option α

/-- A computation a number of times, with all its results. -/
def gather {σ α : Type} : ℕ → Partial σ α → Partial σ (List α)
  | 0, _ => pure []
  | n + 1, x => do
    let a ← x
    return a :: (← gather n x)

/-- A computation a number of times. -/
def repeated {σ : Type} : ℕ → Partial σ Unit → Partial σ Unit
  | 0, _ => pure ()
  | n + 1, x => do
    x
    repeated n x

/-- A failure unless the state meets the condition. -/
def demand {σ : Type} (c : σ → Bool) : Partial σ Unit := fun s => if c s then some ((), s) else none

/-- A value read off the state. -/
def inspect {σ α : Type} (f : σ → α) : Partial σ α := fun s => some (f s, s)

section Results

variable {σ α β : Type}

/-- A bind succeeds when both parts do. -/
theorem partial_bind_ok {x : Partial σ α} {f : α → Partial σ β} {s s' : σ} {b : β} :
    (x >>= f).run s = some (b, s') ↔
      ∃ a s₁, x.run s = some (a, s₁) ∧ (f a).run s₁ = some (b, s') := by
  rw [StateT.run_bind, Option.bind_eq_bind, Option.bind_eq_some_iff]
  exact Prod.exists

theorem demand_ok {c : σ → Bool} {s s' : σ} {u : Unit} :
    (demand c).run s = some (u, s') ↔ c s = true ∧ s = s' := by
  show (if c s then some ((), s) else none) = some (u, s') ↔ _
  split_ifs with hc
  · simp [hc]
  · simp [hc]

theorem inspect_ok {f : σ → α} {s s' : σ} {a : α} :
    (inspect f).run s = some (a, s') ↔ f s = a ∧ s = s' := by
  show some (f s, s) = some (a, s') ↔ _
  rw [Option.some.injEq, Prod.mk.injEq]

theorem modify_ok {f : σ → σ} {s s' : σ} {u : Unit} :
    (modify f : Partial σ Unit).run s = some (u, s') ↔ f s = s' := by
  show some ((), f s) = some (u, s') ↔ _
  rw [Option.some.injEq, Prod.mk.injEq]
  exact and_iff_right rfl

theorem gather_length {x : Partial σ α} {n : ℕ} {s s' : σ} {l : List α}
    (h : (gather n x).run s = some (l, s')) : l.length = n := by
  induction n generalizing s s' l with
  | zero =>
    obtain ⟨rfl, -⟩ := Prod.mk.inj (Option.some.inj h)
    rfl
  | succ n ih =>
    obtain ⟨a, s₁, -, h⟩ := partial_bind_ok.1 h
    obtain ⟨l, s₂, hl, h⟩ := partial_bind_ok.1 h
    obtain ⟨rfl, -⟩ := Prod.mk.inj (Option.some.inj h)
    rw [List.length_cons, ih hl]

end Results

section Lockstep

variable {σ τ α β γ δ : Type} {R : σ → τ → Prop}

/-- From related states both computations fail, or both succeed with related outcomes. -/
def Lockstep (R : σ → τ → Prop) (Q : α → β → Prop) (x : Partial σ α) (y : Partial τ β) : Prop :=
  ∀ s t, R s t → Option.Rel (fun u v => Q u.1 v.1 ∧ R u.2 v.2) (x.run s) (y.run t)

variable {Q : α → β → Prop} {P : γ → δ → Prop} {x : Partial σ α} {y : Partial τ β}

theorem lockstep_pure {a : α} {b : β} (h : Q a b) : Lockstep R Q (pure a) (pure b) :=
  fun _ _ hR => .some ⟨h, hR⟩

theorem lockstep_failure : Lockstep R Q (failure : Partial σ α) (failure : Partial τ β) :=
  fun _ _ _ => .none

theorem Lockstep.bind {f : α → Partial σ γ} {g : β → Partial τ δ} (h : Lockstep R Q x y)
    (hf : ∀ a b, Q a b → Lockstep R P (f a) (g b)) : Lockstep R P (x >>= f) (y >>= g) := by
  intro s t hR
  rw [StateT.run_bind, StateT.run_bind]
  have hx := h s t hR
  cases hs : x.run s with
  | none =>
    rw [hs] at hx
    cases ht : y.run t with
    | none => exact .none
    | some v => rw [ht] at hx; cases hx
  | some u =>
    rw [hs] at hx
    cases ht : y.run t with
    | none => rw [ht] at hx; cases hx
    | some v =>
      rw [ht] at hx
      cases hx with
      | some hx => exact hf u.1 v.1 hx.1 u.2 v.2 hx.2

theorem lockstep_demand {c : σ → Bool} {d : τ → Bool} (h : ∀ s t, R s t → c s = d t) :
    Lockstep R (fun _ _ => True) (demand c) (demand d) := by
  intro s t hR
  show Option.Rel _ (if c s then some ((), s) else none) (if d t then some ((), t) else none)
  rw [h s t hR]
  split_ifs
  · exact .some ⟨trivial, hR⟩
  · exact .none

theorem lockstep_inspect {f : σ → α} {g : τ → β} (h : ∀ s t, R s t → Q (f s) (g t)) :
    Lockstep R Q (inspect f) (inspect g) := fun s t hR => .some ⟨h s t hR, hR⟩

theorem lockstep_modify {f : σ → σ} {g : τ → τ} (h : ∀ s t, R s t → R (f s) (g t)) :
    Lockstep R (fun _ _ => True) (modify f : Partial σ Unit) (modify g : Partial τ Unit) :=
  fun s t hR => .some ⟨trivial, h s t hR⟩

/-- The second computation may end by changing its result. -/
theorem Lockstep.map_right {P : α → δ → Prop} {g : β → δ} (h : Lockstep R Q x y) (hg : ∀ a b, Q a b → P a (g b)) :
    Lockstep R P x (y >>= fun b => pure (g b)) := by
  have hbind : Lockstep R P (x >>= pure) (y >>= fun b => pure (g b)) :=
    h.bind fun a b hab => lockstep_pure (hg a b hab)
  rwa [bind_pure] at hbind

/-- A computation without results against one that gathers its own. -/
theorem lockstep_repeated {x : Partial σ Unit} (h : Lockstep R (fun _ _ => True) x y) (n : ℕ) :
    Lockstep R (fun _ _ => True) (repeated n x) (gather n y) := by
  induction n with
  | zero => exact lockstep_pure trivial
  | succ n ih =>
    exact h.bind fun _ _ _ => ih.map_right fun _ _ _ => trivial

/-- What is left when both have run. -/
theorem Lockstep.run (h : Lockstep R Q x y) {s : σ} {t : τ} (hR : R s t) :
    (x.run s = none ∧ y.run t = none) ∨
      ∃ a s' b t', x.run s = some (a, s') ∧ y.run t = some (b, t') ∧ Q a b ∧ R s' t' := by
  have hx := h s t hR
  cases hs : x.run s with
  | none =>
    rw [hs] at hx
    cases ht : y.run t with
    | none => exact .inl ⟨rfl, rfl⟩
    | some v => rw [ht] at hx; cases hx
  | some u =>
    rw [hs] at hx
    cases ht : y.run t with
    | none => rw [ht] at hx; cases hx
    | some v =>
      rw [ht] at hx
      cases hx with
      | some hx => exact .inr ⟨u.1, u.2, v.1, v.2, rfl, rfl, hx.1, hx.2⟩

end Lockstep

end Fallible
