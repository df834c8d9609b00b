import Mathlib.Data.Option.Basic
import Mathlib.Tactic.Common

/-!
# Runs that keep pace

Two systems that take steps and may fail. When from related states some steps of the first are
matched by one step of the second, every run of the second one is accounted for by a run of the first.
-/

namespace Fallible

variable {σ τ : Type}

/-- The state after a number of steps, unless one of them fails. -/
def after (step : σ → Option σ) : ℕ → σ → Option σ
  | 0, s => some s
  | n + 1, s => step s >>= after step n

/-- No step of the run from `s` fails. -/
def Unfailing (step : σ → Option σ) (s : σ) : Prop := ∀ n, (after step n s).isSome = true

/-- Some steps of `f` are matched by one step of `g`, from related states to related states. -/
def KeepsPace (f : σ → Option σ) (g : τ → Option τ) (R : σ → τ → Prop) : Prop :=
  ∀ s t, R s t → Unfailing f s →
    ∃ n > 0, ∃ s' t', after f n s = some s' ∧ g t = some t' ∧ R s' t'

variable {f : σ → Option σ} {g : τ → Option τ} {R : σ → τ → Prop}

theorem after_add (m n : ℕ) (s : σ) : after f (m + n) s = after f m s >>= after f n := by
  induction m generalizing s with
  | zero => rw [Nat.zero_add]; rfl
  | succ m ih =>
    rw [Nat.succ_add]
    show f s >>= after f (m + n) = (f s >>= after f m) >>= after f n
    rw [bind_assoc]
    exact bind_congr ih

theorem after_trans {m n : ℕ} {s s' s'' : σ} (h : after f m s = some s')
    (h' : after f n s' = some s'') : after f (m + n) s = some s'' := by
  rw [after_add, h]
  exact h'

theorem after_one {s s' : σ} (h : f s = some s') : after f 1 s = some s' := by
  show f s >>= after f 0 = some s'
  rw [h]
  rfl

theorem Unfailing.after {n : ℕ} {s s' : σ} (h : Unfailing f s) (hs : after f n s = some s') :
    Unfailing f s' := by
  intro k
  have hk := h (n + k)
  rwa [after_add, hs] at hk

theorem Unfailing.step {s : σ} (h : Unfailing f s) : ∃ s', f s = some s' ∧ Unfailing f s' := by
  obtain ⟨s', hs'⟩ := Option.isSome_iff_exists.1 (h 1)
  have hstep : f s = some s' := by
    cases hf : f s with
    | none =>
      have hnone : (f s >>= Fallible.after f 0) = some s' := hs'
      rw [hf] at hnone
      cases hnone
    | some t =>
      have hsome : (f s >>= Fallible.after f 0) = some s' := hs'
      rw [hf] at hsome
      exact hsome
  exact ⟨s', hstep, h.after hs'⟩

/-- However far the second system runs, the first one runs at least as far, to a related state. -/
theorem KeepsPace.run (h : KeepsPace f g R) {s : σ} {t : τ} (hR : R s t) (hs : Unfailing f s)
    (k : ℕ) : ∃ n ≥ k, ∃ s' t', after f n s = some s' ∧ after g k t = some t' ∧ R s' t' := by
  induction k generalizing s t with
  | zero => exact ⟨0, Nat.le_refl 0, s, t, rfl, rfl, hR⟩
  | succ k ih =>
    obtain ⟨n, hn, s₁, t₁, hs₁, ht₁, hR₁⟩ := h s t hR hs
    obtain ⟨n', hn', s', t', hs', ht', hR'⟩ := ih hR₁ (hs.after hs₁)
    refine ⟨n + n', by omega, s', t', after_trans hs₁ hs', ?_, hR'⟩
    show g t >>= after g k = some t'
    rw [ht₁]
    exact ht'

end Fallible
