import Mathlib.Data.List.Basic
import Mathlib.Tactic.Common

/-!
# Computations that may fail

How a successful run over `Except` splits into the runs of its parts.
-/

namespace Fallible

variable {ε α β : Type}

/-- A bind succeeds when both parts do. -/
theorem except_bind_ok {x : Except ε α} {f : α → Except ε β} {b : β} :
    (x >>= f) = .ok b ↔ ∃ a, x = .ok a ∧ f a = .ok b := by
  cases x with
  | error e => simp [bind, Except.bind]
  | ok a => simp [bind, Except.bind]

@[simp] theorem pure_ok {a b : α} : (pure a : Except ε α) = .ok b ↔ a = b := by
  simp [pure, Except.pure]

theorem throw_ne_ok {e : ε} {a : α} : (throw e : Except ε α) ≠ .ok a := by
  simp [throw, throwThe, MonadExceptOf.throw]

theorem forM_ok {l : List α} {f : α → Except ε Unit} (h : l.forM f = .ok ()) :
    ∀ a ∈ l, f a = .ok () := by
  induction l with
  | nil => simp
  | cons a l ih =>
    obtain ⟨⟨⟩, ha, hl⟩ := except_bind_ok.1 (show (f a >>= fun _ => l.forM f) = _ from h)
    exact List.forall_mem_cons.2 ⟨ha, ih hl⟩

theorem forIn_ok {l : List α} {f : α → Except ε Unit} {u : PUnit}
    (h : (forIn l PUnit.unit fun a _ => do f a; pure (ForInStep.yield PUnit.unit)) = .ok u) :
    ∀ a ∈ l, f a = .ok () := by
  induction l with
  | nil => simp
  | cons a l ih =>
    rw [List.forIn_cons] at h
    obtain ⟨r, hr, hrest⟩ := except_bind_ok.1 h
    obtain ⟨⟨⟩, ha, hr⟩ := except_bind_ok.1 hr
    obtain rfl := pure_ok.1 hr
    exact List.forall_mem_cons.2 ⟨ha, ih hrest⟩

theorem forIn_ok_iff {l : List α} {f : α → Except ε Unit} :
    (forIn l PUnit.unit fun a _ => do f a; pure (ForInStep.yield PUnit.unit)) = .ok PUnit.unit ↔
      ∀ a ∈ l, f a = .ok () := by
  refine ⟨forIn_ok, fun h => ?_⟩
  induction l with
  | nil => rfl
  | cons a l ih =>
    obtain ⟨ha, hl⟩ := List.forall_mem_cons.1 h
    rw [List.forIn_cons, ha]
    exact ih hl

/-- A loop that fails fails as one of its rounds. -/
theorem forIn_error {l : List α} {f : α → Except ε Unit} {e : ε}
    (h : (forIn l PUnit.unit fun a _ => do f a; pure (ForInStep.yield PUnit.unit)) = .error e) :
    ∃ a ∈ l, f a = .error e := by
  induction l with
  | nil => simp [pure, Except.pure] at h
  | cons a l ih =>
    rw [List.forIn_cons] at h
    cases ha : f a with
    | error e' =>
      rw [ha] at h
      obtain rfl : e' = e := by simpa [bind, Except.bind] using h
      exact ⟨a, List.mem_cons_self, ha⟩
    | ok u =>
      rw [ha] at h
      obtain ⟨b, hb, hfail⟩ := ih h
      exact ⟨b, List.mem_cons_of_mem _ hb, hfail⟩

theorem mapM_ok {l : List α} {f : α → Except ε β} {g : α → β} (h : ∀ a ∈ l, f a = .ok (g a)) :
    l.mapM f = .ok (l.map g) := by
  induction l with
  | nil => rfl
  | cons a l ih =>
    obtain ⟨ha, hl⟩ := List.forall_mem_cons.1 h
    rw [List.mapM_cons, ha, ih hl]
    rfl

theorem foldlM_ok {σ : Type} {l : List α} {f : σ → α → Except ε σ} {s t : σ}
    (h : l.foldlM f s = .ok t) : ∀ a ∈ l, ∃ s s', f s a = .ok s' := by
  induction l generalizing s with
  | nil => simp
  | cons a l ih =>
    rw [List.foldlM_cons] at h
    obtain ⟨s', ha, hrest⟩ := except_bind_ok.1 h
    exact List.forall_mem_cons.2 ⟨⟨s, s', ha⟩, ih hrest⟩

theorem foldlM_range_invariant {σ : Type} {step : σ → ℕ → Except ε σ} {P : ℕ → σ → Prop}
    (hstep : ∀ n s s', P n s → step s n = .ok s' → P (n + 1) s') {s s' : σ} (n : ℕ) (h₀ : P 0 s)
    (h : (List.range n).foldlM step s = .ok s') : P n s' := by
  induction n generalizing s' with
  | zero =>
    simp only [List.range_zero, List.foldlM_nil, pure, Except.pure, Except.ok.injEq] at h
    exact h ▸ h₀
  | succ n ih =>
    rw [List.range_succ, List.foldlM_append, except_bind_ok] at h
    obtain ⟨t, ht, hlast⟩ := h
    rw [List.foldlM_cons, except_bind_ok] at hlast
    obtain ⟨u, hu, hnil⟩ := hlast
    simp only [List.foldlM_nil, pure, Except.pure, Except.ok.injEq] at hnil
    exact hnil ▸ hstep n t u (ih ht) hu

end Fallible
