import ByteVeil.Fallible.Moves

/-!
# Refinement of computations with errors

A stateful computation refines another one when from related states it fails where the other one
fails, with the translated error, and otherwise ends in a related state with the same result. The
rules follow the structure of the computations.
-/

namespace Fallible

variable {ε δ σ τ α β : Type}

/-- `x` does what `y` does, from related states to related states. -/
def Refines (R : σ → τ → Prop) (translate : ε → δ) (x : StateT σ (Except δ) α)
    (y : StateT τ (Except ε) α) : Prop :=
  ∀ s t, R s t → (∀ e, y t = .error e → x s = .error (translate e)) ∧
    ∀ a t', y t = .ok (a, t') → ∃ s', x s = .ok (a, s') ∧ R s' t'

variable {R : σ → τ → Prop} {translate : ε → δ} {x : StateT σ (Except δ) α}
  {y : StateT τ (Except ε) α}

theorem refines_pure (a : α) :
    Refines R translate (pure a : StateT σ (Except δ) α) (pure a : StateT τ (Except ε) α) := by
  intro s t hR
  refine ⟨nofun, fun b t' h => ?_⟩
  obtain ⟨rfl, rfl⟩ := Prod.mk.inj (Except.ok.inj h)
  exact ⟨s, rfl, hR⟩

theorem refines_throw (e : ε) :
    Refines R translate (throw (translate e) : StateT σ (Except δ) α)
      (throw e : StateT τ (Except ε) α) := by
  intro s t _
  refine ⟨fun e' h => ?_, fun b t' h => by cases h⟩
  obtain rfl := Except.error.inj h
  rfl

theorem Refines.bind {f : α → StateT σ (Except δ) β} {g : α → StateT τ (Except ε) β}
    (h : Refines R translate x y) (hf : ∀ a, Refines R translate (f a) (g a)) :
    Refines R translate (x >>= f) (y >>= g) := by
  intro s t hR
  obtain ⟨herror, hok⟩ := h s t hR
  show (∀ e, (y t >>= fun p => g p.1 p.2) = .error e →
      (x s >>= fun p => f p.1 p.2) = .error (translate e)) ∧
    ∀ b t', (y t >>= fun p => g p.1 p.2) = .ok (b, t') →
      ∃ s', (x s >>= fun p => f p.1 p.2) = .ok (b, s') ∧ R s' t'
  cases hy : y t with
  | error e =>
    rw [herror e hy]
    refine ⟨fun e' h => ?_, fun b t' h => by cases h⟩
    obtain rfl := Except.error.inj h
    rfl
  | ok p =>
    obtain ⟨s', hs', hR'⟩ := hok p.1 p.2 hy
    rw [hs']
    exact hf p.1 s' p.2 hR'

/-- A value that does not depend on the state, or an error. -/
theorem refines_lift {v : Except δ α} {w : Except ε α} (herror : ∀ e, w = .error e → v = .error (translate e))
    (hok : ∀ a, w = .ok a → v = .ok a) :
    Refines R translate (liftM v : StateT σ (Except δ) α) (liftM w : StateT τ (Except ε) α) := by
  intro s t hR
  cases w with
  | error e =>
    rw [herror e rfl]
    refine ⟨fun e' h => ?_, fun b t' h => by cases h⟩
    obtain rfl := Except.error.inj h
    rfl
  | ok a =>
    rw [hok a rfl]
    refine ⟨nofun, fun b t' h => ?_⟩
    obtain ⟨rfl, rfl⟩ := Prod.mk.inj (Except.ok.inj h)
    exact ⟨s, rfl, hR⟩

/-- The state is checked against an error and then replaced. -/
theorem refines_update {x : StateT σ (Except δ) Unit} {check : τ → StateT τ (Except ε) Unit}
    {f : τ → τ} {k : StateT σ (Except δ) α} {l : StateT τ (Except ε) α}
    (hcheck : ∀ s t, R s t → (∃ e, check t t = .error e ∧ x s = .error (translate e)) ∨
      check t t = .ok ((), t) ∧ ∃ s', x s = .ok ((), s') ∧ R s' (f t))
    (hk : Refines R translate k l) :
    Refines R translate (x >>= fun _ => k)
      (get >>= fun t => check t >>= fun _ => set (f t) >>= fun _ => l) := by
  intro s t hR
  show (∀ e, (check t t >>= fun p => l (f t)) = .error e →
      (x s >>= fun p => k p.2) = .error (translate e)) ∧
    ∀ a t', (check t t >>= fun p => l (f t)) = .ok (a, t') →
      ∃ s', (x s >>= fun p => k p.2) = .ok (a, s') ∧ R s' t'
  rcases hcheck s t hR with ⟨e, hcheck, hx⟩ | ⟨hcheck, s', hx, hR'⟩
  · rw [hcheck, hx]
    refine ⟨fun e' h => ?_, nofun⟩
    obtain rfl := Except.error.inj h
    rfl
  · rw [hcheck, hx]
    exact hk s' (f t) hR'

/-- Both states may be looked at. -/
theorem refines_get {f : σ → StateT σ (Except δ) β} {g : τ → StateT τ (Except ε) β}
    (h : ∀ s t, R s t → Refines R translate (f s) (g t)) :
    Refines R translate (get >>= f) (get >>= g) :=
  fun s t hR => h s t hR s t hR

theorem refines_modify {f : σ → σ} {g : τ → τ} (h : ∀ s t, R s t → R (f s) (g t)) :
    Refines R translate (modify f : StateT σ (Except δ) Unit)
      (modify g : StateT τ (Except ε) Unit) := by
  intro s t hR
  refine ⟨nofun, fun a t' hrun => ?_⟩
  obtain ⟨-, rfl⟩ := Prod.mk.inj (Except.ok.inj hrun)
  exact ⟨f s, rfl, h s t hR⟩

/-- The same number of times. -/
theorem refines_replicate (h : Refines R translate x y) (n : ℕ) :
    Refines R translate ((List.replicate n x).mapM id) ((List.replicate n y).mapM id) := by
  induction n with
  | zero => exact refines_pure []
  | succ n ih =>
    rw [List.replicate_succ, List.replicate_succ, List.mapM_cons, List.mapM_cons]
    exact h.bind fun a => ih.bind fun as => refines_pure _

end Fallible
