import ByteVeil.Fallible.Except

/-!
# Computations whose state moves along a relation

A stateful computation that may fail moves along a reflexive and transitive relation when every
successful run ends in a state to which the relation leads from the one it started in.
-/

namespace Fallible

/-- Every successful run leads along `R`. -/
def Moves {ε σ α : Type} (R : σ → σ → Prop) (x : StateT σ (Except ε) α) : Prop :=
  ∀ s a s', x s = .ok (a, s') → R s s'

variable {ε σ α β : Type} {R : σ → σ → Prop} {x : StateT σ (Except ε) α}

theorem stateT_bind_ok {f : α → StateT σ (Except ε) β} {s s' : σ} {b : β} :
    (x >>= f) s = .ok (b, s') ↔ ∃ a t, x s = .ok (a, t) ∧ f a t = .ok (b, s') := by
  show (x s >>= fun y => f y.1 y.2) = _ ↔ _
  rw [except_bind_ok, Prod.exists]

theorem moves_throw (e : ε) : Moves R (throw e : StateT σ (Except ε) α) := by
  intro s a s' h
  simp [throw, throwThe, MonadExceptOf.throw, StateT.lift, bind, Except.bind] at h

theorem Moves.bind [IsTrans σ R] {f : α → StateT σ (Except ε) β} (hx : Moves R x)
    (hf : ∀ a, Moves R (f a)) : Moves R (x >>= f) := by
  intro s b s' h
  obtain ⟨a, t, ha, hb⟩ := stateT_bind_ok.1 h
  exact IsTrans.trans s t s' (hx s a t ha) (hf a t b s' hb)

theorem moves_modify {f : σ → σ} (h : ∀ s, R s (f s)) :
    Moves R (modify f : StateT σ (Except ε) Unit) := by
  intro s a s' hrun
  obtain ⟨-, rfl⟩ := Prod.mk.inj (Except.ok.inj hrun)
  exact h s

/-- The state is read, checked, and replaced by one further along. -/
theorem moves_update [IsTrans σ R] {f : σ → σ} (h : ∀ s, R s (f s))
    {check : σ → StateT σ (Except ε) Unit} (hcheck : ∀ s a s', check s s = .ok (a, s') → s' = s)
    {rest : σ → StateT σ (Except ε) β} (hrest : ∀ s, Moves R (rest s)) :
    Moves R (get >>= fun s => check s >>= fun _ => set (f s) >>= fun _ => rest s) := by
  intro s b s' hrun
  obtain ⟨s₁, t₁, hget, hrun⟩ := stateT_bind_ok.1 hrun
  obtain ⟨rfl, rfl⟩ := Prod.mk.inj (Except.ok.inj hget)
  obtain ⟨a, t₂, ha, hrun⟩ := stateT_bind_ok.1 hrun
  obtain rfl := hcheck _ a t₂ ha
  obtain ⟨u, t₃, hset, hrun⟩ := stateT_bind_ok.1 hrun
  obtain ⟨-, rfl⟩ := Prod.mk.inj (Except.ok.inj hset)
  exact IsTrans.trans _ _ s' (h t₂) (hrest t₂ (f t₂) b s' hrun)

section Rules

variable [Std.Refl R]

theorem moves_pure (a : α) : Moves R (pure a : StateT σ (Except ε) α) := by
  intro s b s' h
  obtain ⟨-, rfl⟩ := Prod.mk.inj (Except.ok.inj h)
  exact Std.Refl.refl s

theorem moves_lift (y : Except ε α) : Moves R (liftM y : StateT σ (Except ε) α) := by
  intro s a s' h
  cases y with
  | error e => cases h
  | ok b =>
    obtain ⟨-, rfl⟩ := Prod.mk.inj (Except.ok.inj h)
    exact Std.Refl.refl s

theorem moves_get : Moves R (get : StateT σ (Except ε) σ) := by
  intro s a s' h
  obtain ⟨-, rfl⟩ := Prod.mk.inj (Except.ok.inj h)
  exact Std.Refl.refl s

theorem Moves.mapM [IsTrans σ R] {γ : Type} {g : γ → StateT σ (Except ε) α} {ys : List γ}
    (h : ∀ y ∈ ys, Moves R (g y)) : Moves R (ys.mapM g) := by
  induction ys with
  | nil => exact moves_pure []
  | cons y ys ih =>
    rw [List.mapM_cons]
    exact (h y List.mem_cons_self).bind fun a =>
      (ih fun z hz => h z (List.mem_cons_of_mem y hz)).bind fun as => moves_pure _

/-- Every result of a sequence comes from a state along the way. -/
theorem mapM_from [IsTrans σ R] {γ : Type} {g : γ → StateT σ (Except ε) α} {ys : List γ}
    (h : ∀ y ∈ ys, Moves R (g y)) {s s' : σ} {as : List α} (hrun : ys.mapM g s = .ok (as, s')) :
    ∀ a ∈ as, ∃ y ∈ ys, ∃ t t', R s t ∧ g y t = .ok (a, t') := by
  induction ys generalizing s s' as with
  | nil =>
    obtain ⟨rfl, -⟩ := Prod.mk.inj (Except.ok.inj hrun)
    exact fun a ha => absurd ha List.not_mem_nil
  | cons y ys ih =>
    rw [List.mapM_cons] at hrun
    obtain ⟨b, t, hb, hrun⟩ := stateT_bind_ok.1 hrun
    obtain ⟨bs, t', hbs, hrun⟩ := stateT_bind_ok.1 hrun
    obtain ⟨rfl, -⟩ := Prod.mk.inj (Except.ok.inj hrun)
    intro a ha
    rcases List.mem_cons.1 ha with rfl | ha
    · exact ⟨y, List.mem_cons_self, s, t, Std.Refl.refl s, hb⟩
    · obtain ⟨z, hz, u, u', hu, ha⟩ := ih (fun z hz => h z (List.mem_cons_of_mem y hz)) hbs a ha
      exact ⟨z, List.mem_cons_of_mem y hz, u, u',
        IsTrans.trans s t u (h y List.mem_cons_self s b t hb) hu, ha⟩

end Rules

end Fallible
