import ByteVeil.Fallible.Lockstep

/-!
# Two computations together

Stateful computations that may fail, run side by side: from states in one relation either both fail,
or both succeed with results and states in another one, which may depend on the results. The rules
follow the structure of the computations.
-/

namespace Fallible

variable {σ τ α β γ δ : Type}

/-- From states related by `P` both computations fail, or both succeed with outcomes related by `Q`. -/
def Together (P : σ → τ → Prop) (x : Partial σ α) (y : Partial τ β)
    (Q : α → β → σ → τ → Prop) : Prop :=
  ∀ s t, P s t → Option.Rel (fun u v => Q u.1 v.1 u.2 v.2) (x.run s) (y.run t)

/-- Both have the same result, and the states are related by `R` as before. -/
def Same (R : σ → τ → Prop) (a b : α) (s : σ) (t : τ) : Prop := a = b ∧ R s t

variable {P P' R : σ → τ → Prop} {x : Partial σ α} {y : Partial τ β} {Q Q' : α → β → σ → τ → Prop}

theorem rel_mono {A B : Type} {r r' : A → B → Prop} (h : ∀ a b, r a b → r' a b) {u : Option A}
    {v : Option B} (huv : Option.Rel r u v) : Option.Rel r' u v := by
  cases huv with
  | none => exact .none
  | some hab => exact .some (h _ _ hab)

theorem rel_cases {A B : Type} {r : A → B → Prop} {u : Option A} {v : Option B}
    (h : Option.Rel r u v) : (u = none ∧ v = none) ∨ ∃ a b, u = some a ∧ v = some b ∧ r a b := by
  cases h with
  | none => exact .inl ⟨rfl, rfl⟩
  | some hab => exact .inr ⟨_, _, rfl, rfl, hab⟩

theorem together_pure {a : α} {b : β} (h : ∀ s t, P s t → Q a b s t) :
    Together P (pure a) (pure b) Q :=
  fun s t hP => .some (h s t hP)

theorem together_fail {x : Partial σ α} {y : Partial τ β} (hx : ∀ s, x.run s = none)
    (hy : ∀ t, y.run t = none) : Together P x y Q := by
  intro s t _
  rw [hx, hy]
  exact .none

theorem Together.mono (h : Together P x y Q) (hP : ∀ s t, P' s t → P s t)
    (hQ : ∀ a b s t, Q a b s t → Q' a b s t) : Together P' x y Q' :=
  fun s t hst => rel_mono (fun _ _ huv => hQ _ _ _ _ huv) (h s t (hP s t hst))

theorem Together.bind {f : α → Partial σ γ} {g : β → Partial τ δ} {M : α → β → σ → τ → Prop}
    {T : γ → δ → σ → τ → Prop} (h : Together P x y M)
    (hf : ∀ a b, Together (M a b) (f a) (g b) T) : Together P (x >>= f) (y >>= g) T := by
  intro s t hP
  rw [StateT.run_bind, StateT.run_bind]
  rcases rel_cases (h s t hP) with ⟨hs, ht⟩ | ⟨u, v, hs, ht, hM⟩
  · rw [hs, ht]
    exact .none
  · rw [hs, ht]
    exact hf u.1 v.1 u.2 v.2 hM

/-- Behind a step with the same result on both sides. -/
theorem Together.bind_same {y : Partial τ α} {f : α → Partial σ γ} {g : α → Partial τ δ}
    {T : γ → δ → σ → τ → Prop} (h : Together P x y (Same R)) (hf : ∀ a, Together R (f a) (g a) T) :
    Together P (x >>= f) (y >>= g) T := by
  refine h.bind fun a b => ?_
  rintro s t ⟨rfl, hR⟩
  exact hf a s t hR

/-- The elements of a list, one after the other. -/
theorem Together.mapM {f : γ → Partial σ α} {g : γ → Partial τ α} {l : List γ}
    (h : ∀ c ∈ l, Together R (f c) (g c) (Same R)) : Together R (l.mapM f) (l.mapM g) (Same R) := by
  induction l with
  | nil => exact together_pure fun _ _ hR => ⟨rfl, hR⟩
  | cons c l ih =>
    rw [List.mapM_cons, List.mapM_cons]
    refine (h c List.mem_cons_self).bind_same fun a => ?_
    refine (ih fun d hd => h d (List.mem_cons_of_mem c hd)).bind_same fun as => ?_
    exact together_pure fun _ _ hR => ⟨rfl, hR⟩

/-- A loop over a list. -/
theorem Together.forIn {f : γ → Partial σ Unit} {g : γ → Partial τ Unit} {l : List γ}
    (h : ∀ c ∈ l, Together R (f c) (g c) (Same R)) :
    Together R (ForIn.forIn l PUnit.unit fun c _ => f c >>= fun _ => pure (.yield PUnit.unit))
      (ForIn.forIn l PUnit.unit fun c _ => g c >>= fun _ => pure (.yield PUnit.unit)) (Same R) := by
  induction l with
  | nil => exact together_pure fun _ _ hR => ⟨rfl, hR⟩
  | cons c l ih =>
    rw [List.forIn_cons, List.forIn_cons, bind_assoc, bind_assoc]
    refine (h c List.mem_cons_self).bind_same fun _ => ?_
    rw [pure_bind, pure_bind]
    exact ih fun d hd => h d (List.mem_cons_of_mem c hd)

end Fallible
