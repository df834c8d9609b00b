import Mathlib.Logic.Relation
import Mathlib.Tactic.Common

/-!
# Outcomes of runs

A system takes steps until one of them fails or halts with a result. When from related states one step
of a second system stands for one or more steps of the first one, the runs of both have the same
outcome, and neither of them runs on where the other one ends.
-/

namespace Fallible

variable {σ τ ρ : Type}

/-- The steps of a system: each of them fails, goes on or halts. -/
abbrev Steps (σ ρ : Type) := σ → Option (σ ⊕ ρ)

/-- The step leads from one state to the next one. -/
def GoesOn (f : Steps σ ρ) (s s' : σ) : Prop := f s = some (.inl s')

/-- Steps one after the other. -/
def Reaches (f : Steps σ ρ) : σ → σ → Prop := Relation.ReflTransGen (GoesOn f)

/-- The run from a state ends; a failure has no result. -/
inductive Outcome (f : Steps σ ρ) : σ → Option ρ → Prop
  | fails {s : σ} (h : f s = none) : Outcome f s none
  | halts {s : σ} {r : ρ} (h : f s = some (.inr r)) : Outcome f s (some r)
  | step {s s' : σ} {o : Option ρ} (h : GoesOn f s s') (hs : Outcome f s' o) : Outcome f s o

/-- What the first system does for one step of the second one. -/
inductive StandsFor (f : Steps σ ρ) (R : σ → τ → Prop) (s : σ) : Option (τ ⊕ ρ) → Prop
  | fails (h : Outcome f s none) : StandsFor f R s none
  | halts {r : ρ} (h : Outcome f s (some r)) : StandsFor f R s (some (.inr r))
  | goes {s₁ s' : σ} {t' : τ} (hstep : GoesOn f s s₁) (hrun : Reaches f s₁ s') (hR : R s' t') :
    StandsFor f R s (some (.inl t'))

/-- From related states a step of `g` stands for steps of `f`. -/
def Matches (f : Steps σ ρ) (g : Steps τ ρ) (R : σ → τ → Prop) : Prop :=
  ∀ s t, R s t → StandsFor f R s (g t)

section Outcomes

variable {f : Steps σ ρ} {s s' : σ} {o o' : Option ρ}

theorem GoesOn.unique {s'' : σ} (h : GoesOn f s s') (h' : GoesOn f s s'') : s' = s'' :=
  Sum.inl.inj (Option.some.inj (h.symm.trans h'))

theorem GoesOn.outcome_iff (h : GoesOn f s s') : Outcome f s o ↔ Outcome f s' o := by
  constructor
  · intro ho
    cases ho with
    | fails hnone => cases h.symm.trans hnone
    | halts hsome => cases h.symm.trans hsome
    | step h' hs => rwa [h.unique h']
  · exact .step h

theorem Reaches.outcome_iff (h : Reaches f s s') : Outcome f s o ↔ Outcome f s' o := by
  induction h with
  | refl => exact Iff.rfl
  | tail _ hstep ih => exact ih.trans hstep.outcome_iff

theorem Outcome.unique (h : Outcome f s o) (h' : Outcome f s o') : o = o' := by
  induction h with
  | fails hnone =>
    cases h' with
    | fails => rfl
    | halts hsome => cases hnone.symm.trans hsome
    | step hstep => cases hnone.symm.trans hstep
  | halts hsome =>
    cases h' with
    | fails hnone => cases hnone.symm.trans hsome
    | halts hsome' => rw [Sum.inr.inj (Option.some.inj (hsome.symm.trans hsome'))]
    | step hstep => cases hsome.symm.trans hstep
  | step hstep _ ih => exact ih (hstep.outcome_iff.1 h')

/-- A run that ends is finite. -/
theorem Outcome.acc (h : Outcome f s o) : Acc (fun s' s => GoesOn f s s') s := by
  induction h with
  | fails hnone => exact ⟨_, fun s' hstep => by cases hnone.symm.trans hstep⟩
  | halts hsome => exact ⟨_, fun s' hstep => by cases hsome.symm.trans hstep⟩
  | step hstep _ ih => exact ⟨_, fun s'' hstep' => hstep.unique hstep' ▸ ih⟩

end Outcomes

theorem Reaches.head {f : Steps σ ρ} {s s' s'' : σ} (h : GoesOn f s s') (h' : Reaches f s' s'') :
    Reaches f s s'' :=
  Relation.ReflTransGen.head h h'

/-- What holds of the state behind a step holds of the one before it. -/
theorem StandsFor.before {f : Steps σ ρ} {R : σ → τ → Prop} {s s' : σ} {o : Option (τ ⊕ ρ)}
    (hstep : GoesOn f s s') (h : StandsFor f R s' o) : StandsFor f R s o := by
  cases h with
  | fails h => exact .fails (.step hstep h)
  | halts h => exact .halts (.step hstep h)
  | goes hnext hrun hR => exact .goes hstep (hrun.head hnext) hR

section Matches

variable {f : Steps σ ρ} {g : Steps τ ρ} {R : σ → τ → Prop} {s : σ} {t : τ} {o : Option ρ}

theorem Matches.of_second (h : Matches f g R) (hR : R s t) (ho : Outcome g t o) : Outcome f s o := by
  induction ho generalizing s with
  | fails hnone =>
    have hs := h s _ hR
    rw [hnone] at hs
    cases hs with
    | fails hs => exact hs
  | halts hsome =>
    have hs := h s _ hR
    rw [hsome] at hs
    cases hs with
    | halts hs => exact hs
  | step hstep _ ih =>
    have hs := h s _ hR
    rw [hstep] at hs
    cases hs with
    | goes hgoes hrun hR' => exact .step hgoes (hrun.outcome_iff.2 (ih hR'))

theorem Matches.of_first (h : Matches f g R) (hR : R s t) (ho : Outcome f s o) : Outcome g t o := by
  have hacc := ho.acc.transGen
  induction hacc generalizing t with
  | intro s _ ih =>
    have hs := h s t hR
    cases hg : g t with
    | none =>
      rw [hg] at hs
      cases hs with
      | fails hs =>
        rw [ho.unique hs]
        exact .fails hg
    | some next =>
      rw [hg] at hs
      cases hs with
      | halts hs =>
        rw [ho.unique hs]
        exact .halts hg
      | @goes s₁ s' t' hgoes hrun hR' =>
        -- the run from `s'` on is shorter
        have hlater : Relation.TransGen (fun s' s => GoesOn f s s') s' s :=
          Relation.transGen_swap.1 (Relation.TransGen.head' hgoes hrun)
        exact .step hg (ih s' hlater hR' (hrun.outcome_iff.1 (hgoes.outcome_iff.1 ho)))

/-- The runs from related states have the same outcome. -/
theorem Matches.outcome_iff (h : Matches f g R) (hR : R s t) : Outcome f s o ↔ Outcome g t o :=
  ⟨h.of_first hR, h.of_second hR⟩

end Matches

end Fallible
