import ByteVeil.Fallible.Lockstep

/-!
# Computations that do not read a location

A stateful computation that may fail is independent of a location when its outcome does not depend on
what the location holds, and the location is either left alone or given a content of its own. A
computation that always gives it such a content forgets what was there.
-/

namespace Fallible

/-- A location of a state. -/
structure Location (σ ν : Type) where
  get : σ → ν
  set : σ → ν → σ
  get_set : ∀ s v, get (set s v) = v
  set_get : ∀ s, set s (get s) = s
  set_set : ∀ s v w, set (set s v) w = set s w

variable {σ ν α β : Type} (l : Location σ ν)

/-- The outcomes of a computation from two states that differ in the location, which holds `u` in the
first and `v` in the second. -/
inductive SameBut (u v : ν) : Option (α × σ) → Option (α × σ) → Prop
  | fail : SameBut u v none none
  | kept (a : α) (s : σ) : l.get s = u → SameBut u v (some (a, s)) (some (a, l.set s v))
  | overwritten (a : α) (s : σ) : SameBut u v (some (a, s)) (some (a, s))

/-- The computation does not read the location. -/
def Independent (x : Partial σ α) : Prop :=
  ∀ s v, SameBut l (l.get s) v (x.run s) (x.run (l.set s v))

/-- The computation overwrites the location without reading it. -/
def Forgets (x : Partial σ α) : Prop := ∀ s v, x.run (l.set s v) = x.run s

variable {l} {x : Partial σ α} {f : α → Partial σ β}

theorem sameBut_refl {u v : ν} (y : Option (α × σ)) : SameBut l u v y y := by
  cases y with
  | none => exact .fail
  | some y => exact .overwritten y.1 y.2

theorem Forgets.independent (h : Forgets l x) : Independent l x := by
  intro s v
  rw [h s v]
  exact sameBut_refl _

theorem independent_pure (a : α) : Independent l (pure a) := fun s _ => .kept a s rfl

theorem independent_failure : Independent l (failure : Partial σ α) := fun _ _ => .fail

theorem Independent.bind (hx : Independent l x) (hf : ∀ a, Independent l (f a)) :
    Independent l (x >>= f) := by
  intro s v
  rw [StateT.run_bind, StateT.run_bind]
  have h := hx s v
  generalize x.run s = y at h ⊢
  generalize x.run (l.set s v) = z at h ⊢
  cases h with
  | fail => exact .fail
  | kept a t ht =>
    rw [← ht]
    exact hf a t v
  | overwritten a t => exact sameBut_refl _

theorem Forgets.bind (hx : Forgets l x) (f : α → Partial σ β) : Forgets l (x >>= f) := by
  intro s v
  rw [StateT.run_bind, StateT.run_bind, hx s v]

/-- A computation that does not read the location and then overwrites it. -/
theorem Independent.bind_forgets (hx : Independent l x) (hf : ∀ a, Forgets l (f a)) :
    Forgets l (x >>= f) := by
  intro s v
  rw [StateT.run_bind, StateT.run_bind]
  have h := hx s v
  generalize x.run s = y at h ⊢
  generalize x.run (l.set s v) = z at h ⊢
  cases h with
  | fail => rfl
  | kept a t ht => exact hf a t v
  | overwritten a t => rfl

theorem Independent.mapM {γ : Type} {g : γ → Partial σ α} {ys : List γ}
    (h : ∀ y ∈ ys, Independent l (g y)) : Independent l (ys.mapM g) := by
  induction ys with
  | nil => exact independent_pure []
  | cons y ys ih =>
    rw [List.mapM_cons]
    exact (h y List.mem_cons_self).bind fun a =>
      (ih fun z hz => h z (List.mem_cons_of_mem y hz)).bind fun as => independent_pure _

theorem Independent.forM {γ : Type} {g : γ → Partial σ Unit} {ys : List γ}
    (h : ∀ y ∈ ys, Independent l (g y)) : Independent l (ys.forM g) := by
  induction ys with
  | nil => exact independent_pure ()
  | cons y ys ih =>
    show Independent l (g y >>= fun _ => ys.forM g)
    exact (h y List.mem_cons_self).bind fun _ => ih fun z hz => h z (List.mem_cons_of_mem y hz)

/-- An operation that neither reads nor changes the location. -/
theorem independent_of_commutes
    (h : ∀ s v, x.run (l.set s v) = (x.run s).map fun y => (y.1, l.set y.2 v)) :
    Independent l x := by
  intro s v
  rw [h s v]
  have hs := h s (l.get s)
  rw [l.set_get] at hs
  cases hx : x.run s with
  | none => exact .fail
  | some y =>
    rw [hx] at hs
    have hy : y.2 = l.set y.2 (l.get s) := congrArg Prod.snd (Option.some.inj hs)
    refine .kept y.1 y.2 ?_
    rw [hy, l.get_set]

end Fallible
