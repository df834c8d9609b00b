import ByteVeil.Fallible.Independent
import Mathlib.Logic.Relation

/-!
# Computations that do not read some locations

States that differ in the contents of some locations at most, and computations that cannot tell them
apart. Other than for one location, the locations that may still differ behind a computation are part
of what is said about it, and may depend on its result.
-/

namespace Fallible

/-- Locations that are written independently of each other. -/
structure Locations (σ ι ν : Type) where
  location : ι → Location σ ν
  comm : ∀ s i j v w, i ≠ j → (location j).set ((location i).set s v) w =
    (location i).set ((location j).set s w) v

variable {σ ι ν α β : Type} (L : Locations σ ι ν)

/-- The same state but for the content of one of the locations `dead`. -/
def Changed (dead : ι → Prop) (s t : σ) : Prop := ∃ i v, dead i ∧ t = (L.location i).set s v

/-- The same state but for the contents of the locations `dead`. -/
def SameExcept (dead : ι → Prop) : σ → σ → Prop := Relation.ReflTransGen (Changed L dead)

/-- Run from states that differ in the locations `dead` at most, the computation has the same result
and ends in states that differ in the locations `still` of the result at most. -/
def Unread (dead : ι → Prop) (x : Partial σ α) (still : α → ι → Prop) : Prop :=
  ∀ s t, SameExcept L dead s t → ∀ a s', x.run s = some (a, s') →
    ∃ t', x.run t = some (a, t') ∧ SameExcept L (still a) s' t'

variable {L} {dead dead' : ι → Prop} {s t u : σ}

/-! ## States -/

theorem Locations.get_of_ne {i j : ι} (h : i ≠ j) (s : σ) (v : ν) :
    (L.location i).get ((L.location j).set s v) = (L.location i).get s := by
  have hset : (L.location i).set ((L.location j).set s v) ((L.location i).get s) =
      (L.location j).set s v := by
    rw [L.comm s j i v _ h.symm, (L.location i).set_get]
  rw [← hset, (L.location i).get_set]

theorem SameExcept.refl (s : σ) : SameExcept L dead s s := Relation.ReflTransGen.refl

theorem SameExcept.trans (h : SameExcept L dead s t) (h' : SameExcept L dead t u) :
    SameExcept L dead s u := Relation.ReflTransGen.trans h h'

theorem SameExcept.mono (h : SameExcept L dead s t) (hdead : ∀ i, dead i → dead' i) :
    SameExcept L dead' s t := by
  refine Relation.ReflTransGen.mono ?_ s t h
  rintro s t ⟨i, v, hi, rfl⟩
  exact ⟨i, v, hdead i hi, rfl⟩

theorem SameExcept.symm (h : SameExcept L dead s t) : SameExcept L dead t s := by
  induction h with
  | refl => exact .refl _
  | @tail t u _ hchange ih =>
    obtain ⟨i, v, hi, rfl⟩ := hchange
    refine Relation.ReflTransGen.head ⟨i, (L.location i).get t, hi, ?_⟩ ih
    rw [(L.location i).set_set, (L.location i).set_get]

/-- Writing a location in which the states may differ. -/
theorem SameExcept.set_right (h : SameExcept L dead s t) {i : ι} (hi : dead i) (v : ν) :
    SameExcept L dead s ((L.location i).set t v) :=
  Relation.ReflTransGen.tail h ⟨i, v, hi, rfl⟩

theorem SameExcept.set_left (h : SameExcept L dead s t) {i : ι} (hi : dead i) (v : ν) :
    SameExcept L dead ((L.location i).set s v) t :=
  (h.symm.set_right hi v).symm

theorem SameExcept.get_eq (h : SameExcept L dead s t) {i : ι} (hi : ¬dead i) :
    (L.location i).get s = (L.location i).get t := by
  induction h with
  | refl => rfl
  | tail _ hchange ih =>
    obtain ⟨j, w, hj, rfl⟩ := hchange
    have hij : i ≠ j := fun heq => hi (heq ▸ hj)
    rw [ih, L.get_of_ne hij]

variable {x : Partial σ α} {f : α → Partial σ β} {still mid : α → ι → Prop} {later : β → ι → Prop}

theorem unread_pure {a : α} (h : ∀ i, dead i → still a i) : Unread L dead (pure a) still := by
  intro s t hst b s' hrun
  obtain ⟨rfl, rfl⟩ := Prod.mk.inj (Option.some.inj hrun)
  exact ⟨t, rfl, hst.mono h⟩

theorem Unread.bind (hx : Unread L dead x mid) (hf : ∀ a, Unread L (mid a) (f a) later) :
    Unread L dead (x >>= f) later := by
  intro s t h b s' hrun
  obtain ⟨a, s₁, ha, hb⟩ := partial_bind_ok.1 hrun
  obtain ⟨t₁, ht₁, h₁⟩ := hx s t h a s₁ ha
  obtain ⟨t', ht', h'⟩ := hf a s₁ t₁ h₁ b s' hb
  exact ⟨t', partial_bind_ok.2 ⟨a, t₁, ht₁, ht'⟩, h'⟩

/-- Less need be said about the locations. -/
theorem Unread.mono (hx : Unread L dead x mid) (h : ∀ a i, mid a i → still a i) :
    Unread L dead x still := by
  intro s t hst a s' hrun
  obtain ⟨t', ht', h'⟩ := hx s t hst a s' hrun
  exact ⟨t', ht', h'.mono (h a)⟩

/-- An operation that neither reads nor changes the locations. -/
theorem unread_of_commutes (h : ∀ i, dead i → ∀ s v, x.run ((L.location i).set s v) =
    (x.run s).map fun y => (y.1, (L.location i).set y.2 v)) : Unread L dead x fun _ => dead := by
  intro s t hst a s' hrun
  induction hst with
  | refl => exact ⟨s', hrun, .refl _⟩
  | tail _ hchange ih =>
    obtain ⟨i, v, hi, rfl⟩ := hchange
    obtain ⟨t', ht', h'⟩ := ih
    refine ⟨(L.location i).set t' v, ?_, h'.set_right hi v⟩
    rw [h i hi, ht']
    rfl

theorem Unread.mapM {γ : Type} {g : γ → Partial σ α} {ys : List γ}
    (h : ∀ y ∈ ys, Unread L dead (g y) fun _ => dead) :
    Unread L dead (ys.mapM g) fun _ => dead := by
  induction ys with
  | nil => exact unread_pure fun _ h => h
  | cons y ys ih =>
    rw [List.mapM_cons]
    exact (h y List.mem_cons_self).bind fun a =>
      (ih fun z hz => h z (List.mem_cons_of_mem y hz)).bind fun as =>
        unread_pure fun _ h => h

theorem Unread.forM {γ : Type} {g : γ → Partial σ Unit} {ys : List γ}
    (h : ∀ y ∈ ys, Unread L dead (g y) fun _ => dead) :
    Unread L dead (ys.forM g) fun _ => dead := by
  induction ys with
  | nil => exact unread_pure fun _ h => h
  | cons y ys ih =>
    show Unread L dead (g y >>= fun _ => ys.forM g) fun _ => dead
    exact (h y List.mem_cons_self).bind fun _ => ih fun z hz => h z (List.mem_cons_of_mem y hz)

end Fallible
