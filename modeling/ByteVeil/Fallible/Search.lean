import Mathlib.Data.Int.Order.Basic
import Mathlib.Data.List.GetD
import Mathlib.Tactic.Common

/-!
# Searches that read a list

A search reads a list by position, and ends with what it looks for, or with the answer that it is not
there. Reading outside the list is a fault. `Finds` says that a search has no fault, and what holds
of its result.
-/

namespace Fallible

variable {α β σ : Type}

/-! ## Searches -/

/-- Why a search has no result: it is not there, or the search read outside the list. -/
inductive Miss
  | absent | outside
  deriving DecidableEq

/-- A search. -/
abbrev Search := Except Miss

/-- Go on where the condition holds. -/
def ensure (c : Prop) [Decidable c] : Search Unit := if c then .ok () else .error .absent

/-- The element at a position. -/
def fetch (xs : List α) (k : ℤ) : Search α :=
  if 0 ≤ k then
    match xs[k.toNat]? with
    | some x => .ok x
    | none => .error .outside
  else .error .outside

/-- Whether there is a result. -/
def attempt (x : Search α) : Search (Option α) :=
  match x with
  | .ok a => .ok (some a)
  | .error .absent => .ok none
  | .error .outside => .error .outside

/-- The first result. -/
def firstOf : List (Search α) → Search α
  | [] => .error .absent
  | x :: xs =>
    match x with
    | .error .absent => firstOf xs
    | y => y

/-- `c && x`: the second is looked at where the first holds. -/
def both (c : Prop) [Decidable c] (x : Search Bool) : Search Bool := if c then x else .ok false

/-- The integers from `start` to before `stop`. -/
def interval (start stop : ℤ) : List ℤ :=
  (List.range (stop - start).toNat).map fun (n : ℕ) => start + n

/-- Whether the test holds of some of the elements; the search ends at the first. -/
def anyOf (test : ℤ → Search Bool) : List ℤ → Search Bool
  | [] => .ok false
  | k :: ks => do if ← test k then .ok true else anyOf test ks

/-- Step over at most `n` positions while the test holds. -/
def skipWhile (test : ℤ → Search Bool) : ℕ → ℤ → Search ℤ
  | 0, k => .ok k
  | n + 1, k => do if ← test k then skipWhile test n (k + 1) else .ok k

/-! ## What a search finds -/

/-- The search has no fault, and `P` holds of its result. -/
def Finds (x : Search α) (P : α → Prop) : Prop :=
  match x with
  | .ok a => P a
  | .error .absent => True
  | .error .outside => False

variable {x : Search α} {P Q : α → Prop}

theorem finds_ok {a : α} : Finds (.ok a : Search α) P ↔ P a := Iff.rfl

theorem finds_pure {a : α} : Finds (pure a : Search α) P ↔ P a := Iff.rfl

theorem finds_absent : Finds (.error .absent : Search α) P := trivial

theorem finds_bind {f : α → Search β} {R : β → Prop} :
    Finds (x >>= f) R ↔ Finds x fun a => Finds (f a) R := by
  match x with
  | .ok a => exact Iff.rfl
  | .error .absent => exact Iff.rfl
  | .error .outside => exact Iff.rfl

theorem Finds.mono (h : Finds x P) (hP : ∀ a, P a → Q a) : Finds x Q := by
  match x, h with
  | .ok a, h => exact hP a h
  | .error .absent, _ => trivial

theorem Finds.result (h : Finds x P) {a : α} (hx : x = .ok a) : P a := by
  subst hx
  exact h

theorem finds_ensure {c : Prop} [Decidable c] {P : Unit → Prop} :
    Finds (ensure c) P ↔ (c → P ()) := by
  unfold ensure
  split_ifs with hc
  · exact ⟨fun h _ => h, fun h => h hc⟩
  · exact ⟨fun _ h => absurd h hc, fun _ => trivial⟩

theorem finds_ite {c : Prop} [Decidable c] {y : Search α} :
    Finds (if c then x else y) P ↔ (c → Finds x P) ∧ (¬c → Finds y P) := by
  split_ifs with hc
  · exact ⟨fun h => ⟨fun _ => h, fun hn => absurd hc hn⟩, fun h => h.1 hc⟩
  · exact ⟨fun h => ⟨fun hn => absurd hn hc, fun _ => h⟩, fun h => h.2 hc⟩

theorem finds_fetch [Inhabited α] {xs : List α} {k : ℤ} : Finds (fetch xs k) P ↔
    0 ≤ k ∧ k < xs.length ∧ P (xs.getD k.toNat default) := by
  unfold fetch
  split_ifs with hk
  · by_cases hlt : k.toNat < xs.length
    · rw [List.getElem?_eq_getElem hlt, List.getD_eq_getElem _ _ hlt]
      exact ⟨fun h => ⟨hk, by omega, h⟩, fun h => h.2.2⟩
    · rw [List.getElem?_eq_none (by omega)]
      exact ⟨fun h => h.elim, fun h => absurd h.2.1 (by omega)⟩
  · exact ⟨fun h => h.elim, fun h => absurd h.1 hk⟩

theorem finds_attempt {P : Option α → Prop} : Finds (attempt x) P ↔
    Finds x (fun a => P (some a)) ∧ (x = .error .absent → P none) := by
  match x with
  | .ok a => exact ⟨fun h => ⟨h, fun h => nomatch h⟩, fun h => h.1⟩
  | .error .absent => exact ⟨fun h => ⟨trivial, fun _ => h⟩, fun h => h.2 rfl⟩
  | .error .outside => exact ⟨fun h => h.elim, fun h => h.1.elim⟩

theorem finds_firstOf {xs : List (Search α)} (h : ∀ x ∈ xs, Finds x P) : Finds (firstOf xs) P := by
  induction xs with
  | nil => trivial
  | cons x xs ih =>
    have hx := h x List.mem_cons_self
    unfold firstOf
    match x, hx with
    | .ok a, hx => exact hx
    | .error .absent, _ => exact ih fun y hy => h y (List.mem_cons_of_mem _ hy)

theorem finds_both {c : Prop} [Decidable c] {y : Search Bool} {P : Bool → Prop} :
    Finds (both c y) P ↔ (c → Finds y P) ∧ (¬c → P false) :=
  finds_ite

theorem mem_interval {start stop k : ℤ} : k ∈ interval start stop ↔ start ≤ k ∧ k < stop := by
  unfold interval
  rw [List.mem_map]
  constructor
  · rintro ⟨n, hn, rfl⟩
    rw [List.mem_range] at hn
    omega
  · rintro ⟨hstart, hstop⟩
    exact ⟨(k - start).toNat, List.mem_range.2 (by omega), by omega⟩

theorem finds_anyOf {test : ℤ → Search Bool} {ks : List ℤ} {P : Bool → Prop}
    (htest : ∀ k ∈ ks, Finds (test k) fun _ => True) (hP : ∀ b, P b) :
    Finds (anyOf test ks) P := by
  induction ks with
  | nil => exact hP false
  | cons k ks ih =>
    unfold anyOf
    rw [finds_bind]
    refine (htest k List.mem_cons_self).mono fun b _ => ?_
    rw [finds_ite]
    exact ⟨fun _ => hP true, fun _ => ih fun j hj => htest j (List.mem_cons_of_mem _ hj)⟩

/-- Where the test is passed, the position has moved on to before `stop`. -/
theorem finds_skipWhile {test : ℤ → Search Bool} {n : ℕ} {k : ℤ} {P : ℤ → Prop} (stop : ℤ)
    (htest : ∀ j, k ≤ j → Finds (test j) fun b => b = true → j < stop)
    (hP : ∀ j, k ≤ j → (j = k ∨ j ≤ stop) → P j) : Finds (skipWhile test n k) P := by
  induction n generalizing k with
  | zero => exact hP k le_rfl (Or.inl rfl)
  | succ n ih =>
    unfold skipWhile
    rw [finds_bind]
    refine (htest k le_rfl).mono fun b hb => ?_
    rw [finds_ite]
    refine ⟨fun h => ?_, fun _ => hP k le_rfl (Or.inl rfl)⟩
    have hlt := hb h
    refine ih (fun j hj => htest j (by omega)) fun j hj hstop => hP j (by omega) (Or.inr ?_)
    omega

/-- What a loop keeps. -/
theorem finds_foldlM {f : σ → β → Search σ} {I P : σ → Prop} {xs : List β} {s : σ} (hs : I s)
    (hf : ∀ x ∈ xs, ∀ s, I s → Finds (f s x) I) (hP : ∀ s, I s → P s) :
    Finds (xs.foldlM f s) P := by
  induction xs generalizing s with
  | nil => exact hP s hs
  | cons x xs ih =>
    rw [List.foldlM_cons, finds_bind]
    exact (hf x List.mem_cons_self s hs).mono fun s' hs' =>
      ih hs' fun y hy => hf y (List.mem_cons_of_mem _ hy)

/-- What each search of a list finds. -/
theorem finds_mapM {f : α → Search β} {Q : β → Prop} {xs : List α}
    (h : ∀ a ∈ xs, Finds (f a) Q) : Finds (xs.mapM f) fun ys => ∀ y ∈ ys, Q y := by
  induction xs with
  | nil => simp [finds_pure]
  | cons a xs ih =>
    rw [List.mapM_cons, finds_bind]
    refine (h a List.mem_cons_self).mono fun y hy => ?_
    rw [finds_bind]
    refine (ih fun b hb => h b (List.mem_cons_of_mem _ hb)).mono fun ys hys => ?_
    rw [finds_pure]
    exact List.forall_mem_cons.2 ⟨hy, hys⟩

/-! ## Searches that always have a result -/

/-- The search does not end without a result. -/
def Settles (x : Search α) : Prop := x ≠ .error .absent

theorem settles_ok {a : α} : Settles (.ok a : Search α) := by
  intro h
  cases h

theorem settles_bind {f : α → Search β} (hx : Settles x) (hf : ∀ a, Settles (f a)) :
    Settles (x >>= f) := by
  match x with
  | .ok a => exact hf a
  | .error .absent => exact absurd rfl hx
  | .error .outside => exact fun h => by cases h

theorem settles_ite {c : Prop} [Decidable c] {y : Search α} (hx : Settles x) (hy : Settles y) :
    Settles (if c then x else y) := by
  split_ifs
  · exact hx
  · exact hy

theorem settles_fetch {xs : List α} {k : ℤ} : Settles (fetch xs k) := by
  unfold fetch
  refine settles_ite ?_ (fun h => by cases h)
  split
  · exact settles_ok
  · exact fun h => by cases h

theorem settles_anyOf {test : ℤ → Search Bool} {ks : List ℤ} (h : ∀ k, Settles (test k)) :
    Settles (anyOf test ks) := by
  induction ks with
  | nil => exact settles_ok
  | cons k ks ih => exact settles_bind (h k) fun _ => settles_ite settles_ok ih

/-- One of several searches always has a result. -/
theorem settles_firstOf {xs : List (Search α)} (hmem : x ∈ xs) (hx : Settles x) :
    Settles (firstOf xs) := by
  induction xs with
  | nil => cases hmem
  | cons y ys ih =>
    unfold firstOf
    match y, hmem with
    | .ok a, _ => exact settles_ok
    | .error .outside, _ => exact fun h => by cases h
    | .error .absent, hmem =>
      rcases List.mem_cons.1 hmem with rfl | hmem
      · exact absurd rfl hx
      · exact ih hmem

theorem Finds.exists_ok (h : Finds x P) (hx : Settles x) : ∃ a, x = .ok a ∧ P a := by
  match x, h with
  | .ok a, h => exact ⟨a, rfl, h⟩
  | .error .absent, _ => exact absurd rfl hx

end Fallible
