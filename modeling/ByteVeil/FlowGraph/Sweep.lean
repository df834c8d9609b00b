import Mathlib.Data.List.Basic
import Mathlib.Data.Fintype.Card
import Mathlib.Data.Fintype.Pigeonhole
import Mathlib.Tactic.Common

/-!
# Sweeping until nothing changes

A round applies a step at every index of a list and remembers whether one of them changed the state;
rounds are repeated until one changes nothing. The rules: an invariant of the steps holds at the end
(`settle_invariant`), and where a measure drops with every change the end is a fixpoint of every step
(`settle_fixed`). Where each step writes one row of the state, a round gives every row its value from
the rows already visited and the old ones (`sweep_rows`).
-/

namespace FlowGraph

variable {σ ι : Type*} (step : ι → σ → σ × Bool)

/-- A step under a flag that stays up once it is up. -/
def flagged (acc : σ × Bool) (i : ι) : σ × Bool :=
  ((step i acc.1).1, acc.2 || (step i acc.1).2)

/-- One round over `order`, with the flag that some step changed the state. -/
def sweep (order : List ι) (s : σ) : σ × Bool := order.foldl (flagged step) (s, false)

/-- Rounds until one of them changes nothing, at most `fuel` many. -/
def settle (order : List ι) : ℕ → σ → σ
  | 0, s => s
  | fuel + 1, s =>
    let r := sweep step order s
    if r.2 then settle order fuel r.1 else r.1

/-- Rounds without a bound: from the first state the rounds end with the second. -/
inductive Settles (order : List ι) : σ → σ → Prop
  | quiet {s : σ} : (sweep step order s).2 = false → Settles order s (sweep step order s).1
  | again {s t : σ} : (sweep step order s).2 = true → Settles order (sweep step order s).1 t →
      Settles order s t

variable {step} {order : List ι} {P : σ → Prop}

theorem foldl_invariant {τ : Type*} {f : τ → ι → τ} {Q : τ → Prop}
    (h : ∀ i ∈ order, ∀ t, Q t → Q (f t i)) {t : τ} (ht : Q t) : Q (order.foldl f t) := by
  induction order generalizing t with
  | nil => exact ht
  | cons i order ih =>
    exact ih (fun j hj => h j (List.mem_cons_of_mem _ hj)) (h i (List.mem_cons_self ..) t ht)

theorem sweep_invariant (h : ∀ i ∈ order, ∀ s, P s → P (step i s).1) {s : σ} (hs : P s) :
    P (sweep step order s).1 :=
  foldl_invariant (f := flagged step) (Q := fun t => P t.1) (t := (s, false))
    (fun i hi t ht => h i hi t.1 ht) hs

theorem settle_invariant (h : ∀ i ∈ order, ∀ s, P s → P (step i s).1) (fuel : ℕ) {s : σ}
    (hs : P s) : P (settle step order fuel s) := by
  induction fuel generalizing s with
  | zero => exact hs
  | succ fuel ih =>
    have hr := sweep_invariant h hs
    unfold settle
    by_cases hf : (sweep step order s).2 = true
    · simpa only [hf, if_true] using ih hr
    · simpa only [if_neg hf] using hr

/-- The state of a round whose flag stays down never moves. -/
theorem flagged_quiet {acc : σ × Bool} (hP : ∀ i ∈ order, ∀ s, P s → P (step i s).1)
    (hquiet : ∀ i ∈ order, ∀ s, P s → (step i s).2 = false → (step i s).1 = s)
    (hs : P acc.1) (hf : (order.foldl (flagged step) acc).2 = false) :
    acc.2 = false ∧ (∀ i ∈ order, step i acc.1 = (acc.1, false)) ∧
      (order.foldl (flagged step) acc).1 = acc.1 := by
  induction order generalizing acc with
  | nil => exact ⟨hf, by simp, rfl⟩
  | cons i l ih =>
    rw [List.foldl_cons] at hf ⊢
    have hi : i ∈ i :: l := List.mem_cons_self ..
    obtain ⟨hflag, hrest, hend⟩ := ih (fun j hj => hP j (List.mem_cons_of_mem _ hj))
      (fun j hj => hquiet j (List.mem_cons_of_mem _ hj)) (show P (flagged step acc i).1 from
        hP i hi acc.1 hs) hf
    obtain ⟨hacc, hstep⟩ : acc.2 = false ∧ (step i acc.1).2 = false := by
      simpa [flagged] using hflag
    have hsame : (flagged step acc i).1 = acc.1 := hquiet i hi acc.1 hs hstep
    refine ⟨hacc, fun j hj => ?_, hend.trans hsame⟩
    rcases List.mem_cons.1 hj with rfl | hj
    · exact Prod.ext hsame hstep
    · have h := hrest j hj
      rwa [hsame] at h

/-- A round never raises the measure, and lowers it when its flag goes up. -/
theorem flagged_measure {μ : σ → ℕ} {acc : σ × Bool} (hP : ∀ i ∈ order, ∀ s, P s → P (step i s).1)
    (hμ : ∀ i ∈ order, ∀ s, P s →
      μ (step i s).1 ≤ μ s ∧ ((step i s).2 = true → μ (step i s).1 < μ s))
    (hs : P acc.1) :
    μ (order.foldl (flagged step) acc).1 ≤ μ acc.1 ∧
      (acc.2 = false → (order.foldl (flagged step) acc).2 = true →
        μ (order.foldl (flagged step) acc).1 < μ acc.1) := by
  induction order generalizing acc with
  | nil => exact ⟨le_rfl, fun h h' => absurd (h.symm.trans h') (by decide)⟩
  | cons i l ih =>
    rw [List.foldl_cons]
    have hi : i ∈ i :: l := List.mem_cons_self ..
    have hstep := hμ i hi acc.1 hs
    obtain ⟨hle, hlt⟩ := ih (fun j hj => hP j (List.mem_cons_of_mem _ hj))
      (fun j hj => hμ j (List.mem_cons_of_mem _ hj)) (show P (flagged step acc i).1 from
        hP i hi acc.1 hs)
    refine ⟨hle.trans hstep.1, fun hacc hr => ?_⟩
    cases hchanged : (step i acc.1).2 with
    | true => exact lt_of_le_of_lt hle (hstep.2 hchanged)
    | false =>
      have hflag : (flagged step acc i).2 = false := by simp [flagged, hacc, hchanged]
      exact lt_of_lt_of_le (hlt hflag hr) hstep.1

/-- With a measure that drops at every change and fuel above it, no step moves the end state. -/
theorem settle_fixed (μ : σ → ℕ) (hP : ∀ i ∈ order, ∀ s, P s → P (step i s).1)
    (hquiet : ∀ i ∈ order, ∀ s, P s → (step i s).2 = false → (step i s).1 = s)
    (hμ : ∀ i ∈ order, ∀ s, P s →
      μ (step i s).1 ≤ μ s ∧ ((step i s).2 = true → μ (step i s).1 < μ s))
    {fuel : ℕ} {s : σ} (hs : P s) (hfuel : μ s < fuel) :
    ∀ i ∈ order, step i (settle step order fuel s) = (settle step order fuel s, false) := by
  induction fuel generalizing s with
  | zero => omega
  | succ fuel ih =>
    unfold settle
    cases hf : (sweep step order s).2 with
    | true =>
      have hlt : μ (sweep step order s).1 < μ s :=
        (flagged_measure hP hμ (show P (s, false).1 from hs)).2 rfl hf
      simpa only [hf, if_true] using ih (sweep_invariant hP hs) (by omega)
    | false =>
      obtain ⟨_, hfix, hend⟩ := flagged_quiet hP hquiet (show P (s, false).1 from hs) hf
      have hsame : (sweep step order s).1 = s := hend
      simpa only [hf, hsame, Bool.false_eq_true, if_false] using hfix

/-- With such a measure the fuel is enough: the bounded rounds end as the unbounded ones do. -/
theorem settles_settle (μ : σ → ℕ) (hP : ∀ i ∈ order, ∀ s, P s → P (step i s).1)
    (hμ : ∀ i ∈ order, ∀ s, P s →
      μ (step i s).1 ≤ μ s ∧ ((step i s).2 = true → μ (step i s).1 < μ s))
    {fuel : ℕ} {s : σ} (hs : P s) (hfuel : μ s < fuel) :
    Settles step order s (settle step order fuel s) := by
  induction fuel generalizing s with
  | zero => omega
  | succ fuel ih =>
    unfold settle
    cases hf : (sweep step order s).2 with
    | true =>
      have hlt : μ (sweep step order s).1 < μ s :=
        (flagged_measure hP hμ (show P (s, false).1 from hs)).2 rfl hf
      simpa only [hf, if_true] using .again hf (ih (sweep_invariant hP hs) (by omega))
    | false => simpa only [hf, Bool.false_eq_true, if_false] using .quiet hf

/-! ## Rows -/

section Rows

variable {ρ : Type*} (row : σ → ℕ → ρ) {step : ℕ → σ → σ × Bool} (changed : ρ → ρ → Prop)

/-- A round over `0, …, n - 1` of a step that writes only the row of its index: where each row comes
from, and what the flag says. -/
theorem sweep_rows {n : ℕ} (hP : ∀ b < n, ∀ s, P s → P (step b s).1)
    (hframe : ∀ b < n, ∀ s, P s → ∀ c, c ≠ b → row (step b s).1 c = row s c)
    (hflag : ∀ b < n, ∀ s, P s →
      ((step b s).2 = true ↔ changed (row s b) (row (step b s).1 b))) {s : σ} (hs : P s) :
    P (sweep step (List.range n) s).1 ∧
    (∀ c, n ≤ c → row (sweep step (List.range n) s).1 c = row s c) ∧
    (∀ b < n, ∃ v, P v ∧ row (sweep step (List.range n) s).1 b = row (step b v).1 b ∧
      ∀ c, row v c = if c < b then row (sweep step (List.range n) s).1 c else row s c) ∧
    ((sweep step (List.range n) s).2 = true ↔
      ∃ b < n, changed (row s b) (row (sweep step (List.range n) s).1 b)) := by
  induction n with
  | zero => exact ⟨hs, fun _ _ => rfl, fun b hb => absurd hb (Nat.not_lt_zero b), by simp [sweep]⟩
  | succ n ih =>
    obtain ⟨hPn, hold, hnew, hfl⟩ := ih (fun b hb => hP b (by omega))
      (fun b hb => hframe b (by omega)) (fun b hb => hflag b (by omega))
    set r := sweep step (List.range n) s with hr
    have hsucc : sweep step (List.range (n + 1)) s = flagged step r n := by
      unfold sweep
      rw [List.range_succ, List.foldl_append]
      rfl
    have hlt : n < n + 1 := Nat.lt_succ_self n
    have hkeep : ∀ c, c ≠ n → row (flagged step r n).1 c = row r.1 c := hframe n hlt r.1 hPn
    rw [hsucc]
    refine ⟨hP n hlt r.1 hPn, fun c hc => ?_, fun b hb => ?_, ?_⟩
    · rw [hkeep c (by omega), hold c (by omega)]
    · by_cases hbn : b = n
      · subst hbn
        refine ⟨r.1, hPn, rfl, fun c => ?_⟩
        split_ifs with hc
        · exact (hkeep c (by omega)).symm
        · exact hold c (by omega)
      · obtain ⟨v, hv, hrow, hrows⟩ := hnew b (by omega)
        refine ⟨v, hv, (hkeep b hbn).trans hrow, fun c => ?_⟩
        rw [hrows c]
        split_ifs with hc
        · exact (hkeep c (by omega)).symm
        · rfl
    · have hflagn : (flagged step r n).2 = true ↔ r.2 = true ∨ (step n r.1).2 = true := by
        simp [flagged]
      rw [hflagn, hfl, hflag n hlt r.1 hPn, hold n le_rfl]
      constructor
      · rintro (⟨b, hb, hc⟩ | hc)
        · exact ⟨b, by omega, by rw [hkeep b (by omega)]; exact hc⟩
        · exact ⟨n, hlt, hc⟩
      · rintro ⟨b, hb, hc⟩
        by_cases hbn : b = n
        · subst hbn
          exact Or.inr hc
        · rw [hkeep b hbn] at hc
          exact Or.inl ⟨b, by omega, hc⟩

end Rows

/-! ## Rounds as a sequence -/

/-- The state after `t` rounds. -/
def rounds (step : ι → σ → σ × Bool) (order : List ι) (s : σ) : ℕ → σ
  | 0 => s
  | t + 1 => (sweep step order (rounds step order s t)).1

theorem rounds_succ' (step : ι → σ → σ × Bool) (order : List ι) (s : σ) (t : ℕ) :
    rounds step order s (t + 1) = rounds step order (sweep step order s).1 t := by
  induction t with
  | zero => rfl
  | succ t ih => rw [rounds, ih, rounds]

/-- `settle` stops after a quiet round or when the fuel is spent. -/
theorem settle_eq_rounds (step : ι → σ → σ × Bool) (order : List ι) (fuel : ℕ) (s : σ) :
    ∃ T, settle step order fuel s = rounds step order s T ∧
      ((∃ t, T = t + 1 ∧ (sweep step order (rounds step order s t)).2 = false) ∨
        ∀ t < fuel, (sweep step order (rounds step order s t)).2 = true) := by
  induction fuel generalizing s with
  | zero => exact ⟨0, rfl, Or.inr fun t ht => absurd ht (Nat.not_lt_zero t)⟩
  | succ fuel ih =>
    unfold settle
    cases hf : (sweep step order s).2 with
    | false => exact ⟨1, by simp [hf, rounds], Or.inl ⟨0, rfl, hf⟩⟩
    | true =>
      obtain ⟨T, heq, hT⟩ := ih (sweep step order s).1
      refine ⟨T + 1, by rw [rounds_succ']; simp [hf, heq], hT.imp ?_ ?_⟩
      · rintro ⟨t, rfl, ht⟩
        exact ⟨t + 1, rfl, by rw [rounds_succ']; exact ht⟩
      · intro hall t ht
        cases t with
        | zero => exact hf
        | succ t =>
          rw [rounds_succ']
          exact hall t (by omega)

/-- Where some round is quiet the loop without a bound ends, and more fuel than rounds before it finds
that end. -/
theorem settles_of_quiet {step : ι → σ → σ × Bool} {order : List ι} {t fuel : ℕ} (ht : t < fuel)
    {s : σ} (hquiet : (sweep step order (rounds step order s t)).2 = false) :
    Settles step order s (settle step order fuel s) := by
  induction fuel generalizing s t with
  | zero => omega
  | succ fuel ih =>
    unfold settle
    cases hf : (sweep step order s).2 with
    | false => simpa only [hf, Bool.false_eq_true, if_false] using .quiet hf
    | true =>
      cases t with
      | zero =>
        rw [rounds, hf] at hquiet
        exact absurd hquiet (by decide)
      | succ t =>
        rw [rounds_succ'] at hquiet
        have hrest := ih (Nat.lt_of_succ_lt_succ ht) hquiet
        simpa only [hf, if_true] using .again hf hrest

/-- A sequence in a finite type in which equal members have equal successors, and which ends
constant, is at its end after as many steps as the type has elements. -/
theorem exists_le_card_of_eventually {τ : Type*} [Fintype τ] {u : ℕ → τ} {c : τ} {T : ℕ}
    (hu : ∀ s t, u s = u t → u (s + 1) = u (t + 1)) (hc : ∀ t, T ≤ t → u t = c) :
    ∃ i ≤ Fintype.card τ, u i = c := by
  obtain ⟨a, b, hne, hab⟩ := Fintype.exists_ne_map_eq_of_card_lt
    (fun i : Fin (Fintype.card τ + 1) => u i) (by simp)
  wlog hlt : a < b generalizing a b
  · exact this b a hne.symm hab.symm (lt_of_le_of_ne (not_lt.1 hlt) hne.symm)
  have hshift : ∀ k, u (a + k) = u (b + k) := by
    intro k
    induction k with
    | zero => exact hab
    | succ k ih => exact hu _ _ ih
  -- From `a` on the sequence repeats with period `b - a`.
  have hperiod : ∀ k, u (a + k * (b - a)) = u a := by
    intro k
    induction k with
    | zero => simp
    | succ k ih =>
      have hlt' : (a : ℕ) < b := hlt
      have : (a : ℕ) + (k + 1) * (b - a) = b + k * (b - a) := by
        rw [Nat.succ_mul]
        omega
      rw [this, ← hshift, ih]
  refine ⟨a, by omega, ?_⟩
  rw [← hperiod T]
  refine hc _ ?_
  have hlt' : (a : ℕ) < b := hlt
  have : T * 1 ≤ T * (b - a) := Nat.mul_le_mul_left T (by omega)
  omega

end FlowGraph
