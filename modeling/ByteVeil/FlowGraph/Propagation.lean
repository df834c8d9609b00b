import Mathlib.Data.Finset.Card
import Mathlib.Data.Finset.Lattice.Fold
import Mathlib.Tactic.Common

/-!
# Propagating values through joins

Every vertex sends a value out: a fixed one if it is a source, else the join of what its predecessors
send, which is their common value or, where they differ, a value of its own. Rounds visit the
vertices in order, so that a vertex sees the current round of the smaller ones and the previous round
of the others.

1. Every value other than `bottom` at a vertex was sent by the vertex that owns it, and every way back
   leads to that vertex (`Trajectory.leadsTo`).
2. The values become constant (`Trajectory.eventually_const`).
3. A vertex whose predecessors end with equal values never saw two different ones, for all vertices,
   exactly when predecessors with one common owner always deliver in the same round
   (`Trajectory.steady_iff`).
-/

namespace FlowGraph

variable {V : Type*}

/-! ## Ways back through a graph -/

section Back

variable (preds : ℕ → List ℕ) (isSource : ℕ → Prop)

/-- Every way back from `x` leads to `o` before it meets a source or ends. -/
inductive LeadsTo (o : ℕ) : ℕ → Prop
  | here : LeadsTo o o
  | back {x : ℕ} : ¬ isSource x → preds x ≠ [] → (∀ p ∈ preds x, LeadsTo o p) → LeadsTo o x

/-- Some way back from `x` leads to a source over at most `k` edges that do not ascend. -/
inductive Arrives : ℕ → ℕ → Prop
  | source {k x : ℕ} : isSource x → Arrives k x
  | ascending {k x p : ℕ} : ¬ isSource x → p ∈ preds x → p < x → Arrives k p → Arrives k x
  | descending {k x p : ℕ} : ¬ isSource x → p ∈ preds x → x ≤ p → Arrives k p → Arrives (k + 1) x

/-- `p` has delivered to its successor `x` when `x` is visited in round `k`. -/
def DeliversBy (x p : ℕ) : ℕ → Prop
  | 0 => p < x ∧ Arrives preds isSource 0 p
  | k + 1 => (p < x ∧ Arrives preds isSource (k + 1) p) ∨ (x ≤ p ∧ Arrives preds isSource k p)

end Back

/-! ## Propagation -/

/-- A propagation problem. `owner` tells whose value a value is. -/
structure Joins (V : Type*) where
  preds : ℕ → List ℕ
  source : ℕ → Option V
  phi : ℕ → V
  bottom : V
  owner : V → ℕ
  owner_source : ∀ x v, source x = some v → owner v = x
  owner_phi : ∀ x, owner (phi x) = x
  source_ne_bottom : ∀ x, source x ≠ some bottom
  phi_ne_bottom : ∀ x, phi x ≠ bottom

namespace Joins

/-- The vertices that send a fixed value. -/
def IsSource (J : Joins V) (x : ℕ) : Prop := (J.source x).isSome

theorem not_isSource {J : Joins V} {x : ℕ} : ¬ J.IsSource x ↔ J.source x = none := by
  unfold IsSource
  cases J.source x <;> simp

/-- `x` sends `v` from round `T` on. -/
def SettledAt (out : ℕ → ℕ → V) (x : ℕ) (v : V) (T : ℕ) : Prop := ∀ t, T ≤ t → out t x = v

theorem settled_of_steady {J : Joins V} {out : ℕ → ℕ → V}
    (hst : ∀ t x, out t x ≠ J.bottom → out (t + 1) x = out t x) {t x : ℕ}
    (hne : out t x ≠ J.bottom) : SettledAt out x (out t x) t := by
  intro t' ht'
  induction ht' with
  | refl => rfl
  | step _ ih => rw [hst _ x (by rw [ih]; exact hne), ih]

end Joins

/-- Values that tell apart the vertices they come from have owners. -/
theorem exists_owner {source : ℕ → Option V} {phi : ℕ → V}
    (hs : ∀ x y v, source x = some v → source y = some v → x = y)
    (hp : ∀ x y, phi x = phi y → x = y) (hsp : ∀ x y, source x ≠ some (phi y)) :
    ∃ owner : V → ℕ, (∀ x v, source x = some v → owner v = x) ∧ ∀ x, owner (phi x) = x := by
  classical
  have key : ∀ v, ∃ o, (∀ x, source x = some v → o = x) ∧ ∀ x, phi x = v → o = x := by
    intro v
    by_cases hv : ∃ x, source x = some v
    · obtain ⟨x, hx⟩ := hv
      refine ⟨x, fun y hy => hs x y v hx hy, fun y hy => ?_⟩
      exact absurd (hy ▸ hx) (hsp x y)
    · by_cases hv' : ∃ x, phi x = v
      · obtain ⟨x, hx⟩ := hv'
        exact ⟨x, fun y hy => absurd ⟨y, hy⟩ hv, fun y hy => hp x y (hx.trans hy.symm)⟩
      · exact ⟨0, fun y hy => absurd ⟨y, hy⟩ hv, fun y hy => absurd ⟨y, hy⟩ hv'⟩
  choose owner howner using key
  exact ⟨owner, fun x v hx => (howner v).1 x hx, fun x => (howner (phi x)).2 x rfl⟩

variable [DecidableEq V]

/-- The common value of a list, `bottom` for the empty one and `phi` when the values differ. -/
def join (phi bottom : V) : List V → V
  | [] => bottom
  | v :: vs => if ∀ w ∈ vs, w = v then v else phi

theorem join_eq_phi {phi bottom v w : V} {l : List V} (hv : v ∈ l) (hw : w ∈ l) (hne : v ≠ w) :
    join phi bottom l = phi := by
  cases l with
  | nil => simp at hv
  | cons a l =>
    rw [join, if_neg]
    intro h
    have hall : ∀ u ∈ a :: l, u = a := List.forall_mem_cons.2 ⟨rfl, h⟩
    exact hne ((hall v hv).trans (hall w hw).symm)

theorem join_eq_of_forall {phi bottom w : V} {l : List V} (hl : l ≠ []) (h : ∀ v ∈ l, v = w) :
    join phi bottom l = w := by
  cases l with
  | nil => exact absurd rfl hl
  | cons a l =>
    have ha := h a (List.mem_cons_self ..)
    rw [join, if_pos fun v hv => (h v (List.mem_cons_of_mem _ hv)).trans ha.symm, ha]

/-- A join is `phi`, or the list is not empty and all its values are the join, or it is empty. -/
theorem join_cases (phi bottom : V) (l : List V) :
    (l = [] ∧ join phi bottom l = bottom) ∨
    (l ≠ [] ∧ ∀ v ∈ l, v = join phi bottom l) ∨
    (join phi bottom l = phi ∧ ∃ v ∈ l, ∃ w ∈ l, v ≠ w) := by
  cases l with
  | nil => exact Or.inl ⟨rfl, rfl⟩
  | cons a l =>
    rw [join]
    split_ifs with h
    · exact Or.inr (Or.inl ⟨List.cons_ne_nil a l, List.forall_mem_cons.2 ⟨rfl, h⟩⟩)
    · push Not at h
      obtain ⟨w, hw, hne⟩ := h
      exact Or.inr (Or.inr ⟨rfl, w, List.mem_cons_of_mem _ hw, a, List.mem_cons_self .., hne⟩)

namespace Joins

variable (J : Joins V)

/-- What `x` sees of `p` in round `t + 1`. -/
def seen (out : ℕ → ℕ → V) (t x p : ℕ) : V := out (if p < x then t + 1 else t) p

/-- The values sent out, round by round: nothing in round `0`. -/
structure Trajectory (out : ℕ → ℕ → V) : Prop where
  zero : ∀ x, out 0 x = J.bottom
  succ : ∀ t x, out (t + 1) x =
    (J.source x).getD (join (J.phi x) J.bottom ((J.preds x).map (seen out t x)))

variable {J} {out : ℕ → ℕ → V}

namespace Trajectory

theorem of_source (h : J.Trajectory out) {x : ℕ} {v : V} (hs : J.source x = some v) (t : ℕ) :
    out (t + 1) x = v := by
  rw [h.succ, hs, Option.getD_some]

theorem of_pass (h : J.Trajectory out) {x : ℕ} (hs : ¬ J.IsSource x) (t : ℕ) :
    out (t + 1) x = join (J.phi x) J.bottom ((J.preds x).map (seen out t x)) := by
  rw [h.succ, not_isSource.1 hs, Option.getD_none]

/-- What holds of the values seen by a visit holds of the value sent, by rounds and by the order of
the visits in a round. -/
theorem induct {P : ℕ → ℕ → Prop} (hzero : ∀ x, P 0 x)
    (hsucc : ∀ t x, (∀ p, P (if p < x then t + 1 else t) p) → P (t + 1) x) (t x : ℕ) : P t x := by
  induction t generalizing x with
  | zero => exact hzero x
  | succ t iht =>
    induction x using Nat.strong_induction_on with
    | _ x ihx =>
      refine hsucc t x fun p => ?_
      split_ifs with hp
      · exact ihx p hp
      · exact iht p

/-- A value that arrives anywhere comes from its owner. -/
theorem leadsTo (h : J.Trajectory out) (t x : ℕ) : out t x ≠ J.bottom →
    LeadsTo J.preds J.IsSource (J.owner (out t x)) x ∧
      (J.source (J.owner (out t x)) = some (out t x) ∨
        (¬ J.IsSource (J.owner (out t x)) ∧ out t x = J.phi (J.owner (out t x)))) := by
  refine induct (P := fun t x => out t x ≠ J.bottom →
    LeadsTo J.preds J.IsSource (J.owner (out t x)) x ∧
      (J.source (J.owner (out t x)) = some (out t x) ∨
        (¬ J.IsSource (J.owner (out t x)) ∧ out t x = J.phi (J.owner (out t x)))))
    (fun x hne => absurd (h.zero x) hne) ?_ t x
  intro t x ih hne
  by_cases hs : J.IsSource x
  · obtain ⟨v, hv⟩ := Option.isSome_iff_exists.1 hs
    rw [h.of_source hv, J.owner_source x v hv]
    exact ⟨.here, Or.inl hv⟩
  · rw [h.of_pass hs] at hne ⊢
    rcases join_cases (J.phi x) J.bottom ((J.preds x).map (seen out t x)) with
      ⟨_, hb⟩ | ⟨hnil, hall⟩ | ⟨hphi, _⟩
    · exact absurd hb hne
    · have hpreds : J.preds x ≠ [] := fun h => hnil (by rw [h]; rfl)
      have hp : ∀ p ∈ J.preds x, out (if p < x then t + 1 else t) p =
          join (J.phi x) J.bottom ((J.preds x).map (seen out t x)) :=
        fun p hp => hall _ (List.mem_map_of_mem hp)
      obtain ⟨q, hq⟩ := List.exists_mem_of_ne_nil _ hpreds
      refine ⟨.back hs hpreds fun p hpm => ?_, ?_⟩
      · have := (ih p (by rw [hp p hpm]; exact hne)).1
        rwa [hp p hpm] at this
      · have := (ih q (by rw [hp q hq]; exact hne)).2
        rwa [hp q hq] at this
    · rw [hphi, J.owner_phi x]
      exact ⟨.here, Or.inr ⟨hs, rfl⟩⟩

/-- Rounds that send the same are followed by rounds that send the same. -/
theorem succ_congr (h : J.Trajectory out) {s t : ℕ} (hst : ∀ x, out s x = out t x) (x : ℕ) :
    out (s + 1) x = out (t + 1) x := by
  induction x using Nat.strong_induction_on with
  | _ x ih =>
    rw [h.succ, h.succ]
    congr 2
    refine List.map_congr_left fun p _ => ?_
    unfold seen
    split_ifs with hp
    · exact ih p hp
    · exact hst p

/-- After a round that sends what the round before sent, every round does. -/
theorem settled_of_repeat (h : J.Trajectory out) {T : ℕ} (hT : ∀ x, out (T + 1) x = out T x)
    (x : ℕ) : SettledAt out x (out T x) T := by
  have key : ∀ t, T ≤ t → ∀ x, out (t + 1) x = out t x := by
    intro t ht
    induction ht with
    | refl => exact hT
    | step _ ih => exact h.succ_congr ih
  intro t ht
  induction ht with
  | refl => rfl
  | @step t ht ih => exact (key t ht x).trans ih

/-! ## Settled values -/

/-- Once the owner is settled, everything that leads back to it settles on the same value. -/
theorem settled_of_leadsTo (h : J.Trajectory out) {o x : ℕ} {v : V} {T : ℕ}
    (ho : SettledAt out o v T) (hx : LeadsTo J.preds J.IsSource o x) :
    ∃ T', SettledAt out x v T' := by
  induction hx with
  | here => exact ⟨T, ho⟩
  | @back x hs hne _ ih =>
    choose! T' hT' using ih
    obtain ⟨B, hB⟩ : ∃ B, ∀ p ∈ J.preds x, T' p ≤ B :=
      ⟨(J.preds x).toFinset.sup T', fun p hp => Finset.le_sup (f := T') (List.mem_toFinset.2 hp)⟩
    refine ⟨B + 1, fun t ht => ?_⟩
    obtain ⟨s, rfl⟩ : ∃ s, t = s + 1 := ⟨t - 1, by omega⟩
    rw [h.of_pass hs]
    refine join_eq_of_forall (by simpa using hne) fun w hw => ?_
    obtain ⟨p, hp, rfl⟩ := List.mem_map.1 hw
    have := hB p hp
    unfold seen
    split_ifs
    · exact hT' p hp _ (by omega)
    · exact hT' p hp _ (by omega)

/-- A settled value is settled at its owner. -/
theorem settled_owner (h : J.Trajectory out) {o x : ℕ} {v : V} {T : ℕ} (hv : v ≠ J.bottom)
    (ho : J.owner v = o) (hx : SettledAt out x v T) : ∃ T', SettledAt out o v T' := by
  have hl := (h.leadsTo T x (by rw [hx T le_rfl]; exact hv)).1
  rw [hx T le_rfl, ho] at hl
  clear hv
  induction hl generalizing T with
  | here => exact ⟨T, hx⟩
  | @back x hs hne _ ih =>
    by_cases hox : x = o
    · exact ⟨T, hox ▸ hx⟩
    · obtain ⟨p, hp⟩ := List.exists_mem_of_ne_nil _ hne
      refine ih p hp (T := T + 1) fun t ht => ?_
      have hround : ∀ t, T ≤ t → seen out t x p = v := by
        intro t ht
        have hj := hx (t + 1) (by omega)
        rw [h.of_pass hs] at hj
        rcases join_cases (J.phi x) J.bottom ((J.preds x).map (seen out t x)) with
          ⟨hnil, _⟩ | ⟨_, hall⟩ | ⟨hphi, _⟩
        · exact absurd (by simpa using hnil) hne
        · exact (hall _ (List.mem_map_of_mem hp)).trans hj
        · rw [hphi] at hj
          rw [← hj, J.owner_phi] at ho
          exact absurd ho hox
      obtain ⟨s, rfl⟩ : ∃ s, t = s + 1 := ⟨t - 1, by omega⟩
      by_cases hpx : p < x
      · have := hround s (by omega)
        rwa [seen, if_pos hpx] at this
      · have := hround (s + 1) (by omega)
        rwa [seen, if_neg hpx] at this

/-- A vertex that has sent something keeps sending something. -/
theorem ne_bottom_succ (h : J.Trajectory out) (t x : ℕ) :
    out t x ≠ J.bottom → out (t + 1) x ≠ J.bottom := by
  refine induct (P := fun t x => out t x ≠ J.bottom → out (t + 1) x ≠ J.bottom)
    (fun x hne => absurd (h.zero x) hne) ?_ t x
  intro t x ih hne
  by_cases hs : J.IsSource x
  · obtain ⟨v, hv⟩ := Option.isSome_iff_exists.1 hs
    rw [h.of_source hv]
    exact fun hb => J.source_ne_bottom x (hb ▸ hv)
  · rw [h.of_pass hs] at hne ⊢
    have hstep : ∀ p, seen out t x p ≠ J.bottom → seen out (t + 1) x p ≠ J.bottom := by
      intro p hp
      have := ih p hp
      unfold seen
      split_ifs with hpx
      · simpa [hpx] using this
      · simpa [hpx] using this
    intro hb
    rcases join_cases (J.phi x) J.bottom ((J.preds x).map (seen out (t + 1) x)) with
      ⟨hnil, _⟩ | ⟨_, hall⟩ | ⟨hphi, _⟩
    · rw [List.map_eq_nil_iff.1 hnil] at hne
      exact hne rfl
    · refine hne (join_eq_of_forall ?_ fun w hw => ?_)
      · intro hnil
        rw [List.map_eq_nil_iff.1 hnil] at hne
        exact hne rfl
      · obtain ⟨p, hp, rfl⟩ := List.mem_map.1 hw
        by_contra hpb
        exact hstep p hpb ((hall _ (List.mem_map_of_mem hp)).trans hb)
    · exact J.phi_ne_bottom x (hphi.symm.trans hb)

theorem ne_bottom_mono (h : J.Trajectory out) {t t' x : ℕ} (hle : t ≤ t')
    (hne : out t x ≠ J.bottom) : out t' x ≠ J.bottom := by
  induction hle with
  | refl => exact hne
  | step _ ih => exact h.ne_bottom_succ _ x ih

/-- Vertices fed only by each other never send anything. -/
theorem bottom_of_closed (h : J.Trajectory out) {X : ℕ → Prop} (hs : ∀ x, X x → ¬ J.IsSource x)
    (hX : ∀ x, X x → ∀ p ∈ J.preds x, X p) (t x : ℕ) : X x → out t x = J.bottom := by
  refine induct (P := fun t x => X x → out t x = J.bottom) (fun x _ => h.zero x) ?_ t x
  intro t x ih hx
  rw [h.of_pass (hs x hx)]
  by_cases hnil : J.preds x = []
  · rw [hnil]
    rfl
  · refine join_eq_of_forall (by simpa using hnil) fun w hw => ?_
    obtain ⟨p, hp, rfl⟩ := List.mem_map.1 hw
    exact ih p (hX x hx p hp)

/-- Every vertex ends on one value. -/
theorem eventually_const (h : J.Trajectory out) (x : ℕ) : ∃ v T, SettledAt out x v T := by
  by_contra hx
  have hpass : ∀ x, (¬ ∃ v T, SettledAt out x v T) → ¬ J.IsSource x := by
    intro x hx hs
    obtain ⟨v, hv⟩ := Option.isSome_iff_exists.1 hs
    refine hx ⟨v, 1, fun t ht => ?_⟩
    obtain ⟨s, rfl⟩ : ∃ s, t = s + 1 := ⟨t - 1, by omega⟩
    exact h.of_source hv s
  -- Some unsettled vertex has a settled predecessor, else all of them would stay at `bottom`.
  obtain ⟨y, hy, p, hp, w, T, hw⟩ : ∃ y, (¬ ∃ v T, SettledAt out y v T) ∧
      ∃ p ∈ J.preds y, ∃ w T, SettledAt out p w T := by
    by_contra hnone
    push Not at hnone
    refine hx ⟨J.bottom, 0, fun t _ => h.bottom_of_closed (X := fun x => ¬ ∃ v T, SettledAt out x v T)
      hpass (fun x hx p hp => ?_) t x hx⟩
    rintro ⟨w, T, hw⟩
    exact hnone x (fun v T hv => hx ⟨v, T, hv⟩) p hp w T hw
  have hround : ∀ t, T ≤ t → out (t + 1) y = w ∨ out (t + 1) y = J.phi y := by
    intro t ht
    rw [h.of_pass (hpass y hy)]
    rcases join_cases (J.phi y) J.bottom ((J.preds y).map (seen out t y)) with
      ⟨hnil, _⟩ | ⟨_, hall⟩ | ⟨hphi, _⟩
    · rw [List.map_eq_nil_iff.1 hnil] at hp
      exact absurd hp List.not_mem_nil
    · refine Or.inl ((hall _ (List.mem_map_of_mem hp)).symm.trans ?_)
      unfold seen
      split_ifs
      · exact hw _ (by omega)
      · exact hw _ ht
    · exact Or.inr hphi
  -- `y` takes the value of that predecessor after it has started to send.
  obtain ⟨t, ht, hyt⟩ : ∃ t, T ≤ t ∧ out (t + 1) y = w ∧ w ≠ J.bottom := by
    by_contra hnone
    push Not at hnone
    by_cases hstart : ∃ t, out t y ≠ J.bottom
    · obtain ⟨s, hs⟩ := hstart
      refine hy ⟨J.phi y, max s T + 1, fun t ht => ?_⟩
      obtain ⟨u, rfl⟩ : ∃ u, t = u + 1 := ⟨t - 1, by omega⟩
      rcases hround u (by omega) with hu | hu
      · have hb := hnone u (by omega) hu
        exact absurd (hu.trans hb) (h.ne_bottom_mono (by omega) hs)
      · exact hu
    · push Not at hstart
      exact hy ⟨J.bottom, 0, fun t _ => hstart t⟩
  obtain ⟨T', ho⟩ := h.settled_owner hyt.2 rfl hw
  have hl := (h.leadsTo (t + 1) y (by rw [hyt.1]; exact hyt.2)).1
  rw [hyt.1] at hl
  exact hy ⟨w, h.settled_of_leadsTo ho hl⟩

/-! ## Deliveries -/

theorem join_ne_bottom_iff {phi bottom : V} (hphi : phi ≠ bottom) (l : List V) :
    join phi bottom l ≠ bottom ↔ ∃ v ∈ l, v ≠ bottom := by
  rcases join_cases phi bottom l with ⟨rfl, hb⟩ | ⟨hne, hall⟩ | ⟨hj, v, hv, w, hw, hvw⟩
  · simp [hb]
  · constructor
    · intro hj
      obtain ⟨v, hv⟩ := List.exists_mem_of_ne_nil _ hne
      exact ⟨v, hv, by rw [hall v hv]; exact hj⟩
    · rintro ⟨v, hv, hvb⟩
      rw [← hall v hv]
      exact hvb
  · refine ⟨fun _ => ?_, fun _ => by rw [hj]; exact hphi⟩
    by_cases hvb : v = bottom
    · exact ⟨w, hw, fun hwb => hvw (hvb.trans hwb.symm)⟩
    · exact ⟨v, hv, hvb⟩

/-- A vertex sends something in round `k + 1` when a source can get there that early. -/
theorem ne_bottom_iff_arrives (h : J.Trajectory out) (k x : ℕ) :
    out (k + 1) x ≠ J.bottom ↔ Arrives J.preds J.IsSource k x := by
  constructor
  · have key : ∀ t x, out t x ≠ J.bottom → ∃ k, t = k + 1 ∧ Arrives J.preds J.IsSource k x := by
      refine induct (fun x hne => absurd (h.zero x) hne) fun t x ih hne => ⟨t, rfl, ?_⟩
      by_cases hs : J.IsSource x
      · exact .source hs
      · rw [h.of_pass hs, join_ne_bottom_iff (J.phi_ne_bottom x)] at hne
        obtain ⟨v, hv, hne⟩ := hne
        obtain ⟨p, hp, rfl⟩ := List.mem_map.1 hv
        obtain ⟨k, hk, ha⟩ := ih p hne
        split_ifs at hk with hpx
        · obtain rfl : t = k := by omega
          exact .ascending hs hp hpx ha
        · rw [hk]
          exact .descending hs hp (by omega) ha
    intro hne
    obtain ⟨_, hk, ha⟩ := key _ x hne
    obtain rfl := Nat.succ.inj hk
    exact ha
  · intro ha
    induction ha with
    | source hs =>
      obtain ⟨v, hv⟩ := Option.isSome_iff_exists.1 hs
      rw [h.of_source hv]
      exact fun hb => J.source_ne_bottom _ (hb ▸ hv)
    | @ascending k x p hs hp hpx _ ih =>
      rw [h.of_pass hs, join_ne_bottom_iff (J.phi_ne_bottom x)]
      exact ⟨_, List.mem_map_of_mem hp, by rwa [seen, if_pos hpx]⟩
    | @descending k x p hs hp hpx _ ih =>
      rw [h.of_pass hs, join_ne_bottom_iff (J.phi_ne_bottom x)]
      exact ⟨_, List.mem_map_of_mem hp, by rwa [seen, if_neg (by omega)]⟩

theorem seen_ne_bottom_iff (h : J.Trajectory out) (t x p : ℕ) :
    seen out t x p ≠ J.bottom ↔ DeliversBy J.preds J.IsSource x p t := by
  unfold seen
  cases t with
  | zero =>
    unfold DeliversBy
    split_ifs with hp
    · rw [h.ne_bottom_iff_arrives, and_iff_right hp]
    · simp [h.zero, hp]
  | succ t =>
    unfold DeliversBy
    split_ifs with hp
    · rw [h.ne_bottom_iff_arrives]
      simp only [hp, true_and, not_le.2 hp, false_and, or_false]
    · rw [h.ne_bottom_iff_arrives]
      simp only [hp, false_and, not_lt.1 hp, true_and, false_or]

/-! ## Steady joins -/

/-- Two predecessors of `x` are seen with different values in round `t + 1`. -/
def Differs (J : Joins V) (out : ℕ → ℕ → V) (t x : ℕ) : Prop :=
  ∃ p ∈ J.preds x, ∃ q ∈ J.preds x, seen out t x p ≠ seen out t x q

/-- The predecessors of `x` end with equal values. -/
def EndsEqual (J : Joins V) (out : ℕ → ℕ → V) (x : ℕ) : Prop :=
  ∀ p ∈ J.preds x, ∀ q ∈ J.preds x, ∃ T, ∀ t, T ≤ t → out t p = out t q

/-- All predecessors of `x` lead back to one vertex. -/
def OneOrigin (J : Joins V) (x : ℕ) : Prop :=
  ∃ o, ∀ p ∈ J.preds x, LeadsTo J.preds J.IsSource o p

/-- The predecessors of `x` always deliver in the same round. -/
def DeliverTogether (J : Joins V) (x : ℕ) : Prop :=
  ∀ k, ∀ p ∈ J.preds x, ∀ q ∈ J.preds x,
    DeliversBy J.preds J.IsSource x p k → DeliversBy J.preds J.IsSource x q k

theorem endsEqual_of_oneOrigin (h : J.Trajectory out) {x : ℕ} (hx : OneOrigin J x) :
    EndsEqual J out x := by
  obtain ⟨o, ho⟩ := hx
  obtain ⟨v, T, hv⟩ := h.eventually_const o
  intro p hp q hq
  obtain ⟨Tp, hTp⟩ := h.settled_of_leadsTo hv (ho p hp)
  obtain ⟨Tq, hTq⟩ := h.settled_of_leadsTo hv (ho q hq)
  exact ⟨max Tp Tq, fun t ht => (hTp t (by omega)).trans (hTq t (by omega)).symm⟩

/-- A value all predecessors are seen with gives them one origin. -/
theorem oneOrigin_of_seen (h : J.Trajectory out) {t x : ℕ} {w : V} (hw : w ≠ J.bottom)
    (hall : ∀ p ∈ J.preds x, seen out t x p = w) : OneOrigin J x := by
  refine ⟨J.owner w, fun p hp => ?_⟩
  have := (h.leadsTo (if p < x then t + 1 else t) p (by
    have := hall p hp
    unfold seen at this
    rw [this]
    exact hw)).1
  have hp' := hall p hp
  unfold seen at hp'
  rwa [hp'] at this

/-- Where predecessors with one origin deliver together, a value once sent never changes. -/
theorem steady (h : J.Trajectory out)
    (hd : ∀ x, ¬ J.IsSource x → OneOrigin J x → DeliverTogether J x) (t x : ℕ) :
    out t x ≠ J.bottom → out (t + 1) x = out t x := by
  refine induct (P := fun t x => out t x ≠ J.bottom → out (t + 1) x = out t x)
    (fun x hne => absurd (h.zero x) hne) ?_ t x
  intro t x ih hne
  by_cases hs : J.IsSource x
  · obtain ⟨v, hv⟩ := Option.isSome_iff_exists.1 hs
    rw [h.of_source hv, h.of_source hv]
  · have hstep : ∀ p, seen out t x p ≠ J.bottom → seen out (t + 1) x p = seen out t x p := by
      intro p hp
      have := ih p hp
      unfold seen
      split_ifs with hpx
      · simpa [hpx] using this
      · simpa [hpx] using this
    rw [h.of_pass hs] at hne
    rw [h.of_pass hs, h.of_pass hs]
    obtain ⟨v, hv, hvb⟩ := (join_ne_bottom_iff (J.phi_ne_bottom x) _).1 hne
    obtain ⟨p, hp, rfl⟩ := List.mem_map.1 hv
    by_cases ho : OneOrigin J x
    · -- All predecessors have delivered, and none of them changes any more.
      have hall : ∀ q ∈ J.preds x, seen out t x q ≠ J.bottom := fun q hq =>
        (h.seen_ne_bottom_iff t x q).2
          (hd x hs ho t p hp q hq ((h.seen_ne_bottom_iff t x p).1 hvb))
      rw [List.map_congr_left fun q hq => hstep q (hall q hq)]
    · -- Without one origin the values seen differ in both rounds.
      have hphi : ∀ s, seen out s x p ≠ J.bottom →
          join (J.phi x) J.bottom ((J.preds x).map (seen out s x)) = J.phi x := by
        intro s hsp
        rcases join_cases (J.phi x) J.bottom ((J.preds x).map (seen out s x)) with
          ⟨hnil, _⟩ | ⟨_, hall⟩ | ⟨hj, _⟩
        · rw [List.map_eq_nil_iff.1 hnil] at hp
          exact absurd hp List.not_mem_nil
        · refine absurd (h.oneOrigin_of_seen (t := s) hsp fun q hq => ?_) ho
          exact (hall _ (List.mem_map_of_mem hq)).trans (hall _ (List.mem_map_of_mem hp)).symm
        · exact hj
      rw [hphi t hvb, hphi (t + 1) (by rw [hstep p hvb]; exact hvb)]

/-- Joins that end equal were never seen to differ, at all vertices of `target`, exactly when
predecessors with one origin deliver together. -/
theorem steady_iff (h : J.Trajectory out) (target : ℕ → Prop)
    (htarget : ∀ x, ¬ J.IsSource x → target x) :
    (∀ x, target x → EndsEqual J out x → ∀ t, ¬ Differs J out t x) ↔
      ∀ x, target x → OneOrigin J x → DeliverTogether J x := by
  constructor
  · intro hcalm x hx ho k p hp q hq hdp
    have hnot := hcalm x hx (h.endsEqual_of_oneOrigin ho) k
    have heq : seen out k x p = seen out k x q := by
      by_contra hne
      exact hnot ⟨p, hp, q, hq, hne⟩
    rw [← h.seen_ne_bottom_iff, ← heq]
    exact (h.seen_ne_bottom_iff k x p).2 hdp
  · intro hd x hx hend t hdiff
    have hst := h.steady fun x hs => hd x (htarget x hs)
    have hsettled : ∀ p, seen out t x p ≠ J.bottom →
        ∃ T, SettledAt out p (seen out t x p) T := fun _ hp => ⟨_, settled_of_steady hst hp⟩
    obtain ⟨p, hp, q, hq, hne⟩ := hdiff
    obtain ⟨r, hr, hrb⟩ : ∃ r ∈ J.preds x, seen out t x r ≠ J.bottom := by
      by_cases hpb : seen out t x p = J.bottom
      · exact ⟨q, hq, fun hqb => hne (hpb.trans hqb.symm)⟩
      · exact ⟨p, hp, hpb⟩
    obtain ⟨T, hT⟩ := hsettled r hrb
    -- Every predecessor ends with the value of `r`, so they have one origin.
    have hsame : ∀ s ∈ J.preds x, ∃ T', SettledAt out s (seen out t x r) T' := by
      intro s hs
      obtain ⟨T', hT'⟩ := hend s hs r hr
      exact ⟨max T T', fun u hu => (hT' u (by omega)).trans (hT u (by omega))⟩
    have ho : OneOrigin J x := by
      refine ⟨J.owner (seen out t x r), fun s hs => ?_⟩
      obtain ⟨T', hT'⟩ := hsame s hs
      have := (h.leadsTo T' s (by rw [hT' T' le_rfl]; exact hrb)).1
      rwa [hT' T' le_rfl] at this
    have hall : ∀ s ∈ J.preds x, seen out t x s = seen out t x r := by
      intro s hs
      have hsb : seen out t x s ≠ J.bottom := (h.seen_ne_bottom_iff t x s).2
        (hd x hx ho t r hr s hs ((h.seen_ne_bottom_iff t x r).1 hrb))
      obtain ⟨T₁, hT₁⟩ := hsettled s hsb
      obtain ⟨T₂, hT₂⟩ := hsame s hs
      rw [← hT₁ (max T₁ T₂) (by omega), hT₂ (max T₁ T₂) (by omega)]
    exact hne ((hall p hp).trans (hall q hq).symm)

end Trajectory

end Joins

end FlowGraph
