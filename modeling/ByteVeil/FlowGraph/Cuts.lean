import Mathlib.Data.List.Sort
import Mathlib.Data.List.GetD
import Mathlib.Tactic.Common

/-!
# Cutting a line into intervals

An increasing list of cut points, the first of which is the least point, splits the points behind it
into intervals: every point lies in exactly one of them, and going through the intervals in order
visits increasing points in order.
-/

namespace FlowGraph

/-- Increasing cut points from `first` on. -/
structure Cuts (first : ℕ) (l : List ℕ) : Prop where
  pairwise : l.Pairwise (· < ·)
  head_eq : l.head? = some first

/-- The point lies between cut `b` and the next one. -/
def Within (l : List ℕ) (b x : ℕ) : Prop :=
  l.getD b 0 ≤ x ∧ (b + 1 < l.length → x < l.getD (b + 1) 0)

instance (l : List ℕ) (b x : ℕ) : Decidable (Within l b x) := inferInstanceAs (Decidable (_ ∧ _))

theorem mem_iff_getD {l : List ℕ} {x : ℕ} : x ∈ l ↔ ∃ b < l.length, l.getD b 0 = x := by
  rw [List.mem_iff_getElem]
  constructor
  · rintro ⟨b, hb, rfl⟩
    exact ⟨b, hb, List.getD_eq_getElem _ _ hb⟩
  · rintro ⟨b, hb, rfl⟩
    exact ⟨b, hb, (List.getD_eq_getElem _ _ hb).symm⟩

/-- Increasing points with zero among them. -/
theorem cuts_of_zero_mem {l : List ℕ} (hsorted : l.Pairwise (· < ·)) (hzero : 0 ∈ l) :
    Cuts 0 l := by
  refine ⟨hsorted, ?_⟩
  cases l with
  | nil => exact absurd hzero List.not_mem_nil
  | cons a rest =>
    rcases List.mem_cons.1 hzero with rfl | hrest
    · rfl
    · exact absurd (List.rel_of_pairwise_cons hsorted hrest) (Nat.not_lt_zero a)

section Cuts

variable {first : ℕ} {l : List ℕ} (h : Cuts first l)
include h

theorem Cuts.length_pos : 0 < l.length := by
  cases l with
  | nil => cases h.head_eq
  | cons => exact Nat.succ_pos _

theorem Cuts.getD_zero : l.getD 0 0 = first := by
  cases l with
  | nil => cases h.head_eq
  | cons a l => exact Option.some.inj h.head_eq

theorem Cuts.lt {b c : ℕ} (hbc : b < c) (hc : c < l.length) : l.getD b 0 < l.getD c 0 := by
  rw [List.getD_eq_getElem _ _ (hbc.trans hc), List.getD_eq_getElem _ _ hc]
  exact List.pairwise_iff_getElem.1 h.pairwise b c (hbc.trans hc) hc hbc

theorem Cuts.le {b c : ℕ} (hbc : b ≤ c) (hc : c < l.length) : l.getD b 0 ≤ l.getD c 0 := by
  rcases Nat.eq_or_lt_of_le hbc with rfl | hlt
  · exact le_rfl
  · exact (h.lt hlt hc).le

theorem Cuts.first_le {b : ℕ} (hb : b < l.length) : first ≤ l.getD b 0 := by
  rw [← h.getD_zero]
  exact h.le (Nat.zero_le b) hb

/-- Different cuts are different points. -/
theorem Cuts.inj {b c : ℕ} (hb : b < l.length) (hc : c < l.length)
    (heq : l.getD b 0 = l.getD c 0) : b = c := by
  rcases Nat.lt_trichotomy b c with hlt | rfl | hlt
  · exact absurd heq (h.lt hlt hc).ne
  · rfl
  · exact absurd heq (h.lt hlt hb).ne'

theorem Cuts.eq_idxOf_iff {b x : ℕ} (hx : x ∈ l) :
    b = l.idxOf x ↔ b < l.length ∧ l.getD b 0 = x := by
  have hlt := List.idxOf_lt_length_of_mem hx
  have hget : l.getD (l.idxOf x) 0 = x := by
    rw [List.getD_eq_getElem _ _ hlt, List.getElem_idxOf]
  constructor
  · rintro rfl
    exact ⟨hlt, hget⟩
  · rintro ⟨hb, hbx⟩
    exact h.inj hb hlt (hbx.trans hget.symm)

/-- Every point behind the first one lies in an interval. -/
theorem Cuts.exists_within {x : ℕ} (hx : first ≤ x) : ∃ b < l.length, Within l b x := by
  have hpos := h.length_pos
  let P : ℕ → Prop := fun b => l.getD b 0 ≤ x
  have h₀ : P 0 := by
    show l.getD 0 0 ≤ x
    rw [h.getD_zero]
    exact hx
  refine ⟨Nat.findGreatest P (l.length - 1), ?_, ?_, fun hb => ?_⟩
  · have := Nat.findGreatest_le (P := P) (l.length - 1)
    omega
  · exact Nat.findGreatest_spec (P := P) (Nat.zero_le _) h₀
  · by_contra hle
    have := Nat.le_findGreatest (P := P) (n := l.length - 1) (by omega) (not_lt.1 hle)
    omega

theorem Cuts.within_cut (b : ℕ) : Within l b (l.getD b 0) :=
  ⟨le_rfl, fun hlt => h.lt (Nat.lt_succ_self b) hlt⟩

/-- Points of an earlier interval are smaller. -/
theorem Cuts.within_lt {b c x y : ℕ} (hbc : b < c) (hc : c < l.length) (hx : Within l b x)
    (hy : Within l c y) : x < y :=
  calc x < l.getD (b + 1) 0 := hx.2 (by omega)
    _ ≤ l.getD c 0 := h.le hbc hc
    _ ≤ y := hy.1

theorem Cuts.within_unique {b c x : ℕ} (hb : b < l.length) (hc : c < l.length)
    (hx : Within l b x) (hx' : Within l c x) : b = c := by
  rcases Nat.lt_trichotomy b c with hlt | rfl | hlt
  · exact absurd (h.within_lt hlt hc hx hx') (lt_irrefl x)
  · rfl
  · exact absurd (h.within_lt hlt hb hx' hx) (lt_irrefl x)

/-- Going through the intervals in order visits increasing points in order. -/
theorem Cuts.flatMap_filter {point : ℕ → ℕ} {n : ℕ} (hfirst : ∀ k < n, first ≤ point k)
    (hpoint : ∀ j k, j < k → k < n → point j < point k) :
    ((List.range l.length).flatMap fun b =>
      (List.range n).filter fun k => Within l b (point k)) = List.range n := by
  have hsorted : ((List.range l.length).flatMap fun b =>
      (List.range n).filter fun k => Within l b (point k)).Pairwise (· < ·) := by
    rw [List.pairwise_flatMap]
    refine ⟨fun b _ => List.pairwise_lt_range.filter _, ?_⟩
    refine (List.pairwise_lt_range (n := l.length)).imp_of_mem fun {b c} _ hc hbc j hj k hk => ?_
    obtain ⟨hjn, hj⟩ := List.mem_filter.1 hj
    obtain ⟨hkn, hk⟩ := List.mem_filter.1 hk
    have hlt := h.within_lt hbc (List.mem_range.1 hc) (of_decide_eq_true hj) (of_decide_eq_true hk)
    by_contra hkj
    rcases Nat.eq_or_lt_of_le (not_lt.1 hkj) with heq | hkj
    · exact absurd (heq ▸ hlt) (lt_irrefl _)
    · exact absurd (hpoint k j hkj (List.mem_range.1 hjn)) (not_lt.2 hlt.le)
  have hmem : ∀ k, k ∈ ((List.range l.length).flatMap fun b =>
      (List.range n).filter fun k => Within l b (point k)) ↔ k ∈ List.range n := by
    intro k
    rw [List.mem_flatMap]
    constructor
    · rintro ⟨b, -, hk⟩
      exact (List.mem_filter.1 hk).1
    · intro hk
      obtain ⟨b, hb, hwithin⟩ := h.exists_within (hfirst k (List.mem_range.1 hk))
      exact ⟨b, List.mem_range.2 hb, List.mem_filter.2 ⟨hk, decide_eq_true hwithin⟩⟩
  exact hsorted.eq_of_mem_iff List.pairwise_lt_range hmem

end Cuts

end FlowGraph
