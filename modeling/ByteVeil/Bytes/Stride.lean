import Mathlib.Data.List.Basic
import Mathlib.Tactic.Common

/-!
# Walks of varying stride

A walk over places below `size` that passes `length pc` places at `pc`. Two walks visit the same
places if and only if they agree on the lengths there, as long as one of them never passes more than
the other and stays inside.
-/

namespace Bytes

variable {length other : ℕ → ℕ} {size fuel pc : ℕ}

/-- The places visited from `pc` on. -/
def strideFrom (length : ℕ → ℕ) (size : ℕ) : ℕ → ℕ → List ℕ
  | 0, _ => []
  | fuel + 1, pc =>
    if pc < size then pc :: strideFrom length size fuel (pc + length pc) else []

/-- The places visited from the start on; places are passed one at a time at least, so as many rounds
as there are places suffice. -/
def stride (length : ℕ → ℕ) (size : ℕ) : List ℕ := strideFrom length size size 0

theorem mem_strideFrom {q : ℕ} (h : q ∈ strideFrom length size fuel pc) : pc ≤ q ∧ q < size := by
  induction fuel generalizing pc with
  | zero => simp [strideFrom] at h
  | succ fuel ih =>
    unfold strideFrom at h
    split_ifs at h with hpc
    · rcases List.mem_cons.1 h with rfl | h
      · exact ⟨Nat.le_refl _, hpc⟩
      · exact ⟨Nat.le_trans (Nat.le_add_right _ _) (ih h).1, (ih h).2⟩
    · exact absurd h List.not_mem_nil

theorem strideFrom_of_le (h : size ≤ pc) : strideFrom length size fuel pc = [] := by
  cases fuel with
  | zero => rfl
  | succ fuel => rw [strideFrom, if_neg (by omega)]

/-- A walk with rounds to spare visits its first place. -/
theorem self_mem_strideFrom (hpc : pc < size) (hfuel : size ≤ pc + fuel) :
    pc ∈ strideFrom length size fuel pc := by
  obtain ⟨rounds, rfl⟩ : ∃ rounds, fuel = rounds + 1 := ⟨fuel - 1, by omega⟩
  rw [strideFrom, if_pos hpc]
  exact List.mem_cons_self

theorem strideFrom_eq_iff (hfuel : size ≤ pc + fuel)
    (hlength : ∀ q ∈ strideFrom length size fuel pc,
      0 < other q ∧ other q ≤ length q ∧ q + length q ≤ size) :
    strideFrom other size fuel pc = strideFrom length size fuel pc ↔
      ∀ q ∈ strideFrom length size fuel pc, other q = length q := by
  induction fuel generalizing pc with
  | zero => simp [strideFrom]
  | succ fuel ih =>
    by_cases hpc : pc < size
    · rw [strideFrom, strideFrom, if_pos hpc, if_pos hpc] at *
      obtain ⟨⟨hpos, hle, hfits⟩, hrest⟩ := List.forall_mem_cons.1 hlength
      rw [List.cons.injEq, List.forall_mem_cons]
      constructor
      · rintro ⟨-, heq⟩
        -- A shorter stride visits a place that the longer one has passed.
        have hsame : other pc = length pc := by
          by_contra hne
          have hmem : pc + other pc ∈ strideFrom other size fuel (pc + other pc) :=
            self_mem_strideFrom (by omega) (by omega)
          rw [heq] at hmem
          have hbound := (mem_strideFrom hmem).1
          omega
        rw [hsame] at heq
        exact ⟨hsame, (ih (by omega) hrest).1 heq⟩
      · rintro ⟨hsame, hall⟩
        rw [hsame]
        exact ⟨rfl, (ih (by omega) hrest).2 hall⟩
    · rw [strideFrom_of_le (by omega), strideFrom_of_le (by omega)]
      simp

/-- Two walks agree if and only if they agree on the lengths where one of them stands. -/
theorem stride_eq_iff
    (hlength : ∀ q ∈ stride length size,
      0 < other q ∧ other q ≤ length q ∧ q + length q ≤ size) :
    stride other size = stride length size ↔ ∀ q ∈ stride length size, other q = length q :=
  strideFrom_eq_iff (by omega) hlength

end Bytes
