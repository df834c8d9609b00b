import Mathlib.Data.List.Basic
import Mathlib.Data.List.Infix
import Mathlib.Tactic.Common

/-!
# Fresh names

A name is made fresh by appending a mark until it is none of finitely many names. Names that are made
fresh from different stems stay different.
-/

namespace Naming

variable {α : Type} [DecidableEq α]

/-- The mark is appended while the name is taken, at most `fuel` times. -/
def avoidFrom (taken : List (List α)) (mark : α) : ℕ → List α → List α
  | 0, name => name
  | fuel + 1, name => if name ∈ taken then avoidFrom taken mark fuel (name ++ [mark]) else name

/-- The mark is appended while the name is taken. -/
def avoid (taken : List (List α)) (mark : α) (name : List α) : List α :=
  avoidFrom taken mark taken.length name

variable {taken : List (List α)} {mark : α}

theorem avoidFrom_eq (fuel : ℕ) (name : List α) :
    ∃ k, avoidFrom taken mark fuel name = name ++ List.replicate k mark := by
  induction fuel generalizing name with
  | zero => exact ⟨0, (List.append_nil name).symm⟩
  | succ fuel ih =>
    unfold avoidFrom
    split
    · obtain ⟨k, hk⟩ := ih (name ++ [mark])
      exact ⟨k + 1, by rw [hk, List.append_assoc, List.replicate_succ, List.singleton_append]⟩
    · exact ⟨0, (List.append_nil name).symm⟩

/-- Only the taken names that are at least as long as the candidate stand in its way. -/
theorem avoidFrom_not_mem {fuel : ℕ} {name : List α}
    (h : (taken.filter fun other => decide (name.length ≤ other.length)).length ≤ fuel) :
    avoidFrom taken mark fuel name ∉ taken := by
  induction fuel generalizing name with
  | zero =>
    intro hmem
    have hfilter := List.eq_nil_of_length_eq_zero (Nat.le_zero.1 h)
    have : name ∈ taken.filter fun other => decide (name.length ≤ other.length) :=
      List.mem_filter.2 ⟨hmem, by simp⟩
    rw [hfilter] at this
    exact List.not_mem_nil this
  | succ fuel ih =>
    unfold avoidFrom
    split
    case isFalse hnot => exact hnot
    case isTrue hmem =>
      refine ih ?_
      have hsub : (taken.filter fun other => decide ((name ++ [mark]).length ≤ other.length)) =
          (taken.filter fun other => decide (name.length ≤ other.length)).filter fun other =>
            decide ((name ++ [mark]).length ≤ other.length) := by
        rw [List.filter_filter]
        refine List.filter_congr fun other _ => ?_
        simp only [List.length_append, List.length_singleton]
        by_cases hle : name.length + 1 ≤ other.length
        · have : name.length ≤ other.length := by omega
          simp [hle, this]
        · simp [hle]
      have hlt : (taken.filter fun other => decide ((name ++ [mark]).length ≤ other.length)).length <
          (taken.filter fun other => decide (name.length ≤ other.length)).length := by
        rw [hsub]
        refine List.length_filter_lt_length_iff_exists.2 ⟨name, List.mem_filter.2 ⟨hmem, by simp⟩, ?_⟩
        simp
      omega

/-- The name is fresh. -/
theorem avoid_not_mem (taken : List (List α)) (mark : α) (name : List α) :
    avoid taken mark name ∉ taken :=
  avoidFrom_not_mem (List.length_filter_le _ _)

theorem avoid_eq (taken : List (List α)) (mark : α) (name : List α) :
    ∃ k, avoid taken mark name = name ++ List.replicate k mark :=
  avoidFrom_eq _ _

theorem avoid_of_not_mem {name : List α} (h : name ∉ taken) : avoid taken mark name = name := by
  unfold avoid
  cases taken.length with
  | zero => rfl
  | succ fuel => exact if_neg h

omit [DecidableEq α] in
/-- Marks at the end do not make two stems equal that end in something else. -/
theorem stem_eq {name name' : List α} {k k' : ℕ} (h : name.getLast? ≠ some mark)
    (h' : name'.getLast? ≠ some mark)
    (heq : name ++ List.replicate k mark = name' ++ List.replicate k' mark) : name = name' := by
  induction k generalizing k' with
  | zero =>
    cases k' with
    | zero => simpa using heq
    | succ k' =>
      refine absurd (congrArg List.getLast? heq) ?_
      rw [List.replicate_succ', ← List.append_assoc, List.getLast?_concat]
      simpa using h
  | succ k ih =>
    cases k' with
    | zero =>
      refine absurd (congrArg List.getLast? heq).symm ?_
      rw [List.replicate_succ', ← List.append_assoc, List.getLast?_concat]
      simpa using h'
    | succ k' =>
      rw [List.replicate_succ', List.replicate_succ', ← List.append_assoc,
        ← List.append_assoc] at heq
      exact ih (List.append_inj_left' heq rfl)

end Naming
