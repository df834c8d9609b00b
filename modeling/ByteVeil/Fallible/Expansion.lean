import ByteVeil.Fallible.Search
import Mathlib.Order.WellFounded

/-!
# Tasks that expand into lines and further tasks

A recursive printer is given by what each of its tasks comes to: lines, tasks whose lines stand in
their place, and tasks that are tried and whose lines are dropped. It ends on every task that is good
when the expansion of a good task has no fault and leads to good tasks that are smaller.
-/

namespace Fallible

variable {L T : Type}

/-- One part of an expansion. -/
inductive Part (L T : Type)
  | line (l : L)
  | task (t : T)
  | trial (t : T)
  deriving DecidableEq

/-- The part's task. -/
def Part.IsTask (t : T) : Part L T → Prop
  | line _ => False
  | task u => u = t
  | trial u => u = t

/-- The lines of a part, given those of tasks. -/
def Part.lines (perform : T → Option (List L)) : Part L T → Option (List L)
  | line l => some [l]
  | task t => perform t
  | trial t => (perform t).map fun _ => []

/-- The lines of a list of parts. -/
def partLines (perform : T → Option (List L)) : List (Part L T) → Option (List L)
  | [] => some []
  | part :: parts => do
    let ls ← part.lines perform
    return ls ++ (← partLines perform parts)

section Perform

variable (expand : T → Search (List (Part L T)))

/-- The lines of a task; there are none where a search has a fault or no result, or where tasks are
nested deeper than `depth`. -/
def perform : ℕ → T → Option (List L)
  | 0, _ => none
  | depth + 1, t =>
    match expand t with
    | .ok parts => partLines (perform depth) parts
    | .error _ => none

/-- The expansion of `t` has the task `u`. -/
def Spawns (t u : T) : Prop := ∃ parts, expand t = .ok parts ∧ ∃ part ∈ parts, part.IsTask u

variable {expand}

theorem Part.lines_mono {f g : T → Option (List L)} {part : Part L T} {ls : List L}
    (h : ∀ t, part.IsTask t → ∀ ls, f t = some ls → g t = some ls)
    (hrun : part.lines f = some ls) : part.lines g = some ls := by
  cases part with
  | line l => exact hrun
  | task t => exact h t rfl ls hrun
  | trial t =>
    obtain ⟨ls', ht, hls⟩ := Option.map_eq_some_iff.1 hrun
    exact Option.map_eq_some_iff.2 ⟨ls', h t rfl ls' ht, hls⟩

theorem partLines_mono {f g : T → Option (List L)} {parts : List (Part L T)} {ls : List L}
    (h : ∀ part ∈ parts, ∀ t, part.IsTask t → ∀ ls, f t = some ls → g t = some ls)
    (hrun : partLines f parts = some ls) : partLines g parts = some ls := by
  induction parts generalizing ls with
  | nil => exact hrun
  | cons part parts ih =>
    obtain ⟨ls₁, hfirst, hrun⟩ := Option.bind_eq_some_iff.1 hrun
    obtain ⟨ls₂, hrest, hls⟩ := Option.bind_eq_some_iff.1 hrun
    have hfirst := part.lines_mono (h part List.mem_cons_self) hfirst
    have hrest := ih (fun part hpart => h part (List.mem_cons_of_mem _ hpart)) hrest
    exact Option.bind_eq_some_iff.2 ⟨ls₁, hfirst, Option.bind_eq_some_iff.2 ⟨ls₂, hrest, hls⟩⟩

/-- More depth does not change the lines. -/
theorem perform_mono {depth more : ℕ} (h : depth ≤ more) {t : T} {ls : List L}
    (hrun : perform expand depth t = some ls) : perform expand more t = some ls := by
  induction depth generalizing more t ls with
  | zero => cases hrun
  | succ depth ih =>
    obtain ⟨more, rfl⟩ : ∃ n, more = n + 1 := ⟨more - 1, by omega⟩
    unfold perform at hrun ⊢
    cases hparts : expand t with
    | error e =>
      rw [hparts] at hrun
      cases hrun
    | ok parts =>
      rw [hparts] at hrun
      exact partLines_mono (fun _ _ t _ ls ht => ih (by omega) ht) hrun

/-- Parts whose tasks all end, end together. -/
theorem exists_partLines {parts : List (Part L T)}
    (h : ∀ part ∈ parts, ∀ t, part.IsTask t → ∃ depth ls, perform expand depth t = some ls) :
    ∃ depth ls, partLines (perform expand depth) parts = some ls := by
  induction parts with
  | nil => exact ⟨0, [], rfl⟩
  | cons part parts ih =>
    obtain ⟨depth, ls, hrest⟩ := ih fun part hpart => h part (List.mem_cons_of_mem _ hpart)
    have hfirst : ∃ depth ls, part.lines (perform expand depth) = some ls := by
      have hpart := h part List.mem_cons_self
      cases part with
      | line l => exact ⟨0, [l], rfl⟩
      | task t => exact hpart t rfl
      | trial t =>
        obtain ⟨depth, ls, ht⟩ := hpart t rfl
        exact ⟨depth, [], Option.map_eq_some_iff.2 ⟨ls, ht, rfl⟩⟩
    obtain ⟨depth', ls', hfirst⟩ := hfirst
    have hfirst := part.lines_mono (fun t _ ls ht =>
      perform_mono (Nat.le_max_left depth' depth) ht) hfirst
    have hrest := partLines_mono (fun _ _ t _ ls ht =>
      perform_mono (Nat.le_max_right depth' depth) ht) hrest
    exact ⟨max depth' depth, ls' ++ ls,
      Option.bind_eq_some_iff.2 ⟨ls', hfirst, Option.bind_eq_some_iff.2 ⟨ls, hrest, rfl⟩⟩⟩

/-- A good task ends, when good tasks expand into good and smaller ones. -/
theorem perform_returns {Good : T → Prop} {smaller : T → T → Prop} (hwf : WellFounded smaller)
    (h : ∀ t, Good t → ∃ parts, expand t = .ok parts ∧
      ∀ part ∈ parts, ∀ u, part.IsTask u → Good u ∧ smaller u t) {t : T} (ht : Good t) :
    ∃ depth ls, perform expand depth t = some ls := by
  induction t using hwf.induction with
  | _ t ih =>
    obtain ⟨parts, hparts, hgood⟩ := h t ht
    obtain ⟨depth, ls, hls⟩ := exists_partLines fun part hpart u hu =>
      ih u (hgood part hpart u hu).2 (hgood part hpart u hu).1
    refine ⟨depth + 1, ls, ?_⟩
    unfold perform
    rw [hparts]
    exact hls

end Perform

end Fallible
