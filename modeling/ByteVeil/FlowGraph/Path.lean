import Mathlib.Logic.Relation
import Mathlib.Data.Finset.Card
import Mathlib.Tactic.Common

/-!
# Paths of a directed graph

Paths are given by the vertices they visit. `OnEveryPath E stop d b` says that `d` lies on every path
from `b` to a vertex of `stop`: with the edges as they are this is post-dominance, with the edges
reversed and the entry as the only stop it is dominance.
-/

namespace FlowGraph

variable {α : Type*} {E : α → α → Prop}

/-- `Path E a l b`: a path from `a` to `b`, visiting the vertices of `l` in order. -/
inductive Path (E : α → α → Prop) : α → List α → α → Prop
  | single (a : α) : Path E a [a] a
  | cons {a b c : α} {l : List α} : E a b → Path E b l c → Path E a (a :: l) c

namespace Path

theorem start_mem {a b : α} {l : List α} (h : Path E a l b) : a ∈ l := by
  cases h <;> simp

theorem finish_mem {a b : α} {l : List α} (h : Path E a l b) : b ∈ l := by
  induction h with
  | single a => simp
  | cons _ _ ih => exact List.mem_cons_of_mem _ ih

theorem reach {a b : α} {l : List α} (h : Path E a l b) : Relation.ReflTransGen E a b := by
  induction h with
  | single a => exact Relation.ReflTransGen.refl
  | cons he _ ih => exact Relation.ReflTransGen.head he ih

theorem snoc {a b c : α} {l : List α} (h : Path E a l b) (he : E b c) :
    Path E a (l ++ [c]) c := by
  induction h with
  | single a => exact .cons he (.single c)
  | cons he' _ ih => exact .cons he' (ih he)

theorem append {a b c : α} {l m : List α} (h : Path E a l b) (h' : Path E b m c) :
    ∃ r, Path E a r c ∧ ∀ x ∈ r, x ∈ l ∨ x ∈ m := by
  induction h with
  | single a => exact ⟨m, h', fun x hx => Or.inr hx⟩
  | @cons a _ _ l he _ ih =>
    obtain ⟨r, hr, hsub⟩ := ih h'
    refine ⟨a :: r, .cons he hr, fun x hx => ?_⟩
    rcases List.mem_cons.1 hx with rfl | hx
    · exact Or.inl (List.mem_cons_self ..)
    · exact (hsub x hx).imp_left (List.mem_cons_of_mem _)

theorem reverse {a b : α} {l : List α} (h : Path E a l b) :
    Path (fun x y => E y x) b l.reverse a := by
  induction h with
  | single a => exact .single a
  | cons he _ ih =>
    rw [List.reverse_cons]
    exact ih.snoc he

/-- The path from a visited vertex on; it is shorter unless it is the whole path. -/
theorem suffix {a b x : α} {l : List α} (h : Path E a l b) (hx : x ∈ l) :
    ∃ m, Path E x m b ∧ (∀ y ∈ m, y ∈ l) ∧ m.length ≤ l.length ∧
      (x ≠ a → m.length < l.length) := by
  induction h with
  | single a =>
    obtain rfl : x = a := by simpa using hx
    exact ⟨[x], .single x, fun y hy => hy, le_rfl, fun h => absurd rfl h⟩
  | @cons a b c l he hp ih =>
    by_cases hxa : x = a
    · subst hxa
      exact ⟨x :: l, .cons he hp, fun y hy => hy, le_rfl, fun h => absurd rfl h⟩
    · obtain ⟨m, hm, hsub, hle, _⟩ := ih ((List.mem_cons.1 hx).resolve_left hxa)
      refine ⟨m, hm, fun y hy => List.mem_cons_of_mem _ (hsub y hy), ?_, fun _ => ?_⟩
      · rw [List.length_cons]; omega
      · rw [List.length_cons]; omega

end Path

theorem exists_path_of_reach {a b : α} (h : Relation.ReflTransGen E a b) :
    ∃ l, Path E a l b := by
  induction h using Relation.ReflTransGen.head_induction_on with
  | refl => exact ⟨[b], .single b⟩
  | head he _ ih =>
    obtain ⟨l, hl⟩ := ih
    exact ⟨_, .cons he hl⟩

theorem reach_flip {a b : α} (h : Relation.ReflTransGen (fun x y => E y x) a b) :
    Relation.ReflTransGen E b a := Relation.reflTransGen_swap.1 h

/-! ## Lying on every path -/

/-- `d` lies on every path from `b` to a vertex of `stop`. -/
def OnEveryPath (E : α → α → Prop) (stop : α → Prop) (d b : α) : Prop :=
  ∀ e l, stop e → Path E b l e → d ∈ l

/-- A vertex of `stop` can be reached. -/
def ReachesStop (E : α → α → Prop) (stop : α → Prop) (b : α) : Prop :=
  ∃ e, stop e ∧ Relation.ReflTransGen E b e

section OnEveryPath

variable {stop : α → Prop} {b d d' : α}

theorem onEveryPath_refl (b : α) : OnEveryPath E stop b b := fun _ _ _ h => h.start_mem

theorem OnEveryPath.trans (h : OnEveryPath E stop d' d) (h' : OnEveryPath E stop d b) :
    OnEveryPath E stop d' b := by
  intro e l he hp
  obtain ⟨m, hm, hsub, _⟩ := hp.suffix (h' e l he hp)
  exact hsub d' (h e m he hm)

/-- A vertex on every path lies, if it is not the first one, on every path of each successor. -/
theorem OnEveryPath.of_edge {c : α} (h : OnEveryPath E stop d b) (hdb : d ≠ b) (he : E b c) :
    OnEveryPath E stop d c := by
  intro e l hs hp
  exact (List.mem_cons.1 (h e (b :: l) hs (.cons he hp))).resolve_left hdb

theorem OnEveryPath.reach (h : OnEveryPath E stop d b) (hb : ReachesStop E stop b) :
    Relation.ReflTransGen E b d := by
  obtain ⟨e, he, hr⟩ := hb
  obtain ⟨l, hl⟩ := exists_path_of_reach hr
  have hd := h e l he hl
  clear h he hr
  induction hl with
  | single a =>
    obtain rfl : d = a := by simpa using hd
    exact .refl
  | @cons a _ _ _ he _ ih =>
    by_cases hda : d = a
    · rw [hda]
    · exact .head he (ih ((List.mem_cons.1 hd).resolve_left hda))

theorem OnEveryPath.reachesStop (h : OnEveryPath E stop d b) (hb : ReachesStop E stop b) :
    ReachesStop E stop d := by
  obtain ⟨e, he, hr⟩ := hb
  obtain ⟨l, hl⟩ := exists_path_of_reach hr
  obtain ⟨m, hm, _⟩ := hl.suffix (h e l he hl)
  exact ⟨e, he, hm.reach⟩

/-- Two vertices on every path of each other would have ever shorter paths to a stop. -/
theorem OnEveryPath.antisymm (h : OnEveryPath E stop d d') (h' : OnEveryPath E stop d' d)
    (hd : ReachesStop E stop d) : d = d' := by
  by_contra hne
  have key : ∀ n l e, l.length ≤ n → stop e → Path E d l e → False := by
    intro n
    induction n with
    | zero =>
      intro l e hlen _ hp
      have := List.length_pos_of_mem hp.start_mem
      omega
    | succ n ih =>
      intro l e hlen hs hp
      obtain ⟨m, hm, _, _, hlt⟩ := hp.suffix (h' e l hs hp)
      obtain ⟨k, hk, _, hle, _⟩ := hm.suffix (h e m hs hm)
      have := hlt (Ne.symm hne)
      exact ih k e (by omega) hs hk
  obtain ⟨e, he, hr⟩ := hd
  obtain ⟨l, hl⟩ := exists_path_of_reach hr
  exact key l.length l e le_rfl he hl

/-- The vertices on every path form a chain. -/
theorem OnEveryPath.total (h : OnEveryPath E stop d b) (h' : OnEveryPath E stop d' b)
    (hb : ReachesStop E stop b) : OnEveryPath E stop d d' ∨ OnEveryPath E stop d' d := by
  obtain ⟨e, he, hr⟩ := hb
  obtain ⟨l, hl⟩ := exists_path_of_reach hr
  clear hr
  induction hl with
  | single a =>
    obtain rfl : d = a := by simpa using h a [a] he (.single a)
    exact Or.inr h'
  | @cons a c _ _ hac _ ih =>
    by_cases hda : d = a
    · exact Or.inr (hda ▸ h')
    · by_cases hda' : d' = a
      · exact Or.inl (hda' ▸ h)
      · exact ih (h.of_edge hda hac) (h'.of_edge hda' hac) he

/-- Sets that shrink to the vertex itself at a stop, and along an edge lose nothing but the vertex
left, hold only vertices that lie on every path. -/
theorem onEveryPath_of_mem {D : α → Finset α} (hstop : ∀ e, stop e → ∀ x ∈ D e, x = e)
    (hstep : ∀ a c, ¬ stop a → E a c → ReachesStop E stop c → ∀ x ∈ D a, x = a ∨ x ∈ D c)
    (hd : d ∈ D b) : OnEveryPath E stop d b := by
  intro e l he hp
  induction hp with
  | single a => exact List.mem_singleton.2 (hstop a he d hd)
  | @cons a c e l hac hp ih =>
    by_cases ha : stop a
    · rw [hstop a ha d hd]
      exact List.mem_cons_self ..
    · rcases hstep a c ha hac ⟨e, he, hp.reach⟩ d hd with rfl | hdc
      · exact List.mem_cons_self ..
      · exact List.mem_cons_of_mem _ (ih hdc he)

end OnEveryPath

end FlowGraph
