import ByteVeil.IR.Loops

/-!
# Immediate dominators

The choice of the dominator with the largest set. Dominators of a block form a chain, so the largest
set belongs to the nearest one.
-/

namespace ByteVeil.IR

open ByteVeil.Luau FlowGraph

/-- The running choice of the search for the largest set: the block and its depth. -/
def deeper (size : ℕ → ℕ) (best : ℤ × ℕ) (candidate : ℕ) : ℤ × ℕ :=
  if best.2 < size candidate then (candidate, size candidate) else best

namespace Function

variable (f : Function)

/-- `dominators[block].size()`. -/
def dominatorCount (block : ℕ) : ℕ := (f.dominators.getD block ∅).card

/-- `best` for a reachable block. -/
def bestDominator (block : ℕ) : ℤ :=
  (((f.listing (f.dominators.getD block ∅)).filter (· ≠ block)).foldl
    (deeper f.dominatorCount) (-1, 0)).1

/-- `immediateDominators`. -/
def immediateDominators : List ℤ :=
  (List.range f.blockCount).map fun block =>
    if block = 0 then 0 else if block ∈ f.reachable then f.bestDominator block else -1

/-- `d` strictly dominates `b`, and every strict dominator of `b` dominates `d`. -/
def IsImmediate (d b : ℕ) : Prop :=
  (f.Dominates d b ∧ d ≠ b) ∧ ∀ d', f.Dominates d' b → d' ≠ b → f.Dominates d' d

/-- The dominator analysis is what its names say. -/
structure DominatorsCorrect : Prop where
  settles : Settles (lower (· ∈ f.reachable) f.nextDominators) (List.range' 1 (f.blockCount - 1))
    f.initialDominators f.dominators
  reachable_iff : ∀ b, b ∈ f.reachable ↔ f.Reachable b
  mem_iff : ∀ b, f.Reachable b → ∀ d, d ∈ f.dominators.getD b ∅ ↔ f.Dominates d b
  entry : f.immediateDominators.getD 0 (-1) = 0
  immediate : ∀ b, f.Reachable b → b ≠ 0 →
    ∀ d, f.immediateDominators.getD b (-1) = d ↔ ∃ n : ℕ, d = n ∧ f.IsImmediate n b
  none_iff : ∀ b, f.immediateDominators.getD b (-1) = -1 ↔ ¬ f.Reachable b
  to_entry : ∀ b, f.Reachable b →
    Relation.ReflTransGen (fun x y : ℕ => f.immediateDominators.getD x (-1) = y) b 0

variable {f}

/-! ## The order of the dominators -/

theorem dominates_refl (b : ℕ) : f.Dominates b b := dominates_iff.2 (onEveryPath_refl b)

theorem Dominates.trans {c d b : ℕ} (h : f.Dominates c d) (h' : f.Dominates d b) :
    f.Dominates c b :=
  dominates_iff.2 ((dominates_iff.1 h).trans (dominates_iff.1 h'))

theorem Dominates.antisymm {d d' : ℕ} (h : f.Dominates d d') (h' : f.Dominates d' d)
    (hd : f.Reachable d) : d = d' :=
  (dominates_iff.1 h).antisymm (dominates_iff.1 h') (reachable_iff.1 hd)

theorem Dominates.total {d d' b : ℕ} (h : f.Dominates d b) (h' : f.Dominates d' b)
    (hb : f.Reachable b) : f.Dominates d d' ∨ f.Dominates d' d := by
  rw [dominates_iff, dominates_iff]
  exact (dominates_iff.1 h).total (dominates_iff.1 h') (reachable_iff.1 hb)

theorem entry_dominates (b : ℕ) : f.Dominates 0 b := fun _ hl => hl.start_mem

/-- A strict dominator has a smaller set. -/
theorem Graph.dominatorCount_lt (hf : f.Graph) {d b : ℕ} (h : f.Dominates d b) (hne : d ≠ b)
    (hb : f.Reachable b) : f.dominatorCount d < f.dominatorCount b := by
  have hd := h.reachable hb
  refine Finset.card_lt_card ⟨fun x hx => ?_, fun hsub => ?_⟩
  · exact (hf.mem_dominators hb).2 (((hf.mem_dominators hd).1 hx).trans h)
  · have hbb := hsub ((hf.mem_dominators hb).2 (dominates_refl b))
    exact hne (h.antisymm ((hf.mem_dominators hd).1 hbb) hd)

theorem Graph.dominatorCount_pos (hf : f.Graph) {b : ℕ} (hb : f.Reachable b) :
    0 < f.dominatorCount b :=
  Finset.card_pos.2 ⟨b, (hf.mem_dominators hb).2 (dominates_refl b)⟩

/-- Immediate dominators are unique. -/
theorem IsImmediate.unique {d d' b : ℕ} (h : f.IsImmediate d b) (h' : f.IsImmediate d' b)
    (hb : f.Reachable b) : d = d' :=
  (h'.2 d h.1.1 h.1.2).antisymm (h.2 d' h'.1.1 h'.1.2) (h.1.1.reachable hb)

/-! ## The choice -/

/-- The running choice keeps the first candidate of the greatest size. -/
theorem deeper_foldl (size : ℕ → ℕ) (l : List ℕ) (best : ℤ × ℕ) :
    (∀ c ∈ l, size c ≤ (l.foldl (deeper size) best).2) ∧
      best.2 ≤ (l.foldl (deeper size) best).2 ∧
      (l.foldl (deeper size) best = best ∨
        ∃ c ∈ l, l.foldl (deeper size) best = ((c : ℤ), size c)) := by
  induction l generalizing best with
  | nil => exact ⟨by simp, le_rfl, Or.inl rfl⟩
  | cons c l ih =>
    rw [List.foldl_cons]
    obtain ⟨hall, hle, hfrom⟩ := ih (deeper size best c)
    have hstep : best.2 ≤ (deeper size best c).2 ∧ size c ≤ (deeper size best c).2 ∧
        (deeper size best c = best ∨ deeper size best c = ((c : ℤ), size c)) := by
      unfold deeper
      split_ifs with h
      · exact ⟨h.le, le_rfl, Or.inr rfl⟩
      · exact ⟨le_rfl, not_lt.1 h, Or.inl rfl⟩
    obtain ⟨hbest, hc, hkept⟩ := hstep
    refine ⟨List.forall_mem_cons.2 ⟨hc.trans hle, hall⟩, hbest.trans hle, ?_⟩
    rcases hfrom with h | ⟨c', hc', h⟩
    · rw [h]
      exact hkept.imp_right fun hk => ⟨c, List.mem_cons_self .., hk⟩
    · exact Or.inr ⟨c', List.mem_cons_of_mem _ hc', h⟩

/-- For a reachable block after the entry the choice is the immediate dominator. -/
theorem Graph.bestDominator_isImmediate (hf : f.Graph) {b : ℕ} (hb : f.Reachable b)
    (hb0 : b ≠ 0) : ∃ d : ℕ, f.bestDominator b = d ∧ f.IsImmediate d b := by
  have hmem : ∀ d, d ∈ (f.listing (f.dominators.getD b ∅)).filter (· ≠ b) ↔
      f.Dominates d b ∧ d ≠ b := by
    intro d
    unfold listing
    rw [List.mem_filter, List.mem_filter, decide_eq_true_eq, decide_eq_true_eq, hf.mem_dominators hb,
      List.mem_range]
    exact ⟨fun h => ⟨h.1.2, h.2⟩, fun h => ⟨⟨hf.reachable_lt (h.1.reachable hb), h.1⟩, h.2⟩⟩
  unfold bestDominator
  generalize (f.listing (f.dominators.getD b ∅)).filter (· ≠ b) = candidates at hmem
  obtain ⟨hall, -, hfrom⟩ := deeper_foldl f.dominatorCount candidates (-1, 0)
  have hentry := hall 0 ((hmem 0).2 ⟨entry_dominates b, hb0.symm⟩)
  have hpos := hf.dominatorCount_pos (.refl : f.Reachable 0)
  rcases hfrom with h | ⟨d, hd, h⟩
  · -- the entry is a candidate, so the loop has chosen one
    rw [h] at hentry
    dsimp only at hentry
    omega
  · obtain ⟨hdom, hne⟩ := (hmem d).1 hd
    refine ⟨d, by rw [h], ⟨hdom, hne⟩, fun d' hdom' hne' => ?_⟩
    have hle := hall d' ((hmem d').2 ⟨hdom', hne'⟩)
    rw [h] at hle
    rcases hdom'.total hdom hb with hdd | hdd
    · exact hdd
    · by_cases hsame : d = d'
      · rw [← hsame]
        exact dominates_refl d
      · have := hf.dominatorCount_lt hdd hsame (hdom'.reachable hb)
        dsimp only at hle
        omega

theorem Graph.getD_immediateDominators (hf : f.Graph) (b : ℕ) :
    f.immediateDominators.getD b (-1) =
      if b = 0 then 0 else if b ∈ f.reachable then f.bestDominator b else -1 := by
  unfold immediateDominators
  by_cases hb : b < f.blockCount
  · rw [List.getD_eq_getElem _ _ (by simpa using hb)]
    simp
  · have hpos := hf.pos
    have hout : b ∉ f.reachable := fun h => hb (hf.reachable_lt (hf.mem_reachable.1 h))
    rw [List.getD_eq_default _ _ (by simpa using hb), if_neg (by omega), if_neg hout]

/-- Immediate dominators lead to the entry. -/
theorem Graph.immediate_to_entry (hf : f.Graph) {b : ℕ} (hb : f.Reachable b) :
    Relation.ReflTransGen (fun x y : ℕ => f.immediateDominators.getD x (-1) = y) b 0 := by
  induction hn : f.dominatorCount b using Nat.strong_induction_on generalizing b with
  | _ n ih =>
    subst hn
    by_cases hb0 : b = 0
    · rw [hb0]
    · obtain ⟨d, hd, himm⟩ := hf.bestDominator_isImmediate hb hb0
      have hstep : f.immediateDominators.getD b (-1) = d := by
        rw [hf.getD_immediateDominators, if_neg hb0, if_pos (hf.mem_reachable.2 hb), hd]
      have hlt := hf.dominatorCount_lt himm.1.1 himm.1.2 hb
      exact .head hstep (ih _ hlt (himm.1.1.reachable hb) rfl)

theorem Graph.dominatorsCorrect (hf : f.Graph) : f.DominatorsCorrect where
  settles := hf.dominators_descends.settles
  reachable_iff _ := hf.mem_reachable
  mem_iff _ hb _ := hf.mem_dominators hb
  entry := by rw [hf.getD_immediateDominators, if_pos rfl]
  immediate b hb hb0 d := by
    obtain ⟨n, hn, himm⟩ := hf.bestDominator_isImmediate hb hb0
    rw [hf.getD_immediateDominators, if_neg hb0, if_pos (hf.mem_reachable.2 hb), hn]
    constructor
    · rintro rfl
      exact ⟨n, rfl, himm⟩
    · rintro ⟨m, rfl, hm⟩
      rw [himm.unique hm hb]
  none_iff b := by
    rw [hf.getD_immediateDominators, ← hf.mem_reachable]
    split_ifs with hb0 hb
    · rw [hb0]
      exact iff_of_false (by decide) (not_not.2 (hf.mem_reachable.2 .refl))
    · obtain ⟨n, hn, -⟩ := hf.bestDominator_isImmediate (hf.mem_reachable.1 hb) hb0
      rw [hn]
      exact iff_of_false (by omega) (not_not.2 hb)
    · exact iff_of_true rfl hb
  to_entry _ hb := hf.immediate_to_entry hb

end Function

/-- The dominators, reachable blocks and immediate dominators of a function of the IR are exact. -/
theorem addFunction_dominators (p : Proto) (nextId : ℕ) (parentId : ℤ) (protoIndex : ℕ) :
    (addFunction p nextId parentId protoIndex).1.DominatorsCorrect :=
  (addFunction_graph p nextId parentId protoIndex).dominatorsCorrect

end ByteVeil.IR
