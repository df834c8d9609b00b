import ByteVeil.IR.Dominators
import ByteVeil.IR.Validate

/-!
# Post-dominators and joins

The post-dominator sets, the immediate post-dominators and `commonPostdom` of the restructurer. The
sets are exact; both choices take the candidate with the smallest set, which is the farthest one, so
they are the nearest only where there is a single candidate.
-/

namespace ByteVeil.IR

open ByteVeil.Luau FlowGraph

/-- The running choice of the search for the smallest set: a later candidate has to be smaller. -/
def smaller (size : ℕ → ℕ) (best : Option ℕ) (candidate : ℕ) : Option ℕ :=
  match best with
  | none => some candidate
  | some b => if size candidate < size b then some candidate else some b

/-- A block id, or `-1`. -/
def blockOrNone : Option ℕ → ℤ
  | none => -1
  | some b => b

namespace Function

variable (f : Function)

/-- The set `next` of one visit of a block. -/
def nextPostDominators (postDominators : List (Finset ℕ)) (block : ℕ) : Finset ℕ :=
  insert block (meet f.reachable postDominators (f.successors block))

/-- The sets before the first round. -/
def initialPostDominators : List (Finset ℕ) :=
  (List.range f.blockCount).map fun block =>
    if block ∈ f.reachable then
      if (f.successors block).isEmpty then {block} else f.reachable
    else ∅

/-- `postDominators`; a round visits the blocks from the last to the first. -/
def postDominators : List (Finset ℕ) :=
  settle (lower (fun block => block ∈ f.reachable ∧ ¬ (f.successors block).isEmpty)
    f.nextPostDominators) (List.range f.blockCount).reverse
    (f.blockCount * f.blockCount + 1) f.initialPostDominators

/-- `postDominators[block].size()`. -/
def postDominatorCount (block : ℕ) : ℕ := (f.postDominators.getD block ∅).card

/-- The blocks of a set, in order. -/
def blocksOf (s : Finset ℕ) : List ℕ := (List.range f.blockCount).filter (· ∈ s)

/-- `immediatePostDominators`. -/
def immediatePostDominators : List ℤ :=
  (List.range f.blockCount).map fun block =>
    if block ∈ f.reachable then
      blockOrNone <| ((f.blocksOf (f.postDominators.getD block ∅)).filter (· ≠ block)).foldl
        (smaller f.postDominatorCount) none
    else -1

/-- `commonPostdom`. -/
def commonPostdom (left right : ℕ) : ℤ :=
  if f.postDominators.length ≤ left ∨ f.postDominators.length ≤ right then -1
  else
    let candidates := (f.blocksOf (f.postDominators.getD left ∅)).filter
      (· ∈ f.postDominators.getD right ∅)
    blockOrNone (candidates.insertionSort
      fun a b => f.postDominatorCount a ≤ f.postDominatorCount b).head?

/-- A block without successors. -/
def IsExit (e : ℕ) : Prop := e < f.blockCount ∧ f.successors e = []

/-- An exit can be reached. -/
def ReachesExit (b : ℕ) : Prop := ReachesStop f.Edge f.IsExit b

/-- `d` lies on every path from `b` to an exit. -/
def PostDominates (d b : ℕ) : Prop := OnEveryPath f.Edge f.IsExit d b

/-- `r` is the candidate that all candidates post-dominate, or `-1` when there is no candidate. -/
def IsNearest (candidate : ℕ → Prop) (r : ℤ) : Prop :=
  (r = -1 ∧ ∀ d, ¬ candidate d) ∨
    ∃ d : ℕ, r = d ∧ candidate d ∧ ∀ d', candidate d' → f.PostDominates d' d

/-- Post-dominator sets are exact, immediate post-dominators and joins are the nearest ones. -/
structure PostDominatorsCorrect : Prop where
  mem_iff : ∀ b, f.Reachable b → f.ReachesExit b →
    ∀ d, d ∈ f.postDominators.getD b ∅ ↔ f.PostDominates d b
  immediate : ∀ b, f.Reachable b → f.ReachesExit b →
    f.IsNearest (fun d => f.PostDominates d b ∧ d ≠ b) (f.immediatePostDominators.getD b (-1))
  join : ∀ b x y, f.successors b = [x, y] → f.ReachesExit x → f.ReachesExit y →
    f.IsNearest (fun d => f.PostDominates d x ∧ f.PostDominates d y) (f.commonPostdom x y)

/-- There is never a choice: a reachable block that reaches an exit has at most one strict
post-dominator, and two arms that reach an exit have at most one common post-dominator, or none when
one of the arms cannot be reached. -/
structure NoChoice : Prop where
  immediate : ∀ b, f.Reachable b → f.ReachesExit b → ∀ d d',
    f.PostDominates d b → d ≠ b → f.PostDominates d' b → d' ≠ b → d = d'
  join : ∀ b x y, f.successors b = [x, y] → f.ReachesExit x → f.ReachesExit y →
    f.Reachable x → f.Reachable y → ∀ d d', f.PostDominates d x → f.PostDominates d y →
      f.PostDominates d' x → f.PostDominates d' y → d = d'
  unreachable : ∀ b x y, f.successors b = [x, y] → f.ReachesExit x → f.ReachesExit y →
    ¬ (f.Reachable x ∧ f.Reachable y) → ∀ d, ¬ (f.PostDominates d x ∧ f.PostDominates d y)

variable {f}

/-! ## The sets -/

theorem nextPostDominators_mono {D D' : List (Finset ℕ)} {b : ℕ} (h : Below D D') :
    f.nextPostDominators D b ⊆ f.nextPostDominators D' b :=
  Finset.insert_subset_insert _ (meet_mono h)

theorem getD_initialPostDominators (b : ℕ) : f.initialPostDominators.getD b ∅ =
    if b < f.blockCount ∧ b ∈ f.reachable then
      if (f.successors b).isEmpty then {b} else f.reachable
    else ∅ := by
  unfold initialPostDominators
  by_cases hb : b < f.blockCount
  · rw [List.getD_eq_getElem _ _ (by simpa)]
    simp [hb]
  · rw [List.getD_eq_default _ _ (by simpa using hb), if_neg fun h => hb h.1]

theorem Graph.isExit_iff (hf : f.Graph) {b : ℕ} (hb : f.Reachable b) :
    f.IsExit b ↔ (f.successors b).isEmpty := by
  rw [List.isEmpty_iff]
  exact and_iff_right (hf.reachable_lt hb)

theorem Graph.postDominators_descends (hf : f.Graph) :
    Descends (fun block => block ∈ f.reachable ∧ ¬ (f.successors block).isEmpty)
      f.nextPostDominators (List.range f.blockCount).reverse f.initialPostDominators
      (f.blockCount * f.blockCount + 1) where
  mono _ _ _ h := nextPostDominators_mono h
  lt_length b hb _ := by simpa [initialPostDominators] using hb
  init b hb hs x hx := by
    obtain ⟨hbr, hne⟩ : b ∈ f.reachable ∧ ¬ (f.successors b).isEmpty := by simpa using hs
    rw [getD_initialPostDominators, if_pos ⟨by simpa using hb, hbr⟩, if_neg hne]
    rcases Finset.mem_insert.1 hx with rfl | h
    · exact hbr
    · exact (mem_meet.1 h).1
  size_lt := by
    refine Nat.lt_succ_of_le (size_map_range_le fun b _ => ?_)
    have := hf.card_reachable_le
    have := hf.pos
    split_ifs
    · simp only [Finset.card_singleton]; omega
    · omega
    · simp

theorem Graph.postDominators_fixed (hf : f.Graph) :
    f.postDominators.length = f.blockCount ∧
    (∀ b ∈ f.reachable, ¬ f.IsExit b →
      f.nextPostDominators f.postDominators b = f.postDominators.getD b ∅) ∧
    (∀ b ∉ f.reachable, f.postDominators.getD b ∅ = ∅) ∧
    ∀ b, f.IsExit b → f.postDominators.getD b ∅ ⊆ {b} := by
  obtain ⟨hlen, hfix, hframe⟩ := hf.postDominators_descends.fixed
  refine ⟨hlen.trans (by simp [initialPostDominators]), fun b hb he => ?_, fun b hb => ?_,
    fun b hb => ?_⟩
  · have hbr := hf.mem_reachable.1 hb
    exact hfix b (by simpa using hf.reachable_lt hbr)
      (by simpa using ⟨hb, fun h => he ((hf.isExit_iff hbr).2 (by simpa using h))⟩)
  · refine (hframe b fun h => hb (by simpa using And.left (of_decide_eq_true h.2))).trans ?_
    rw [getD_initialPostDominators, if_neg fun h => hb h.2]
  · have hend := hframe b fun h =>
      (of_decide_eq_true h.2).2 (by rw [hb.2]; rfl)
    refine (hend.trans (getD_initialPostDominators b)).subset.trans ?_
    rw [hb.2]
    split_ifs with _ h
    · exact subset_rfl
    · exact absurd rfl h
    · exact Finset.empty_subset _

/-- `postDominators` holds exactly the post-dominators of every reachable block that reaches an
exit. -/
theorem Graph.mem_postDominators (hf : f.Graph) {b d : ℕ} (hb : f.Reachable b)
    (he : f.ReachesExit b) : d ∈ f.postDominators.getD b ∅ ↔ f.PostDominates d b := by
  obtain ⟨_, hfix, hout, hexit⟩ := hf.postDominators_fixed
  constructor
  · intro hd
    refine onEveryPath_of_mem (D := fun b => f.postDominators.getD b ∅) ?_ ?_ hd
    · exact fun e he x hx => Finset.mem_singleton.1 (hexit e he hx)
    · intro a c ha hac _ x hx
      by_cases har : a ∈ f.reachable
      · rw [← hfix a har ha] at hx
        rcases Finset.mem_insert.1 hx with rfl | hx
        · exact Or.inl rfl
        · exact Or.inr ((mem_meet.1 hx).2 c hac)
      · rw [hout a har] at hx
        exact absurd hx (Finset.notMem_empty x)
  · intro hd
    have hreach : f.Reachable d := hb.trans (OnEveryPath.reach hd he)
    refine settle_lower_above
      (T := fun b x => f.Reachable b ∧ f.Reachable x ∧ f.PostDominates x b) ?_ ?_ _ b d
      ⟨hb, hreach, hd⟩
    · rintro b x ⟨hb, hxr, hx⟩
      rw [getD_initialPostDominators, if_pos ⟨hf.reachable_lt hb, hf.mem_reachable.2 hb⟩]
      split_ifs with hsucc
      · simpa using hx b [b] ((hf.isExit_iff hb).2 hsucc) (.single b)
      · exact hf.mem_reachable.2 hxr
    · rintro b _ _ D hD x ⟨hb, hxr, hx⟩
      unfold nextPostDominators
      rw [Finset.mem_insert, mem_meet]
      by_cases hxb : x = b
      · exact Or.inl hxb
      · refine Or.inr ⟨hf.mem_reachable.2 hxr, fun c hc => ?_⟩
        exact hD c x ⟨hb.tail hc, hxr, hx.of_edge hxb hc⟩

/-- A strict post-dominator has a smaller set. -/
theorem Graph.postDominatorCount_lt (hf : f.Graph) {b d : ℕ} (hb : f.Reachable b)
    (he : f.ReachesExit b) (hd : f.PostDominates d b) (hne : d ≠ b) :
    f.postDominatorCount d < f.postDominatorCount b := by
  have hdr : f.Reachable d := hb.trans (OnEveryPath.reach hd he)
  have hde : f.ReachesExit d := OnEveryPath.reachesStop hd he
  refine Finset.card_lt_card ((Finset.ssubset_iff_of_subset fun x hx => ?_).2 ⟨b, ?_, fun h => ?_⟩)
  · rw [hf.mem_postDominators hdr hde] at hx
    exact (hf.mem_postDominators hb he).2 (hx.trans hd)
  · exact (hf.mem_postDominators hb he).2 (onEveryPath_refl b)
  · exact hne (OnEveryPath.antisymm hd ((hf.mem_postDominators hdr hde).1 h) hde)

/-! ## The choices -/

theorem smaller_foldl (size : ℕ → ℕ) (l : List ℕ) (best : Option ℕ) :
    match l.foldl (smaller size) best with
    | none => best = none ∧ l = []
    | some m => (best = some m ∨ m ∈ l) ∧ (∀ c ∈ l, size m ≤ size c) ∧
        ∀ c, best = some c → size m ≤ size c := by
  induction l generalizing best with
  | nil => cases best <;> simp
  | cons c l ih =>
    rw [List.foldl_cons]
    have h := ih (smaller size best c)
    cases hr : l.foldl (smaller size) (smaller size best c) with
    | none =>
      rw [hr] at h
      cases best with
      | none => simp [smaller] at h
      | some b => simp only [smaller] at h; split_ifs at h <;> simp at h
    | some m =>
      rw [hr] at h
      obtain ⟨hm, hl, hb⟩ := h
      have hstep : size m ≤ size c ∧ ∀ b, best = some b → size m ≤ size b := by
        cases best with
        | none => exact ⟨hb c rfl, by simp⟩
        | some b =>
          simp only [smaller] at hb
          split_ifs at hb with hlt
          · have := hb c rfl
            exact ⟨this, fun b' hb' => by obtain rfl := Option.some.inj hb'; omega⟩
          · have := hb b rfl
            exact ⟨by omega, fun b' hb' => by obtain rfl := Option.some.inj hb'; exact this⟩
      refine ⟨?_, List.forall_mem_cons.2 ⟨hstep.1, hl⟩, hstep.2⟩
      rcases hm with hm | hm
      · cases best with
        | none => exact Or.inr (by simp_all [smaller])
        | some b =>
          simp only [smaller] at hm
          split_ifs at hm
          · exact Or.inr (by simp_all)
          · exact Or.inl hm
      · exact Or.inr (List.mem_cons_of_mem _ hm)

/-- `r` is a candidate with the smallest set, or `none` when there is no candidate. -/
def IsSmallest (f : Function) (candidate : ℕ → Prop) : Option ℕ → Prop
  | none => ∀ d, ¬ candidate d
  | some m => candidate m ∧ ∀ d, candidate d → f.postDominatorCount m ≤ f.postDominatorCount d

/-- The candidate with the smallest set is the nearest one only when it is the only one. -/
theorem Graph.isNearest_iff (hf : f.Graph) {candidate : ℕ → Prop} {r : Option ℕ}
    (hc : ∀ d, candidate d → f.Reachable d ∧ f.ReachesExit d) (hr : f.IsSmallest candidate r) :
    f.IsNearest candidate (blockOrNone r) ↔ ∀ d d', candidate d → candidate d' → d = d' := by
  cases r with
  | none =>
    exact ⟨fun _ d _ hd => absurd hd (hr d), fun _ => Or.inl ⟨rfl, hr⟩⟩
  | some m =>
    obtain ⟨hm, hmin⟩ := hr
    constructor
    · rintro (⟨h, _⟩ | ⟨d, h, _, hnear⟩)
      · have h' : (m : ℤ) = -1 := h
        omega
      · obtain rfl : m = d := Int.ofNat.inj h
        have honly : ∀ d, candidate d → d = m := by
          intro d hd
          by_contra hne
          have := hf.postDominatorCount_lt (hc m hm).1 (hc m hm).2 (hnear d hd) hne
          have := hmin d hd
          omega
        exact fun d d' hd hd' => (honly d hd).trans (honly d' hd').symm
    · intro h
      refine Or.inr ⟨m, rfl, hm, fun d hd => ?_⟩
      rw [h d m hd hm]
      exact onEveryPath_refl m

theorem Graph.mem_blocksOf (hf : f.Graph) {b d : ℕ} (hb : f.Reachable b) (he : f.ReachesExit b) :
    d ∈ f.blocksOf (f.postDominators.getD b ∅) ↔ f.PostDominates d b := by
  unfold blocksOf
  rw [List.mem_filter, decide_eq_true_eq, hf.mem_postDominators hb he, List.mem_range,
    and_iff_right_iff_imp]
  exact fun hd => hf.reachable_lt (hb.trans (OnEveryPath.reach hd he))

/-- The immediate post-dominator is a strict post-dominator with the smallest set. -/
theorem Graph.immediatePostDominators_isSmallest (hf : f.Graph) {b : ℕ} (hb : f.Reachable b)
    (he : f.ReachesExit b) : ∃ r, f.immediatePostDominators.getD b (-1) = blockOrNone r ∧
      f.IsSmallest (fun d => f.PostDominates d b ∧ d ≠ b) r := by
  have hlt := hf.reachable_lt hb
  have hmem : ∀ d, d ∈ (f.blocksOf (f.postDominators.getD b ∅)).filter (· ≠ b) ↔
      f.PostDominates d b ∧ d ≠ b := by
    intro d
    rw [List.mem_filter, hf.mem_blocksOf hb he, decide_eq_true_eq]
  set candidates := (f.blocksOf (f.postDominators.getD b ∅)).filter (· ≠ b) with hcandidates
  have hspec := smaller_foldl f.postDominatorCount candidates none
  refine ⟨candidates.foldl (smaller f.postDominatorCount) none, ?_, ?_⟩
  · rw [List.getD_eq_getElem _ _ (by simpa [immediatePostDominators])]
    simp only [immediatePostDominators, List.getElem_map, List.getElem_range,
      if_pos (hf.mem_reachable.2 hb), hcandidates]
  · cases hr : candidates.foldl (smaller f.postDominatorCount) none with
    | none =>
      rw [hr] at hspec
      intro d hd
      have := (hmem d).2 hd
      rw [hspec.2] at this
      exact absurd this List.not_mem_nil
    | some m =>
      rw [hr] at hspec
      obtain ⟨hm, hmin, _⟩ := hspec
      exact ⟨(hmem m).1 (hm.resolve_left (by simp)), fun d hd => hmin d ((hmem d).2 hd)⟩

/-- Of two reachable arms `commonPostdom` returns a common post-dominator with the smallest set. -/
theorem Graph.commonPostdom_isSmallest (hf : f.Graph) {x y : ℕ} (hx : f.Reachable x)
    (hy : f.Reachable y) (hxe : f.ReachesExit x) (hye : f.ReachesExit y) :
    ∃ r, f.commonPostdom x y = blockOrNone r ∧
      f.IsSmallest (fun d => f.PostDominates d x ∧ f.PostDominates d y) r := by
  have hlen := hf.postDominators_fixed.1
  have hxl := hf.reachable_lt hx
  have hyl := hf.reachable_lt hy
  have hmem : ∀ d, d ∈ (f.blocksOf (f.postDominators.getD x ∅)).filter
      (· ∈ f.postDominators.getD y ∅) ↔ f.PostDominates d x ∧ f.PostDominates d y := by
    intro d
    rw [List.mem_filter, hf.mem_blocksOf hx hxe, decide_eq_true_eq, hf.mem_postDominators hy hye]
  refine ⟨_, by unfold commonPostdom; rw [if_neg (by omega)], ?_⟩
  set candidates := (f.blocksOf (f.postDominators.getD x ∅)).filter
    (· ∈ f.postDominators.getD y ∅)
  set sorted := candidates.insertionSort
    fun a b => f.postDominatorCount a ≤ f.postDominatorCount b with hs
  have hsorted : sorted.Pairwise fun a b => f.postDominatorCount a ≤ f.postDominatorCount b :=
    haveI : Std.Total fun a b => f.postDominatorCount a ≤ f.postDominatorCount b :=
      ⟨fun a b => Nat.le_total _ _⟩
    haveI : IsTrans ℕ fun a b => f.postDominatorCount a ≤ f.postDominatorCount b :=
      ⟨fun a b c => Nat.le_trans⟩
    List.pairwise_insertionSort _ candidates
  have hin : ∀ d, d ∈ sorted ↔ d ∈ candidates := fun d => List.mem_insertionSort _
  cases hcase : sorted with
  | nil =>
    intro d hd
    have := (hin d).2 ((hmem d).2 hd)
    rw [hcase] at this
    exact absurd this List.not_mem_nil
  | cons m rest =>
    rw [hcase] at hsorted hin
    refine ⟨(hmem m).1 ((hin m).1 (List.mem_cons_self ..)), fun d hd => ?_⟩
    rcases List.mem_cons.1 ((hin d).2 ((hmem d).2 hd)) with rfl | hd'
    · exact le_rfl
    · exact (List.pairwise_cons.1 hsorted).1 d hd'

/-- When an arm cannot be reached its set is empty and there is no join. -/
theorem Graph.commonPostdom_of_unreachable (hf : f.Graph) {x y : ℕ}
    (h : ¬ (f.Reachable x ∧ f.Reachable y)) : f.commonPostdom x y = -1 := by
  have hout := hf.postDominators_fixed.2.2.1
  unfold commonPostdom
  split_ifs with hlen
  · rfl
  · suffices hnil : (f.blocksOf (f.postDominators.getD x ∅)).filter
        (· ∈ f.postDominators.getD y ∅) = [] by
      dsimp only
      rw [hnil]
      rfl
    rw [List.filter_eq_nil_iff]
    intro d hd hdy
    have hdx := of_decide_eq_true (List.mem_filter.1 hd).2
    refine h ⟨by_contra fun hx => ?_, by_contra fun hy => ?_⟩
    · rw [hout x fun h => hx (hf.mem_reachable.1 h)] at hdx
      exact absurd hdx (Finset.notMem_empty d)
    · rw [hout y fun h => hy (hf.mem_reachable.1 h)] at hdy
      exact absurd (of_decide_eq_true hdy) (Finset.notMem_empty d)

theorem Graph.postDominatorsCorrect_iff (hf : f.Graph) :
    f.PostDominatorsCorrect ↔ f.NoChoice := by
  have himm : ∀ b, f.Reachable b → f.ReachesExit b →
      (f.IsNearest (fun d => f.PostDominates d b ∧ d ≠ b)
        (f.immediatePostDominators.getD b (-1)) ↔
      ∀ d d', f.PostDominates d b ∧ d ≠ b → f.PostDominates d' b ∧ d' ≠ b → d = d') := by
    intro b hb he
    obtain ⟨r, hr, hs⟩ := hf.immediatePostDominators_isSmallest hb he
    rw [hr]
    exact hf.isNearest_iff
      (fun d hd => ⟨hb.trans (OnEveryPath.reach hd.1 he), OnEveryPath.reachesStop hd.1 he⟩) hs
  have hjoin : ∀ x y, f.Reachable x → f.Reachable y → f.ReachesExit x → f.ReachesExit y →
      (f.IsNearest (fun d => f.PostDominates d x ∧ f.PostDominates d y) (f.commonPostdom x y) ↔
      ∀ d d', f.PostDominates d x ∧ f.PostDominates d y →
        f.PostDominates d' x ∧ f.PostDominates d' y → d = d') := by
    intro x y hx hy hxe hye
    obtain ⟨r, hr, hs⟩ := hf.commonPostdom_isSmallest hx hy hxe hye
    rw [hr]
    exact hf.isNearest_iff
      (fun d hd => ⟨hx.trans (OnEveryPath.reach hd.1 hxe), OnEveryPath.reachesStop hd.1 hxe⟩) hs
  constructor
  · intro h
    refine ⟨?_, ?_, ?_⟩
    · intro b hb he d d' hd hne hd' hne'
      exact (himm b hb he).1 (h.immediate b hb he) d d' ⟨hd, hne⟩ ⟨hd', hne'⟩
    · intro b x y hs hxe hye hx hy d d' hdx hdy hdx' hdy'
      exact (hjoin x y hx hy hxe hye).1 (h.join b x y hs hxe hye) d d' ⟨hdx, hdy⟩ ⟨hdx', hdy'⟩
    · intro b x y hs hxe hye hun d hd
      rcases h.join b x y hs hxe hye with ⟨_, hnone⟩ | ⟨d', hr, _⟩
      · exact hnone d hd
      · rw [hf.commonPostdom_of_unreachable hun] at hr
        omega
  · intro h
    refine ⟨fun b hb he d => hf.mem_postDominators hb he, fun b hb he => ?_,
      fun b x y hs hxe hye => ?_⟩
    · exact (himm b hb he).2 fun d d' hd hd' => h.immediate b hb he d d' hd.1 hd.2 hd'.1 hd'.2
    · by_cases hxy : f.Reachable x ∧ f.Reachable y
      · exact (hjoin x y hxy.1 hxy.2 hxe hye).2 fun d d' hd hd' =>
          h.join b x y hs hxe hye hxy.1 hxy.2 d d' hd.1 hd.2 hd'.1 hd'.2
      · exact Or.inl ⟨hf.commonPostdom_of_unreachable hxy, h.unreachable b x y hs hxe hye hxy⟩

end Function

/-- The post-dominator analysis of a function of the IR, with the joins of the restructurer, is right
exactly when there is never more than one candidate to choose from. -/
theorem addFunction_postDominators (p : Proto) (nextId : ℕ) (parentId : ℤ) (protoIndex : ℕ) :
    (addFunction p nextId parentId protoIndex).1.PostDominatorsCorrect ↔
      (addFunction p nextId parentId protoIndex).1.NoChoice :=
  (addFunction_graph p nextId parentId protoIndex).postDominatorsCorrect_iff

/-- Three blocks in a row: a forward `JUMP`, a forward `JUMP` and a `RETURN`. -/
def chain : Proto :=
  { ident := 0, nups := 0, numparams := 0, maxstacksize := 1
    code := [0x00000017, 0x00000017, 0x00010016], k := [], p := [] }

theorem chain_postDominators : (validateProto chain).isOk = true ∧
    ¬ (addFunction chain 0 (-1) 0).1.PostDominatorsCorrect := by
  have hsucc : (addFunction chain 0 (-1) 0).1.successors 0 = [1] ∧
      (addFunction chain 0 (-1) 0).1.successors 1 = [2] := by decide +kernel
  have hexit : 2 < (addFunction chain 0 (-1) 0).1.blockCount ∧
      (addFunction chain 0 (-1) 0).1.successors 2 = [] := by decide +kernel
  have hmem : ∀ d ∈ [1, 2], d ∈ (addFunction chain 0 (-1) 0).1.postDominators.getD 0 ∅ := by
    decide +kernel
  refine ⟨by decide +kernel, fun h => ?_⟩
  have hf := addFunction_graph chain 0 (-1) 0
  generalize (addFunction chain 0 (-1) 0).1 = f at *
  have hreach : f.ReachesExit 0 := by
    refine ⟨2, hexit, (Relation.ReflTransGen.single (b := 1) ?_).tail ?_⟩
    · unfold Function.Edge
      rw [hsucc.1]
      exact List.mem_singleton_self 1
    · unfold Function.Edge
      rw [hsucc.2]
      exact List.mem_singleton_self 2
  have hpost : ∀ d ∈ [1, 2], f.PostDominates d 0 := fun d hd =>
    (hf.mem_postDominators .refl hreach).1 (hmem d hd)
  have := (hf.postDominatorsCorrect_iff.1 h).immediate 0 .refl hreach 1 2
    (hpost 1 (by simp)) (by decide) (hpost 2 (by simp)) (by decide)
  exact absurd this (by decide)

end ByteVeil.IR
