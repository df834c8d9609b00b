import ByteVeil.IR.Dominators
import ByteVeil.IR.Validate

/-!
# Natural loops

The back-edges, the worklist that collects the loop of each, and the `Loop` regions merged by header.
The worklist starts from the latch with the header already in the set; when the two are one block the
header itself is expanded.
-/

namespace ByteVeil.IR

open ByteVeil.Luau FlowGraph

/-- A loop region; `preheader` is `-1` unless exactly one outside block enters the header. -/
structure Loop where
  header : ℕ
  preheader : ℤ := -1
  blocks : List ℕ
  backEdges : List (ℕ × ℕ)
  latches : List ℕ
  exits : List ℕ := []

/-- Adds a back-edge and its natural loop to the region with the header of the edge. -/
def mergeLoop (edge : ℕ × ℕ) (members : List ℕ) : List Loop → List Loop
  | [] => [{ header := edge.2, blocks := members, backEdges := [edge], latches := [edge.1] }]
  | loop :: loops =>
    if loop.header = edge.2 then
      { loop with
        blocks := loop.blocks ++ members
        backEdges := loop.backEdges ++ [edge]
        latches := loop.latches ++ [edge.1] } :: loops
    else loop :: mergeLoop edge members loops

namespace Function

variable (f : Function)

/-- The recorded back-edges, in block order. -/
def backEdges : List (ℕ × ℕ) :=
  f.basicBlocks.flatMap fun block =>
    (block.successors.filter fun successor =>
      successor ∈ f.reachable ∧ successor ∈ f.dominators.getD block.id ∅).map (block.id, ·)

/-- The set `loop` collected for the back-edge from `latch` to `header`. -/
def naturalLoop (latch header : ℕ) : Finset ℕ :=
  closeUnder (fun current => (f.predecessors current).filter (· ∈ f.reachable))
    (f.blockCount + 2) [latch] {header, latch}

/-- A set of blocks in its iteration order. -/
def listing (s : Finset ℕ) : List ℕ := (List.range f.blockCount).filter (· ∈ s)

/-- `naturalLoops`, one for each back-edge. -/
def naturalLoops : List (List ℕ) :=
  f.backEdges.map fun edge => f.listing (f.naturalLoop edge.1 edge.2)

/-- The second pass over a region: members and latches in order, the preheader and the exits. -/
def finishLoop (loop : Loop) : Loop :=
  let members := sortUnique loop.blocks
  let outsidePredecessors := (f.predecessors loop.header).filter (· ∉ members)
  { loop with
    blocks := members
    latches := sortUnique loop.latches
    preheader := match outsidePredecessors with
      | [p] => p
      | _ => -1
    exits := sortUnique (members.flatMap fun m => (f.successors m).filter (· ∉ members)) }

/-- The regions before the second pass. -/
def mergedLoops : List Loop :=
  (f.backEdges.zip f.naturalLoops).foldl (fun loops e => mergeLoop e.1 e.2 loops) []

/-- `loops`. -/
def loops : List Loop := f.mergedLoops.map f.finishLoop

/-- `x` belongs to the natural loop of the back-edge `(n, h)`: it is the header, or a reachable block
from which the latch can be reached without passing through the header. -/
def InNaturalLoop (n h x : ℕ) : Prop :=
  x = h ∨ (f.Reachable x ∧ ∃ l, Path f.Edge x l n ∧ h ∉ l)

/-- Natural loops and loop regions are what their names say. -/
structure NaturalLoopsCorrect : Prop where
  backEdge_iff : ∀ n h, (n, h) ∈ f.backEdges ↔ f.Reachable n ∧ f.Edge n h ∧ f.Dominates h n
  length_eq : f.naturalLoops.length = f.backEdges.length
  mem_iff : ∀ k n h, f.backEdges[k]? = some (n, h) →
    ∀ x, x ∈ f.naturalLoops.getD k [] ↔ f.InNaturalLoop n h x
  dominated : ∀ loop ∈ f.loops, ∀ x ∈ loop.blocks, f.Dominates loop.header x
  entry : ∀ loop ∈ f.loops, ∀ x y, f.Reachable x → x ∉ loop.blocks → y ∈ loop.blocks →
    f.Edge x y → y = loop.header
  exits_iff : ∀ loop ∈ f.loops, ∀ y, y ∈ loop.exits ↔
    y ∉ loop.blocks ∧ ∃ x ∈ loop.blocks, f.Edge x y

/-- No reachable block other than `h` itself leads to a reachable block `h` that is its own
successor. -/
def SelfLoopsClosed : Prop :=
  ∀ h, f.Reachable h → f.Edge h h → ∀ x, f.Reachable x → f.Edge x h → x = h

variable {f}

/-! ## Back-edges and the worklist -/

theorem Graph.mem_backEdges (hf : f.Graph) {n h : ℕ} :
    (n, h) ∈ f.backEdges ↔ f.Reachable n ∧ f.Edge n h ∧ f.Dominates h n := by
  unfold backEdges
  simp only [List.mem_flatMap, List.mem_map, List.mem_filter, decide_eq_true_eq, Prod.mk.injEq]
  constructor
  · rintro ⟨block, hblock, s, ⟨hs, hr, hd⟩, rfl, rfl⟩
    obtain ⟨k, hk, rfl⟩ := List.getElem_of_mem hblock
    have hget : f.block k = f.basicBlocks[k] := List.getD_eq_getElem _ _ hk
    have hid : f.basicBlocks[k].id = k := by rw [← hget]; exact hf.id_eq k hk
    rw [hid] at hd ⊢
    have hk' : f.Reachable k := by
      by_contra hk'
      rw [hf.dominators_fixed.2.1 k fun h => hk' (hf.mem_reachable.1 h)] at hd
      exact absurd hd (Finset.notMem_empty s)
    refine ⟨hk', ?_, (hf.mem_dominators hk').1 hd⟩
    unfold Edge successors
    rwa [hget]
  · rintro ⟨hn, he, hd⟩
    have hlt := (hf.lt_of_edge he).1
    have hget : f.block n = f.basicBlocks[n] := List.getD_eq_getElem _ _ hlt
    refine ⟨f.block n, by rw [hget]; exact List.getElem_mem _, h, ⟨he, ?_, ?_⟩, hf.id_eq n hlt, rfl⟩
    · exact hf.mem_reachable.2 (hd.reachable hn)
    · rw [hf.id_eq n hlt]
      exact (hf.mem_dominators hn).2 hd

/-- A backward step of the worklist to a reachable block outside the starting set. -/
def BackStep (f : Function) (n h a b : ℕ) : Prop :=
  f.Edge b a ∧ f.Reachable b ∧ b ≠ h ∧ b ≠ n

theorem Graph.mem_naturalLoop (hf : f.Graph) {n h x : ℕ} :
    x ∈ f.naturalLoop n h ↔ x = h ∨ Relation.ReflTransGen (f.BackStep n h) n x := by
  have hU : ∀ a, ∀ b ∈ (f.predecessors a).filter (· ∈ f.reachable),
      b ∈ Finset.range f.blockCount := by
    intro a b hb
    have hmem := (List.mem_filter.1 hb).1
    exact Finset.mem_range.2 (hf.lt_of_edge (hf.mem_predecessors.1 hmem)).1
  have hstep : (fun a b => b ∈ (f.predecessors a).filter (· ∈ f.reachable) ∧
      b ∉ ({h, n} : Finset ℕ)) = f.BackStep n h := by
    funext a b
    simp only [BackStep, List.mem_filter, hf.mem_predecessors, decide_eq_true_eq,
      hf.mem_reachable, Finset.mem_insert, Finset.mem_singleton, not_or, and_assoc]
  unfold naturalLoop
  rw [mem_closeUnder hU (by simp) (by
    have := Finset.card_le_card (Finset.sdiff_subset (s := Finset.range f.blockCount)
      (t := ({h, n} : Finset ℕ)))
    rw [Finset.card_range] at this
    simp only [List.length_cons, List.length_nil]
    omega), hstep]
  simp only [List.mem_singleton, exists_eq_left, Finset.mem_insert, Finset.mem_singleton]
  constructor
  · rintro ((rfl | rfl) | hr)
    · exact Or.inl rfl
    · exact Or.inr .refl
    · exact Or.inr hr
  · rintro (rfl | hr)
    · exact Or.inl (Or.inl rfl)
    · exact Or.inr hr

/-- With distinct ends the worklist collects the natural loop. -/
theorem Graph.mem_naturalLoop_of_ne (hf : f.Graph) {n h x : ℕ} (hn : f.Reachable n) (hne : n ≠ h) :
    x ∈ f.naturalLoop n h ↔ f.InNaturalLoop n h x := by
  rw [hf.mem_naturalLoop]
  refine or_congr_right ⟨fun hr => ?_, ?_⟩
  · induction hr with
    | refl => exact ⟨hn, [n], .single n, by simpa using Ne.symm hne⟩
    | tail _ hs ih =>
      obtain ⟨_, l, hl, hh⟩ := ih
      obtain ⟨he, hb, hbh, _⟩ := hs
      exact ⟨hb, _, .cons he hl, by simp [hh, Ne.symm hbh]⟩
  · rintro ⟨hx, l, hl, hh⟩
    induction hl with
    | single a => exact .refl
    | @cons a b c l he hp ih =>
      rw [List.mem_cons, not_or] at hh
      by_cases hac : a = c
      · rw [hac]
      · exact (ih hn hne (hx.tail he) hh.2).tail ⟨he, hx, Ne.symm hh.1, hac⟩

/-- A self-loop whose header no other reachable block enters is collected as the header alone. -/
theorem Graph.mem_naturalLoop_self (hf : f.Graph) (hc : f.SelfLoopsClosed) {h x : ℕ}
    (hh : f.Reachable h) (he : f.Edge h h) : x ∈ f.naturalLoop h h ↔ f.InNaturalLoop h h x := by
  rw [hf.mem_naturalLoop]
  constructor
  · rintro (rfl | hr)
    · exact Or.inl rfl
    · rcases Relation.ReflTransGen.cases_head hr with rfl | ⟨b, hs, _⟩
      · exact Or.inl rfl
      · exact absurd (hc h hh he b hs.2.1 hs.1) hs.2.2.1
  · rintro (rfl | ⟨_, l, hl, hmem⟩)
    · exact Or.inl rfl
    · exact absurd hl.finish_mem hmem

theorem mem_listing (hf : f.Graph) {n h x : ℕ} (hh : f.Reachable h) (hn : f.Reachable n) :
    x ∈ f.listing (f.naturalLoop n h) ↔ x ∈ f.naturalLoop n h := by
  unfold listing
  simp only [List.mem_filter, List.mem_range, decide_eq_true_eq, and_iff_right_iff_imp]
  intro hx
  refine hf.reachable_lt ?_
  rcases hf.mem_naturalLoop.1 hx with rfl | hr
  · exact hh
  · induction hr with
    | refl => exact hn
    | tail _ hs _ => exact hs.2.1

/-! ## Regions -/

/-- The regions after the back-edges of `processed`: one for each header, holding its loops. -/
structure Merged (processed : List ((ℕ × ℕ) × List ℕ)) (loops : List Loop) : Prop where
  nodup : (loops.map (·.header)).Nodup
  mem_blocks : ∀ loop ∈ loops, ∀ x, x ∈ loop.blocks ↔
    ∃ e ∈ processed, e.1.2 = loop.header ∧ x ∈ e.2
  header : ∀ e ∈ processed, ∃ loop ∈ loops, loop.header = e.1.2

theorem headers_mergeLoop (edge : ℕ × ℕ) (members : List ℕ) (loops : List Loop) :
    (mergeLoop edge members loops).map (·.header) =
      if edge.2 ∈ loops.map (·.header) then loops.map (·.header)
      else loops.map (·.header) ++ [edge.2] := by
  induction loops with
  | nil => simp [mergeLoop]
  | cons loop loops ih =>
    unfold mergeLoop
    by_cases h : loop.header = edge.2
    · simp [h]
    · rw [if_neg h, List.map_cons, ih, List.map_cons]
      by_cases h' : edge.2 ∈ loops.map (·.header)
      · rw [if_pos h', if_pos (List.mem_cons_of_mem _ h')]
      · rw [if_neg h', if_neg]
        · rfl
        · rw [List.mem_cons, not_or]
          exact ⟨Ne.symm h, h'⟩

/-- A region after a merge: an old one of another header, an old one extended, or a new one. -/
theorem mem_mergeLoop {edge : ℕ × ℕ} {members : List ℕ} {loops : List Loop} {loop : Loop}
    (hnodup : (loops.map (·.header)).Nodup) (h : loop ∈ mergeLoop edge members loops) :
    (loop ∈ loops ∧ loop.header ≠ edge.2) ∨
    (∃ old ∈ loops, old.header = edge.2 ∧ loop.header = edge.2 ∧
      loop.blocks = old.blocks ++ members) ∨
    (edge.2 ∉ loops.map (·.header) ∧ loop.header = edge.2 ∧ loop.blocks = members) := by
  induction loops with
  | nil =>
    obtain rfl := List.mem_singleton.1 h
    exact Or.inr (Or.inr ⟨by simp, rfl, rfl⟩)
  | cons first loops ih =>
    rw [List.map_cons, List.nodup_cons] at hnodup
    unfold mergeLoop at h
    by_cases hfirst : first.header = edge.2
    · rw [if_pos hfirst] at h
      rcases List.mem_cons.1 h with rfl | h
      · exact Or.inr (Or.inl ⟨first, List.mem_cons_self .., hfirst, hfirst, rfl⟩)
      · refine Or.inl ⟨List.mem_cons_of_mem _ h, fun heq => hnodup.1 ?_⟩
        rw [hfirst, ← heq]
        exact List.mem_map_of_mem h
    · rw [if_neg hfirst] at h
      rcases List.mem_cons.1 h with rfl | h
      · exact Or.inl ⟨List.mem_cons_self .., hfirst⟩
      · rcases ih hnodup.2 h with ⟨hl, hne⟩ | ⟨old, hold, heq⟩ | ⟨hnew, heq⟩
        · exact Or.inl ⟨List.mem_cons_of_mem _ hl, hne⟩
        · exact Or.inr (Or.inl ⟨old, List.mem_cons_of_mem _ hold, heq⟩)
        · refine Or.inr (Or.inr ⟨?_, heq⟩)
          rw [List.map_cons, List.mem_cons, not_or]
          exact ⟨Ne.symm hfirst, hnew⟩

theorem Merged.step {processed : List ((ℕ × ℕ) × List ℕ)} {loops : List Loop}
    (h : Merged processed loops) (e : (ℕ × ℕ) × List ℕ) :
    Merged (processed ++ [e]) (mergeLoop e.1 e.2 loops) := by
  have hheaders := headers_mergeLoop e.1 e.2 loops
  refine ⟨?_, fun loop hloop x => ?_, fun e' he' => ?_⟩
  · rw [hheaders]
    split_ifs with hmem
    · exact h.nodup
    · rw [List.nodup_append]
      refine ⟨h.nodup, by simp, fun a ha b hb heq => hmem ?_⟩
      rw [← List.mem_singleton.1 hb, ← heq]
      exact ha
  · simp only [List.mem_append, List.mem_singleton, or_and_right, exists_or, exists_eq_left]
    rcases mem_mergeLoop h.nodup hloop with ⟨hl, hne⟩ | ⟨old, hold, heq, hh, hb⟩ | ⟨hnew, hh, hb⟩
    · rw [h.mem_blocks loop hl]
      simp [Ne.symm hne]
    · rw [hb, List.mem_append, h.mem_blocks old hold, heq, hh]
      simp
    · rw [hb, hh]
      refine ⟨fun hx => Or.inr ⟨rfl, hx⟩, ?_⟩
      rintro (⟨e', he', heq, _⟩ | ⟨_, hx⟩)
      · obtain ⟨loop', hl', hh'⟩ := h.header e' he'
        exact absurd (by rw [← heq, ← hh']; exact List.mem_map_of_mem hl') hnew
      · exact hx
  · suffices hmem : e'.1.2 ∈ (mergeLoop e.1 e.2 loops).map (·.header) by
      obtain ⟨loop, hl, hh⟩ := List.mem_map.1 hmem
      exact ⟨loop, hl, hh⟩
    rw [hheaders]
    rcases List.mem_append.1 he' with he' | he'
    · obtain ⟨loop, hl, hh⟩ := h.header e' he'
      have : e'.1.2 ∈ loops.map (·.header) := by
        rw [← hh]
        exact List.mem_map_of_mem hl
      split_ifs
      · exact this
      · exact List.mem_append_left _ this
    · rw [List.mem_singleton.1 he']
      split_ifs with hmem
      · exact hmem
      · simp

theorem merged_foldl (l processed : List ((ℕ × ℕ) × List ℕ)) (loops : List Loop)
    (h : Merged processed loops) :
    Merged (processed ++ l) (l.foldl (fun loops e => mergeLoop e.1 e.2 loops) loops) := by
  induction l generalizing processed loops with
  | nil => simpa using h
  | cons e l ih => simpa using ih (processed ++ [e]) _ (h.step e)

/-- A region holds the natural loops of the back-edges to its header. -/
theorem mem_blocks_of_mem_loops {loop : Loop} (h : loop ∈ f.loops) (x : ℕ) :
    x ∈ loop.blocks ↔ ∃ n, (n, loop.header) ∈ f.backEdges ∧
      x ∈ f.listing (f.naturalLoop n loop.header) := by
  obtain ⟨merged, hm, rfl⟩ := List.mem_map.1 h
  have hmerged := merged_foldl (f.backEdges.zip f.naturalLoops) [] []
    ⟨List.nodup_nil, by simp, by simp⟩
  have hzip : f.backEdges.zip f.naturalLoops =
      f.backEdges.map fun e => (e, f.listing (f.naturalLoop e.1 e.2)) := by
    unfold naturalLoops
    rw [List.zip_eq_zipWith, List.zipWith_map_right, List.zipWith_self]
  have hblocks := hmerged.mem_blocks merged hm x
  rw [List.nil_append, hzip] at hblocks
  unfold finishLoop
  dsimp only
  rw [mem_sortUnique, hblocks]
  constructor
  · rintro ⟨_, he, hh, hx⟩
    obtain ⟨⟨n, h'⟩, hback, rfl⟩ := List.mem_map.1 he
    dsimp only at hh hx
    subst hh
    exact ⟨n, hback, hx⟩
  · rintro ⟨n, he, hx⟩
    exact ⟨_, List.mem_map.2 ⟨_, he, rfl⟩, rfl, hx⟩

theorem mem_exits_of_mem_loops {loop : Loop} (h : loop ∈ f.loops) (y : ℕ) :
    y ∈ loop.exits ↔ y ∉ loop.blocks ∧ ∃ x ∈ loop.blocks, f.Edge x y := by
  obtain ⟨merged, _, rfl⟩ := List.mem_map.1 h
  unfold finishLoop
  dsimp only
  rw [mem_sortUnique, List.mem_flatMap]
  simp only [List.mem_filter, decide_eq_true_eq, Edge]
  constructor
  · rintro ⟨x, hx, he, hy⟩
    exact ⟨hy, x, hx, he⟩
  · rintro ⟨hy, x, hx, he⟩
    exact ⟨x, hx, he, hy⟩

/-! ## What a natural loop is closed under -/

theorem InNaturalLoop.dominated {n h x : ℕ} (hd : f.Dominates h n)
    (hx : f.InNaturalLoop n h x) : f.Dominates h x := by
  rcases hx with rfl | ⟨_, l, hl, hh⟩
  · exact fun l hl => hl.finish_mem
  · intro m hm
    by_contra hmem
    obtain ⟨r, hr, hsub⟩ := hm.append hl
    rcases hsub h (hd r hr) with h' | h'
    · exact hmem h'
    · exact hh h'

/-- A reachable predecessor of a member other than the header is a member. -/
theorem InNaturalLoop.predecessor {n h x y : ℕ} (hy : f.InNaturalLoop n h y) (hne : y ≠ h)
    (hx : f.Reachable x) (he : f.Edge x y) : f.InNaturalLoop n h x := by
  obtain ⟨_, l, hl, hh⟩ := hy.resolve_left hne
  by_cases hxh : x = h
  · exact Or.inl hxh
  · exact Or.inr ⟨hx, x :: l, .cons he hl, by simp [hh, Ne.symm hxh]⟩

/-- The loop analysis is right exactly for the graphs whose self-loops no other block enters. -/
theorem Graph.naturalLoopsCorrect_iff (hf : f.Graph) :
    f.NaturalLoopsCorrect ↔ f.SelfLoopsClosed := by
  constructor
  · intro h a ha haa x hx hxa
    have hback : (a, a) ∈ f.backEdges :=
      (h.backEdge_iff a a).2 ⟨ha, haa, fun l hl => hl.finish_mem⟩
    obtain ⟨k, hk, hget⟩ := List.getElem_of_mem hback
    have hmem := h.mem_iff k a a (by rw [List.getElem?_eq_getElem hk, hget]) x
    rw [List.getD_eq_getElem _ _ (by rwa [h.length_eq])] at hmem
    simp only [naturalLoops, List.getElem_map, hget] at hmem
    rw [mem_listing hf ha ha, hf.mem_naturalLoop] at hmem
    by_contra hne
    rcases hmem.1 (Or.inr (.single ⟨hxa, hx, hne, hne⟩)) with h' | ⟨_, l, hl, hmem'⟩
    · exact hne h'
    · exact hmem' hl.finish_mem
  · intro hc
    have hloop : ∀ n h, (n, h) ∈ f.backEdges → ∀ x,
        x ∈ f.listing (f.naturalLoop n h) ↔ f.InNaturalLoop n h x := by
      intro n h hback x
      obtain ⟨hn, he, hd⟩ := hf.mem_backEdges.1 hback
      rw [mem_listing hf (hd.reachable hn) hn]
      by_cases hne : n = h
      · subst hne
        exact hf.mem_naturalLoop_self hc hn he
      · exact hf.mem_naturalLoop_of_ne hn hne
    refine ⟨fun n h => hf.mem_backEdges, by simp [naturalLoops], ?_, ?_, ?_, ?_⟩
    · intro k n h hk x
      obtain ⟨hlt, hget⟩ := List.getElem?_eq_some_iff.1 hk
      rw [List.getD_eq_getElem _ _ (by simpa [naturalLoops])]
      simp only [naturalLoops, List.getElem_map, hget]
      exact hloop n h (hget ▸ List.getElem_mem hlt) x
    · intro loop hl x hx
      obtain ⟨n, hback, hx⟩ := (mem_blocks_of_mem_loops hl x).1 hx
      exact ((hloop n _ hback x).1 hx).dominated (hf.mem_backEdges.1 hback).2.2
    · intro loop hl x y hx hxl hy he
      by_contra hne
      obtain ⟨n, hback, hy⟩ := (mem_blocks_of_mem_loops hl y).1 hy
      refine hxl ((mem_blocks_of_mem_loops hl x).2 ⟨n, hback, (hloop n _ hback x).2 ?_⟩)
      exact ((hloop n _ hback y).1 hy).predecessor hne hx he
    · exact fun loop hl y => mem_exits_of_mem_loops hl y

end Function

/-- The loop analysis of a function of the IR is right exactly when no reachable block leads to a
block, other than itself, that is its own successor. -/
theorem addFunction_naturalLoops (p : Proto) (nextId : ℕ) (parentId : ℤ) (protoIndex : ℕ) :
    (addFunction p nextId parentId protoIndex).1.NaturalLoopsCorrect ↔
      (addFunction p nextId parentId protoIndex).1.SelfLoopsClosed :=
  (addFunction_graph p nextId parentId protoIndex).naturalLoopsCorrect_iff

/-- `LOADNIL R0`, then a `JUMPIF R0` to itself, then `RETURN`: a one-block loop after an entry. -/
def selfLoop : Proto :=
  { ident := 0, nups := 0, numparams := 0, maxstacksize := 1
    code := [0x00000002, 0xFFFF0019, 0x00010016], k := [], p := [] }

theorem selfLoop_naturalLoops : (validateProto selfLoop).isOk = true ∧
    ¬ (addFunction selfLoop 0 (-1) 0).1.NaturalLoopsCorrect := by
  refine ⟨by decide +kernel, fun h => ?_⟩
  have hback : (addFunction selfLoop 0 (-1) 0).1.backEdges[0]? = some (1, 1) := by decide +kernel
  have hmem : 0 ∈ (addFunction selfLoop 0 (-1) 0).1.naturalLoops.getD 0 [] := by decide +kernel
  rcases (h.mem_iff 0 1 1 hback 0).1 hmem with h' | ⟨_, l, hl, hh⟩
  · exact absurd h' (by decide)
  · exact hh hl.finish_mem

end ByteVeil.IR
