import ByteVeil.FlowGraph.Region
import ByteVeil.Lua51.Accepted
import Mathlib.Data.Finset.Dedup

/-!
# Isolating the dispatcher to a region

When some branches cannot be structured, the readable output looks for one interval of instructions
around them that is entered and left at one point, emits a dispatcher for the interval and structured
code before and behind it. The search finds the first interval that passes a test on the edges with
one end inside; the three parts keep the control flow exactly when no other edge bypasses it.
-/

namespace ByteVeil.Lua51

open FlowGraph

/-! ## Control flow -/

/-- `followingControlTarget`: where the jump behind `i` leads. -/
def followingControlTarget (p : Proto) (i : Instr) : ℤ :=
  if p.size ≤ i.pc + 1 then i.pc + 2
  else (p.instr (i.pc + 1)).pc + (p.instr (i.pc + 1)).sbx + 1

/-- The `add` of `controlSuccessors`. -/
def addTarget (p : Proto) (target : ℤ) : List ℕ :=
  if 0 ≤ target ∧ target ≤ p.size then [target.toNat] else []

/-- `controlSuccessors`. -/
def controlSuccessors (p : Proto) (i : Instr) : List ℕ :=
  let next := i.pc + 1
  if i.closureBindingFor.isSome ∨ i.extraWord then []
  else
    match i.op with
    | .TAILCALL | .RETURN => []
    | .JMP => addTarget p i.target
    | .EQ | .LT | .LE | .TEST | .TESTSET =>
      let taken := if next < p.size ∧ (p.instr next).op = .JMP then (p.instr next).target
        else i.pc + 2
      addTarget p taken ++ addTarget p (i.pc + 2)
    | .FORLOOP => addTarget p i.target ++ addTarget p next
    | .FORPREP => addTarget p i.target
    | .TFORLOOP => addTarget p (followingControlTarget p i) ++ addTarget p (i.pc + 2)
    | .LOADBOOL => if i.c ≠ 0 then addTarget p (i.pc + 2) else addTarget p next
    | .SETLIST => if i.c = 0 then addTarget p (i.pc + 2) else addTarget p next
    | .CLOSURE => addTarget p (i.pc + 1 + i.captures.length)
    | _ => addTarget p next

/-- The edges of the control flow. -/
def ControlEdge (p : Proto) (source target : ℕ) : Prop :=
  source < p.size ∧ target ∈ controlSuccessors p (p.instr source)

/-- `ControlFlowGraph`. -/
structure ControlFlowGraph where
  successors : List (List ℕ)
  predecessors : List (List ℕ)

/-- One round of `buildControlFlowGraph`. -/
def addInstr (p : Proto) (graph : ControlFlowGraph) (i : Instr) : ControlFlowGraph :=
  if p.size ≤ i.pc then graph
  else
    { successors := graph.successors.set i.pc (controlSuccessors p i)
      predecessors := (controlSuccessors p i).foldl
        (fun preds target =>
          if target < p.size then preds.modify target fun sources => sources ++ [i.pc] else preds)
        graph.predecessors }

/-- `buildControlFlowGraph`. -/
def buildControlFlowGraph (p : Proto) : ControlFlowGraph :=
  p.code.foldl (addInstr p) ⟨List.replicate p.size [], List.replicate p.size []⟩

/-- One instruction's edges, added to the predecessor lists. -/
theorem mem_addPredecessors {n pc t s : ℕ} {targets : List ℕ} {preds : List (List ℕ)}
    (hlen : preds.length = n) :
    let after := targets.foldl (fun preds target =>
      if target < n then preds.modify target fun sources => sources ++ [pc] else preds) preds
    after.length = n ∧
      (s ∈ after.getD t [] ↔ s ∈ preds.getD t [] ∨ (s = pc ∧ t < n ∧ t ∈ targets)) := by
  induction targets generalizing preds with
  | nil => simpa using hlen
  | cons target targets ih =>
    rw [List.foldl_cons]
    by_cases htarget : target < n
    · rw [if_pos htarget]
      have hmod : (preds.modify target fun sources => sources ++ [pc]).length = n := by
        rw [List.length_modify]
        exact hlen
      obtain ⟨hlen', hmem⟩ := ih hmod
      refine ⟨hlen', hmem.trans ?_⟩
      have hget : s ∈ (preds.modify target fun sources => sources ++ [pc]).getD t [] ↔
          s ∈ preds.getD t [] ∨ (s = pc ∧ t = target) := by
        simp only [List.getD_eq_getElem?_getD, List.getElem?_modify]
        by_cases ht : target = t
        · subst ht
          rw [List.getElem?_eq_getElem (by omega)]
          simp
        · simp [ht, Ne.symm ht]
      rw [hget, List.mem_cons]
      constructor
      · rintro ((h | ⟨rfl, rfl⟩) | ⟨rfl, ht, h⟩)
        · exact Or.inl h
        · exact Or.inr ⟨rfl, htarget, Or.inl rfl⟩
        · exact Or.inr ⟨rfl, ht, Or.inr h⟩
      · rintro (h | ⟨rfl, ht, rfl | h⟩)
        · exact Or.inl (Or.inl h)
        · exact Or.inl (Or.inr ⟨rfl, rfl⟩)
        · exact Or.inr ⟨rfl, ht, h⟩
    · rw [if_neg htarget]
      obtain ⟨hlen', hmem⟩ := ih hlen
      refine ⟨hlen', hmem.trans ?_⟩
      constructor
      · rintro (h | ⟨rfl, ht, h⟩)
        · exact Or.inl h
        · exact Or.inr ⟨rfl, ht, List.mem_cons_of_mem _ h⟩
      · rintro (h | ⟨rfl, ht, h⟩)
        · exact Or.inl h
        · refine Or.inr ⟨rfl, ht, (List.mem_cons.1 h).resolve_left ?_⟩
          rintro rfl
          exact htarget ht

/-- What the graph holds after the instructions of `done`. -/
structure Built (p : Proto) (done : List Instr) (graph : ControlFlowGraph) : Prop where
  succ_length : graph.successors.length = p.size
  pred_length : graph.predecessors.length = p.size
  successors : ∀ i ∈ done, graph.successors.getD i.pc [] = controlSuccessors p i
  predecessors : ∀ s t, s ∈ graph.predecessors.getD t [] ↔
    t < p.size ∧ ∃ i ∈ done, i.pc = s ∧ t ∈ controlSuccessors p i

theorem Built.addInstr {p : Proto} {done : List Instr} {graph : ControlFlowGraph} {i : Instr}
    (h : Built p done graph) (hi : i.pc < p.size) (hnew : ∀ j ∈ done, j.pc ≠ i.pc) :
    Built p (done ++ [i]) (addInstr p graph i) := by
  unfold Lua51.addInstr
  rw [if_neg (Nat.not_le.2 hi)]
  constructor
  · simpa using h.succ_length
  · exact (mem_addPredecessors (s := 0) (t := 0) h.pred_length).1
  · intro j hj
    dsimp only
    rcases List.mem_append.1 hj with hj | hj
    · rw [← h.successors j hj]
      simp only [List.getD_eq_getElem?_getD]
      rw [List.getElem?_set_ne (hnew j hj).symm]
    · obtain rfl : j = i := by simpa using hj
      simp [List.getD_eq_getElem?_getD, h.succ_length, hi]
  · intro s t
    dsimp only
    rw [(mem_addPredecessors h.pred_length).2, h.predecessors]
    constructor
    · rintro (⟨ht, j, hj, hs, hmem⟩ | ⟨rfl, ht, hmem⟩)
      · exact ⟨ht, j, List.mem_append_left _ hj, hs, hmem⟩
      · exact ⟨ht, i, by simp, rfl, hmem⟩
    · rintro ⟨ht, j, hj, rfl, hmem⟩
      rcases List.mem_append.1 hj with hj | hj
      · exact Or.inl ⟨ht, j, hj, rfl, hmem⟩
      · obtain rfl : j = i := by simpa using hj
        exact Or.inr ⟨rfl, ht, hmem⟩

theorem buildControlFlowGraph_built {p : Proto} (hp : p.IsDecoded) :
    Built p p.code (buildControlFlowGraph p) := by
  have hprefix : ∀ n ≤ p.size, Built p (p.code.take n)
      ((p.code.take n).foldl (addInstr p) ⟨List.replicate p.size [], List.replicate p.size []⟩) := by
    intro n
    induction n with
    | zero =>
      intro _
      refine ⟨by simp, by simp, by simp, fun s t => ?_⟩
      by_cases ht : t < p.size <;> simp [List.getD_eq_getElem?_getD, ht]
    | succ n ih =>
      intro hn
      have hget : p.code.take (n + 1) = p.code.take n ++ [p.instr n] := by
        unfold Proto.instr Proto.size at *
        rw [List.getD_eq_getElem _ _ (by omega), List.take_append_getElem]
      have hpc : (p.instr n).pc = n := (hp n (by omega)).pc_eq
      rw [hget, List.foldl_append]
      refine (ih (by omega)).addInstr (by omega) fun j hj => ?_
      obtain ⟨k, hk, rfl⟩ := List.mem_take_iff_getElem.1 hj
      have hkn : k < n ∧ k < p.size := by
        unfold Proto.size
        omega
      have hkpc : p.code[k].pc = k := by
        have := (hp k hkn.2).pc_eq
        unfold Proto.instr at this
        rwa [List.getD_eq_getElem _ _ hkn.2] at this
      rw [hkpc, hpc]
      omega
  have hall := hprefix p.size le_rfl
  unfold Proto.size at hall
  rw [List.take_length] at hall
  exact hall

theorem successors_build {p : Proto} (hp : p.IsDecoded) {s t : ℕ} :
    t ∈ (buildControlFlowGraph p).successors.getD s [] ↔ ControlEdge p s t := by
  have hbuilt := buildControlFlowGraph_built hp
  unfold ControlEdge
  by_cases hs : s < p.size
  · have hmem : p.instr s ∈ p.code := by
      unfold Proto.instr
      rw [List.getD_eq_getElem _ _ hs]
      exact List.getElem_mem hs
    have := hbuilt.successors _ hmem
    rw [(hp s hs).pc_eq] at this
    rw [this]
    exact ⟨fun h => ⟨hs, h⟩, fun h => h.2⟩
  · rw [List.getD_eq_default _ _ (by rw [hbuilt.succ_length]; omega)]
    simp [hs]

theorem predecessors_build {p : Proto} (hp : p.IsDecoded) {s t : ℕ} (ht : t < p.size) :
    s ∈ (buildControlFlowGraph p).predecessors.getD t [] ↔ ControlEdge p s t := by
  rw [(buildControlFlowGraph_built hp).predecessors]
  unfold ControlEdge
  constructor
  · rintro ⟨_, i, hi, rfl, hmem⟩
    obtain ⟨k, hk, rfl⟩ := List.mem_iff_getElem.1 hi
    have heq : p.instr k = p.code[k] := List.getD_eq_getElem _ _ hk
    have hpc := (hp k hk).pc_eq
    rw [heq] at hpc
    rw [hpc, heq]
    exact ⟨hk, hmem⟩
  · rintro ⟨hs, hmem⟩
    refine ⟨ht, p.instr s, ?_, (hp s hs).pc_eq, hmem⟩
    unfold Proto.instr
    rw [List.getD_eq_getElem _ _ hs]
    exact List.getElem_mem hs

/-! ## Search -/

/-- `DispatcherRegion`. -/
structure DispatcherRegion where
  begin : ℕ
  stop : ℕ
  deriving DecidableEq

/-- `isSingleEntryExitRegion`; the sets have one element each, `begin` and `stop`. -/
def isSingleEntryExitRegion (graph : ControlFlowGraph) (begin stop : ℕ) : Bool :=
  if stop ≤ begin ∨ graph.successors.length < stop then false
  else
    let region := List.range' begin (stop - begin)
    let outside := fun pc => decide (pc < begin) || decide (stop ≤ pc)
    let entries := (if begin = 0 then [0] else []) ++
      region.filter fun target => (graph.predecessors.getD target []).any outside
    let exits := region.flatMap fun source => (graph.successors.getD source []).filter outside
    decide (entries.toFinset = {begin}) && decide (exits.toFinset = {stop})

/-- The branches lie in the interval. -/
def containsEveryMarker (branches : List (ℕ × ℕ)) (begin stop : ℕ) : Bool :=
  branches.all fun branch => decide (begin ≤ branch.1) && decide (branch.1 < stop)

/-- The least pc of a reported branch. -/
def firstBranchOf (p : Proto) (branches : List (ℕ × ℕ)) : ℕ :=
  branches.foldl (fun least branch => min least branch.1) p.size

/-- The inner loop of the search, for one end. -/
def findBegin (graph : ControlFlowGraph) (branches : List (ℕ × ℕ)) (firstBranch stop : ℕ) :
    Option ℕ :=
  let firstBegin := firstBranch - 512
  let begins := (List.range' firstBegin (firstBranch + 1 - firstBegin)).reverse.takeWhile
    fun begin => decide (stop ≤ begin + 512)
  begins.find? fun begin =>
    containsEveryMarker branches begin stop && isSingleEntryExitRegion graph begin stop

/-- `findSingleExitDispatcherRegion` on the set of reported branches `(pc, target)`, in its order. -/
def findSingleExitDispatcherRegion (p : Proto) (branches : List (ℕ × ℕ)) :
    Option DispatcherRegion :=
  match branches with
  | [] => none
  | first :: _ =>
    let exit := first.2
    if 65536 < p.size then none
    else if branches.any fun branch => branch.2 != exit || decide (p.size ≤ branch.1) then none
    else
      let graph := buildControlFlowGraph p
      let lastEnd := min p.size (exit + 256)
      (List.range' exit (lastEnd + 1 - exit)).findSome? fun stop =>
        (findBegin graph branches (firstBranchOf p branches) stop).map fun begin => ⟨begin, stop⟩

/-! ## What the search finds -/

theorem isSingleEntryExitRegion_iff {p : Proto} (hp : p.IsDecoded) {begin stop : ℕ}
    (hstop : stop ≤ p.size) :
    isSingleEntryExitRegion (buildControlFlowGraph p) begin stop = true ↔
      SingleEntryExit (ControlEdge p) 0 begin stop := by
  have hlen := (buildControlFlowGraph_built hp).succ_length
  unfold isSingleEntryExitRegion
  by_cases hlt : begin < stop
  swap
  · rw [if_pos (Or.inl (Nat.le_of_not_lt hlt))]
    exact ⟨fun h => absurd h (by decide), fun h => absurd h.lo_lt_hi hlt⟩
  rw [if_neg (by omega)]
  dsimp only
  rw [Bool.and_eq_true, decide_eq_true_iff, decide_eq_true_iff, Finset.ext_iff, Finset.ext_iff]
  have hentries : ∀ t, t ∈ ((if begin = 0 then [0] else []) ++
      (List.range' begin (stop - begin)).filter fun target =>
        ((buildControlFlowGraph p).predecessors.getD target []).any fun pc =>
          decide (pc < begin) || decide (stop ≤ pc)).toFinset ↔
      Enters (ControlEdge p) 0 begin stop t := by
    intro t
    simp only [List.mem_toFinset, List.mem_append, List.mem_filter, List.mem_range'_1,
      List.any_eq_true, Bool.or_eq_true, decide_eq_true_iff]
    unfold Enters
    constructor
    · rintro (h | ⟨ht, s, hs, hout⟩)
      · have hzero : begin = 0 := by
          by_contra hne
          simp [hne] at h
        obtain rfl : t = 0 := by simpa [hzero] using h
        exact ⟨by omega, Or.inl rfl⟩
      · refine ⟨by omega, Or.inr ⟨s, (predecessors_build hp (by omega)).1 hs, by omega⟩⟩
    · rintro ⟨ht, rfl | ⟨s, hs, hout⟩⟩
      · left
        simp [show begin = 0 by omega]
      · right
        exact ⟨by omega, s, (predecessors_build hp (by omega)).2 hs, by omega⟩
  have hexits : ∀ t, t ∈ ((List.range' begin (stop - begin)).flatMap fun source =>
      ((buildControlFlowGraph p).successors.getD source []).filter fun pc =>
        decide (pc < begin) || decide (stop ≤ pc)).toFinset ↔
      Leaves (ControlEdge p) begin stop t := by
    intro t
    simp only [List.mem_toFinset, List.mem_flatMap, List.mem_filter, List.mem_range'_1,
      Bool.or_eq_true, decide_eq_true_iff, successors_build hp]
    unfold Leaves
    constructor
    · rintro ⟨s, hs, he, hout⟩
      exact ⟨by omega, s, he, by omega, by omega⟩
    · rintro ⟨hout, s, he, hs⟩
      exact ⟨s, by omega, he, by omega⟩
  simp only [hentries, hexits, Finset.mem_singleton]
  exact ⟨fun h => ⟨h.1, h.2⟩, fun h => ⟨h.enters, h.leaves⟩⟩

theorem findSome?_range'_eq_some {β : Type} {f : ℕ → Option β} {n a : ℕ} {b : β} :
    (List.range' a n).findSome? f = some b ↔
      ∃ i, a ≤ i ∧ i < a + n ∧ f i = some b ∧ ∀ j, a ≤ j → j < i → f j = none := by
  induction n generalizing a with
  | zero =>
    simp only [List.range'_zero, List.findSome?_nil, reduceCtorEq, false_iff]
    rintro ⟨i, h₁, h₂, _⟩
    omega
  | succ n ih =>
    rw [List.range'_succ, List.findSome?_cons]
    cases hfa : f a with
    | some c =>
      constructor
      · intro h
        exact ⟨a, le_rfl, by omega, hfa.trans h, fun j _ _ => by omega⟩
      · rintro ⟨i, hai, _, hfi, hnone⟩
        by_cases hlt : a < i
        · rw [hnone a le_rfl hlt] at hfa
          cases hfa
        · obtain rfl : i = a := by omega
          rw [← hfi, hfa]
    | none =>
      rw [ih]
      constructor
      · rintro ⟨i, hai, hlt, hfi, hnone⟩
        refine ⟨i, by omega, by omega, hfi, fun j haj hj => ?_⟩
        by_cases hja : j = a
        · rw [hja, hfa]
        · exact hnone j (by omega) hj
      · rintro ⟨i, hai, hlt, hfi, hnone⟩
        have hne : i ≠ a := by
          rintro rfl
          rw [hfa] at hfi
          cases hfi
        exact ⟨i, by omega, by omega, hfi, fun j haj hj => hnone j (by omega) hj⟩

theorem find?_reverse_range'_eq_some {test : ℕ → Bool} {n a b : ℕ} :
    (List.range' a n).reverse.find? test = some b ↔
      a ≤ b ∧ b < a + n ∧ test b = true ∧ ∀ c, b < c → c < a + n → test c = false := by
  induction n with
  | zero =>
    simp only [List.range'_zero, List.reverse_nil, List.find?_nil, reduceCtorEq, false_iff]
    omega
  | succ n ih =>
    rw [List.range'_concat, List.reverse_append, List.reverse_singleton, List.singleton_append,
      List.find?_cons, Nat.one_mul]
    cases htest : test (a + n) with
    | true =>
      simp only [Option.some.injEq]
      constructor
      · rintro rfl
        exact ⟨by omega, by omega, htest, fun c _ _ => by omega⟩
      · rintro ⟨_, hb, _, hnone⟩
        by_contra hne
        rw [hnone (a + n) (by omega) (by omega)] at htest
        cases htest
    | false =>
      rw [ih]
      constructor
      · rintro ⟨hab, hb, hin, hnone⟩
        refine ⟨hab, by omega, hin, fun c hbc hc => ?_⟩
        by_cases hcn : c = a + n
        · rw [hcn, htest]
        · exact hnone c hbc (by omega)
      · rintro ⟨hab, hb, hin, hnone⟩
        have hne : b ≠ a + n := by
          rintro rfl
          rw [htest] at hin
          cases hin
        exact ⟨hab, by omega, hin, fun c hbc hc => hnone c hbc (by omega)⟩

theorem find?_takeWhile {α : Type} {keep test : α → Bool} {l : List α}
    (hl : l.Pairwise fun a b => keep b = true → keep a = true) :
    (l.takeWhile keep).find? test = l.find? fun a => keep a && test a := by
  induction l with
  | nil => rfl
  | cons a l ih =>
    obtain ⟨ha, hl⟩ := List.pairwise_cons.1 hl
    rw [List.takeWhile_cons, List.find?_cons]
    cases hkeep : keep a with
    | true =>
      rw [if_pos rfl, List.find?_cons, ih hl, Bool.true_and]
    | false =>
      rw [if_neg (by simp), Bool.false_and, List.find?_nil, eq_comm, List.find?_eq_none]
      intro b hb
      simp only [Bool.and_eq_true, not_and]
      intro hkb
      rw [ha b hb hkb] at hkeep
      cases hkeep

/-- An interval that the search may return. -/
structure Candidate (p : Proto) (branches : List (ℕ × ℕ)) (begin stop : ℕ) : Prop where
  some_branch : branches ≠ []
  code_small : p.size ≤ 65536
  same_exit : ∀ branch ∈ branches, ∀ other ∈ branches, branch.2 = other.2
  near_exit : ∀ branch ∈ branches, branch.2 ≤ stop ∧ stop ≤ branch.2 + 256
  contains : ∀ branch ∈ branches, begin ≤ branch.1 ∧ branch.1 < stop
  short : stop ≤ begin + 512
  in_code : stop ≤ p.size
  region : SingleEntryExit (ControlEdge p) 0 begin stop

/-- The candidate that ends first and, of those, begins last. -/
structure FirstCandidate (p : Proto) (branches : List (ℕ × ℕ)) (begin stop : ℕ) : Prop where
  candidate : Candidate p branches begin stop
  first : ∀ begin' stop', Candidate p branches begin' stop' →
    stop < stop' ∨ (stop = stop' ∧ begin' ≤ begin)

theorem containsEveryMarker_iff {branches : List (ℕ × ℕ)} {begin stop : ℕ} :
    containsEveryMarker branches begin stop = true ↔
      ∀ branch ∈ branches, begin ≤ branch.1 ∧ branch.1 < stop := by
  simp [containsEveryMarker]

theorem firstBranch_le (branches : List (ℕ × ℕ)) (n : ℕ) :
    branches.foldl (fun least branch => min least branch.1) n ≤ n ∧
      ∀ branch ∈ branches, branches.foldl (fun least branch => min least branch.1) n ≤ branch.1 := by
  induction branches generalizing n with
  | nil => simp
  | cons branch branches ih =>
    rw [List.foldl_cons]
    have h := ih (min n branch.1)
    refine ⟨h.1.trans (Nat.min_le_left ..), List.forall_mem_cons.2 ⟨?_, h.2⟩⟩
    exact h.1.trans (Nat.min_le_right ..)

theorem le_firstBranch {branches : List (ℕ × ℕ)} {n b : ℕ} (hn : b ≤ n)
    (h : ∀ branch ∈ branches, b ≤ branch.1) :
    b ≤ branches.foldl (fun least branch => min least branch.1) n := by
  induction branches generalizing n with
  | nil => exact hn
  | cons branch branches ih =>
    obtain ⟨hb, h⟩ := List.forall_mem_cons.1 h
    exact ih (Nat.le_min.2 ⟨hn, hb⟩) h

theorem findBegin_eq_some {p : Proto} {graph : ControlFlowGraph} {branches : List (ℕ × ℕ)}
    {first : ℕ × ℕ} {begin stop : ℕ} (hcode : first.1 < p.size) (hfirst : first ∈ branches) :
    findBegin graph branches (firstBranchOf p branches) stop = some begin ↔
      (stop ≤ begin + 512 ∧ containsEveryMarker branches begin stop = true ∧
        isSingleEntryExitRegion graph begin stop = true) ∧
      ∀ c, begin < c → ¬(stop ≤ c + 512 ∧ containsEveryMarker branches c stop = true ∧
        isSingleEntryExitRegion graph c stop = true) := by
  have hpairs : (List.range' (firstBranchOf p branches - 512)
      (firstBranchOf p branches + 1 - (firstBranchOf p branches - 512))).reverse.Pairwise
      fun a b => decide (stop ≤ b + 512) = true → decide (stop ≤ a + 512) = true := by
    rw [List.pairwise_reverse]
    refine (List.pairwise_lt_range' 1).imp fun {a b} hab => ?_
    simp only [decide_eq_true_iff]
    omega
  -- a begin that contains every branch is one of the begins of the loop
  have hrange : ∀ c, stop ≤ c + 512 → containsEveryMarker branches c stop = true →
      firstBranchOf p branches - 512 ≤ c ∧ c ≤ firstBranchOf p branches := by
    intro c hc hcontains
    have hall := containsEveryMarker_iff.1 hcontains
    have h₁ := hall first hfirst
    have h₂ := (firstBranch_le branches p.size).2 first hfirst
    have h₃ := le_firstBranch (n := p.size) (by omega) fun branch hb => (hall branch hb).1
    unfold firstBranchOf
    omega
  unfold findBegin
  dsimp only
  rw [find?_takeWhile hpairs, find?_reverse_range'_eq_some]
  simp only [Bool.and_eq_true, decide_eq_true_iff, Bool.and_eq_false_imp]
  constructor
  · rintro ⟨_, _, h, hlast⟩
    refine ⟨h, fun c hbc hc => ?_⟩
    have := hrange c hc.1 hc.2.1
    rw [hlast c hbc (by omega) hc.1 hc.2.1] at hc
    exact absurd hc.2.2 (by decide)
  · rintro ⟨h, hlast⟩
    have := hrange begin h.1 h.2.1
    refine ⟨by omega, by omega, h, fun c hbc _ h₁ h₂ => ?_⟩
    rw [← Bool.not_eq_true]
    exact fun h₃ => hlast c hbc ⟨h₁, h₂, h₃⟩

theorem exists_last_candidate {p : Proto} {branches : List (ℕ × ℕ)} {begin stop : ℕ}
    (h : Candidate p branches begin stop) :
    ∃ b, Candidate p branches b stop ∧ ∀ c, b < c → ¬Candidate p branches c stop := by
  obtain ⟨n, hn⟩ : ∃ n, n = stop - begin := ⟨_, rfl⟩
  induction n using Nat.strong_induction_on generalizing begin with
  | _ n ih =>
    by_cases hlater : ∃ c, begin < c ∧ Candidate p branches c stop
    · obtain ⟨c, hbc, hc⟩ := hlater
      have := hc.region.lo_lt_hi
      exact ih (stop - c) (by omega) hc rfl
    · push Not at hlater
      exact ⟨begin, h, hlater⟩

/-- The search returns the first candidate. -/
theorem findSingleExitDispatcherRegion_eq_some {p : Proto} (hp : p.IsDecoded)
    {branches : List (ℕ × ℕ)} {begin stop : ℕ} :
    findSingleExitDispatcherRegion p branches = some ⟨begin, stop⟩ ↔
      FirstCandidate p branches begin stop := by
  rcases branches with _ | ⟨first, others⟩
  · exact ⟨fun h => absurd h (by simp [findSingleExitDispatcherRegion]),
      fun h => absurd rfl h.candidate.some_branch⟩
  generalize hbranches : first :: others = branches
  have hfirst : first ∈ branches := hbranches ▸ List.mem_cons_self ..
  unfold findSingleExitDispatcherRegion
  rw [← hbranches]
  dsimp only
  rw [hbranches]
  by_cases hsmall : 65536 < p.size
  · rw [if_pos hsmall]
    exact ⟨fun h => absurd h (by simp), fun h => absurd h.candidate.code_small (by omega)⟩
  rw [if_neg hsmall]
  by_cases hbad : (branches.any fun branch =>
      branch.2 != first.2 || decide (p.size ≤ branch.1)) = true
  · rw [if_pos hbad]
    refine ⟨fun h => absurd h (by simp), fun h => ?_⟩
    obtain ⟨branch, hmem, hb⟩ := List.any_eq_true.1 hbad
    have h₁ := h.candidate.same_exit branch hmem first hfirst
    have h₂ := h.candidate.contains branch hmem
    have h₃ := h.candidate.in_code
    simp only [Bool.or_eq_true, bne_iff_ne, ne_eq, decide_eq_true_iff] at hb
    omega
  rw [if_neg hbad]
  have hgood : ∀ branch ∈ branches, branch.2 = first.2 ∧ branch.1 < p.size := by
    simpa using hbad
  -- the intervals that the two loops visit and accept are the candidates
  have hcand : ∀ b s, s ≤ p.size → (Candidate p branches b s ↔
      (first.2 ≤ s ∧ s ≤ first.2 + 256) ∧ s ≤ b + 512 ∧ containsEveryMarker branches b s = true ∧
        isSingleEntryExitRegion (buildControlFlowGraph p) b s = true) := by
    intro b s hs
    rw [containsEveryMarker_iff, isSingleEntryExitRegion_iff hp hs]
    constructor
    · intro h
      exact ⟨h.near_exit first hfirst, h.short, h.contains, h.region⟩
    · rintro ⟨h₁, h₂, h₃, h₄⟩
      exact ⟨List.ne_nil_of_mem hfirst, by omega,
        fun x hx y hy => (hgood x hx).1.trans (hgood y hy).1.symm,
        fun x hx => by rw [(hgood x hx).1]; exact h₁, h₃, h₂, hs, h₄⟩
  have hinner : ∀ s b, first.2 ≤ s → s < first.2 + (min p.size (first.2 + 256) + 1 - first.2) →
      (findBegin (buildControlFlowGraph p) branches (firstBranchOf p branches) s = some b ↔
        Candidate p branches b s ∧ ∀ c, b < c → ¬Candidate p branches c s) := by
    intro s b hs₁ hs₂
    rw [findBegin_eq_some (hgood first hfirst).2 hfirst, hcand b s (by omega)]
    constructor
    · rintro ⟨h, hlast⟩
      refine ⟨⟨by omega, h⟩, fun c hbc hc => ?_⟩
      exact hlast c hbc ((hcand c s (by omega)).1 hc).2
    · rintro ⟨h, hlast⟩
      refine ⟨h.2, fun c hbc hc => ?_⟩
      exact hlast c hbc ((hcand c s (by omega)).2 ⟨h.1, hc⟩)
  rw [findSome?_range'_eq_some]
  constructor
  · rintro ⟨s, hs₁, hs₂, hfound, hnone⟩
    obtain ⟨b, hb, heq⟩ := Option.map_eq_some_iff.1 hfound
    obtain ⟨rfl, rfl⟩ : b = begin ∧ s = stop := by simpa using heq
    obtain ⟨hcb, hlast⟩ := (hinner s b hs₁ hs₂).1 hb
    refine ⟨hcb, fun c t hc => ?_⟩
    rcases Nat.lt_trichotomy s t with hst | rfl | hts
    · exact Or.inl hst
    · refine Or.inr ⟨rfl, ?_⟩
      by_contra hlt
      exact hlast c (by omega) hc
    · -- an earlier end would have been found
      exfalso
      have hexit := hc.near_exit first hfirst
      have htest := hnone t hexit.1 hts
      rw [Option.map_eq_none_iff] at htest
      obtain ⟨d, hd, hmax⟩ := exists_last_candidate hc
      rw [(hinner t d hexit.1 (by omega)).2 ⟨hd, hmax⟩] at htest
      cases htest
  · intro h
    have hexit := h.candidate.near_exit first hfirst
    have hcode := h.candidate.in_code
    refine ⟨stop, hexit.1, by omega, ?_, fun t ht₁ ht₂ => ?_⟩
    · rw [Option.map_eq_some_iff]
      refine ⟨begin, (hinner stop begin hexit.1 (by omega)).2 ⟨h.candidate, fun c hbc hc => ?_⟩,
        rfl⟩
      have := h.first c stop hc
      omega
    · rw [Option.map_eq_none_iff, Option.eq_none_iff_forall_ne_some]
      intro b hb
      have := h.first b t ((hinner t b ht₁ (by omega)).1 hb).1
      omega

/-! ## The three parts -/

/-- Two nested conditionals that end together at pc 6:
`TEST 0`, `JMP 6`, `TEST 0`, `JMP 6`, `MOVE 0 0`, `MOVE 0 0`, `RETURN`. -/
def nestedTests : Proto :=
  mainOf (chunkHeader ++ functionBytes 0 0 0 2
    [26, 22 + 131075 * 16384, 26, 22 + 131073 * 16384, 0, 0, 30 + 8388608] [] [])

theorem nestedTests_accepted : Accepted nestedTests := accepted_mainOf (by decide +kernel)

end ByteVeil.Lua51
