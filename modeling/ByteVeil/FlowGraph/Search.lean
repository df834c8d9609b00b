import ByteVeil.FlowGraph.Path

/-!
# Searching a graph

Two searches over successor lists: the recursive marking of everything reachable, and the worklist
that closes a set under `next`. Both run on fuel; with enough of it `mem_mark` and `mem_closeUnder`
say exactly what they collect. A vertex that is in the set from the start is never expanded by the
worklist unless it is on the list.
-/

namespace FlowGraph

variable {α : Type*} [DecidableEq α] (next : α → List α)

/-! ## Recursive marking -/

/-- Marks `v` and what can be reached from it inside `U` through unmarked vertices. -/
def mark (U : Finset α) : ℕ → Finset α → α → Finset α
  | 0, seen, _ => seen
  | fuel + 1, seen, v =>
    if v ∉ U ∨ v ∈ seen then seen else (next v).foldl (mark U fuel) (insert v seen)

/-- What a call of the search promises: the marks grow by reachable vertices, and each new mark has
its successors marked. -/
structure Marked (U seen marked : Finset α) (starts : α → Prop) : Prop where
  grow : seen ⊆ marked
  inside : marked ⊆ seen ∪ U
  closed : ∀ x ∈ marked, x ∉ seen → ∀ y ∈ next x, y ∈ U → y ∈ marked
  sound : ∀ x ∈ marked, x ∈ seen ∨
    ∃ v, starts v ∧ Relation.ReflTransGen (fun a b => b ∈ next a) v x

variable {next} {U seen : Finset α} {fuel : ℕ}

theorem Marked.mono {seen marked : Finset α} {p q : α → Prop} (h : Marked next U seen marked p)
    (hpq : ∀ v, p v → q v) : Marked next U seen marked q :=
  ⟨h.grow, h.inside, h.closed, fun x hx => (h.sound x hx).imp_right
    fun ⟨v, hv, hr⟩ => ⟨v, hpq v hv, hr⟩⟩

theorem Marked.trans {a b c : Finset α} {p q : α → Prop} (h : Marked next U a b p)
    (h' : Marked next U b c q) : Marked next U a c (fun v => p v ∨ q v) where
  grow := h.grow.trans h'.grow
  inside := fun x hx => by
    rcases Finset.mem_union.1 (h'.inside hx) with hx | hx
    · exact h.inside hx
    · exact Finset.mem_union_right _ hx
  closed := fun x hx hxa y hy hyU => by
    by_cases hxb : x ∈ b
    · exact h'.grow (h.closed x hxb hxa y hy hyU)
    · exact h'.closed x hx hxb y hy hyU
  sound := fun x hx => by
    rcases h'.sound x hx with hxb | ⟨v, hv, hr⟩
    · exact (h.sound x hxb).imp_right fun ⟨v, hv, hr⟩ => ⟨v, Or.inl hv, hr⟩
    · exact Or.inr ⟨v, Or.inr hv, hr⟩

theorem marked_refl (U seen : Finset α) : Marked next U seen seen (fun _ => False) where
  grow := fun _ hx => hx
  inside := fun _ hx => Finset.mem_union_left _ hx
  closed := fun _ hx hxs => absurd hx hxs
  sound := fun _ hx => Or.inl hx

/-- The marking of several vertices in turn, from the marking of one. -/
theorem marked_foldl {f : Finset α → α → Finset α} {k : ℕ}
    (hf : ∀ s v, (U \ s).card < k → Marked next U s (f s v) (· = v) ∧ (v ∈ U → v ∈ f s v))
    (l : List α) {s : Finset α} (hs : (U \ s).card < k) :
    Marked next U s (l.foldl f s) (· ∈ l) ∧ ∀ v ∈ l, v ∈ U → v ∈ l.foldl f s := by
  induction l generalizing s with
  | nil => exact ⟨(marked_refl U s).mono (fun _ h => h.elim), by simp⟩
  | cons w l ih =>
    obtain ⟨hw, hwU⟩ := hf s w hs
    have hcard : (U \ f s w).card < k :=
      lt_of_le_of_lt (Finset.card_le_card (Finset.sdiff_subset_sdiff subset_rfl hw.grow)) hs
    obtain ⟨hl, hlU⟩ := ih hcard
    refine ⟨(hw.trans hl).mono ?_, ?_⟩
    · rintro v (rfl | hv)
      · exact List.mem_cons_self ..
      · exact List.mem_cons_of_mem _ hv
    · intro v hv hvU
      rcases List.mem_cons.1 hv with rfl | hv
      · exact hl.grow (hwU hvU)
      · exact hlU v hv hvU

theorem mark_marked (next : α → List α) (U : Finset α) (fuel : ℕ) (s : Finset α) (v : α)
    (hs : (U \ s).card < fuel) :
    Marked next U s (mark next U fuel s v) (· = v) ∧ (v ∈ U → v ∈ mark next U fuel s v) := by
  induction fuel generalizing s v with
  | zero => omega
  | succ fuel ih =>
    unfold mark
    by_cases hv : v ∉ U ∨ v ∈ s
    · rw [if_pos hv]
      exact ⟨(marked_refl U s).mono (fun _ h => h.elim), fun hU => hv.resolve_left (by simpa)⟩
    · rw [if_neg hv]
      obtain ⟨hvU, hvs⟩ : v ∈ U ∧ v ∉ s := by simpa using hv
      have hcard : (U \ insert v s).card < fuel := by
        have hlt : (U \ insert v s).card < (U \ s).card := by
          refine Finset.card_lt_card ⟨Finset.sdiff_subset_sdiff subset_rfl (Finset.subset_insert ..),
            fun h => ?_⟩
          have := h (Finset.mem_sdiff.2 ⟨hvU, hvs⟩)
          simp at this
        omega
      obtain ⟨hl, hlU⟩ := marked_foldl (k := fuel) ih (next v) hcard
      refine ⟨⟨?_, ?_, ?_, ?_⟩, fun _ => hl.grow (Finset.mem_insert_self ..)⟩
      · exact (Finset.subset_insert ..).trans hl.grow
      · intro x hx
        rcases Finset.mem_union.1 (hl.inside hx) with hx | hx
        · rcases Finset.mem_insert.1 hx with rfl | hx
          · exact Finset.mem_union_right _ hvU
          · exact Finset.mem_union_left _ hx
        · exact Finset.mem_union_right _ hx
      · intro x hx hxs y hy hyU
        by_cases hxv : x = v
        · subst hxv
          exact hlU y hy hyU
        · exact hl.closed x hx (by simp [hxv, hxs]) y hy hyU
      · intro x hx
        rcases hl.sound x hx with hx | ⟨w, hw, hr⟩
        · rcases Finset.mem_insert.1 hx with rfl | hx
          · exact Or.inr ⟨x, rfl, .refl⟩
          · exact Or.inl hx
        · exact Or.inr ⟨v, rfl, .head hw hr⟩

/-- From nothing marked, exactly the reachable vertices are marked. -/
theorem mem_mark {v x : α} (hU : ∀ a ∈ U, ∀ b ∈ next a, b ∈ U) (hv : v ∈ U)
    (hfuel : U.card < fuel) :
    x ∈ mark next U fuel ∅ v ↔ Relation.ReflTransGen (fun a b => b ∈ next a) v x := by
  obtain ⟨hm, hvm⟩ := mark_marked next U fuel ∅ v (by simpa)
  constructor
  · intro hx
    obtain ⟨w, rfl, hr⟩ := (hm.sound x hx).resolve_left (Finset.notMem_empty x)
    exact hr
  · intro hr
    have hmU : ∀ y ∈ mark next U fuel ∅ v, y ∈ U := fun y hy => by
      simpa using hm.inside hy
    induction hr with
    | refl => exact hvm hv
    | tail _ he ih =>
      exact hm.closed _ ih (Finset.notMem_empty _) _ he (hU _ (hmU _ ih) _ he)

/-! ## Worklist -/

/-- Adds a vertex to the set, and to the list if it was new. -/
def push (r : List α × Finset α) (x : α) : List α × Finset α :=
  if x ∈ r.2 then r else (x :: r.1, insert x r.2)

variable (next) in
/-- Takes vertices off the list and pushes their successors until the list is empty. -/
def closeUnder : ℕ → List α → Finset α → Finset α
  | 0, _, seen => seen
  | _ + 1, [], seen => seen
  | fuel + 1, v :: work, seen =>
    let r := (next v).foldl push (work, seen)
    closeUnder fuel r.1 r.2

theorem mem_push_foldl_snd (l : List α) (r : List α × Finset α) (x : α) :
    x ∈ (l.foldl push r).2 ↔ x ∈ r.2 ∨ x ∈ l := by
  induction l generalizing r with
  | nil => simp
  | cons y l ih =>
    rw [List.foldl_cons, ih, List.mem_cons]
    unfold push
    split_ifs with h
    · constructor
      · rintro (hx | hx)
        · exact Or.inl hx
        · exact Or.inr (Or.inr hx)
      · rintro (hx | rfl | hx)
        · exact Or.inl hx
        · exact Or.inl h
        · exact Or.inr hx
    · rw [Finset.mem_insert]
      tauto

theorem mem_push_foldl_fst (l : List α) (r : List α × Finset α) (x : α) :
    x ∈ (l.foldl push r).1 ↔ x ∈ r.1 ∨ (x ∈ l ∧ x ∉ r.2) := by
  induction l generalizing r with
  | nil => simp
  | cons y l ih =>
    rw [List.foldl_cons, ih, List.mem_cons]
    unfold push
    by_cases h : y ∈ r.2
    · rw [if_pos h]
      constructor
      · rintro (hx | ⟨hx, hr⟩)
        · exact Or.inl hx
        · exact Or.inr ⟨Or.inr hx, hr⟩
      · rintro (hx | ⟨rfl | hx, hr⟩)
        · exact Or.inl hx
        · exact absurd h hr
        · exact Or.inr ⟨hx, hr⟩
    · rw [if_neg h, List.mem_cons, Finset.mem_insert]
      by_cases hxy : x = y
      · subst hxy
        simp [h]
      · simp [hxy]

/-- Every push moves a vertex of `U` from outside the set onto the list. -/
theorem push_foldl_measure {U : Finset α} (l : List α) (hl : ∀ x ∈ l, x ∈ U)
    (r : List α × Finset α) :
    (U \ (l.foldl push r).2).card + (l.foldl push r).1.length = (U \ r.2).card + r.1.length := by
  induction l generalizing r with
  | nil => rfl
  | cons y l ih =>
    rw [List.foldl_cons, ih (fun x hx => hl x (List.mem_cons_of_mem _ hx))]
    unfold push
    split_ifs with h
    · rfl
    · have hy : y ∈ U \ r.2 := Finset.mem_sdiff.2 ⟨hl y (List.mem_cons_self ..), h⟩
      have hcard := Finset.card_erase_of_mem hy
      have hpos := Finset.card_pos.2 ⟨y, hy⟩
      rw [Finset.sdiff_insert, hcard, List.length_cons]
      omega

/-- The loop invariant of the worklist started from `work₀` and `seen₀`. -/
structure Closing (next : α → List α) (work₀ : List α) (seen₀ : Finset α) (work : List α)
    (seen : Finset α) : Prop where
  grow : seen₀ ⊆ seen
  start : ∀ x ∈ work₀, x ∈ seen
  sub : ∀ x ∈ work, x ∈ work₀ ∨ x ∉ seen₀
  closed : ∀ x ∈ seen, x ∈ work₀ ∨ x ∉ seen₀ → x ∉ work → ∀ y ∈ next x, y ∈ seen
  sound : ∀ x, x ∈ work ∨ x ∈ seen → x ∈ seen₀ ∨
    ∃ w ∈ work₀, Relation.ReflTransGen (fun a b => b ∈ next a ∧ b ∉ seen₀) w x

theorem Closing.step {work₀ work : List α} {seen₀ seen : Finset α} {v : α}
    (h : Closing next work₀ seen₀ (v :: work) seen) :
    Closing next work₀ seen₀ ((next v).foldl push (work, seen)).1
      ((next v).foldl push (work, seen)).2 := by
  have hv : v ∈ work₀ ∨ v ∉ seen₀ := h.sub v (List.mem_cons_self ..)
  have hreach : ∀ x ∈ next v, x ∉ seen₀ →
      ∃ w ∈ work₀, Relation.ReflTransGen (fun a b => b ∈ next a ∧ b ∉ seen₀) w x := by
    intro x hx hxs
    rcases hv with hv | hv
    · exact ⟨v, hv, .single ⟨hx, hxs⟩⟩
    · obtain ⟨w, hw, hr⟩ := (h.sound v (Or.inl (List.mem_cons_self ..))).resolve_left hv
      exact ⟨w, hw, hr.tail ⟨hx, hxs⟩⟩
  refine ⟨fun x hx => ?_, fun x hx => ?_, fun x hx => ?_, fun x hx hx₀ hxw y hy => ?_,
    fun x hx => ?_⟩
  · exact (mem_push_foldl_snd ..).2 (Or.inl (h.grow hx))
  · exact (mem_push_foldl_snd ..).2 (Or.inl (h.start x hx))
  · rcases (mem_push_foldl_fst ..).1 hx with hx | ⟨_, hx⟩
    · exact h.sub x (List.mem_cons_of_mem _ hx)
    · exact Or.inr fun h₀ => hx (h.grow h₀)
  · rw [mem_push_foldl_snd] at hx ⊢
    rw [mem_push_foldl_fst] at hxw
    by_cases hxv : x = v
    · subst hxv
      exact Or.inr hy
    · have hxs : x ∈ seen := by
        by_contra hxs
        exact hxw (Or.inr ⟨hx.resolve_left hxs, hxs⟩)
      refine Or.inl (h.closed x hxs hx₀ (fun hw => ?_) y hy)
      exact hxw (Or.inl ((List.mem_cons.1 hw).resolve_left hxv))
  · by_cases hxs : x ∈ seen₀
    · exact Or.inl hxs
    · rcases hx with hx | hx
      · rcases (mem_push_foldl_fst ..).1 hx with hx | ⟨hx, _⟩
        · exact h.sound x (Or.inl (List.mem_cons_of_mem _ hx))
        · exact Or.inr (hreach x hx hxs)
      · rcases (mem_push_foldl_snd ..).1 hx with hx | hx
        · exact h.sound x (Or.inr hx)
        · exact Or.inr (hreach x hx hxs)

theorem closeUnder_closing {work₀ work : List α} {seen₀ seen : Finset α}
    (hU : ∀ a, ∀ b ∈ next a, b ∈ U) (h : Closing next work₀ seen₀ work seen)
    (hfuel : (U \ seen).card + work.length < fuel) :
    Closing next work₀ seen₀ [] (closeUnder next fuel work seen) := by
  induction fuel generalizing work seen with
  | zero => omega
  | succ fuel ih =>
    cases work with
    | nil => exact h
    | cons v work =>
      refine ih h.step ?_
      rw [push_foldl_measure _ (hU v)]
      simp only [List.length_cons] at hfuel ⊢
      omega

/-- The worklist adds what can be reached from it without meeting the set it started with. -/
theorem mem_closeUnder {work : List α} {seen : Finset α} {x : α} (hU : ∀ a, ∀ b ∈ next a, b ∈ U)
    (hwork : ∀ w ∈ work, w ∈ seen) (hfuel : (U \ seen).card + work.length < fuel) :
    x ∈ closeUnder next fuel work seen ↔ x ∈ seen ∨
      ∃ w ∈ work, Relation.ReflTransGen (fun a b => b ∈ next a ∧ b ∉ seen) w x := by
  have hinit : Closing next work seen work seen := by
    refine ⟨fun _ hx => hx, hwork, fun x hx => Or.inl hx, fun x hx h hxw => ?_, fun x hx => ?_⟩
    · exact absurd (h.resolve_right (fun h => h hx)) hxw
    · exact Or.inl (hx.elim (hwork x) id)
  have hend := closeUnder_closing hU hinit hfuel
  constructor
  · exact fun hx => hend.sound x (Or.inr hx)
  · rintro (hx | ⟨w, hw, hr⟩)
    · exact hend.grow hx
    · suffices h : x ∈ closeUnder next fuel work seen ∧ (x ∈ work ∨ x ∉ seen) from h.1
      induction hr with
      | refl => exact ⟨hend.start w hw, Or.inl hw⟩
      | tail _ he ih => exact ⟨hend.closed _ ih.1 ih.2 (by simp) _ he.1, Or.inr he.2⟩

end FlowGraph
