import ByteVeil.Lua51.Accepted

/-!
# The numbers of the functions

The reader numbers the functions of a chunk in the order in which it comes to them, so a nested
function has a greater number than the one around it.
-/

namespace ByteVeil.Lua51

open Fallible

/-- The reader has come to at least as many functions. -/
def Reader.Later (r r' : Reader) : Prop := r.totalPrototypes ≤ r'.totalPrototypes

instance : Std.Refl Reader.Later := ⟨fun r => Nat.le_refl r.totalPrototypes⟩

instance : IsTrans Reader Reader.Later := ⟨fun _ _ _ => Nat.le_trans⟩

theorem failIf_state {bad : Prop} [Decidable bad] {error : String} {r r' : Reader} {a : Unit}
    (h : failIf bad error r = .ok (a, r')) : r' = r := by
  unfold failIf at h
  split_ifs at h
  · exact absurd h (by simp [throw, throwThe, MonadExceptOf.throw, StateT.lift, bind, Except.bind])
  · exact (Prod.mk.inj (Except.ok.inj h)).2.symm

section Moves

variable {R : Reader → Reader → Prop} [Std.Refl R]

theorem moves_failIf (bad : Prop) [Decidable bad] (error : String) : Moves R (failIf bad error) := by
  intro r a r' h
  rw [failIf_state h]
  exact Std.Refl.refl r

variable [IsTrans Reader R]

/-- Passing bytes is a move. -/
def Blind (R : Reader → Reader → Prop) : Prop := ∀ r n, R r { r with rest := r.rest.drop n }

theorem moves_bytes (hR : Blind R) (n : ℕ) : Moves R (bytes n) :=
  moves_update (R := R) (f := fun r => { r with rest := r.rest.drop n }) (fun r => hR r n)
    (fun _ _ _ h => failIf_state h) fun _ => moves_pure _

theorem moves_unsigned (hR : Blind R) (n : ℕ) : Moves R (unsigned n) :=
  (moves_bytes hR n).bind fun _ => moves_get.bind fun _ => moves_pure _

theorem moves_u32 (hR : Blind R) : Moves R u32 := moves_unsigned hR 4

theorem moves_i32 (hR : Blind R) : Moves R i32 := (moves_u32 hR).bind fun _ => moves_pure _

theorem moves_luaString (hR : Blind R) : Moves R luaString := by
  have hrest : ∀ n, Moves R (do
      if n = 0 then return []
      failIf (67108864 < n) "invalid Lua 5.1 string length"
      let s ← bytes (n - 1)
      let _ ← u8
      return s : Read (List UInt8)) := by
    intro n
    split_ifs
    · exact moves_pure _
    · exact (moves_failIf _ _).bind fun _ => (moves_bytes hR _).bind fun _ =>
        (moves_unsigned hR 1).bind fun _ => moves_pure _
  refine moves_get.bind fun r => ?_
  split_ifs
  · exact (moves_u32 hR).bind hrest
  · exact (moves_unsigned hR 8).bind hrest

theorem moves_many {α : Type} {item : Read α} (h : Moves R item) (n : ℕ) : Moves R (many n item) :=
  Moves.mapM fun _ hx => List.eq_of_mem_replicate hx ▸ h

theorem moves_constant (hR : Blind R) : Moves R constant := by
  refine (moves_unsigned hR 1).bind fun tag => ?_
  split
  · exact moves_pure _
  · exact (moves_unsigned hR 1).bind fun _ => moves_pure _
  · exact (moves_unsigned hR 8).bind fun _ => moves_pure _
  · exact (moves_luaString hR).bind fun _ => moves_pure _
  · exact moves_throw _

end Moves

theorem blind_later : Blind Reader.Later := fun r _ => Nat.le_refl r.totalPrototypes

theorem moves_readCode : Moves Reader.Later readCode := by
  refine (moves_u32 blind_later).bind fun ncode => ?_
  refine moves_update (R := Reader.Later)
    (f := fun r => { r with totalInstructions := r.totalInstructions + ncode })
    (fun r => Nat.le_refl r.totalPrototypes) (fun _ _ _ h => failIf_state h) fun _ => ?_
  exact (moves_many (moves_u32 blind_later) ncode).bind fun _ => moves_lift _

theorem moves_readConstants : Moves Reader.Later readConstants := by
  refine (moves_u32 blind_later).bind fun nk => ?_
  exact moves_update (R := Reader.Later)
    (f := fun r => { r with totalConstants := r.totalConstants + nk })
    (fun r => Nat.le_refl r.totalPrototypes) (fun _ _ _ h => failIf_state h) fun _ =>
      moves_many (moves_constant blind_later) nk

theorem moves_debugList {α : Type} {item : Read α} (h : Moves Reader.Later item) (error : String) :
    Moves Reader.Later (debugList error item) := by
  refine (moves_u32 blind_later).bind fun n => ?_
  exact moves_update (R := Reader.Later)
    (f := fun r => { r with totalDebugEntries := r.totalDebugEntries + n })
    (fun r => Nat.le_refl r.totalPrototypes) (fun _ _ _ h => failIf_state h) fun _ => moves_many h n

/-- A function gets the number of the functions before it. -/
theorem readPrologue_id {levels : ℕ} {parent : ℤ} {r r' : Reader} {p : Proto}
    (h : readPrologue levels parent r = .ok (p, r')) :
    p.id = r.totalPrototypes ∧ r.totalPrototypes + 1 ≤ r'.totalPrototypes := by
  unfold readPrologue at h
  obtain ⟨_, s, hfail, h₁⟩ := read_bind_ok.1 h
  obtain ⟨r₁, s₁, hget, h₂⟩ := read_bind_ok.1 h₁
  obtain ⟨_, s₂, hlimit, h₃⟩ := read_bind_ok.1 h₂
  obtain ⟨_, s₃, hset, h₄⟩ := read_bind_ok.1 h₃
  obtain rfl := failIf_state hfail
  obtain ⟨rfl, rfl⟩ := Prod.mk.inj (Except.ok.inj hget)
  obtain rfl := failIf_state hlimit
  obtain ⟨-, rfl⟩ := Prod.mk.inj (Except.ok.inj hset)
  have hlater : ∀ {x : Read Proto} {t : Reader}, x t = .ok (p, r') → Moves Reader.Later x →
      t.totalPrototypes ≤ r'.totalPrototypes := fun hx hmoves => hmoves _ _ _ hx
  have hyields : ∀ {x : Read Proto} {t : Reader} {n : ℕ}, x t = .ok (p, r') →
      Yields x (fun q => q.id = n) → p.id = n := fun hx hy => hy _ _ _ hx
  constructor
  · refine hyields h₄ ?_
    iterate 10 refine Yields.skip fun _ => ?_
    exact yields_pure rfl
  · refine hlater h₄ ?_
    refine (moves_luaString blind_later).bind fun _ => (moves_i32 blind_later).bind fun _ => ?_
    refine (moves_i32 blind_later).bind fun _ => ?_
    iterate 4 refine (moves_unsigned blind_later 1).bind fun _ => ?_
    exact (moves_failIf _ _).bind fun _ => moves_readCode.bind fun _ => moves_readConstants.bind fun _ =>
      moves_pure _

theorem readEpilogue_same (p : Proto) :
    Yields (readEpilogue p) fun q => q.id = p.id ∧ q.children = p.children := by
  unfold readEpilogue
  iterate 3 refine Yields.skip fun _ => ?_
  exact yields_pure ⟨rfl, rfl⟩

theorem moves_readEpilogue (p : Proto) : Moves Reader.Later (readEpilogue p) :=
  (moves_debugList (moves_i32 blind_later) _).bind fun _ =>
    (moves_debugList ((moves_luaString blind_later).bind fun _ => (moves_u32 blind_later).bind fun _ =>
      (moves_u32 blind_later).bind fun _ => moves_pure _) _).bind fun _ =>
    (moves_debugList (moves_luaString blind_later) _).bind fun _ => moves_pure _

theorem finishProto_same {p q : Proto} (h : finishProto p = .ok q) :
    q.id = p.id ∧ q.children = p.children := by
  unfold finishProto at h
  obtain ⟨p', hp', h⟩ := except_bind_ok.1 h
  obtain ⟨⟨⟩, -, h⟩ := except_bind_ok.1 h
  obtain rfl := pure_ok.1 h
  unfold associateClosureCaptures at hp'
  obtain ⟨s, -, hs⟩ := except_bind_ok.1 hp'
  obtain rfl := pure_ok.1 hs
  exact ⟨rfl, rfl⟩

/-- Everywhere in the tree the nested functions have greater numbers. -/
def Numbered (p : Proto) : Prop := ∀ q ∈ p.tree, ∀ c ∈ q.children, q.id < c.id

theorem parseProto_numbered {levels : ℕ} {parent : ℤ} {r r' : Reader} {p : Proto}
    (h : parseProto levels parent r = .ok (p, r')) :
    p.id = r.totalPrototypes ∧ r.Later r' ∧ Numbered p := by
  induction levels generalizing parent r r' p with
  | zero =>
    unfold parseProto at h
    obtain ⟨q, s, hq, _⟩ := read_bind_ok.1 h
    obtain ⟨_, _, hfail, _⟩ := read_bind_ok.1 hq
    simp [failIf, throw, throwThe, MonadExceptOf.throw, StateT.lift] at hfail
  | succ levels ih =>
    have hmoves : ∀ parent, Moves Reader.Later (parseProto levels parent) := fun _ _ _ _ hrun =>
      (ih hrun).2.1
    unfold parseProto at h
    obtain ⟨q, s, hq, h₁⟩ := read_bind_ok.1 h
    obtain ⟨np, s₁, hnp, h₂⟩ := read_bind_ok.1 h₁
    obtain ⟨_, s₂, hfail, h₃⟩ := read_bind_ok.1 h₂
    obtain ⟨children, s₃, hchildren, h₄⟩ := read_bind_ok.1 h₃
    obtain ⟨q', s₄, hq', h₅⟩ := read_bind_ok.1 h₄
    obtain rfl := failIf_state hfail
    obtain ⟨hfinish, rfl⟩ := lift_ok.1 h₅
    obtain ⟨hid, hs⟩ := readPrologue_id hq
    obtain ⟨hid', hchildren'⟩ := readEpilogue_same _ _ _ _ hq'
    obtain ⟨hid'', hchildren''⟩ := finishProto_same hfinish
    have hid : p.id = r.totalPrototypes := hid''.trans (hid'.trans hid)
    have hlater₁ := moves_u32 blind_later _ _ _ hnp
    have hlater₂ := moves_many (hmoves q.id) np _ _ _ hchildren
    have hlater₃ := moves_readEpilogue _ _ _ _ hq'
    have hchild : ∀ c ∈ children, p.id < c.id ∧ Numbered c := by
      intro c hc
      obtain ⟨x, hx, t, t', ht, hrun⟩ :=
        mapM_from (fun _ hx => List.eq_of_mem_replicate hx ▸ hmoves q.id) hchildren c hc
      rw [List.eq_of_mem_replicate hx] at hrun
      obtain ⟨hc, -, hnumbered⟩ := ih hrun
      refine ⟨?_, hnumbered⟩
      unfold Reader.Later at *
      omega
    refine ⟨hid, ?_, ?_⟩
    · unfold Reader.Later at *
      omega
    · intro t ht c hc
      rw [Proto.tree_eq, List.mem_cons, Proto.mem_trees, hchildren'', hchildren'] at ht
      obtain rfl | ⟨child, hmem, ht⟩ := ht
      · rw [hchildren'', hchildren'] at hc
        exact (hchild c hc).1
      · exact (hchild child hmem).2 t ht c hc

/-- Nested functions have greater numbers. -/
theorem parse_numbered {data : List UInt8} {root : Proto} (h : parse data = .ok root) :
    Numbered root := by
  obtain ⟨r, r', hrun⟩ := parse_run h
  exact (parseProto_numbered hrun).2.2

end ByteVeil.Lua51
