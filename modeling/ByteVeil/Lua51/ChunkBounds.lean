import ByteVeil.Lua51.ChunkReader
import Mathlib.Algebra.BigOperators.Group.List.Basic
import Mathlib.Algebra.Group.Prod

/-!
# The size of an accepted chunk

What every part of `parseProto` charges to the budgets, added up over the tree of prototypes, the
numbers that the prototypes get, and the depth of their nesting.
-/

namespace ByteVeil.Lua51

open Fallible

/-! ## Charges -/

/-- Instructions, constants, debug entries and prototypes. -/
abbrev Charge := ℕ × ℕ × ℕ × ℕ

/-- The totals of the reader. -/
def Reader.totals (r : Reader) : Charge :=
  (r.totalInstructions, r.totalConstants, r.totalDebugEntries, r.totalPrototypes)

/-- What a prototype is charged for. -/
def Proto.charge (p : Proto) : Charge :=
  (p.code.length, p.constants.length, p.lines.length + p.locals.length + p.upvalues.length, 1)

/-- Nothing is charged. -/
def Reader.Free (r r' : Reader) : Prop := r'.totals = r.totals

instance : Std.Refl Reader.Free := ⟨fun _ => rfl⟩

instance : IsTrans Reader Reader.Free := ⟨fun _ _ _ h h' => h'.trans h⟩

theorem blind_free : Blind Reader.Free := fun _ _ => rfl

/-- A step charges amounts that fit its result. -/
def Charges {α : Type} (x : Read α) (P : α → Charge → Prop) : Prop :=
  ∀ r a r', x r = .ok (a, r') → ∃ c, r'.totals = r.totals + c ∧ P a c

section Charges

variable {α β : Type} {x : Read α} {f : α → Read β} {P : β → Charge → Prop}

theorem charges_pure {b : β} (h : P b 0) : Charges (pure b) P := by
  intro r a r' hrun
  obtain ⟨rfl, rfl⟩ := Prod.mk.inj (Except.ok.inj hrun)
  exact ⟨0, (add_zero _).symm, h⟩

theorem Charges.bind {Q : α → Charge → Prop} (hx : Charges x Q)
    (hf : ∀ a c, Q a c → Charges (f a) fun b d => P b (c + d)) : Charges (x >>= f) P := by
  intro r b r' h
  obtain ⟨a, s, ha, hb⟩ := read_bind_ok.1 h
  obtain ⟨c, hc, hQ⟩ := hx r a s ha
  obtain ⟨d, hd, hP⟩ := hf a c hQ s b r' hb
  exact ⟨c + d, by rw [hd, hc, add_assoc], hP⟩

/-- A step that charges nothing goes before. -/
theorem Charges.free (hx : Moves Reader.Free x) (hf : ∀ a, Charges (f a) P) :
    Charges (x >>= f) P := by
  intro r b r' h
  obtain ⟨a, s, ha, hb⟩ := read_bind_ok.1 h
  obtain ⟨c, hc, hP⟩ := hf a s b r' hb
  exact ⟨c, by rw [hc, hx r a s ha], hP⟩

/-- A budget is checked and charged. -/
theorem charges_update {take : Reader → Reader} {bad : Reader → Prop} [DecidablePred bad]
    {error : String} {rest : Reader → Read β} (c : Charge) (htake : ∀ r, (take r).totals = r.totals + c)
    (hrest : ∀ r, Charges (rest r) fun b d => P b (c + d)) :
    Charges (get >>= fun r => failIf (bad r) error >>= fun _ => set (take r) >>= fun _ => rest r) P := by
  intro r b r' h
  obtain ⟨s, s₁, hget, h⟩ := read_bind_ok.1 h
  obtain ⟨rfl, rfl⟩ := Prod.mk.inj (Except.ok.inj hget)
  obtain ⟨_, s₂, hlimit, h⟩ := read_bind_ok.1 h
  obtain rfl := failIf_state hlimit
  obtain ⟨_, s₃, hset, h⟩ := read_bind_ok.1 h
  obtain ⟨-, rfl⟩ := Prod.mk.inj (Except.ok.inj hset)
  obtain ⟨d, hd, hP⟩ := hrest s₂ _ b r' h
  exact ⟨c + d, by rw [hd, htake, add_assoc], hP⟩

theorem charges_many {item : Read β} (h : Moves Reader.Free item) (n : ℕ) :
    Charges (many n item) fun bs c => bs.length = n ∧ c = 0 := by
  unfold many
  induction n with
  | zero => exact charges_pure ⟨rfl, rfl⟩
  | succ n ih =>
    rw [List.replicate_succ, List.mapM_cons]
    refine Charges.free h fun b => ih.bind fun bs c hbs => charges_pure ?_
    exact ⟨congrArg (· + 1) hbs.1, by rw [hbs.2]; rfl⟩

end Charges

/-! ## Charges of the parts of `parseProto` -/

theorem readCode_charges : Charges readCode fun code c => c = (code.length, 0, 0, 0) := by
  refine Charges.free (moves_u32 blind_free) fun ncode => ?_
  refine charges_update (ncode, 0, 0, 0) (fun r => rfl) fun r => ?_
  refine (charges_many (moves_u32 blind_free) ncode).bind fun rawCode c hraw => ?_
  intro r code r' h
  obtain ⟨hcode, rfl⟩ := lift_ok.1 h
  obtain ⟨flag, hdecoding⟩ := decodeCode_decoding hcode
  have hlength : code.length = rawCode.length := hdecoding.length_eq
  refine ⟨0, (add_zero _).symm, ?_⟩
  show (ncode, 0, 0, 0) + (c + 0) = (code.length, 0, 0, 0)
  rw [hlength, hraw.1, hraw.2]
  rfl

theorem readConstants_charges : Charges readConstants fun constants c => c = (0, constants.length, 0, 0) := by
  refine Charges.free (moves_u32 blind_free) fun nk => ?_
  refine charges_update (0, nk, 0, 0) (fun r => rfl) fun r => ?_
  intro r constants r' h
  obtain ⟨c, hc, hlength, rfl⟩ := charges_many (moves_constant blind_free) nk r constants r' h
  refine ⟨0, hc, ?_⟩
  show (0, nk, 0, 0) + 0 = (0, constants.length, 0, 0)
  rw [hlength]
  rfl

theorem debugList_charges {α : Type} {item : Read α} (h : Moves Reader.Free item) (error : String) :
    Charges (debugList error item) fun entries c => c = (0, 0, entries.length, 0) := by
  refine Charges.free (moves_u32 blind_free) fun n => ?_
  refine charges_update (0, 0, n, 0) (fun r => rfl) fun r => ?_
  intro r entries r' hrun
  obtain ⟨c, hc, hlength, rfl⟩ := charges_many h n r entries r' hrun
  refine ⟨0, hc, ?_⟩
  show (0, 0, n, 0) + 0 = (0, 0, entries.length, 0)
  rw [hlength]
  rfl

/-- The prologue charges for one prototype and for what it reads. -/
theorem readPrologue_charges (levels : ℕ) (parent : ℤ) :
    Charges (readPrologue levels parent) fun p c =>
      c = (p.code.length, p.constants.length, 0, 1) ∧ p.parent = parent := by
  unfold readPrologue
  refine Charges.free (moves_failIf _ _) fun _ => ?_
  refine charges_update (0, 0, 0, 1) (fun r => rfl) fun r => ?_
  refine Charges.free (moves_luaString blind_free) fun source => ?_
  refine Charges.free (moves_i32 blind_free) fun linedefined => ?_
  refine Charges.free (moves_i32 blind_free) fun lastline => ?_
  iterate 4 refine Charges.free (moves_unsigned blind_free 1) fun _ => ?_
  refine Charges.free (moves_failIf _ _) fun _ => ?_
  refine readCode_charges.bind fun code c hcode => ?_
  refine readConstants_charges.bind fun constants d hconstants => charges_pure ⟨?_, rfl⟩
  rw [hcode, hconstants]
  simp

theorem readEpilogue_charges (p : Proto) :
    Charges (readEpilogue p) fun q c =>
      c = (0, 0, q.lines.length + q.locals.length + q.upvalues.length, 0) ∧
        q.code = p.code ∧ q.constants = p.constants ∧ q.parent = p.parent := by
  unfold readEpilogue
  refine (debugList_charges (moves_i32 blind_free) _).bind fun lines c hlines => ?_
  refine (debugList_charges ?_ _).bind fun locals d hlocals => ?_
  · exact (moves_luaString blind_free).bind fun _ => (moves_u32 blind_free).bind fun _ =>
      (moves_u32 blind_free).bind fun _ => moves_pure _
  refine (debugList_charges (moves_luaString blind_free) _).bind fun upvalues e hupvalues => ?_
  refine charges_pure ⟨?_, rfl, rfl, rfl⟩
  rw [hlines, hlocals, hupvalues]
  simp [Nat.add_assoc]

theorem finishProto_charge {p q : Proto} (h : finishProto p = .ok q) :
    q.charge = p.charge ∧ q.parent = p.parent := by
  unfold finishProto at h
  obtain ⟨p', hp', h⟩ := except_bind_ok.1 h
  obtain ⟨⟨⟩, -, h⟩ := except_bind_ok.1 h
  obtain rfl := pure_ok.1 h
  unfold associateClosureCaptures at hp'
  obtain ⟨s, hs, hret⟩ := except_bind_ok.1 hp'
  obtain rfl := pure_ok.1 hret
  have hlength : s.code.length = p.code.length := by
    simpa using congrArg List.length (associateFrom_base hs)
  refine ⟨?_, rfl⟩
  unfold Proto.charge
  rw [hlength]

/-! ## Trees -/

mutual

/-- How many prototypes stand above the deepest one. -/
def Proto.depth : Proto → ℕ
  | ⟨_, _, _, _, _, _, _, _, _, _, _, children, _, _, _, _, _⟩ => depths children

/-- The depth of prototypes inside of one. -/
def depths : List Proto → ℕ
  | [] => 0
  | p :: ps => max (p.depth + 1) (depths ps)

end

theorem Proto.depth_eq (p : Proto) : p.depth = depths p.children := by
  cases p
  rw [Proto.depth]

/-- From `r` to `r'` the prototypes have been read in this order: everything is charged, they have
consecutive numbers, and they know the prototypes around them. -/
structure Counted (r r' : Reader) (ps : List Proto) : Prop where
  charges : r'.totals = r.totals + (ps.map Proto.charge).sum
  ids : ps.map (·.id) = List.range' r.totalPrototypes ps.length
  parents : ∀ p ∈ ps, ∀ c ∈ p.children, c.parent = p.id

theorem sum_charge (ps : List Proto) :
    (ps.map Proto.charge).sum = ((ps.map (·.code.length)).sum, (ps.map (·.constants.length)).sum,
      (ps.map fun p => p.lines.length + p.locals.length + p.upvalues.length).sum, ps.length) := by
  induction ps with
  | nil => rfl
  | cons p ps ih =>
    rw [List.map_cons, List.sum_cons, ih]
    simp [Proto.charge, Nat.add_comm]

theorem Counted.totalPrototypes {r r' : Reader} {ps : List Proto} (h : Counted r r' ps) :
    r'.totalPrototypes = r.totalPrototypes + ps.length := by
  have hcharges := h.charges
  rw [sum_charge] at hcharges
  exact congrArg (·.2.2.2) hcharges

theorem Counted.append {r s t : Reader} {ps qs : List Proto} (h : Counted r s ps)
    (h' : Counted s t qs) : Counted r t (ps ++ qs) := by
  refine ⟨?_, ?_, ?_⟩
  · rw [h'.charges, h.charges, List.map_append, List.sum_append, add_assoc]
  · rw [List.map_append, h.ids, h'.ids, h.totalPrototypes, List.length_append, List.range'_append_1]
  · exact List.forall_mem_append.2 ⟨h.parents, h'.parents⟩

/-- The prototypes nested in one. -/
theorem many_counted {x : Read Proto} {levels : ℕ} {parent : ℤ}
    (hx : ∀ r p r', x r = .ok (p, r') → p.parent = parent ∧ p.depth + 1 ≤ levels ∧ Counted r r' p.tree)
    {n : ℕ} {r r' : Reader} {ps : List Proto} (h : many n x r = .ok (ps, r')) :
    (∀ p ∈ ps, p.parent = parent) ∧ depths ps ≤ levels ∧ Counted r r' (Proto.trees ps) := by
  unfold many at h
  induction n generalizing r ps with
  | zero =>
    obtain ⟨rfl, rfl⟩ := Prod.mk.inj (Except.ok.inj h)
    exact ⟨by simp, by simp [depths], ⟨(add_zero _).symm, rfl, by simp [Proto.trees]⟩⟩
  | succ n ih =>
    rw [List.replicate_succ, List.mapM_cons] at h
    obtain ⟨p, s, hp, h⟩ := read_bind_ok.1 h
    obtain ⟨qs, s', hqs, h⟩ := read_bind_ok.1 h
    obtain ⟨rfl, rfl⟩ := Prod.mk.inj (Except.ok.inj h)
    obtain ⟨hparent, hdepth, hcounted⟩ := hx r p s hp
    obtain ⟨hparents, hdepths, hcounted'⟩ := ih hqs
    refine ⟨List.forall_mem_cons.2 ⟨hparent, hparents⟩, ?_, ?_⟩
    · rw [depths]
      exact max_le hdepth hdepths
    · rw [Proto.trees]
      exact hcounted.append hcounted'

theorem parseProto_counted {levels : ℕ} {parent : ℤ} {r r' : Reader} {p : Proto}
    (h : parseProto levels parent r = .ok (p, r')) :
    p.parent = parent ∧ p.depth + 1 ≤ levels ∧ Counted r r' p.tree := by
  induction levels generalizing parent r r' p with
  | zero =>
    unfold parseProto at h
    obtain ⟨q, s, hq, _⟩ := read_bind_ok.1 h
    obtain ⟨_, _, hfail, _⟩ := read_bind_ok.1 hq
    simp [failIf, throw, throwThe, MonadExceptOf.throw, StateT.lift] at hfail
  | succ levels ih =>
    unfold parseProto at h
    obtain ⟨q, s, hq, h₁⟩ := read_bind_ok.1 h
    obtain ⟨np, s₁, hnp, h₂⟩ := read_bind_ok.1 h₁
    obtain ⟨_, s₂, hfail, h₃⟩ := read_bind_ok.1 h₂
    obtain ⟨children, s₃, hchildren, h₄⟩ := read_bind_ok.1 h₃
    obtain ⟨q', s₄, hq', h₅⟩ := read_bind_ok.1 h₄
    obtain rfl := failIf_state hfail
    obtain ⟨hfinish, rfl⟩ := lift_ok.1 h₅
    obtain ⟨hid, -⟩ := readPrologue_id hq
    obtain ⟨c, hc, hcharge, hparent⟩ := readPrologue_charges _ _ _ _ _ hq
    obtain ⟨d, hd, hcharge', hcode', hconstants', hparent'⟩ := readEpilogue_charges _ _ _ _ hq'
    obtain ⟨hid', hchildren'⟩ := readEpilogue_same _ _ _ _ hq'
    obtain ⟨hid'', hchildren''⟩ := finishProto_same hfinish
    obtain ⟨hcharge'', hparent''⟩ := finishProto_charge hfinish
    obtain ⟨hparents, hdepths, hcounted⟩ := many_counted (fun _ _ _ => ih) hchildren
    have hfree := moves_u32 blind_free _ _ _ hnp
    have hchildren : p.children = children := hchildren''.trans hchildren'
    have hid : p.id = r.totalPrototypes := hid''.trans (hid'.trans hid)
    refine ⟨hparent''.trans (hparent'.trans hparent), ?_, ?_⟩
    · rw [Proto.depth_eq, hchildren]
      exact Nat.succ_le_succ hdepths
    rw [Proto.tree_eq, hchildren]
    have hs : s₂.totals = r.totals + c := by
      rw [hfree, hc]
    have hnext : s₂.totalPrototypes = r.totalPrototypes + 1 := by
      rw [hcharge] at hs
      exact congrArg (·.2.2.2) hs
    have hcd : p.charge = c + d := by
      rw [hcharge'', hcharge, hcharge']
      unfold Proto.charge
      rw [hcode', hconstants']
      simp
    refine ⟨?_, ?_, ?_⟩
    · rw [List.map_cons, List.sum_cons, hcd, hd, hcounted.charges, hs]
      simp only [add_assoc, add_comm d]
    · rw [List.map_cons, hid, hcounted.ids, List.length_cons, List.range'_succ, hnext]
    · refine List.forall_mem_cons.2 ⟨fun child hchild => ?_, hcounted.parents⟩
      rw [hchildren] at hchild
      exact (hparents child hchild).trans (congrArg Int.ofNat (hid''.trans hid').symm)

theorem moves_header : Moves Reader.Free header := by
  refine (moves_bytes blind_free 4).bind fun _ => (moves_failIf _ _).bind fun _ => ?_
  refine (moves_unsigned blind_free 1).bind fun _ => (moves_failIf _ _).bind fun _ => ?_
  refine (moves_unsigned blind_free 1).bind fun _ => (moves_failIf _ _).bind fun _ => ?_
  refine (moves_unsigned blind_free 1).bind fun endian => (moves_failIf _ _).bind fun _ => ?_
  have hlittle : Moves Reader.Free (modify fun r => { r with little := endian == 1 } : Read Unit) :=
    moves_modify fun _ => rfl
  refine hlittle.bind fun _ => ?_
  refine (moves_unsigned blind_free 1).bind fun _ => (moves_failIf _ _).bind fun _ => ?_
  refine (moves_unsigned blind_free 1).bind fun sizeT => ?_
  have hsizeT : Moves Reader.Free (modify fun r => { r with sizeT := sizeT } : Read Unit) :=
    moves_modify fun _ => rfl
  refine hsizeT.bind fun _ => (moves_failIf _ _).bind fun _ => ?_
  refine (moves_unsigned blind_free 1).bind fun _ => (moves_failIf _ _).bind fun _ => ?_
  refine (moves_unsigned blind_free 1).bind fun _ => (moves_failIf _ _).bind fun _ => ?_
  exact (moves_unsigned blind_free 1).bind fun _ => moves_failIf _ _

/-! ## Accepted chunks -/

namespace ChunkReader

/-- The reader stops with an error of its own, or reads the tree that `parse` reads and stands at the
end of the input. -/
theorem parse_cases (data : List UInt8) :
    (∃ error, parse data = .error (.thrown error)) ∨
    ∃ root m, parse data = .ok (root, m) ∧ m.pos = data.length ∧ Lua51.parse data = .ok root ∧
      ∃ r r', r.totals = 0 ∧ Lua51.parseProto 129 (-1) r = .ok (root, r') ∧ Follows data m r' := by
  have hmatches : Matches data (header >>= fun _ => parseProto 0 (-1))
      (Lua51.header >>= fun _ => Lua51.parseProto 129 (-1)) :=
    matches_header.bind fun _ => matches_parseProto (Nat.zero_add 129) (-1)
  have hinit : Follows data { data := data } { rest := data } :=
    ⟨rfl, rfl, Nat.zero_le _, rfl, rfl, rfl, rfl, rfl, rfl, rfl, by simp⟩
  obtain ⟨herror, hok⟩ := hmatches _ _ hinit
  have hparse : parse data = ((header >>= fun _ => parseProto 0 (-1)) { data := data } >>= fun p =>
      (throwIf (p.2.pos ≠ data.length) "trailing bytes after Lua chunk" >>= fun _ => pure p.1 :
        Step Proto) p.2) := by
    show ((header >>= fun _ => (parseProto 0 (-1) >>= fun p => get >>= fun r =>
      throwIf (r.pos ≠ data.length) "trailing bytes after Lua chunk" >>= fun _ => pure p) : Step Proto)
        { data := data }) = _
    rw [← bind_assoc]
    rfl
  cases hread : (Lua51.header >>= fun _ => Lua51.parseProto 129 (-1) : Read Proto) { rest := data } with
  | error e =>
    refine .inl ⟨e, ?_⟩
    rw [hparse, herror e hread]
    rfl
  | ok result =>
    obtain ⟨m, hm, hfollows⟩ := hok result.1 result.2 hread
    obtain ⟨_, r, hheader, hproto⟩ := read_bind_ok.1 hread
    by_cases hpos : m.pos = data.length
    · refine .inr ⟨result.1, m, ?_, hpos, ?_, r, result.2, ?_, hproto, hfollows⟩
      · rw [hparse, hm]
        show (throwIf (m.pos ≠ data.length) "trailing bytes after Lua chunk" >>= fun _ =>
          pure result.1 : Step Proto) m = _
        unfold throwIf
        rw [if_neg (not_not.2 hpos)]
        rfl
      · have hrest : result.2.rest = [] := by rw [hfollows.rest, hpos, List.drop_length]
        show ((Lua51.header >>= fun _ => Lua51.parseProto 129 (-1) : Read Proto) { rest := data } >>=
          fun p => if p.2.rest ≠ [] then _ else pure p.1) = _
        rw [hread]
        exact if_neg (not_not.2 hrest)
      · rw [moves_header _ _ _ hheader]
        rfl
    · refine .inl ⟨"trailing bytes after Lua chunk", ?_⟩
      rw [hparse, hm]
      show (throwIf (m.pos ≠ data.length) "trailing bytes after Lua chunk" >>= fun _ =>
        pure result.1 : Step Proto) m = _
      unfold throwIf
      rw [if_pos hpos]
      rfl

/-- For every byte string the reader stops with an error of its own or reads a tree and all of the
input; then the prototypes are numbered in preorder and know the ones around them, and depth, number
of prototypes and all totals are within the limits. -/
theorem parse_bounded (data : List UInt8) :
    (∃ error, parse data = .error (.thrown error)) ∨
    ∃ root m, parse data = .ok (root, m) ∧ Lua51.parse data = .ok root ∧ m.pos = data.length ∧
      root.tree.map (·.id) = List.range root.tree.length ∧ root.parent = -1 ∧
      (∀ p ∈ root.tree, ∀ c ∈ p.children, c.parent = p.id) ∧ root.depth ≤ 128 ∧
      root.tree.length ≤ 100000 ∧ (root.tree.map (·.code.length)).sum ≤ 1000000 ∧
      (root.tree.map (·.constants.length)).sum ≤ 1000000 ∧
      (root.tree.map fun p => p.lines.length + p.locals.length + p.upvalues.length).sum ≤ 1000000 := by
  rcases parse_cases data with herror | ⟨root, m, hparse, hpos, hread, r, r', hr, hproto, hfollows⟩
  · exact .inl herror
  obtain ⟨hparent, hdepth, hcounted⟩ := parseProto_counted hproto
  obtain ⟨hinstructions, hconstants, hdebug, hprototypes⟩ := hfollows.budget
  have htotals : r'.totals = (root.tree.map Proto.charge).sum := by rw [hcounted.charges, hr, zero_add]
  rw [sum_charge] at htotals
  have hfirst : r.totalPrototypes = 0 := congrArg (·.2.2.2) hr
  have hids := hcounted.ids
  rw [hfirst, ← List.range_eq_range'] at hids
  refine .inr ⟨root, m, hparse, hread, hpos, hids, hparent, hcounted.parents, by omega, ?_, ?_, ?_, ?_⟩
  · have heq : r'.totalPrototypes = root.tree.length := congrArg (·.2.2.2) htotals
    rw [← heq, ← hfollows.prototypes]
    exact hprototypes
  · have heq : r'.totalInstructions = (root.tree.map (·.code.length)).sum := congrArg (·.1) htotals
    rw [← heq, ← hfollows.instructions]
    exact hinstructions
  · have heq : r'.totalConstants = (root.tree.map (·.constants.length)).sum :=
      congrArg (·.2.1) htotals
    rw [← heq, ← hfollows.constants]
    exact hconstants
  · have heq : r'.totalDebugEntries =
        (root.tree.map fun p => p.lines.length + p.locals.length + p.upvalues.length).sum :=
      congrArg (·.2.2.1) htotals
    rw [← heq, ← hfollows.debugEntries]
    exact hdebug

end ChunkReader

end ByteVeil.Lua51
