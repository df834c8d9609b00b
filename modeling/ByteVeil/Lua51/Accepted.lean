import ByteVeil.Fallible.Moves
import ByteVeil.Lua51.Layout

/-!
# What an accepted chunk guarantees

`Accepted p` says that `p` occurs in the tree of some chunk that `parse` accepts. Every such prototype
is `Valid`: its instructions carry their own index, are decoded from their word, and pass their
checks.
-/

namespace ByteVeil.Lua51

open Fallible

/-! ## Reading steps that succeed -/

theorem read_bind_ok {α β : Type} {x : Read α} {f : α → Read β} {r r' : Reader} {b : β} :
    (x >>= f) r = .ok (b, r') ↔ ∃ a s, x r = .ok (a, s) ∧ f a s = .ok (b, r') :=
  stateT_bind_ok

/-! ## Accepted prototypes -/

/-- What holds of every prototype of an accepted chunk. -/
structure Valid (p : Proto) : Prop where
  decoded : ∀ pc < p.size, Decoded pc (p.instr pc)
  checked : validateProtoData p = .ok ()
  managed : p.managedCapturedRegisters = managedRegisters p.maxstack p.code p.capturedRegisters

/-- A prototype of a chunk that `parse` accepts. -/
def Accepted (p : Proto) : Prop := ∃ data root, parse data = .ok root ∧ p ∈ root.tree

theorem Valid.checkInstr {p : Proto} (h : Valid p) {pc : ℕ} (hpc : pc < p.size) :
    checkInstr p (p.instr pc) = .ok () := by
  obtain ⟨⟨⟩, hforM, _⟩ := except_bind_ok.1 h.checked
  refine forM_ok hforM _ ?_
  unfold Proto.instr
  rw [List.getD_eq_getElem _ _ hpc]
  exact List.getElem_mem hpc

theorem finishProto_valid {p q : Proto} (hp : Coded p.code) (h : finishProto p = .ok q) :
    Valid q ∧ Arranged q ∧ q.children = p.children := by
  unfold finishProto at h
  obtain ⟨q', hq', h⟩ := except_bind_ok.1 h
  obtain ⟨⟨⟩, hchecked, h⟩ := except_bind_ok.1 h
  obtain rfl := Except.ok.inj h
  have hbindings := associateClosureCaptures_bindings (fun pc hpc => (hp.decoded pc hpc).2) hq'
  unfold associateClosureCaptures at hq'
  obtain ⟨s, hs, hret⟩ := except_bind_ok.1 hq'
  obtain rfl := Except.ok.inj hret
  have hbase : s.code.map Instr.base = p.code.map Instr.base := associateFrom_base hs
  have hlen : s.code.length = p.code.length := by simpa using congrArg List.length hbase
  refine ⟨⟨fun pc hpc => ?_, hchecked, rfl⟩, ⟨hp.extra.of_base hbase, hbindings⟩, rfl⟩
  have hpc' : pc < p.code.length := by
    rw [← hlen]
    exact hpc
  exact (hp.decoded pc hpc').1.of_base (getD_base hbase pc)

theorem lift_ok {α : Type} {x : Except String α} {r r' : Reader} {a : α} :
    (liftM x : Read α) r = .ok (a, r') ↔ x = .ok a ∧ r' = r := by
  cases x with
  | error e => simp [liftM, monadLift, MonadLift.monadLift, StateT.lift, bind, Except.bind]
  | ok b =>
    simp [liftM, monadLift, MonadLift.monadLift, StateT.lift, bind, Except.bind, pure, Except.pure]
    tauto

/-- Every value that `x` can read satisfies `P`. -/
def Yields {α : Type} (x : Read α) (P : α → Prop) : Prop := ∀ r a r', x r = .ok (a, r') → P a

theorem Yields.bind {α β : Type} {x : Read α} {f : α → Read β} {Q : α → Prop} {P : β → Prop}
    (hx : Yields x Q) (hf : ∀ a, Q a → Yields (f a) P) : Yields (x >>= f) P := by
  intro r b r' h
  obtain ⟨a, s, ha, hb⟩ := read_bind_ok.1 h
  exact hf a (hx r a s ha) s b r' hb

theorem Yields.skip {α β : Type} {x : Read α} {f : α → Read β} {P : β → Prop}
    (hf : ∀ a, Yields (f a) P) : Yields (x >>= f) P :=
  Yields.bind (Q := fun _ => True) (fun _ _ _ _ => trivial) fun a _ => hf a

theorem yields_pure {α : Type} {a : α} {P : α → Prop} (h : P a) : Yields (pure a) P := by
  intro r b r' hb
  have hpair : (Except.ok (a, r) : Except String (α × Reader)) = .ok (b, r') := hb
  obtain ⟨rfl, -⟩ := Prod.mk.inj (Except.ok.inj hpair)
  exact h

theorem yields_lift {α : Type} {x : Except String α} {P : α → Prop} (h : ∀ a, x = .ok a → P a) :
    Yields (liftM x) P :=
  fun _ a _ ha => h a (lift_ok.1 ha).1

theorem yields_many {α : Type} {item : Read α} {P : α → Prop} (hitem : Yields item P) (n : ℕ) :
    Yields (many n item) fun as => ∀ a ∈ as, P a := by
  unfold many
  induction n with
  | zero => exact yields_pure (by simp)
  | succ n ih =>
    rw [List.replicate_succ, List.mapM_cons]
    refine hitem.bind fun a ha => ?_
    refine ih.bind fun as has => ?_
    exact yields_pure (List.forall_mem_cons.2 ⟨ha, has⟩)

/-- The instructions of a prototype are decoded. -/
def Proto.IsDecoded (p : Proto) : Prop := ∀ pc < p.size, Decoded pc (p.instr pc)

theorem readCode_yields : Yields readCode Coded := by
  unfold readCode
  refine Yields.skip fun _ => Yields.skip fun _ => Yields.skip fun _ => Yields.skip fun _ => ?_
  exact Yields.skip fun _ => yields_lift fun code h => decodeCode_coded h

theorem readPrologue_yields (levels : ℕ) (parent : ℤ) :
    Yields (readPrologue levels parent) fun p => Coded p.code ∧ p.children = [] := by
  unfold readPrologue
  iterate 12 refine Yields.skip fun _ => ?_
  refine readCode_yields.bind fun code hcode => Yields.skip fun _ => ?_
  exact yields_pure ⟨hcode, rfl⟩

theorem readEpilogue_yields (p : Proto) :
    Yields (readEpilogue p) fun q => q.code = p.code ∧ q.children = p.children := by
  unfold readEpilogue
  iterate 3 refine Yields.skip fun _ => ?_
  exact yields_pure ⟨rfl, rfl⟩

/-- A prototype is valid with everything nested in it. -/
def DeepValid (p : Proto) : Prop := ∀ q ∈ p.tree, Valid q ∧ Arranged q

theorem parseProto_yields (levels : ℕ) (parent : ℤ) :
    Yields (parseProto levels parent) DeepValid := by
  induction levels generalizing parent with
  | zero =>
    intro r p r' h
    unfold parseProto at h
    obtain ⟨q, s, hq, _⟩ := read_bind_ok.1 h
    obtain ⟨_, _, hfail, _⟩ := read_bind_ok.1 hq
    simp [failIf, throw, throwThe, MonadExceptOf.throw, StateT.lift] at hfail
  | succ levels ih =>
    unfold parseProto
    refine (readPrologue_yields (levels + 1) parent).bind fun p hp => ?_
    refine Yields.skip fun np => Yields.skip fun _ => ?_
    refine (yields_many (ih p.id) np).bind fun children hchildren => ?_
    refine (readEpilogue_yields _).bind fun q hq => yields_lift fun p' hp' => ?_
    obtain ⟨hvalid, harranged, hsame⟩ := finishProto_valid (by rw [hq.1]; exact hp.1) hp'
    intro t ht
    rw [Proto.tree_eq, List.mem_cons, Proto.mem_trees, hsame, hq.2] at ht
    obtain rfl | ⟨child, hchild, ht⟩ := ht
    · exact ⟨hvalid, harranged⟩
    · exact hchildren child hchild t ht

/-- The main function of an accepted chunk is what `parseProto` reads behind the header. -/
theorem parse_run {data : List UInt8} {root : Proto} (h : parse data = .ok root) :
    ∃ r r', parseProto 129 (-1) r = .ok (root, r') := by
  unfold parse at h
  obtain ⟨⟨root', r'⟩, hrun, hret⟩ := except_bind_ok.1 h
  have hroot : root' = root := by
    dsimp only at hret
    split_ifs at hret with hrest
    · exact absurd hret (by simp [throw, throwThe, MonadExceptOf.throw, bind, Except.bind])
    · simpa [pure, Except.pure] using hret
  subst hroot
  obtain ⟨_, r, _, hproto⟩ := read_bind_ok.1 hrun
  exact ⟨r, r', hproto⟩

theorem Accepted.valid_arranged {p : Proto} (h : Accepted p) : Valid p ∧ Arranged p := by
  obtain ⟨data, root, hparse, hmem⟩ := h
  obtain ⟨r, r', hrun⟩ := parse_run hparse
  exact parseProto_yields _ _ _ _ _ hrun p hmem

theorem Accepted.valid {p : Proto} (h : Accepted p) : Valid p :=
  h.valid_arranged.1

theorem Accepted.arranged {p : Proto} (h : Accepted p) : Arranged p :=
  h.valid_arranged.2

/-! ## Small chunks -/

/-- Four bytes, the least significant first. -/
def word (n : ℕ) : List UInt8 :=
  [.ofNat n, .ofNat (n / 256), .ofNat (n / 65536), .ofNat (n / 16777216)]

/-- A function with the given code, constants and nested functions and no debug lists. -/
def functionBytes (nups params vararg maxstack : UInt8) (code : List ℕ)
    (constants children : List (List UInt8)) : List UInt8 :=
  word 0 ++ word 0 ++ word 0 ++ [nups, params, vararg, maxstack] ++
    word code.length ++ code.flatMap word ++ word constants.length ++ constants.flatten ++
    word children.length ++ children.flatten ++ word 0 ++ word 0 ++ word 0

/-- The header before a main function. -/
def chunkHeader : List UInt8 := [0x1b, 0x4c, 0x75, 0x61, 0x51, 0, 1, 4, 4, 4, 8, 0]

/-- The main function of a chunk. -/
def mainOf (data : List UInt8) : Proto :=
  match parse data with
  | .ok p => p
  | .error _ => default

theorem parse_mainOf {data : List UInt8} (h : (parse data).isOk = true) :
    parse data = .ok (mainOf data) := by
  unfold mainOf
  cases hparse : parse data with
  | error e =>
    rw [hparse] at h
    cases h
  | ok p => rfl

theorem accepted_mainOf {data : List UInt8} (h : (parse data).isOk = true) :
    Accepted (mainOf data) :=
  ⟨data, _, parse_mainOf h, by rw [Proto.tree_eq]; exact List.mem_cons_self ..⟩

end ByteVeil.Lua51
