import ByteVeil.Lua51.OpenMachine

/-!
# Calls as the dispatcher renders them

A method call and a chain of open results are executed by the machine one instruction after another,
and by the dispatcher's text in one expression.

1. Machines with several registers set.
2. A `SELF` with its call.
3. A chain of open results: the text has the values that the machine leaves from a register on, and
   the machines agree but for the registers from there on.
-/

namespace ByteVeil.Lua51

open Fallible

section Machines

variable {W : Type} {dead dead' : ℕ → Prop} {m n : Machine W}

/-! ## Registers that are set -/

theorem Agree.put_left (h : Agree dead m n) {r : ℕ} (hr : dead r) (v : Value) :
    Agree dead (m.set r v) n := h.set_left hr v

theorem Agree.sets_left (h : Agree dead m n) {rs : List ℕ} (hrs : ∀ r ∈ rs, dead r) (vs : List Value) :
    Agree dead (m.sets rs vs) n := by
  induction rs generalizing m vs with
  | nil => exact h
  | cons r rs ih =>
    exact ih (h.put_left (hrs r List.mem_cons_self) _) (fun s hs => hrs s (List.mem_cons_of_mem r hs)) _

theorem sets_regs_of_not_mem {rs : List ℕ} {r : ℕ} (h : r ∉ rs) (vs : List Value) (m : Machine W) :
    (m.sets rs vs).regs r = m.regs r := by
  induction rs generalizing m vs with
  | nil => rfl
  | cons s rs ih =>
    obtain ⟨hne, hrs⟩ := not_or.1 (mt List.mem_cons.2 h)
    rw [Machine.sets, ih hrs, Machine.set_regs, if_neg hne]

/-- What a range of registers holds when as many values have been put there. -/
theorem map_sets_range (a : ℕ) (vs : List Value) (m : Machine W) :
    (List.range' a vs.length).map (m.sets (List.range' a vs.length) vs).regs = vs := by
  induction vs generalizing a m with
  | nil => rfl
  | cons v vs ih =>
    rw [List.length_cons, List.range'_succ, Machine.sets, List.headD_cons, List.tail_cons,
      List.map_cons, ih]
    rw [sets_regs_of_not_mem (fun h => by have := (List.mem_range'_1.1 h).1; omega), Machine.set_regs,
      if_pos rfl]

theorem Agree.map_regs (h : Agree dead m n) {rs : List ℕ} (hrs : ∀ r ∈ rs, ¬dead r) :
    rs.map m.regs = rs.map n.regs :=
  List.map_congr_left fun r hr => agree_regs h (hrs r hr)

/-- An operation that ignores a register leaves it as it is. -/
theorem Ignores.keeps {α : Type} {r : ℕ} {x : Exec W α} (h : Ignores r x) {a : α}
    (hx : x.run m = some (a, n)) : n.regs r = m.regs r := by
  have hset : m.set r (m.regs r) = m := (registerLocation r).set_get m
  have hrun := h m (m.regs r)
  rw [hset, hx] at hrun
  have hn : n = n.set r (m.regs r) := congrArg Prod.snd (Option.some.inj hrun)
  rw [hn, Machine.set_regs, if_pos rfl]

end Machines

/-! ## Method calls -/

/-- A `SELF` and the call that it is rendered with. -/
theorem fusedAt_facts {p : Proto} {n : ℕ} (h : fusedAt p n = true) : ∃ name,
    (p.instr n).op = .SELF ∧ (p.instr (n + 1)).a = (p.instr n).a ∧ 2 ≤ (p.instr (n + 1)).b ∧
      methodName p (p.instr n) = some name := by
  simp only [fusedAt, colonMethodCall, Bool.and_eq_true, beq_iff_eq, decide_eq_true_iff] at h
  obtain ⟨name, hname⟩ := Option.isSome_iff_exists.1 h.1.1.1.1.1.2
  exact ⟨name, by tauto, by tauto, by tauto, hname⟩

section Method

variable {W : Type} {host : Host W} {p : Proto} {dead : ℕ → Prop} {m m' n : Machine W}

/-- A method call, as it is rendered. -/
def methodResults (host : Host W) (self call : Instr) (name : List UInt8) : Exec W (List Value) := do
  let object ← reg self.b
  let function ← host.index object (.string name)
  let arguments ← (List.range' (call.a + 2) (call.b - 2)).mapM reg
  host.call function (object :: arguments)

/-- The text's call has the results of the machine's; the machine keeps the function and the object. -/
theorem run_method {self call : Instr} {name : List UInt8} (hself : self.op = .SELF)
    (hname : methodName p self = some name) (ha : call.a = self.a) (hb : 2 ≤ call.b)
    (hhost : ∀ r, dead r ∨ r = self.a ∨ r = self.a + 1 → Unshared host r)
    (hobject : ¬dead self.b)
    (hargs : ∀ r, dead r → ¬(self.a + 2 ≤ r ∧ r < self.a + call.b)) (hagree : Agree dead m n)
    {top top' : ℕ} {x : Next × ℕ} {results : List Value} {m₁ : Machine W}
    (hlookup : (vmInstr host p self top).run m = some (x, m₁))
    (hcall : (vmCall host call top').run m₁ = some (results, m')) :
    ∃ n', (methodResults host self call name).run n = some (results, n') ∧
      Agree (fun r => dead r ∨ r = self.a ∨ r = self.a + 1) m' n' := by
  have hprivate : Private host.toRuntime (self.a + 1) :=
    ⟨(hhost _ (Or.inr (Or.inr rfl))).index, (hhost _ (Or.inr (Or.inr rfl))).call⟩
  rw [vmInstr_closed host p self (by rw [fixedOperands, hself]) top, StateT.run_bind,
    run_self_machine host.toRuntime hself hname hprivate] at hlookup
  cases hindex : (host.index (m.regs self.b) (.string name)).run m with
  | none =>
    rw [hindex] at hlookup
    cases hlookup
  | some y =>
    obtain ⟨f, k⟩ := y
    rw [hindex] at hlookup
    obtain ⟨-, rfl⟩ := Prod.mk.inj (Option.some.inj hlookup)
    obtain ⟨k', hk', hkk'⟩ := disregards_operation
      (fun r hr => (hhost r (Or.inl hr)).index (m.regs self.b) (.string name)) m n hagree f k hindex
    -- behind the lookup the machine holds the function and the object besides
    have hlooked : Agree (fun r => dead r ∨ r = self.a ∨ r = self.a + 1)
        ((k.set (self.a + 1) (m.regs self.b)).set self.a f) k' := by
      have hmore : Agree (fun r => dead r ∨ r = self.a ∨ r = self.a + 1) k k' :=
        hkk'.mono fun r hr => Or.inl hr
      exact (hmore.put_left (Or.inr (Or.inr rfl)) _).put_left (Or.inr (Or.inl rfl)) _
    have hrest : (List.range' (call.a + 2) (call.b - 2)).map
        ((k.set (self.a + 1) (m.regs self.b)).set self.a f).regs =
        (List.range' (call.a + 2) (call.b - 2)).map k'.regs := by
      refine hlooked.map_regs fun r hr hdead => ?_
      have hr := List.mem_range'_1.1 hr
      rcases hdead with hdead | rfl | rfl
      · exact hargs r hdead ⟨by omega, by omega⟩
      · omega
      · omega
    unfold vmCall at hcall
    rw [listLength_closed call (by omega), show call.b - 1 = call.b - 2 + 1 by omega,
      List.range'_succ, run_reg_bind, StateT.run_bind, run_mapM_reg] at hcall
    have hfunction : ((k.set (self.a + 1) (m.regs self.b)).set self.a f).regs call.a = f := by
      rw [ha, Machine.set_regs, if_pos rfl]
    have hobject' : ((k.set (self.a + 1) (m.regs self.b)).set self.a f).regs (call.a + 1) =
        n.regs self.b := by
      rw [ha, Machine.set_regs, if_neg (by omega), Machine.set_regs, if_pos rfl,
        agree_regs hagree hobject]
    rw [List.map_cons, hfunction, hobject', hrest] at hcall
    obtain ⟨n', hn', hagree'⟩ := disregards_operation (fun r hr => (hhost r hr).call f _) _ _ hlooked
      results m' hcall
    refine ⟨n', ?_, hagree'⟩
    rw [agree_regs hagree hobject] at hk'
    unfold methodResults
    rw [run_reg_bind, StateT.run_bind, hk']
    show ((List.range' (call.a + 2) (call.b - 2)).mapM reg >>= fun arguments =>
      host.call f (n.regs self.b :: arguments)).run k' = some (results, n')
    rw [StateT.run_bind, run_mapM_reg]
    exact hn'

end Method

/-! ## Chains of open results -/

/-- The text of the open result at a pc. -/
inductive OpenRun (p : Proto) : ℕ → OpenText → Prop
  | varargs {n : ℕ} : (p.instr n).op = .VARARG → (p.instr n).b = 0 → OpenRun p n (.varargs n)
  | call {n : ℕ} : (p.instr n).op = .CALL → (p.instr n).c = 0 → (p.instr n).b ≠ 0 →
      OpenRun p n (.call n (.register (p.instr n).a (p.instr n).pc)
        (renderedArgs p (p.instr n).a (p.instr n).b (p.instr n).pc dispatcherContext))
  | methodCall {n : ℕ} : (p.instr (n + 1)).op = .CALL → (p.instr (n + 1)).c = 0 →
      fusedAt p n = true → OpenRun p (n + 1)
        (.methodCall (n + 1) (colonMethodArguments p (p.instr (n + 1)) dispatcherContext))
  | openCall {n : ℕ} {tail : OpenText} : (p.instr (n + 1)).op = .CALL → (p.instr (n + 1)).c = 0 →
      (p.instr (n + 1)).b = 0 → (p.instr (n + 1)).a < (p.instr n).a → OpenRun p n tail →
      OpenRun p (n + 1) (.openCall (n + 1)
        (.register (p.instr (n + 1)).a (p.instr (n + 1)).pc)
        (renderedRange p ((p.instr (n + 1)).a + 1) (p.instr n).a (p.instr (n + 1)).pc
          dispatcherContext) tail)

section Chain

variable {W : Type} (host : Host W) (p : Proto)

/-- Several producers one after another, and the top of their open results. -/
def vmProducers : List ℕ → ℕ → Exec W ℕ
  | [], top => pure top
  | n :: ns, top => do
    let behind ← vmInstr host p (p.instr n) top
    vmProducers ns behind.2

theorem vmProducers_append (ns ns' : List ℕ) (top : ℕ) :
    vmProducers host p (ns ++ ns') top = vmProducers host p ns top >>= vmProducers host p ns' := by
  induction ns generalizing top with
  | nil => rw [List.nil_append, vmProducers, pure_bind]
  | cons n ns ih =>
    rw [List.cons_append, vmProducers, vmProducers, bind_assoc]
    exact bind_congr fun behind => ih behind.2

theorem vmProducers_singleton (n top : ℕ) :
    vmProducers host p [n] top = (do return (← vmInstr host p (p.instr n) top).2) := rfl

/-- A call that leaves open results. -/
theorem vmInstr_openCall {i : Instr} (hop : i.op = .CALL) (hc : i.c = 0) (top : ℕ) :
    vmInstr host p i top = vmCall host i top >>= putOpen i := by
  unfold vmInstr
  rw [hop]
  simp only [hc, if_true]

theorem run_putOpen (i : Instr) (values : List Value) (m : Machine W) : (putOpen i values).run m =
    some ((.goto (i.pc + 1), i.a + values.length), m.sets (List.range' i.a values.length) values) := by
  unfold putOpen
  rw [StateT.run_bind, run_setRegs]
  rfl

/-- The last producer of several, when it is a call. -/
theorem run_lastCall {n top top' : ℕ} {m m' : Machine W} (hop : (p.instr n).op = .CALL)
    (hc : (p.instr n).c = 0) (h : (vmProducers host p [n] top).run m = some (top', m')) :
    ∃ values k, (vmCall host (p.instr n) top).run m = some (values, k) ∧
      top' = (p.instr n).a + values.length ∧
      m' = k.sets (List.range' (p.instr n).a values.length) values := by
  rw [vmProducers_singleton, vmInstr_openCall host p hop hc] at h
  obtain ⟨x, k', hput, h⟩ := partial_bind_ok.1 h
  obtain ⟨values, k, hcall, hput⟩ := partial_bind_ok.1 hput
  rw [run_putOpen] at hput
  obtain ⟨rfl, rfl⟩ := Prod.mk.inj (Option.some.inj hput)
  obtain ⟨rfl, rfl⟩ := Prod.mk.inj (Option.some.inj h)
  exact ⟨values, k, hcall, rfl, rfl⟩

theorem renderedRange_eq (first stop pc : ℕ) : renderedRange p first stop pc dispatcherContext =
    (List.range' first (stop - first)).map fun r => .register r pc := rfl

theorem registers_renderedRange (first stop pc : ℕ) :
    (renderedRange p first stop pc dispatcherContext).flatMap Rendered.registers =
      List.range' first (stop - first) := by
  rw [renderedRange_eq, List.flatMap_map]
  exact List.flatMap_singleton' _

theorem mapM_renderedRange (first stop pc : ℕ) :
    (renderedRange p first stop pc dispatcherContext).mapM Rendered.eval =
      (List.range' first (stop - first)).mapM (reg (W := W)) := by
  rw [renderedRange_eq, List.mapM_map]
  rfl

/-- The machine holds the values from register `a` up to the top, and the other machine agrees with
it but for `dead` and the registers from `a` on. -/
structure HoldsFrom (dead : ℕ → Prop) (a top : ℕ) (values : List Value) (m n : Machine W) : Prop where
  top_eq : top = a + values.length
  values_eq : (List.range' a values.length).map m.regs = values
  agree : Agree (fun r => dead r ∨ a ≤ r) m n

theorem holdsFrom_put {dead dead' : ℕ → Prop} {a : ℕ} {m n : Machine W} (h : Agree dead' m n)
    (hdead : ∀ r, dead' r → dead r ∨ a ≤ r) (values : List Value) :
    HoldsFrom dead a (a + values.length) values (m.sets (List.range' a values.length) values) n :=
  ⟨rfl, map_sets_range a values m, Agree.sets_left (h.mono hdead)
    (fun _ hr => Or.inr (List.mem_range'_1.1 hr).1) values⟩

/-- The computation leaves the register as it is. -/
def Keeps {α : Type} (r : ℕ) (x : Exec W α) : Prop :=
  ∀ m a n, x.run m = some (a, n) → n.regs r = m.regs r

variable {host p}

theorem Keeps.bind {α β : Type} {r : ℕ} {x : Exec W α} {f : α → Exec W β} (hx : Keeps r x)
    (hf : ∀ a, Keeps r (f a)) : Keeps r (x >>= f) := by
  intro m b n hrun
  obtain ⟨a, k, ha, hb⟩ := partial_bind_ok.1 hrun
  rw [hf a k b n hb, hx m a k ha]

theorem keeps_rendered (r : ℕ) (v : Rendered) : Keeps r (v.eval (W := W)) := by
  intro m a n hrun
  cases v <;> cases hrun <;> rfl

theorem keeps_arguments (r : ℕ) (vs : List Rendered) :
    Keeps r (vs.mapM (Rendered.eval (W := W))) := by
  induction vs with
  | nil =>
    intro m a n hrun
    cases hrun
    rfl
  | cons v vs ih =>
    rw [List.mapM_cons]
    refine (keeps_rendered r v).bind fun a => ih.bind fun as => ?_
    intro m a n hrun
    cases hrun
    rfl

theorem Ignores.keepsAll {α : Type} {r : ℕ} {x : Exec W α} (h : Ignores r x) : Keeps r x :=
  fun _ _ _ hrun => h.keeps hrun

/-- The value of an open result is computed without a change to a register that is not shared. -/
theorem keeps_openText {r : ℕ} (hhost : Unshared host r) (t : OpenText) :
    Keeps r (t.eval host p) := by
  induction t with
  | varargs pc =>
    intro m a n hrun
    cases hrun
    rfl
  | call pc function arguments =>
    exact (keeps_rendered r function).bind fun f => (keeps_arguments r arguments).bind fun vs =>
      (hhost.call f vs).keepsAll
  | methodCall pc arguments =>
    refine Keeps.bind (x := reg _) (fun m a n hrun => ?_) fun o => ?_
    · cases hrun
      rfl
    · exact (hhost.index o _).keepsAll.bind fun f => (keeps_arguments r arguments).bind fun vs =>
        (hhost.call f _).keepsAll
  | openCall pc function arguments tail ih =>
    exact (keeps_rendered r function).bind fun f => (keeps_arguments r arguments).bind fun vs =>
      ih.bind fun rest => (hhost.call f _).keepsAll

/-- Registers that hold values from before are taken together with the open results. -/
theorem HoldsFrom.operands {dead : ℕ → Prop} {a top : ℕ} {values : List Value}
    {m q n : Machine W} (h : HoldsFrom dead a top values m q) (first : ℕ) (hfirst : first ≤ a)
    (hkept : ∀ r, first ≤ r → r < a → ¬dead r ∧ q.regs r = n.regs r) :
    (List.range' first (top - first)).map m.regs =
      (List.range' first (a - first)).map n.regs ++ values := by
  have hsplit : List.range' first (top - first) =
      List.range' first (a - first) ++ List.range' a values.length := by
    rw [h.top_eq, show a + values.length - first = (a - first) + values.length by omega,
      ← List.range'_append_1, show first + (a - first) = a by omega]
  rw [hsplit, List.map_append, h.values_eq]
  congr 1
  refine List.map_congr_left fun r hr => ?_
  have hr := List.mem_range'_1.1 hr
  obtain ⟨hdead, heq⟩ := hkept r hr.1 (by omega)
  rw [← heq]
  exact agree_regs h.agree fun hd => hd.elim hdead (by omega)

/-- The text of an open result has the values that the machine leaves from the producer's register
on, when the registers of the calls are not shared. -/
theorem OpenRun.run {n : ℕ} {t : OpenText} (h : OpenRun p n t) {dead : ℕ → Prop} {A : ℕ}
    (hhost : ∀ r, dead r ∨ A ≤ r → Unshared host r) (hA : ∀ x ∈ t.pcs, A ≤ (p.instr x).a)
    (hregs : ∀ r ∈ t.registers p, ¬dead r) {m m' q : Machine W} (hagree : Agree dead m q)
    {top top' : ℕ} (hvm : (vmProducers host p t.pcs top).run m = some (top', m')) :
    ∃ values q', (t.eval host p).run q = some (values, q') ∧
      HoldsFrom dead (p.instr n).a top' values m' q' := by
  induction h generalizing m m' q top top' with
  | @varargs n hop hb =>
    have hinstr : vmInstr host p (p.instr n) top = putOpen (p.instr n) host.varargs := by
      unfold vmInstr
      rw [hop]
      simp only [hb, if_true]
    rw [OpenText.pcs, vmProducers_singleton, hinstr, StateT.run_bind, run_putOpen] at hvm
    obtain ⟨rfl, rfl⟩ := Prod.mk.inj (Option.some.inj hvm)
    exact ⟨host.varargs, q, rfl, holdsFrom_put hagree (fun r hr => Or.inl hr) _⟩
  | @call n hop hc hb =>
    have hmem : ∀ r, dead r → ¬((p.instr n).a ≤ r ∧ r < (p.instr n).a + (p.instr n).b) := by
      rintro r hr ⟨hle, hlt⟩
      refine hregs r ?_ hr
      unfold OpenText.registers renderedArgs
      rw [registers_renderedRange, List.mem_append, List.mem_range'_1]
      rcases Nat.eq_or_lt_of_le hle with rfl | hgt
      · exact Or.inl (List.mem_singleton_self _)
      · exact Or.inr ⟨hgt, by omega⟩
    obtain ⟨values, k, hcall, rfl, rfl⟩ := run_lastCall host p hop hc hvm
    obtain ⟨q', hq', hagree'⟩ := disregards_vmCall (fun r hr => hhost r (Or.inl hr))
      (fun r hr => by
        rw [listLength_closed _ hb]
        exact fun hrange => hmem r hr ⟨hrange.1, by omega⟩) m q hagree values k hcall
    refine ⟨values, q', ?_, holdsFrom_put hagree' (fun r hr => Or.inl hr) _⟩
    unfold vmCall at hq'
    rw [listLength_closed _ hb] at hq'
    unfold OpenText.eval renderedArgs
    rw [mapM_renderedRange, show (p.instr n).a + (p.instr n).b - ((p.instr n).a + 1) =
      (p.instr n).b - 1 by omega]
    exact hq'
  | @methodCall n hop hc hfused =>
    obtain ⟨name, hself, ha, hb, hname⟩ := fusedAt_facts hfused
    have hpcs : (OpenText.methodCall (n + 1)
        (colonMethodArguments p (p.instr (n + 1)) dispatcherContext)).pcs = [n, n + 1] := rfl
    have hA' : A ≤ (p.instr n).a := ha ▸ hA (n + 1) (by rw [hpcs]; simp)
    have hregs' : ∀ r, r = (p.instr n).b ∨ ((p.instr n).a + 2 ≤ r ∧
        r < (p.instr n).a + (p.instr (n + 1)).b) → ¬dead r := by
      intro r hr
      apply hregs
      unfold OpenText.registers colonMethodArguments
      rw [registers_renderedRange, List.mem_cons, List.mem_range'_1, ha, Nat.add_sub_cancel]
      exact hr.imp_right fun hr => ⟨hr.1, by omega⟩
    rw [hpcs, vmProducers] at hvm
    obtain ⟨x, k, hlookup, hvm⟩ := partial_bind_ok.1 hvm
    obtain ⟨values, k', hcall, rfl, rfl⟩ := run_lastCall host p hop hc hvm
    obtain ⟨q', hq', hagree'⟩ := run_method hself hname ha hb
      (fun r hr => hhost r (hr.imp_right fun h => by omega)) (hregs' _ (Or.inl rfl))
      (fun r hr hrange => hregs' r (Or.inr hrange) hr) hagree hlookup hcall
    refine ⟨values, q', ?_, holdsFrom_put hagree' (fun r hr => hr.imp_right fun h => by omega) _⟩
    unfold OpenText.eval colonMethodArguments
    dsimp only
    rw [mapM_renderedRange, Nat.add_sub_cancel, hname, Option.getD_some,
      show (p.instr (n + 1)).a + (p.instr (n + 1)).b - ((p.instr (n + 1)).a + 2) =
        (p.instr (n + 1)).b - 2 by omega]
    exact hq'
  | @openCall n tail hop hc hb ha htail ih =>
    have hpcs : (OpenText.openCall (n + 1) (.register (p.instr (n + 1)).a (p.instr (n + 1)).pc)
        (renderedRange p ((p.instr (n + 1)).a + 1) (p.instr n).a (p.instr (n + 1)).pc
          dispatcherContext) tail).pcs = tail.pcs ++ [n + 1] := rfl
    rw [hpcs] at hvm hA
    rw [vmProducers_append] at hvm
    obtain ⟨top₁, m₁, htail₁, hvm⟩ := partial_bind_ok.1 hvm
    have hregs' : ∀ r, r = (p.instr (n + 1)).a ∨ ((p.instr (n + 1)).a + 1 ≤ r ∧ r < (p.instr n).a) ∨
        r ∈ tail.registers p → ¬dead r := by
      intro r hr
      apply hregs
      unfold OpenText.registers
      rw [registers_renderedRange, List.mem_append, List.mem_append, List.mem_range'_1]
      rcases hr with rfl | hr | hr
      · exact Or.inl (Or.inl (List.mem_singleton_self _))
      · exact Or.inl (Or.inr ⟨hr.1, by omega⟩)
      · exact Or.inr hr
    obtain ⟨rest, q₁, hrest, hholds⟩ := ih (fun x hx => hA x (List.mem_append_left _ hx))
      (fun r hr => hregs' r (Or.inr (Or.inr hr))) hagree htail₁
    have hA' : A ≤ (p.instr (n + 1)).a := hA (n + 1) (by simp)
    have hkept : ∀ r, (p.instr (n + 1)).a ≤ r → r < (p.instr n).a →
        ¬dead r ∧ q₁.regs r = q.regs r := by
      intro r hle hlt
      refine ⟨hregs' r ?_, keeps_openText (hhost r (Or.inr (by omega))) tail q rest q₁ hrest⟩
      rcases Nat.eq_or_lt_of_le hle with rfl | hgt
      · exact Or.inl rfl
      · exact Or.inr (Or.inl ⟨hgt, hlt⟩)
    have hfunction : m₁.regs (p.instr (n + 1)).a = q.regs (p.instr (n + 1)).a := by
      obtain ⟨hdead, heq⟩ := hkept _ le_rfl ha
      rw [← heq]
      exact agree_regs hholds.agree fun hd => hd.elim hdead (by omega)
    have hoperands := hholds.operands (n := q) ((p.instr (n + 1)).a + 1) ha
      fun r hle hlt => hkept r (by omega) hlt
    obtain ⟨values, k, hcall, rfl, rfl⟩ := run_lastCall host p hop hc hvm
    unfold vmCall listLength at hcall
    rw [if_pos hb, run_reg_bind, StateT.run_bind, run_mapM_reg, hoperands, hfunction] at hcall
    obtain ⟨q', hq', hagree'⟩ := disregards_operation
      (fun r hr => (hhost r (hr.imp_right fun h => by omega)).call _ _) m₁ q₁ hholds.agree values k
      hcall
    refine ⟨values, q', ?_, holdsFrom_put hagree' (fun r hr => hr.imp_right fun h => by omega) _⟩
    unfold OpenText.eval
    rw [mapM_renderedRange]
    show (reg (p.instr (n + 1)).a >>= fun f => (List.range' ((p.instr (n + 1)).a + 1)
      ((p.instr n).a - ((p.instr (n + 1)).a + 1))).mapM reg >>= fun values =>
        tail.eval host p >>= fun rest => host.call f (values ++ rest)).run q = some (values, q')
    rw [run_reg_bind, StateT.run_bind, run_mapM_reg]
    show (tail.eval host p >>= fun rest => host.call _ (_ ++ rest)).run q = some (values, q')
    rw [StateT.run_bind, hrest]
    exact hq'

/-- What is needed behind an instruction and not written there is needed in front of it. -/
theorem NeededAt.before (hp : p.IsDecoded) {x r : ℕ} (hx : IsExecutable p x)
    {written : ℕ → Option (FlowGraph.Source ℕ Constant)}
    (ho : outcomes p (p.instr x) = [⟨(p.instr x).pc + 1, written⟩]) (hw : written r = none)
    (h : NeededAt p r ((x : ℤ) + 1)) : NeededAt p r x := by
  refine .later hx (by rw [ho]; exact List.mem_singleton_self _) hw ?_
  rw [(hp x hx.lt).pc_eq]
  exact h

end Chain

end ByteVeil.Lua51
