import ByteVeil.Lua51.Accepted
import ByteVeil.Lua51.PcBlock

/-!
# Open results

A `CALL` with `C = 0` and a `VARARG` with `B = 0` leave a variable number of results to the next
instruction. Such a producer is rendered inside its consumer and left out where it stands.

1. Which producer a consumer takes, and the text it gets for it.
2. The producer is rendered exactly when every producer in front of it is, no producer writes below
   its consumer, and the nesting stays below the limit.
-/

namespace ByteVeil.Lua51

/-! ## Producers -/

/-- `openResultProducer`. -/
def openResultProducer (i : Instr) : Bool :=
  (i.op == .CALL && i.c == 0) || (i.op == .VARARG && i.b == 0)

/-- `openProducerFor`. -/
def openProducerFor (p : Proto) (consumer : Instr) : Option ℕ :=
  match consumer.openProducer with
  | none => none
  | some n =>
    if n + 1 ≠ consumer.pc then none
    else if hasControlEntryAt p consumer.pc then none
    else if openResultProducer (p.instr n) then some n else none

/-- `openProducerConsumedInRange`. -/
def openProducerConsumedInRange (p : Proto) (n stop : ℕ) : Bool :=
  let consumer := p.instr (n + 1)
  decide (n + 1 < stop) && decide (n + 1 < p.size) && openResultProducer (p.instr n) &&
    openProducerFor p consumer == some n && consumesOpenResults consumer.op && consumer.b == 0

/-! ## Texts -/

/-- The text of an open result; a call may end in an open result itself. -/
inductive OpenText
  | varargs (pc : ℕ)
  | call (pc : ℕ) (function : Rendered) (arguments : List Rendered)
  | methodCall (pc : ℕ) (arguments : List Rendered)
  | openCall (pc : ℕ) (function : Rendered) (arguments : List Rendered) (tail : OpenText)

/-- The instructions that a text runs, in the order in which Lua evaluates it. -/
def OpenText.pcs : OpenText → List ℕ
  | varargs pc => [pc]
  | call pc _ _ => [pc]
  | methodCall pc _ => [pc - 1, pc]
  | openCall pc _ _ tail => tail.pcs ++ [pc]

/-- The values of the registers from `first` up to `stop`. -/
def renderedRange (p : Proto) (first stop pc : ℕ) (context : RenderContext) : List Rendered :=
  (List.range' first (stop - first)).map fun r => renderedValueAt p r pc context

/-- `renderedArgs`. -/
def renderedArgs (p : Proto) (a b pc : ℕ) (context : RenderContext) : List Rendered :=
  renderedRange p (a + 1) (a + b) pc context

/-- `colonMethodArguments`. -/
def colonMethodArguments (p : Proto) (call : Instr) (context : RenderContext) : List Rendered :=
  renderedRange p (call.a + 2) (call.a + call.b) call.pc context

mutual

/-- `openProducerExpression`; the levels of nesting that are left are `33 - depth`. -/
def openProducerExpression (p : Proto) (context : RenderContext) : ℕ → ℕ → Option OpenText
  | 0, _ => none
  | levels + 1, n =>
    let producer := p.instr n
    let function := renderedValueAt p producer.a producer.pc context
    if p.size ≤ n then none
    else if producer.op = .VARARG ∧ producer.b = 0 then some (.varargs n)
    else if producer.op ≠ .CALL ∨ producer.c ≠ 0 then none
    else if 0 < n ∧ fusedAt p (n - 1) then
      some (.methodCall n (colonMethodArguments p producer context))
    else if producer.b = 0 then
      match renderedOpenArgs p context levels producer with
      | some (arguments, tail) => some (.openCall n function arguments tail)
      | none => none
    else some (.call n function (renderedArgs p producer.a producer.b producer.pc context))

/-- `renderedOpenArgs`: the arguments in front of the open result, and its text. -/
def renderedOpenArgs (p : Proto) (context : RenderContext) :
    ℕ → Instr → Option (List Rendered × OpenText)
  | 0, _ => none
  | levels + 1, consumer =>
    match openProducerFor p consumer with
    | none => none
    | some n =>
      if (p.instr n).a < consumer.a + 1 then none
      else
        match openProducerExpression p context levels n with
        | some tail =>
          some (renderedRange p (consumer.a + 1) (p.instr n).a consumer.pc context, tail)
        | none => none

end

/-- `renderedOpenReturnValues`. -/
def renderedOpenReturnValues (p : Proto) (context : RenderContext) (consumer : Instr) :
    Option (List Rendered × OpenText) :=
  match openProducerFor p consumer with
  | none => none
  | some n =>
    if (p.instr n).a < consumer.a then none
    else
      match openProducerExpression p context 33 n with
      | some tail => some (renderedRange p consumer.a (p.instr n).a consumer.pc context, tail)
      | none => none

/-- `emitOpenSetList`: the table's elements in front of the open result, how many of its values they
replace, and its text. -/
def emitOpenSetList (p : Proto) (context : RenderContext) (setlist : Instr) :
    Option (List Rendered × ℕ × OpenText) :=
  match openProducerFor p setlist with
  | none => none
  | some n =>
    match openProducerExpression p context 33 n with
    | some tail =>
      some (renderedRange p (setlist.a + 1) (max (setlist.a + 1) (p.instr n).a) setlist.pc context,
        setlist.a + 1 - (p.instr n).a, tail)
    | none => none

/-- The text of the open result that an instruction takes. -/
def openTail (p : Proto) (context : RenderContext) (i : Instr) : Option OpenText :=
  match i.op with
  | .CALL | .TAILCALL => (renderedOpenArgs p context 33 i).map fun text => text.2
  | .RETURN => (renderedOpenReturnValues p context i).map fun text => text.2
  | .SETLIST => (emitOpenSetList p context i).map fun text => text.2.2
  | _ => none

/-! ## Pending producers -/

/-- An instruction that `emitPcBlock` leaves to the next one. -/
def leftOut (p : Proto) (block : PcBlock) (pc : ℕ) : Bool :=
  openProducerConsumedInRange p pc block.stop || (decide (pc + 1 < block.stop) && fusedAt p pc)

/-- The instructions directly before `pc` that are left to it. -/
def pending (p : Proto) (block : PcBlock) : ℕ → List ℕ
  | 0 => []
  | n + 1 => if block.start ≤ n ∧ leftOut p block n then pending p block n ++ [n] else []

/-- How many open results in a row lead to `pc`. -/
def openDepth (p : Proto) (block : PcBlock) : ℕ → ℕ
  | 0 => 0
  | n + 1 =>
    if block.start ≤ n ∧ openProducerConsumedInRange p n block.stop then openDepth p block n + 1
    else 0

/-- A producer left to its consumer takes no operands from outside the block. -/
structure Enclosed (p : Proto) (block : PcBlock) (n : ℕ) : Prop where
  open_args : (p.instr n).op = .CALL → (p.instr n).b = 0 →
    block.start < n ∧ openProducerConsumedInRange p (n - 1) block.stop = true
  method : 0 < n → fusedAt p (n - 1) = true → block.start < n

instance (p : Proto) (block : PcBlock) (n : ℕ) : Decidable (Enclosed p block n) :=
  decidable_of_iff (((p.instr n).op = .CALL → (p.instr n).b = 0 →
      block.start < n ∧ openProducerConsumedInRange p (n - 1) block.stop = true) ∧
    (0 < n → fusedAt p (n - 1) = true → block.start < n))
    ⟨fun h => ⟨h.1, h.2⟩, fun h => ⟨h.open_args, h.method⟩⟩

/-- The registers between a consumer's first operand and the open result can be listed. -/
def StartsBelow (consumer producer : Instr) : Prop :=
  match consumer.op with
  | .CALL | .TAILCALL => consumer.a < producer.a
  | .RETURN => consumer.a ≤ producer.a
  | _ => True

instance (consumer producer : Instr) : Decidable (StartsBelow consumer producer) :=
  decidable_of_iff (((consumer.op = .CALL ∨ consumer.op = .TAILCALL) → consumer.a < producer.a) ∧
    (consumer.op = .RETURN → consumer.a ≤ producer.a)) <| by
    unfold StartsBelow
    split <;> simp_all

instance (consumer producer : Instr) : Decidable (StartsBelow consumer producer) :=
  decidable_of_iff (((consumer.op = .CALL ∨ consumer.op = .TAILCALL) → consumer.a < producer.a) ∧
    (consumer.op = .RETURN → consumer.a ≤ producer.a)) <| by
    unfold StartsBelow
    split <;> simp_all

/-- How many open results in a row the renderer follows. -/
def openLimit : Op → ℕ
  | .CALL | .TAILCALL => 16
  | _ => 17

/-- The chain of open results up to the one at `n` is rendered in registers above each other. -/
def Resolved (p : Proto) (block : PcBlock) : ℕ → Prop
  | 0 => Enclosed p block 0
  | n + 1 => Enclosed p block (n + 1) ∧ ((p.instr (n + 1)).op = .CALL → (p.instr (n + 1)).b = 0 →
      (p.instr (n + 1)).a < (p.instr n).a ∧ Resolved p block n)

theorem consumed_iff {p : Proto} {n stop : ℕ} : openProducerConsumedInRange p n stop = true ↔
    n + 1 < stop ∧ n + 1 < p.size ∧ openResultProducer (p.instr n) = true ∧
      openProducerFor p (p.instr (n + 1)) = some n ∧
      consumesOpenResults (p.instr (n + 1)).op = true ∧ (p.instr (n + 1)).b = 0 := by
  simp [openProducerConsumedInRange, and_assoc]

theorem openProducerFor_some {p : Proto} {consumer : Instr} {n : ℕ}
    (h : openProducerFor p consumer = some n) :
    n + 1 = consumer.pc ∧ openResultProducer (p.instr n) = true := by
  unfold openProducerFor at h
  split at h
  · cases h
  · split_ifs at h with hpc hentry hproducer
    obtain rfl := Option.some.inj h
    exact ⟨not_not.1 hpc, hproducer⟩

theorem openResultProducer_cases {i : Instr} (h : openResultProducer i = true) :
    (i.op = .CALL ∧ i.c = 0) ∨ (i.op = .VARARG ∧ i.b = 0) := by
  simpa [openResultProducer] using h

section Pending

variable {p : Proto} {block : PcBlock}

theorem lt_of_mem_pending {pc n : ℕ} (h : n ∈ pending p block pc) :
    block.start ≤ n ∧ n < pc ∧ leftOut p block n = true := by
  induction pc with
  | zero => cases h
  | succ pc ih =>
    unfold pending at h
    split_ifs at h with hleft
    · rcases List.mem_append.1 h with h | h
      · obtain ⟨hstart, hlt, hout⟩ := ih h
        exact ⟨hstart, by omega, hout⟩
      · obtain rfl := List.mem_singleton.1 h
        exact ⟨hleft.1, by omega, hleft.2⟩
    · cases h

theorem pending_succ {n : ℕ} (hstart : block.start ≤ n) (h : leftOut p block n = true) :
    pending p block (n + 1) = pending p block n ++ [n] :=
  if_pos ⟨hstart, h⟩

theorem pending_of_not {n : ℕ} (h : block.start ≤ n → leftOut p block n = false) :
    pending p block (n + 1) = [] := by
  refine if_neg ?_
  rintro ⟨hstart, hout⟩
  rw [h hstart] at hout
  cases hout

theorem pending_start : pending p block block.start = [] := by
  rw [List.eq_nil_iff_forall_not_mem]
  intro n hn
  obtain ⟨hle, hlt, -⟩ := lt_of_mem_pending hn
  omega

/-- What is left out is an open result or the `SELF` of a method call. -/
theorem leftOut_iff {n : ℕ} : leftOut p block n = true ↔
    openProducerConsumedInRange p n block.stop = true ∨
      (n + 1 < block.stop ∧ fusedAt p n = true) := by
  simp [leftOut]

/-- The ops of a method call's two instructions. -/
theorem fusedAt_cases {n : ℕ} (h : fusedAt p n = true) : (p.instr n).op = .SELF ∧
    ((p.instr (n + 1)).op = .CALL ∨ (p.instr (n + 1)).op = .TAILCALL) ∧
      2 ≤ (p.instr (n + 1)).b := by
  simp only [fusedAt, colonMethodCall, Bool.and_eq_true, Bool.or_eq_true, beq_iff_eq,
    decide_eq_true_eq] at h
  tauto

/-- Nothing is left to an instruction that takes neither an open result nor a method. -/
theorem pending_eq_nil {n : ℕ} (hopen : consumesOpenResults (p.instr (n + 1)).op = true →
    (p.instr (n + 1)).b ≠ 0) (hmethod : fusedAt p n = false) : pending p block (n + 1) = [] := by
  refine pending_of_not fun _ => ?_
  rw [← Bool.not_eq_true, leftOut_iff]
  rintro (h | h)
  · obtain ⟨-, -, -, -, hop, hb⟩ := consumed_iff.1 h
    exact hopen hop hb
  · rw [hmethod] at h
    cases h.2

theorem openDepth_eq_zero {n : ℕ} (hopen : consumesOpenResults (p.instr n).op = true →
    (p.instr n).b ≠ 0) : openDepth p block n = 0 := by
  cases n with
  | zero => rfl
  | succ n =>
    refine if_neg ?_
    rintro ⟨-, h⟩
    obtain ⟨-, -, -, -, hop, hb⟩ := consumed_iff.1 h
    exact hopen hop hb

theorem Resolved.enclosed {n : ℕ} (h : Resolved p block n) : Enclosed p block n := by
  cases n with
  | zero => exact h
  | succ n => exact h.1

theorem openText_pcs_ne_nil (t : OpenText) : t.pcs ≠ [] := by
  cases t <;> simp [OpenText.pcs]

/-- A producer with operands of its own number is rendered alone. -/
theorem pending_of_closed {n : ℕ} (hself : fusedAt p (n - 1) = false ∨ n = 0)
    (hop : consumesOpenResults (p.instr n).op = true → (p.instr n).b ≠ 0) :
    pending p block n = [] := by
  cases n with
  | zero => rfl
  | succ n => exact pending_eq_nil hop (hself.resolve_right (Nat.succ_ne_zero n))

/-- A method call is rendered with its `SELF`, and nothing is left to that. -/
theorem pending_method {n : ℕ} (h : fusedAt p n = true) (hlt : n + 1 < block.stop) :
    pending p block (n + 1) = if block.start ≤ n then [n] else [] := by
  obtain ⟨hself, -, -⟩ := fusedAt_cases h
  have hnil : pending p block n = [] := by
    refine pending_of_closed ?_ fun hop => by rw [hself] at hop; cases hop
    cases n with
    | zero => exact Or.inr rfl
    | succ n =>
      refine Or.inl (Bool.eq_false_iff.2 fun hfused => ?_)
      obtain ⟨-, hcall, -⟩ := fusedAt_cases hfused
      rw [Nat.add_sub_cancel] at hcall
      rw [hself] at hcall
      rcases hcall with h | h <;> cases h
  have hout : leftOut p block n = true := leftOut_iff.2 (Or.inr ⟨hlt, h⟩)
  split_ifs with hstart
  · rw [pending_succ hstart hout, hnil]
    rfl
  · exact pending_of_not fun hle => absurd hle hstart

theorem resolved_iff_of_closed {n : ℕ} (h : (p.instr n).op = .CALL → (p.instr n).b ≠ 0) :
    Resolved p block n ↔ Enclosed p block n := by
  cases n with
  | zero => exact Iff.rfl
  | succ n => exact ⟨fun hr => hr.1, fun he => ⟨he, fun hop hb => absurd hb (h hop)⟩⟩

theorem not_fused_before {n : ℕ} (hn : 0 < n → fusedAt p (n - 1) = false) :
    fusedAt p (n - 1) = false ∨ n = 0 := by
  rcases Nat.eq_zero_or_pos n with h | h
  · exact Or.inr h
  · exact Or.inl (hn h)

/-- A producer without open operands and without a method is rendered alone. -/
theorem alone_iff {n levels : ℕ} {t : OpenText} (ht : t.pcs = [n])
    (hmethod : 0 < n → fusedAt p (n - 1) = false)
    (hopen : consumesOpenResults (p.instr n).op = true → (p.instr n).b ≠ 0) :
    (∃ u, some t = some u ∧ u.pcs = pending p block n ++ [n]) ↔
      Resolved p block n ∧ 2 * openDepth p block n + 1 ≤ levels + 1 := by
  have hcall : (p.instr n).op = .CALL → (p.instr n).b ≠ 0 := fun hop => hopen (by rw [hop]; rfl)
  rw [pending_of_closed (not_fused_before hmethod) hopen, openDepth_eq_zero hopen,
    resolved_iff_of_closed hcall]
  refine iff_of_true ⟨t, rfl, ht⟩ ⟨⟨fun hop hb => absurd hb (hcall hop), fun hpos h => ?_⟩, by omega⟩
  rw [hmethod hpos] at h
  cases h

/-- The chain of open results that leads to the consumer at `c` is rendered in its registers. -/
structure Fed (p : Proto) (block : PcBlock) (c : ℕ) : Prop where
  inside : block.start < c
  consumed : openProducerConsumedInRange p (c - 1) block.stop = true
  resolved : Resolved p block (c - 1)

/-- A call's open arguments are rendered exactly when their chain is. -/
theorem renderedOpenArgs_pcs (context : RenderContext) {c : ℕ} (levels : ℕ)
    (hpc : (p.instr c).pc = c) (hstop : c < block.stop) (hsize : c < p.size)
    (hop : consumesOpenResults (p.instr c).op = true) (hb : (p.instr c).b = 0)
    (ih : ∀ m levels, m + 1 = c → block.start ≤ m →
      openProducerConsumedInRange p m block.stop = true →
      ((∃ t, openProducerExpression p context levels m = some t ∧
        t.pcs = pending p block m ++ [m]) ↔
        Resolved p block m ∧ 2 * openDepth p block m + 1 ≤ levels)) :
    (∃ arguments tail, renderedOpenArgs p context levels (p.instr c) = some (arguments, tail) ∧
      tail.pcs = pending p block c) ↔
      Fed p block c ∧ (p.instr c).a < (p.instr (c - 1)).a ∧ 2 * openDepth p block c ≤ levels := by
  cases levels with
  | zero =>
    refine iff_of_false (by simp [renderedOpenArgs]) ?_
    rintro ⟨⟨hinside, hconsumed, -⟩, -, hdepth⟩
    obtain ⟨m, rfl⟩ : ∃ m, c = m + 1 := ⟨c - 1, by omega⟩
    rw [openDepth, if_pos ⟨by omega, hconsumed⟩] at hdepth
    omega
  | succ levels =>
  unfold renderedOpenArgs
  cases hfor : openProducerFor p (p.instr c) with
  | none =>
    refine iff_of_false (by simp) ?_
    rintro ⟨⟨hinside, hconsumed, -⟩, -⟩
    have hsome := (consumed_iff.1 hconsumed).2.2.2.1
    rw [Nat.sub_add_cancel (by omega), hfor] at hsome
    cases hsome
  | some m =>
  obtain ⟨hm, hproducer⟩ := openProducerFor_some hfor
  rw [hpc] at hm
  subst hm
  have hconsumed : openProducerConsumedInRange p m block.stop = true :=
    consumed_iff.2 ⟨hstop, hsize, hproducer, hfor, hop, hb⟩
  dsimp only
  rw [Nat.add_sub_cancel]
  by_cases hinside : block.start ≤ m
  · have hout : leftOut p block m = true := leftOut_iff.2 (Or.inl hconsumed)
    have hdepth : openDepth p block (m + 1) = openDepth p block m + 1 :=
      if_pos ⟨hinside, hconsumed⟩
    rw [pending_succ hinside hout, hdepth]
    have hexpr := ih m levels rfl hinside hconsumed
    by_cases ha : (p.instr m).a < (p.instr (m + 1)).a + 1
    · rw [if_pos ha]
      refine iff_of_false (by simp) fun h => ?_
      have := h.2.1
      omega
    rw [if_neg ha]
    constructor
    · rintro ⟨arguments, tail, htail, hpcs⟩
      cases ht : openProducerExpression p context levels m with
      | none =>
        rw [ht] at htail
        cases htail
      | some t =>
        rw [ht] at htail
        obtain ⟨-, rfl⟩ := Prod.mk.inj (Option.some.inj htail)
        obtain ⟨hresolved, hlevels⟩ := hexpr.1 ⟨t, ht, hpcs⟩
        exact ⟨⟨by omega, hconsumed, hresolved⟩, by omega, by omega⟩
    · rintro ⟨hfed, -, hlevels⟩
      obtain ⟨t, ht, hpcs⟩ := hexpr.2 ⟨hfed.resolved, by omega⟩
      rw [ht]
      exact ⟨_, t, rfl, hpcs⟩
  · rw [pending_of_not fun hle => absurd hle hinside]
    refine iff_of_false ?_ fun h => absurd h.1.inside (by omega)
    rintro ⟨arguments, tail, -, hpcs⟩
    exact openText_pcs_ne_nil tail hpcs

/-- The text of a producer runs what was left to it exactly when its chain is resolved and the levels
of nesting suffice. -/
theorem openProducerExpression_pcs (hp : p.IsDecoded) (context : RenderContext) {n : ℕ} (levels : ℕ)
    (hstart : block.start ≤ n) (hn : openProducerConsumedInRange p n block.stop = true) :
    (∃ t, openProducerExpression p context levels n = some t ∧
      t.pcs = pending p block n ++ [n]) ↔
      Resolved p block n ∧ 2 * openDepth p block n + 1 ≤ levels := by
  induction n using Nat.strong_induction_on generalizing levels with
  | _ n ih =>
  obtain ⟨hstop, hsize, hproducer, -⟩ := consumed_iff.1 hn
  have hpc := (hp n (by omega)).pc_eq
  cases levels with
  | zero => simp [openProducerExpression]
  | succ levels =>
  unfold openProducerExpression
  dsimp only
  rw [if_neg (by omega)]
  rcases openResultProducer_cases hproducer with ⟨hop, hc⟩ | ⟨hop, hb⟩
  · rw [if_neg (by simp [hop]), if_neg (by simp [hop, hc])]
    by_cases hmethod : 0 < n ∧ fusedAt p (n - 1) = true
    · -- the text is a method call: its `SELF` must be in the block
      obtain ⟨m, rfl⟩ : ∃ m, n = m + 1 := ⟨n - 1, by omega⟩
      have hfused : fusedAt p m = true := hmethod.2
      have hb : (p.instr (m + 1)).b ≠ 0 := by
        have := (fusedAt_cases hfused).2.2
        omega
      rw [if_pos hmethod, pending_method hfused (by omega), openDepth_eq_zero fun _ => hb,
        resolved_iff_of_closed fun _ => hb]
      constructor
      · rintro ⟨t, ht, hpcs⟩
        obtain rfl := Option.some.inj ht
        refine ⟨⟨fun _ hzero => absurd hzero hb, fun _ _ => ?_⟩, by omega⟩
        by_contra hlt
        rw [if_neg (by omega)] at hpcs
        cases hpcs
      · rintro ⟨henclosed, -⟩
        have hlt := henclosed.method hmethod.1 hmethod.2
        rw [if_pos (by omega)]
        exact ⟨_, rfl, rfl⟩
    · rw [if_neg hmethod]
      have hnone : 0 < n → fusedAt p (n - 1) = false := fun hpos =>
        Bool.eq_false_iff.2 fun h => hmethod ⟨hpos, h⟩
      by_cases hb : (p.instr n).b = 0
      · rw [if_pos hb]
        have hargs := renderedOpenArgs_pcs context levels hpc (by omega) (by omega)
          (by rw [hop]; rfl) hb fun m levels hm => ih m (by omega) levels
        constructor
        · rintro ⟨t, ht, hpcs⟩
          cases hrendered : renderedOpenArgs p context levels (p.instr n) with
          | none =>
            rw [hrendered] at ht
            cases ht
          | some text =>
            rw [hrendered] at ht
            obtain rfl := Option.some.inj ht
            have htail : text.2.pcs = pending p block n := List.append_cancel_right hpcs
            obtain ⟨hfed, ha, hdepth⟩ := hargs.1 ⟨text.1, text.2, hrendered, htail⟩
            obtain ⟨m, rfl⟩ : ∃ m, n = m + 1 := ⟨n - 1, by have := hfed.inside; omega⟩
            exact ⟨⟨⟨fun _ _ => ⟨hfed.inside, hfed.consumed⟩, fun hpos h => by
              rw [hnone hpos] at h; cases h⟩, fun _ _ => ⟨ha, hfed.resolved⟩⟩, by omega⟩
        · rintro ⟨hresolved, hdepth⟩
          obtain ⟨hinside, hconsumed⟩ := hresolved.enclosed.open_args hop hb
          obtain ⟨m, rfl⟩ : ∃ m, n = m + 1 := ⟨n - 1, by omega⟩
          obtain ⟨ha, hr⟩ := hresolved.2 hop hb
          obtain ⟨arguments, tail, hrendered, htail⟩ :=
            hargs.2 ⟨⟨hinside, hconsumed, hr⟩, ha, by omega⟩
          rw [hrendered]
          exact ⟨_, rfl, congrArg (· ++ [m + 1]) htail⟩
      · rw [if_neg hb]
        exact alone_iff rfl hnone fun _ => hb
  · rw [if_pos ⟨hop, hb⟩]
    refine alone_iff rfl (fun hpos => Bool.eq_false_iff.2 fun h => ?_) fun h => ?_
    · obtain ⟨-, hcall, -⟩ := fusedAt_cases h
      rw [Nat.sub_add_cancel hpos, hop] at hcall
      rcases hcall with h | h <;> cases h
    · rw [hop] at h
      cases h

theorem openDepth_of_fed {c : ℕ} (h : Fed p block c) :
    openDepth p block c = openDepth p block (c - 1) + 1 := by
  have hinside := h.inside
  obtain ⟨m, rfl⟩ : ∃ m, c = m + 1 := ⟨c - 1, by omega⟩
  exact if_pos ⟨by omega, h.consumed⟩

/-- The open result in front of a consumer, and what its text runs. -/
theorem producer_pcs (hp : p.IsDecoded) (context : RenderContext) {c : ℕ} (hstop : c < block.stop)
    (hsize : c < p.size) (hop : consumesOpenResults (p.instr c).op = true)
    (hb : (p.instr c).b = 0) :
    (∃ m t, openProducerFor p (p.instr c) = some m ∧
      openProducerExpression p context 33 m = some t ∧ t.pcs = pending p block c) ↔
      Fed p block c ∧ openDepth p block c ≤ 17 := by
  constructor
  · rintro ⟨m, t, hfor, ht, hpcs⟩
    obtain ⟨hm, hproducer⟩ := openProducerFor_some hfor
    rw [(hp c hsize).pc_eq] at hm
    subst hm
    have hconsumed : openProducerConsumedInRange p m block.stop = true :=
      consumed_iff.2 ⟨hstop, hsize, hproducer, hfor, hop, hb⟩
    by_cases hinside : block.start ≤ m
    · rw [pending_succ hinside (leftOut_iff.2 (Or.inl hconsumed))] at hpcs
      obtain ⟨hresolved, hdepth⟩ :=
        (openProducerExpression_pcs hp context 33 hinside hconsumed).1 ⟨t, ht, hpcs⟩
      have hfed : Fed p block (m + 1) := ⟨by omega, hconsumed, hresolved⟩
      rw [openDepth_of_fed hfed, Nat.add_sub_cancel]
      exact ⟨hfed, by omega⟩
    · rw [pending_of_not fun hle => absurd hle hinside] at hpcs
      exact absurd hpcs (openText_pcs_ne_nil t)
  · rintro ⟨hfed, hdepth⟩
    rw [openDepth_of_fed hfed] at hdepth
    obtain ⟨hinside, hconsumed, hresolved⟩ := hfed
    obtain ⟨m, rfl⟩ : ∃ m, c = m + 1 := ⟨c - 1, by omega⟩
    rw [Nat.add_sub_cancel] at hconsumed hresolved hdepth
    obtain ⟨t, ht, hpcs⟩ := (openProducerExpression_pcs hp context 33 (by omega) hconsumed).2 ⟨hresolved, by omega⟩
    refine ⟨m, t, (consumed_iff.1 hconsumed).2.2.2.1, ht, ?_⟩
    rw [hpcs, pending_succ (by omega) (leftOut_iff.2 (Or.inl hconsumed))]

/-- A consumer runs what was left to it exactly when its chain of open results is rendered. -/
theorem openTail_pcs (hp : p.IsDecoded) (context : RenderContext) {c : ℕ} (hstop : c < block.stop)
    (hsize : c < p.size) (hop : consumesOpenResults (p.instr c).op = true)
    (hb : (p.instr c).b = 0) :
    (∃ t, openTail p context (p.instr c) = some t ∧ t.pcs = pending p block c) ↔
      Fed p block c ∧ StartsBelow (p.instr c) (p.instr (c - 1)) ∧
        openDepth p block c ≤ openLimit (p.instr c).op := by
  have hcall := renderedOpenArgs_pcs context 33 (hp c hsize).pc_eq hstop hsize hop hb
    fun m levels _ hstart hm => openProducerExpression_pcs hp context levels hstart hm
  have hother := producer_pcs hp context hstop hsize hop hb
  have hbefore {m : ℕ} (h : openProducerFor p (p.instr c) = some m) : m = c - 1 := by
    have := (openProducerFor_some h).1
    rw [(hp c hsize).pc_eq] at this
    omega
  unfold openTail StartsBelow openLimit
  cases hkind : (p.instr c).op <;> rw [hkind] at hop <;> try cases hop
  case CALL | TAILCALL =>
    dsimp only
    rw [show openDepth p block c ≤ 16 ↔ 2 * openDepth p block c ≤ 33 by omega, ← hcall]
    simp only [Option.map_eq_some_iff, Prod.exists, exists_eq_right]
    constructor
    · rintro ⟨t, ⟨arguments, ht⟩, hpcs⟩
      exact ⟨arguments, t, ht, hpcs⟩
    · rintro ⟨arguments, t, ht, hpcs⟩
      exact ⟨t, ⟨arguments, ht⟩, hpcs⟩
  case RETURN =>
    dsimp only
    rw [and_left_comm, ← hother]
    unfold renderedOpenReturnValues
    cases hfor : openProducerFor p (p.instr c) with
    | none => simp
    | some m =>
      dsimp only
      rw [← hbefore hfor]
      by_cases ha : (p.instr m).a < (p.instr c).a
      · simp [ha]
      · rw [if_neg ha]
        cases ht : openProducerExpression p context 33 m <;> simp [ht, not_lt.1 ha]
  case SETLIST =>
    dsimp only
    rw [true_and, ← hother]
    unfold emitOpenSetList
    cases hfor : openProducerFor p (p.instr c) with
    | none => simp
    | some m =>
      dsimp only
      cases ht : openProducerExpression p context 33 m <;> simp [ht]

/-- Only instructions that are left out are run inside another one. -/
theorem openProducerExpression_leftOut (hp : p.IsDecoded) (context : RenderContext)
    {levels n : ℕ} {t : OpenText} (hn : openProducerConsumedInRange p n block.stop = true)
    (ht : openProducerExpression p context levels n = some t) :
    ∀ x ∈ t.pcs, x ≤ n ∧ leftOut p block x = true := by
  have hself : leftOut p block n = true := leftOut_iff.2 (Or.inl hn)
  obtain ⟨hstop, hsize, -⟩ := consumed_iff.1 hn
  induction n using Nat.strong_induction_on generalizing levels t with
  | _ n ih =>
  cases levels with
  | zero => simp [openProducerExpression] at ht
  | succ levels =>
  unfold openProducerExpression at ht
  dsimp only at ht
  split_ifs at ht with h₁ h₂ h₃ h₄ h₅
  · obtain rfl := Option.some.inj ht
    exact List.forall_mem_singleton.2 ⟨le_rfl, hself⟩
  · obtain rfl := Option.some.inj ht
    refine List.forall_mem_cons.2 ⟨⟨Nat.sub_le n 1, leftOut_iff.2 (Or.inr ⟨by omega, h₄.2⟩)⟩, ?_⟩
    exact List.forall_mem_singleton.2 ⟨le_rfl, hself⟩
  · split at ht
    case h_2 => cases ht
    case h_1 arguments tail hargs =>
    obtain rfl := Option.some.inj ht
    refine List.forall_mem_append.2 ⟨?_, List.forall_mem_singleton.2 ⟨le_rfl, hself⟩⟩
    cases levels with
    | zero => simp [renderedOpenArgs] at hargs
    | succ levels =>
    unfold renderedOpenArgs at hargs
    split at hargs
    case h_1 => cases hargs
    case h_2 m hfor =>
    obtain ⟨hm, hproducer⟩ := openProducerFor_some hfor
    rw [(hp n (by omega)).pc_eq] at hm
    subst hm
    have hcall : (p.instr (m + 1)).op = .CALL := (not_or.1 h₃).1 |> not_not.1
    have hconsumed : openProducerConsumedInRange p m block.stop = true :=
      consumed_iff.2 ⟨by omega, by omega, hproducer, hfor, by rw [hcall]; rfl, h₅⟩
    split_ifs at hargs
    split at hargs
    case h_2 => cases hargs
    case h_1 tail' htail =>
    obtain ⟨-, rfl⟩ := Prod.mk.inj (Option.some.inj hargs)
    intro x hx
    obtain ⟨hle, hout⟩ := ih m (by omega) hconsumed htail (leftOut_iff.2 (Or.inl hconsumed))
      (by omega) (by omega) x hx
    exact ⟨by omega, hout⟩
  · obtain rfl := Option.some.inj ht
    exact List.forall_mem_singleton.2 ⟨le_rfl, hself⟩

theorem openTail_some {context : RenderContext} {i : Instr} {t : OpenText}
    (h : openTail p context i = some t) : ∃ m levels, openProducerFor p i = some m ∧
      openProducerExpression p context levels m = some t := by
  unfold openTail at h
  split at h
  case h_1 | h_2 =>
    obtain ⟨text, htext, rfl⟩ := Option.map_eq_some_iff.1 h
    unfold renderedOpenArgs at htext
    split at htext
    case h_1 => cases htext
    case h_2 m hfor =>
    split_ifs at htext
    split at htext
    case h_2 => cases htext
    case h_1 tail htail =>
    obtain rfl := Option.some.inj htext
    exact ⟨m, 32, hfor, htail⟩
  case h_3 =>
    obtain ⟨text, htext, rfl⟩ := Option.map_eq_some_iff.1 h
    unfold renderedOpenReturnValues at htext
    split at htext
    case h_1 => cases htext
    case h_2 m hfor =>
    split_ifs at htext
    split at htext
    case h_2 => cases htext
    case h_1 tail htail =>
    obtain rfl := Option.some.inj htext
    exact ⟨m, 33, hfor, htail⟩
  case h_4 =>
    obtain ⟨text, htext, rfl⟩ := Option.map_eq_some_iff.1 h
    unfold emitOpenSetList at htext
    split at htext
    case h_1 => cases htext
    case h_2 m hfor =>
    split at htext
    case h_2 => cases htext
    case h_1 tail htail =>
    obtain rfl := Option.some.inj htext
    exact ⟨m, 33, hfor, htail⟩
  case h_5 => cases h

/-- A consumer runs only instructions that are left out before it. -/
theorem openTail_leftOut (hp : p.IsDecoded) {context : RenderContext} {c : ℕ} {t : OpenText}
    (hstop : c < block.stop) (hsize : c < p.size)
    (hop : consumesOpenResults (p.instr c).op = true) (hb : (p.instr c).b = 0)
    (ht : openTail p context (p.instr c) = some t) :
    ∀ x ∈ t.pcs, x < c ∧ leftOut p block x = true := by
  obtain ⟨m, levels, hfor, hexpr⟩ := openTail_some ht
  obtain ⟨hm, hproducer⟩ := openProducerFor_some hfor
  rw [(hp c hsize).pc_eq] at hm
  subst hm
  have hconsumed : openProducerConsumedInRange p m block.stop = true :=
    consumed_iff.2 ⟨hstop, hsize, hproducer, hfor, hop, hb⟩
  intro x hx
  obtain ⟨hle, hout⟩ := openProducerExpression_leftOut hp context hconsumed hexpr x hx
  exact ⟨by omega, hout⟩

end Pending

end ByteVeil.Lua51
