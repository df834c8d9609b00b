import ByteVeil.Lua51.Accepted
import ByteVeil.Lua51.PcBlock

/-!
# Register names

The names that readable output gives to registers.

1. Of several candidates the loop of `localReg` takes the first with the greatest start among those
   from the last one in scope on.
2. Outside the main function and inside dispatchers a name is built from the register's number, and
   registers with equal names are equal.
3. In the main function the names come from the debug table, and they identify the registers exactly
   when the entries that apply are named apart.
-/

namespace ByteVeil.Lua51

/-! ## The last one in scope and what starts after it -/

section Lead

variable {α : Type} (live : α → Prop) [DecidablePred live] (start : α → ℤ)

/-- The better of two candidates, the second of which comes later. -/
def lead (best : Option α) (x : α) : Option α :=
  if best.all fun y => decide (live x) || decide (start y < start x) then some x else best

/-- `x` is the first with the greatest start. -/
structure FirstGreatest (xs : List α) (x : α) : Prop where
  split : ∃ before after, xs = before ++ x :: after ∧ (∀ y ∈ before, start y < start x) ∧
    ∀ y ∈ after, start y ≤ start x

/-- `xs` ends with the last one in scope and what follows it, or none is in scope. -/
structure FromLastLive (xs tail : List α) : Prop where
  split : ∃ before k rest, xs = before ++ tail ∧ tail = k :: rest ∧ (before = [] ∨ live k) ∧
    ∀ y ∈ rest, ¬live y

variable {live start}

theorem FirstGreatest.unique {xs : List α} {x y : α} (hx : FirstGreatest start xs x)
    (hy : FirstGreatest start xs y) : x = y := by
  obtain ⟨before, after, rfl, hbefore, hafter⟩ := hx
  obtain ⟨before', after', heq, hbefore', hafter'⟩ := hy
  rcases List.append_eq_append_iff.1 heq with ⟨mid, rfl, hmid⟩ | ⟨mid, rfl, hmid⟩
  · cases mid with
    | nil => exact (List.cons.inj hmid).1
    | cons z mid =>
      obtain ⟨rfl, rfl⟩ := List.cons.inj hmid
      have h₁ := hbefore' x (List.mem_append_right _ List.mem_cons_self)
      have h₂ := hafter y (List.mem_append_right _ List.mem_cons_self)
      omega
  · cases mid with
    | nil => exact (List.cons.inj hmid).1.symm
    | cons z mid =>
      obtain ⟨rfl, rfl⟩ := List.cons.inj hmid
      have h₁ := hbefore y (List.mem_append_right _ List.mem_cons_self)
      have h₂ := hafter' x (List.mem_append_right _ List.mem_cons_self)
      omega

/-- While none is in scope the candidates are compared by their start alone. -/
theorem foldl_lead_quiet {k : α} {rest : List α} (h : ∀ y ∈ rest, ¬live y) :
    ∃ x, rest.foldl (lead live start) (some k) = some x ∧ FirstGreatest start (k :: rest) x := by
  induction rest using List.reverseRecOn with
  | nil => exact ⟨k, rfl, ⟨[], [], rfl, by simp, by simp⟩⟩
  | append_singleton rest y ih =>
    obtain ⟨x, hx, ⟨before, after, heq, hbefore, hafter⟩⟩ :=
      ih fun z hz => h z (List.mem_append_left _ hz)
    have hy : ¬live y := h y (List.mem_append_right _ (List.mem_singleton_self y))
    rw [List.foldl_append, hx, List.foldl_cons, List.foldl_nil, ← List.cons_append, heq]
    by_cases hlt : start x < start y
    · refine ⟨y, by simp [lead, hlt], ⟨before ++ x :: after, [], by simp, ?_, by simp⟩⟩
      intro z hz
      rcases List.mem_append.1 hz with hz | hz
      · have := hbefore z hz
        omega
      · rcases List.mem_cons.1 hz with rfl | hz
        · exact hlt
        · have := hafter z hz
          omega
    · refine ⟨x, by simp [lead, hlt, hy], ⟨before, after ++ [y], by simp, hbefore, ?_⟩⟩
      intro z hz
      rcases List.mem_append.1 hz with hz | hz
      · exact hafter z hz
      · obtain rfl := List.mem_singleton.1 hz
        omega

theorem exists_fromLastLive {xs : List α} (h : xs ≠ []) : ∃ tail, FromLastLive live xs tail := by
  induction xs using List.reverseRecOn with
  | nil => exact absurd rfl h
  | append_singleton xs y ih =>
    by_cases hy : live y
    · exact ⟨[y], ⟨xs, y, [], rfl, rfl, Or.inr hy, by simp⟩⟩
    · by_cases hxs : xs = []
      · exact ⟨[y], ⟨[], y, [], by simp [hxs], rfl, Or.inl rfl, by simp⟩⟩
      · obtain ⟨tail, ⟨before, k, rest, rfl, rfl, hk, hrest⟩⟩ := ih hxs
        refine ⟨k :: (rest ++ [y]), ⟨before, k, rest ++ [y], by simp, rfl, hk, ?_⟩⟩
        intro z hz
        rcases List.mem_append.1 hz with hz | hz
        · exact hrest z hz
        · obtain rfl := List.mem_singleton.1 hz
          exact hy

/-- The loop takes the first with the greatest start from the last one in scope on. -/
theorem foldl_lead_iff {xs : List α} {x : α} : xs.foldl (lead live start) none = some x ↔
    ∃ tail, FromLastLive live xs tail ∧ FirstGreatest start tail x := by
  have hfold : ∀ tail, FromLastLive live xs tail →
      ∃ y, xs.foldl (lead live start) none = some y ∧ FirstGreatest start tail y := by
    rintro tail ⟨before, k, rest, rfl, rfl, hk, hrest⟩
    have hlead : lead live start (before.foldl (lead live start) none) k = some k := by
      rcases hk with rfl | hk
      · rfl
      · unfold lead
        rw [if_pos]
        rw [Option.all_eq_true]
        simp [hk]
    rw [List.foldl_append, List.foldl_cons, hlead]
    exact foldl_lead_quiet hrest
  constructor
  · intro h
    have hxs : xs ≠ [] := by
      rintro rfl
      cases h
    obtain ⟨tail, htail⟩ : ∃ tail, FromLastLive live xs tail := exists_fromLastLive hxs
    obtain ⟨y, hy, hgreatest⟩ := hfold tail htail
    rw [hy] at h
    obtain rfl := Option.some.inj h
    exact ⟨tail, htail, hgreatest⟩
  · rintro ⟨tail, htail, hgreatest⟩
    obtain ⟨y, hy, hgreatest'⟩ := hfold tail htail
    rw [hy, hgreatest.unique hgreatest']

end Lead

/-! ## Names -/

/-- The characters of a name in the debug tables. -/
def characters (name : List UInt8) : List Char := name.map fun b => Char.ofNat b.toNat

/-- `std::to_string`. -/
def decimal (n : ℕ) : List Char := Nat.toDigits 10 n

/-- `reg`. -/
def regName (r : ℕ) : List Char := 'r' :: decimal r

/-- `__byteveil_` and a word. -/
def byteveil (word : List Char) : List Char :=
  ['_', '_', 'b', 'y', 't', 'e', 'v', 'e', 'i', 'l', '_'] ++ word

/-- The instructions that may define a local variable. -/
def definesLocal : Op → Bool
  | .CLOSURE | .LOADK | .LOADBOOL | .LOADNIL | .NEWTABLE | .ADD | .SUB | .MUL | .DIV | .MOD | .POW =>
    true
  | _ => false

/-- `debugRegister`: the register that an entry of the debug table stands for. -/
def debugRegister (p : Proto) (entry : LocalInfo) : Option ℕ :=
  if entry.name.head? = some 40 then none
  else if entry.start = 0 ∧ 0 < p.params then some 0
  else
    p.code.findSome? fun i =>
      if (i.pc : ℤ) < entry.start - 1 ∨ entry.stop ≤ i.pc then none
      else if i.op = .FORPREP ∧ (i.pc : ℤ) ≤ entry.start ∧ i.a + 3 < p.maxstack then some (i.a + 3)
      else if ((i.pc : ℤ) = entry.start ∨ (i.pc : ℤ) = entry.start - 1) ∧ definesLocal i.op then
        some i.a
      else none

/-- The entry is in scope. -/
def LocalInfo.Covers (entry : LocalInfo) (pc : ℕ) : Prop := entry.start ≤ pc ∧ (pc : ℤ) < entry.stop

instance (pc : ℕ) : DecidablePred (LocalInfo.Covers · pc) := fun entry =>
  inferInstanceAs (Decidable (entry.start ≤ pc ∧ (pc : ℤ) < entry.stop))

/-- The entries of the debug table that stand for a register. -/
def entriesOf (p : Proto) (r : ℕ) : List LocalInfo :=
  p.locals.filter fun entry => debugRegister p entry == some r

/-- `best` of `localReg`. -/
def bestEntry (p : Proto) (r pc : ℕ) : Option LocalInfo :=
  (entriesOf p r).foldl (lead (LocalInfo.Covers · pc) LocalInfo.start) none

/-- `localReg`. -/
def localReg (p : Proto) (r pc : ℕ) : List Char :=
  match bestEntry p r pc with
  | some entry => if validIdentifier entry.name then characters entry.name else regName r
  | none => regName r

/-- A register's name with the number of its function. -/
def qualifiedName (p : Proto) (r : ℕ) : List Char :=
  byteveil ('f' :: decimal p.id ++ ['_', 'r'] ++ decimal r)

/-- `renderedRegisterName`. -/
def renderedRegisterName (p : Proto) (r pc : ℕ) (context : RenderContext) : List Char :=
  if context.stateMachine && p.nups == 0 then regName r
  else if context.stateMachine then qualifiedName p r
  else if p.id = 0 then localReg p r pc
  else if p.nups = 0 then regName r
  else qualifiedName p r

/-! ## The names of the registers -/

theorem decimal_injective : Function.Injective decimal := by
  intro m n h
  rw [← Nat.ofDigitChars_ten_toDigits (n := m), ← Nat.ofDigitChars_ten_toDigits (n := n)]
  exact congrArg (Nat.ofDigitChars 10 · 0) h

theorem regName_injective : Function.Injective regName := fun _ _ h =>
  decimal_injective (List.cons.inj h).2

theorem qualifiedName_injective (p : Proto) : Function.Injective (qualifiedName p) := fun _ _ h =>
  decimal_injective (List.append_cancel_left (List.append_cancel_left h))

/-- The entry of the debug table whose name `r` gets at `pc`: of its entries from the last one in
scope on, the first with the greatest start. -/
def AppliesTo (p : Proto) (r pc : ℕ) (entry : LocalInfo) : Prop :=
  ∃ tail, FromLastLive (LocalInfo.Covers · pc) (entriesOf p r) tail ∧
    FirstGreatest LocalInfo.start tail entry

theorem bestEntry_iff {p : Proto} {r pc : ℕ} {entry : LocalInfo} :
    bestEntry p r pc = some entry ↔ AppliesTo p r pc entry :=
  foldl_lead_iff

/-- The debug table gives `r` the name at `pc`. -/
def DebugName (p : Proto) (r pc : ℕ) (name : List Char) : Prop :=
  ∃ entry, AppliesTo p r pc entry ∧ validIdentifier entry.name = true ∧ name = characters entry.name

theorem localReg_of_debugName {p : Proto} {r pc : ℕ} {name : List Char} (h : DebugName p r pc name) :
    localReg p r pc = name := by
  obtain ⟨entry, happlies, hvalid, rfl⟩ := h
  unfold localReg
  rw [bestEntry_iff.2 happlies]
  exact if_pos hvalid

theorem localReg_of_not {p : Proto} {r pc : ℕ} (h : ∀ name, ¬DebugName p r pc name) :
    localReg p r pc = regName r := by
  unfold localReg
  split
  case h_1 entry hentry =>
    exact if_neg fun hvalid => h _ ⟨entry, bestEntry_iff.1 hentry, hvalid, rfl⟩
  case h_2 => rfl

/-- The debug table names the registers apart: a register has one name throughout, different
registers have different names, and none has the number of a register that keeps it. -/
structure NamedApart (p : Proto) : Prop where
  steady : ∀ r < p.maxstack, ∀ u < p.size, ∀ v < p.size, ∀ n n', DebugName p r u n →
    DebugName p r v n' → n = n'
  always : ∀ r < p.maxstack, ∀ u < p.size, ∀ v < p.size, ∀ n, DebugName p r u n →
    (∀ n', ¬DebugName p r v n') → n = regName r
  apart : ∀ r < p.maxstack, ∀ s < p.maxstack, r ≠ s → ∀ u < p.size, ∀ v < p.size, ∀ n n',
    DebugName p r u n → DebugName p s v n' → n ≠ n'
  numbers : ∀ r < p.maxstack, ∀ s < p.maxstack, r ≠ s → ∀ u < p.size, ∀ v < p.size, ∀ n,
    DebugName p r u n → (∀ n', ¬DebugName p s v n') → n ≠ regName s

theorem localReg_identifies {p : Proto} : (∀ r < p.maxstack, ∀ s < p.maxstack, ∀ u < p.size,
    ∀ v < p.size, localReg p r u = localReg p s v ↔ r = s) ↔ NamedApart p := by
  constructor
  · intro h
    refine ⟨?_, ?_, ?_, ?_⟩
    · intro r hr u hu v hv n n' hn hn'
      rw [← localReg_of_debugName hn, ← localReg_of_debugName hn']
      exact (h r hr r hr u hu v hv).2 rfl
    · intro r hr u hu v hv n hn hnone
      rw [← localReg_of_debugName hn, ← localReg_of_not hnone]
      exact (h r hr r hr u hu v hv).2 rfl
    · rintro r hr s hs hrs u hu v hv n n' hn hn' rfl
      refine hrs ((h r hr s hs u hu v hv).1 ?_)
      rw [localReg_of_debugName hn, localReg_of_debugName hn']
    · intro r hr s hs hrs u hu v hv n hn hnone heq
      refine hrs ((h r hr s hs u hu v hv).1 ?_)
      rw [localReg_of_debugName hn, localReg_of_not hnone, heq]
  · intro h r hr s hs u hu v hv
    by_cases hn : ∃ n, DebugName p r u n
    · obtain ⟨n, hn⟩ := hn
      rw [localReg_of_debugName hn]
      by_cases hn' : ∃ n', DebugName p s v n'
      · obtain ⟨n', hn'⟩ := hn'
        rw [localReg_of_debugName hn']
        constructor
        · intro heq
          by_contra hrs
          exact h.apart r hr s hs hrs u hu v hv n n' hn hn' heq
        · rintro rfl
          exact h.steady r hr u hu v hv n n' hn hn'
      · have hnone := not_exists.1 hn'
        rw [localReg_of_not hnone]
        constructor
        · intro heq
          by_contra hrs
          exact h.numbers r hr s hs hrs u hu v hv n hn hnone heq
        · rintro rfl
          exact h.always r hr u hu v hv n hn hnone
    · have hnone := not_exists.1 hn
      rw [localReg_of_not hnone]
      by_cases hn' : ∃ n', DebugName p s v n'
      · obtain ⟨n', hn'⟩ := hn'
        rw [localReg_of_debugName hn']
        constructor
        · intro heq
          by_contra hrs
          exact h.numbers s hs r hr (Ne.symm hrs) v hv u hu n' hn' hnone heq.symm
        · rintro rfl
          exact (h.always r hr v hv u hu n' hn' hnone).symm
      · rw [localReg_of_not (not_exists.1 hn')]
        exact regName_injective.eq_iff

/-- The names of the registers identify them in dispatchers and outside the main function, and in the
main function exactly when its debug table names them apart. -/
theorem renderedRegisterName_identifies (p : Proto) (context : RenderContext) :
    (∀ r < p.maxstack, ∀ s < p.maxstack, ∀ u < p.size, ∀ v < p.size,
      renderedRegisterName p r u context = renderedRegisterName p s v context ↔ r = s) ↔
    (context.stateMachine = true ∨ p.id ≠ 0 ∨ NamedApart p) := by
  unfold renderedRegisterName
  by_cases hmachine : context.stateMachine = true
  · refine iff_of_true (fun r _ s _ u _ v _ => ?_) (Or.inl hmachine)
    rw [hmachine]
    by_cases hnups : p.nups = 0
    · simp [hnups, regName_injective.eq_iff]
    · simp [hnups, (qualifiedName_injective p).eq_iff]
  rw [Bool.not_eq_true] at hmachine
  simp only [hmachine, Bool.false_and, Bool.false_eq_true, if_false, false_or]
  by_cases hid : p.id = 0
  · simp only [hid, ne_eq, not_true_eq_false, false_or]
    exact localReg_identifies
  · refine iff_of_true (fun r _ s _ u _ v _ => ?_) (Or.inl hid)
    rw [if_neg hid, if_neg hid]
    split_ifs
    · exact regName_injective.eq_iff
    · exact (qualifiedName_injective p).eq_iff

/-- An entry of the debug table. -/
def entryBytes (name : List UInt8) (start stop : ℕ) : List UInt8 :=
  word (name.length + 1) ++ name ++ [0] ++ word start ++ word stop

/-- A function with the given code, constants, nested functions and local variables. -/
def namedFunctionBytes (nups params vararg maxstack : UInt8) (code : List ℕ)
    (constants children locals : List (List UInt8)) : List UInt8 :=
  word 0 ++ word 0 ++ word 0 ++ [nups, params, vararg, maxstack] ++
    word code.length ++ code.flatMap word ++ word constants.length ++ constants.flatten ++
    word children.length ++ children.flatten ++ word 0 ++ word locals.length ++ locals.flatten ++
    word 0

/-- `local x = true; local x = true`: `LOADBOOL 0 1`, `LOADBOOL 1 1`, `RETURN 0 1`. -/
@[irreducible] def shadowed : Proto :=
  mainOf (chunkHeader ++ namedFunctionBytes 0 0 0 2
    [2 + 8388608, 2 + 64 + 8388608, 30 + 8388608] [] []
    [entryBytes [120] 1 3, entryBytes [120] 2 3])

/-- The two variables share their name. -/
theorem shadowed_confused : Accepted shadowed ∧ shadowed.maxstack = 2 ∧ shadowed.size = 3 ∧
    renderedRegisterName shadowed 0 0 {} = ['x'] ∧ renderedRegisterName shadowed 1 1 {} = ['x'] := by
  have haccepted : Accepted shadowed := by
    unfold shadowed
    exact accepted_mainOf (by decide +kernel)
  exact ⟨haccepted, by decide +kernel, by decide +kernel, by decide +kernel, by decide +kernel⟩

end ByteVeil.Lua51
