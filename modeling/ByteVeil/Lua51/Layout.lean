import ByteVeil.Fallible.Except
import ByteVeil.Lua51.Parse

/-!
# The layout of a decoded prototype

1. What the decoding loop makes of each word, and where extra words stand.
2. What the association pass adds: which words are bindings, of which `CLOSURE`, and the captures.
-/

namespace ByteVeil.Lua51

open Fallible

/-! ## Errors -/

theorem reject_ok {bad : Bool} {error : Except String Unit} (he : error ≠ .ok ()) :
    reject bad error = .ok () ↔ bad = false := by
  unfold reject
  cases bad <;> simp [he, pure, Except.pure]

theorem failureAt_ne (id pc : ℕ) (message : String) : failureAt id pc message ≠ .ok () := by
  simp [failureAt, throw, throwThe, MonadExceptOf.throw]

/-! ## Decoding -/

/-- What the fields of a decoded instruction are, apart from its closure bindings. -/
structure Decoded (pc : ℕ) (i : Instr) : Prop where
  pc_eq : i.pc = pc
  extra : i.extraWord = true ↔ i.op = .EXTRAARG
  b_lt : i.b < 512
  c_lt : i.c < 512
  target_eq : i.extraWord = false → i.target = targetOf i.op pc i.c i.sbx
  extra_target : i.extraWord = true → i.target = -1
  setlist : i.op = .SETLIST → i.c ≠ 0 → i.setlistBlock = i.c

theorem ofCode_ne_extraarg (code : ℕ) : Op.ofCode code ≠ .EXTRAARG := by
  unfold Op.ofCode
  by_cases h : code < Op.all.length
  · rw [List.getD_eq_getElem _ _ h]
    have hmem := List.getElem_mem h
    intro heq
    rw [heq] at hmem
    exact absurd hmem (by decide)
  · rw [List.getD_eq_default _ _ (Nat.le_of_not_lt h)]
    simp

theorem decodeWord_decoded (rawCode : List ℕ) (code : List Instr) (pc : ℕ) :
    Decoded pc (decodeWord rawCode code pc) where
  pc_eq := rfl
  extra := ⟨fun h => absurd h (by simp [decodeWord]), fun h => absurd h (ofCode_ne_extraarg _)⟩
  b_lt := Nat.mod_lt _ (by decide)
  c_lt := Nat.mod_lt _ (by decide)
  target_eq := fun _ => rfl
  extra_target := fun h => absurd h (by simp [decodeWord])
  setlist := fun hop hc => by
    simp only [decodeWord] at hop hc ⊢
    rw [if_pos hop, if_neg hc]

theorem extraWordAt_decoded (rawCode : List ℕ) (pc : ℕ) :
    Decoded pc (extraWordAt rawCode pc) := by
  constructor <;> simp [extraWordAt]

/-- An instruction with an extra word behind it. -/
def Instr.HasExtraWord (i : Instr) : Prop := i.op = .SETLIST ∧ i.c = 0

instance (i : Instr) : Decidable i.HasExtraWord := inferInstanceAs (Decidable (_ ∧ _))

/-- Exactly the words behind such an instruction are extra words, and the code does not end before
one. -/
structure ExtraWords (code : List Instr) : Prop where
  extra_iff : ∀ k < code.length, (code.getD k default).extraWord = true ↔
    ∃ j, k = j + 1 ∧ (code.getD j default).HasExtraWord
  extra_lt : ∀ k < code.length, (code.getD k default).HasExtraWord → k + 1 < code.length

/-- The association pass has not been here. -/
def Fresh (i : Instr) : Prop := i.closureBindingFor = none ∧ i.captures = []

/-- What the decoding loop maintains: the flag says that an extra word comes next. -/
structure Decoding (size n : ℕ) (s : List Instr × Bool) : Prop where
  length_eq : s.1.length = n
  decoded : ∀ pc < n, Decoded pc (s.1.getD pc default)
  fresh : ∀ pc < n, Fresh (s.1.getD pc default)
  extra_iff : ∀ k < n, (s.1.getD k default).extraWord = true ↔
    ∃ j, k = j + 1 ∧ (s.1.getD j default).HasExtraWord
  flag_iff : s.2 = true ↔ ∃ j, n = j + 1 ∧ (s.1.getD j default).HasExtraWord
  extra_lt : ∀ k < n, (s.1.getD k default).HasExtraWord → k + 1 < size

theorem Decoding.push {size n : ℕ} {s : List Instr × Bool} (h : Decoding size n s) {i : Instr}
    {flag : Bool} (hi : Decoded n i) (hfresh : Fresh i) (hextra : i.extraWord = s.2)
    (hflag : flag = true ↔ i.HasExtraWord) (hsize : i.HasExtraWord → n + 1 < size) :
    Decoding size (n + 1) (s.1 ++ [i], flag) := by
  have hold : ∀ k < n, (s.1 ++ [i]).getD k default = s.1.getD k default := fun k hk =>
    List.getD_append _ _ _ _ (by rwa [h.length_eq])
  have hnew : (s.1 ++ [i]).getD n default = i := by
    rw [List.getD_append_right _ _ _ _ (by rw [h.length_eq]), h.length_eq, Nat.sub_self]
    rfl
  have hcases : ∀ {P : ℕ → Instr → Prop}, (∀ k < n, P k (s.1.getD k default)) → P n i →
      ∀ k < n + 1, P k ((s.1 ++ [i]).getD k default) := by
    intro P hP hPn k hk
    rcases Nat.lt_or_eq_of_le (Nat.le_of_lt_succ hk) with hlt | rfl
    · rw [hold k hlt]
      exact hP k hlt
    · rw [hnew]
      exact hPn
  refine ⟨by simp [h.length_eq], hcases h.decoded hi, hcases (P := fun _ i => Fresh i) h.fresh hfresh,
    fun k hk => ?_, ?_, hcases (P := fun k i => i.HasExtraWord → k + 1 < size) h.extra_lt hsize⟩
  · have hbefore : (∃ j, k = j + 1 ∧ ((s.1 ++ [i]).getD j default).HasExtraWord) ↔
        ∃ j, k = j + 1 ∧ (s.1.getD j default).HasExtraWord := by
      refine exists_congr fun j => and_congr_right fun hj => ?_
      rw [hold j (by omega)]
    rw [hbefore]
    rcases Nat.lt_or_eq_of_le (Nat.le_of_lt_succ hk) with hlt | rfl
    · rw [hold k hlt]
      exact h.extra_iff k hlt
    · rw [hnew, hextra]
      exact h.flag_iff
  · rw [hflag]
    constructor
    · exact fun hc => ⟨n, rfl, by rwa [hnew]⟩
    · rintro ⟨j, hj, hc⟩
      obtain rfl : n = j := by omega
      rwa [hnew] at hc

theorem decodeCode_decoding {rawCode : List ℕ} {code : List Instr}
    (h : decodeCode rawCode = .ok code) : ∃ flag, Decoding rawCode.length rawCode.length (code, flag) := by
  unfold decodeCode at h
  obtain ⟨⟨code', flag⟩, hs, hret⟩ := except_bind_ok.1 h
  obtain rfl := pure_ok.1 hret
  refine ⟨flag, foldlM_range_invariant (P := Decoding rawCode.length) ?_ rawCode.length
    ⟨rfl, ?_, ?_, ?_, ?_, ?_⟩ hs⟩
  · rintro n ⟨code, extra⟩ ⟨code', extra'⟩ hn hstep
    unfold decodeStep at hstep
    dsimp only at hstep
    split_ifs at hstep with hextra hmissing
    · obtain ⟨rfl, rfl⟩ := Prod.mk.inj (pure_ok.1 hstep)
      refine hn.push (extraWordAt_decoded rawCode n) ⟨rfl, rfl⟩ hextra.symm ?_ ?_
      · exact iff_of_false (by decide) fun hc => absurd hc.1 (by simp [extraWordAt])
      · exact fun hc => absurd hc.1 (by simp [extraWordAt])
    · obtain ⟨rfl, rfl⟩ := Prod.mk.inj (pure_ok.1 hstep)
      refine hn.push (decodeWord_decoded rawCode code n) ⟨rfl, rfl⟩ ?_ decide_eq_true_iff ?_
      · exact (Bool.not_eq_true _ ▸ hextra : extra = false).symm
      · intro hc
        by_contra hlt
        exact hmissing ⟨hc, by omega⟩
  all_goals simp

theorem decodeCode_decoded {rawCode : List ℕ} {code : List Instr}
    (h : decodeCode rawCode = .ok code) :
    ∀ pc < code.length, Decoded pc (code.getD pc default) ∧ Fresh (code.getD pc default) := by
  obtain ⟨flag, hd⟩ := decodeCode_decoding h
  intro pc hpc
  have hlt : pc < rawCode.length := by rwa [← hd.length_eq]
  exact ⟨hd.decoded pc hlt, hd.fresh pc hlt⟩

theorem decodeCode_extraWords {rawCode : List ℕ} {code : List Instr}
    (h : decodeCode rawCode = .ok code) : ExtraWords code := by
  obtain ⟨flag, hd⟩ := decodeCode_decoding h
  refine ⟨fun k hk => hd.extra_iff k (by rwa [← hd.length_eq]), fun k hk hc => ?_⟩
  have := hd.extra_lt k (by rwa [← hd.length_eq]) hc
  rwa [← hd.length_eq] at this

/-! ## Closure bindings -/

/-- An instruction without what the association pass adds. -/
def Instr.base (i : Instr) : Instr :=
  { i with closureBindingFor := none, captureSlot := none, captures := [] }

/-- A field that the association pass does not touch. -/
theorem field_of_base {α : Type} {i j : Instr} (h : j.base = i.base) (f : Instr → α)
    (hf : ∀ i, f i.base = f i) : f j = f i := by
  rw [← hf j, h, hf i]

theorem Decoded.of_base {pc : ℕ} {i j : Instr} (h : Decoded pc i) (heq : j.base = i.base) :
    Decoded pc j := by
  have field {α : Type} (f : Instr → α) (hf : ∀ i, f i.base = f i) : f j = f i :=
    field_of_base heq f hf
  have hpc := field Instr.pc fun _ => rfl
  have hop := field Instr.op fun _ => rfl
  have hb := field Instr.b fun _ => rfl
  have hc := field Instr.c fun _ => rfl
  have hs := field Instr.sbx fun _ => rfl
  have ht := field Instr.target fun _ => rfl
  have he := field Instr.extraWord fun _ => rfl
  have hl := field Instr.setlistBlock fun _ => rfl
  constructor
  · rw [hpc]; exact h.pc_eq
  · rw [he, hop]; exact h.extra
  · rw [hb]; exact h.b_lt
  · rw [hc]; exact h.c_lt
  · rw [he, ht, hop, hc, hs]; exact h.target_eq
  · rw [he, ht]; exact h.extra_target
  · rw [hop, hc, hl]; exact h.setlist

theorem map_base_set {code : List Instr} {k : ℕ} {i : Instr}
    (h : i.base = (code.getD k default).base) : (code.set k i).map Instr.base = code.map Instr.base := by
  by_cases hk : k < code.length
  · rw [List.map_set, h, List.getD_eq_getElem _ _ hk]
    have hk' : k < (code.map Instr.base).length := by simpa using hk
    have hbase : (code[k]).base = (code.map Instr.base)[k] := by simp
    rw [hbase, List.set_getElem_self]
  · rw [List.set_eq_of_length_le (Nat.le_of_not_lt hk)]

theorem associateBinding_base {id maxstack pc slot : ℕ} {s s' : Association}
    (h : associateBinding id maxstack pc s slot = .ok s') :
    s'.code.map Instr.base = s.code.map Instr.base := by
  unfold associateBinding at h
  obtain ⟨_, _, h⟩ := except_bind_ok.1 h
  obtain rfl := Except.ok.inj h
  dsimp only
  have hbound : ((s.code.set (pc + slot + 1) { s.code.getD (pc + slot + 1) default with
      closureBindingFor := some pc, captureSlot := some slot }).map Instr.base) =
      s.code.map Instr.base := map_base_set rfl
  rw [map_base_set ?_, hbound]
  simp only [List.getD_eq_getElem?_getD, List.getElem?_set]
  split_ifs with h1 h2
  · omega
  · omega
  · rfl

theorem associateFrom_base {p : Proto} {fuel pc : ℕ} {s s' : Association}
    (h : associateFrom p fuel pc s = .ok s') :
    s'.code.map Instr.base = s.code.map Instr.base := by
  induction fuel generalizing pc s with
  | zero =>
    obtain rfl := Except.ok.inj h
    rfl
  | succ fuel ih =>
    unfold associateFrom at h
    dsimp only at h
    split_ifs at h
    · obtain ⟨_, _, h⟩ := except_bind_ok.1 h
      obtain ⟨t, ht, h⟩ := except_bind_ok.1 h
      rw [ih h]
      exact foldlM_range_invariant (P := fun _ (t : Association) =>
        t.code.map Instr.base = s.code.map Instr.base)
        (fun n u u' hu hstep => (associateBinding_base hstep).trans hu) _ rfl ht
    · exact ih h
    · obtain rfl := Except.ok.inj h
      rfl

/-- The words before `pc` are associated and the others untouched. A binding lies in the range of its
`CLOSURE`, and the captures of a `CLOSURE` are the words behind it. -/
structure Bound (maxstack pc : ℕ) (s : Association) : Prop where
  fresh : ∀ k, pc ≤ k → k < s.code.length → Fresh (s.code.getD k default)
  binding : ∀ k < pc, ∀ c, (s.code.getD k default).closureBindingFor = some c →
    c < k ∧ (s.code.getD c default).op = .CLOSURE ∧
      k ≤ c + (s.code.getD c default).captures.length ∧
      ((s.code.getD k default).op = .MOVE ∨ (s.code.getD k default).op = .GETUPVAL) ∧
      (s.code.getD k default).extraWord = false
  covers : ∀ c < pc, ∀ slot < (s.code.getD c default).captures.length,
    c + slot + 1 < pc ∧ (s.code.getD (c + slot + 1) default).closureBindingFor = some c ∧
      (s.code.getD c default).captures.getD slot default =
        ⟨(s.code.getD (c + slot + 1) default).pc, (s.code.getD (c + slot + 1) default).b,
          (s.code.getD (c + slot + 1) default).op == .GETUPVAL⟩
  captured_length : s.capturedRegisters.length = maxstack
  captured_iff : ∀ r < maxstack, s.capturedRegisters.getD r false = true ↔
    ∃ k < pc, ∃ c, (s.code.getD k default).closureBindingFor = some c ∧
      (s.code.getD k default).op = .MOVE ∧ (s.code.getD k default).b = r

/-- An untouched word may be passed over. -/
theorem Bound.skip {maxstack pc : ℕ} {s : Association} (h : Bound maxstack pc s)
    (hpc : pc < s.code.length) : Bound maxstack (pc + 1) s := by
  obtain ⟨hfor, hcaptures⟩ := h.fresh pc le_rfl hpc
  refine ⟨fun k hk => h.fresh k (by omega), fun k hk c hc => ?_, fun c hc slot hslot => ?_,
    h.captured_length, fun r hr => (h.captured_iff r hr).trans ?_⟩
  · rcases Nat.lt_or_eq_of_le (Nat.le_of_lt_succ hk) with hlt | rfl
    · exact h.binding k hlt c hc
    · rw [hfor] at hc
      cases hc
  · rcases Nat.lt_or_eq_of_le (Nat.le_of_lt_succ hc) with hlt | rfl
    · obtain ⟨h₁, h₂⟩ := h.covers c hlt slot hslot
      exact ⟨by omega, h₂⟩
    · rw [hcaptures] at hslot
      exact absurd hslot (Nat.not_lt_zero slot)
  · constructor
    · rintro ⟨k, hk, hc⟩
      exact ⟨k, by omega, hc⟩
    · rintro ⟨k, hk, c, hc⟩
      rcases Nat.lt_or_eq_of_le (Nat.le_of_lt_succ hk) with hlt | rfl
      · exact ⟨k, hlt, c, hc⟩
      · rw [hfor] at hc
        cases hc.1

theorem getD_set_set {code : List Instr} {m n : ℕ} (hm : m < code.length) (hn : n < code.length)
    (i j : Instr) (k : ℕ) : ((code.set n i).set m j).getD k default =
      if k = m then j else if k = n then i else code.getD k default := by
  simp only [List.getD_eq_getElem?_getD, List.getElem?_set, List.length_set]
  by_cases hkm : k = m
  · rw [if_pos hkm, if_pos hkm.symm, if_pos hm]
    rfl
  · rw [if_neg hkm, if_neg (Ne.symm hkm)]
    by_cases hkn : k = n
    · rw [if_pos hkn, if_pos hkn.symm, if_pos hn]
      rfl
    · rw [if_neg hkn, if_neg (Ne.symm hkn)]

/-- One more binding of the `CLOSURE` at `pc`. -/
theorem Bound.bind {id maxstack pc slot : ℕ} {s s' : Association}
    (h : Bound maxstack (pc + 1 + slot) s) (hop : (s.code.getD pc default).op = .CLOSURE)
    (hslot : (s.code.getD pc default).captures.length = slot)
    (hlt : pc + 1 + slot < s.code.length)
    (hstep : associateBinding id maxstack pc s slot = .ok s') :
    Bound maxstack (pc + 1 + (slot + 1)) s' ∧ (s'.code.getD pc default).op = .CLOSURE ∧
      (s'.code.getD pc default).captures.length = slot + 1 ∧ s'.code.length = s.code.length := by
  unfold associateBinding at hstep
  obtain ⟨⟨⟩, hkind, hstep⟩ := except_bind_ok.1 hstep
  obtain rfl := pure_ok.1 hstep
  clear hstep
  rw [reject_ok (failureAt_ne _ _ _)] at hkind
  rw [show pc + slot + 1 = pc + 1 + slot by omega] at hkind ⊢
  simp only [Bool.or_eq_false_iff, Bool.and_eq_false_iff, bne_eq_false_iff_eq] at hkind
  obtain ⟨hextra, hmove⟩ := hkind
  have hfresh := h.fresh (pc + 1 + slot) le_rfl hlt
  have hpcnone : ∀ c, (s.code.getD pc default).closureBindingFor ≠ some c := by
    intro c hc
    have := (h.binding pc (by omega) c hc).2.2.2.1
    rw [hop] at this
    exact this.elim (by simp) (by simp)
  have hget := getD_set_set (show pc < s.code.length by omega) hlt
  dsimp only
  generalize hnew : s.code.getD (pc + 1 + slot) default = word at *
  generalize hold : s.code.getD pc default = closure at *
  refine ⟨⟨fun k hk hklen => ?_, fun k hk c hc => ?_, fun c hc i hi => ?_, ?_, fun r hr => ?_⟩, ?_⟩
  · rw [hget, if_neg (by omega), if_neg (by omega)]
    exact h.fresh k (by omega) (by simpa using hklen)
  · rw [hget] at hc
    simp only [hget]
    by_cases hkp : k = pc
    · rw [if_pos hkp] at hc
      exact absurd hc (hpcnone c)
    · rw [if_neg hkp] at hc
      by_cases hkn : k = pc + 1 + slot
      · rw [if_pos hkn] at hc
        obtain rfl := Option.some.inj hc
        rw [if_neg hkp, if_pos hkn, if_pos rfl]
        refine ⟨by omega, hop, ?_, by simpa using hmove, hextra⟩
        rw [List.length_append, hslot, List.length_singleton]
        omega
      · rw [if_neg hkn] at hc
        obtain ⟨hck, hcop, hcover, hkop, hkextra⟩ := h.binding k (by omega) c hc
        rw [if_neg hkp, if_neg hkn]
        refine ⟨hck, ?_, ?_, hkop, hkextra⟩
        · by_cases hcp : c = pc
          · rw [if_pos hcp]
            exact hop
          · rw [if_neg hcp, if_neg (by omega)]
            exact hcop
        · by_cases hcp : c = pc
          · rw [if_pos hcp, List.length_append, hslot]
            omega
          · rw [if_neg hcp, if_neg (by omega)]
            exact hcover
  · rw [hget] at hi
    simp only [hget]
    by_cases hcp : c = pc
    · subst hcp
      rw [if_pos rfl, List.length_append, List.length_singleton] at hi
      rw [if_neg (by omega), if_pos rfl]
      dsimp only at hi ⊢
      rcases Nat.lt_or_eq_of_le (Nat.le_of_lt_succ hi) with hlt' | heq
      · have hcover := h.covers c (by omega) i (by rwa [hold])
        rw [hold] at hcover
        rw [if_neg (by omega), List.getD_append _ _ _ _ hlt']
        exact ⟨by omega, hcover.2⟩
      · rw [show c + i + 1 = c + 1 + slot by omega, if_pos rfl,
          List.getD_append_right _ _ _ _ (by omega), heq, Nat.sub_self]
        exact ⟨by omega, rfl, rfl⟩
    · rw [if_neg hcp] at hi
      by_cases hcn : c = pc + 1 + slot
      · rw [if_pos hcn, hfresh.2] at hi
        exact absurd hi (Nat.not_lt_zero i)
      · rw [if_neg hcn] at hi
        obtain ⟨hlt', hfor, hcapture⟩ := h.covers c (by omega) i hi
        have hmp : c + i + 1 ≠ pc := by
          intro heq
          rw [heq, hold] at hfor
          exact hpcnone c hfor
        rw [if_neg hmp, if_neg (by omega), if_neg hcp, if_neg hcn]
        exact ⟨by omega, hfor, hcapture⟩
  · split_ifs
    · rw [List.length_set]
      exact h.captured_length
    · exact h.captured_length
  · have hset : (if word.op = .MOVE ∧ word.b < maxstack then s.capturedRegisters.set word.b true
        else s.capturedRegisters).getD r false = true ↔
        (word.op = .MOVE ∧ word.b = r) ∨ s.capturedRegisters.getD r false = true := by
      split_ifs with hc
      · rw [List.getD_eq_getElem?_getD, List.getD_eq_getElem?_getD, List.getElem?_set]
        by_cases hr' : word.b = r
        · simp [hr', hc.1, h.captured_length, hr]
        · simp [hr']
      · refine ⟨Or.inr, fun hor => hor.resolve_left ?_⟩
        rintro ⟨hm, rfl⟩
        exact hc ⟨hm, hr⟩
    rw [hset, h.captured_iff r hr]
    simp only [hget]
    constructor
    · rintro (⟨hm, hb⟩ | ⟨k, hk, c, hc, hm, hb⟩)
      · exact ⟨pc + 1 + slot, by omega, pc, by rw [if_neg (by omega), if_pos rfl], by
          rw [if_neg (by omega), if_pos rfl]; exact ⟨hm, hb⟩⟩
      · have hkp : k ≠ pc := by
          rintro rfl
          rw [hold] at hc
          exact hpcnone c hc
        refine ⟨k, by omega, c, ?_⟩
        rw [if_neg hkp, if_neg (by omega)]
        exact ⟨hc, hm, hb⟩
    · rintro ⟨k, hk, c, hc⟩
      by_cases hkp : k = pc
      · rw [if_pos hkp] at hc
        exact absurd hc.1 (hpcnone c)
      · rw [if_neg hkp] at hc
        by_cases hkn : k = pc + 1 + slot
        · rw [if_pos hkn] at hc
          exact Or.inl hc.2
        · rw [if_neg hkn] at hc
          exact Or.inr ⟨k, by omega, c, hc⟩
  · rw [hget, if_pos rfl]
    refine ⟨hop, ?_, by simp⟩
    rw [List.length_append, hslot, List.length_singleton]

theorem associateFrom_bound {p : Proto} {fuel pc : ℕ} {s s' : Association}
    (h : associateFrom p fuel pc s = .ok s') (hs : Bound p.maxstack pc s)
    (hfuel : s.code.length ≤ pc + fuel) (hle : pc ≤ s.code.length) :
    Bound p.maxstack s'.code.length s' := by
  induction fuel generalizing pc s with
  | zero =>
    obtain rfl := pure_ok.1 h
    rwa [show s.code.length = pc by omega]
  | succ fuel ih =>
    unfold associateFrom at h
    dsimp only at h
    split_ifs at h with hpc hclosure
    · obtain ⟨⟨⟩, hfits, h⟩ := except_bind_ok.1 h
      obtain ⟨t, ht, h⟩ := except_bind_ok.1 h
      rw [reject_ok (failureAt_ne _ _ _), decide_eq_false_iff_not, not_lt] at hfits
      have hinner := foldlM_range_invariant (P := fun n (t : Association) =>
        n ≤ (p.children.getD (s.code.getD pc default).bx default).nups →
          Bound p.maxstack (pc + 1 + n) t ∧ (t.code.getD pc default).op = .CLOSURE ∧
            (t.code.getD pc default).captures.length = n ∧ t.code.length = s.code.length) ?_ _ ?_ ht
      · obtain ⟨hbound, -, -, hlen⟩ := hinner le_rfl
        rw [show pc + (p.children.getD (s.code.getD pc default).bx default).nups + 1 =
          pc + 1 + (p.children.getD (s.code.getD pc default).bx default).nups by omega] at h
        exact ih h hbound (by omega) (by omega)
      · intro n u u' hu hstep hn
        obtain ⟨hbound, hop, hlen, hsize⟩ := hu (by omega)
        obtain ⟨h₁, h₂, h₃, h₄⟩ := hbound.bind hop hlen (by omega) hstep
        exact ⟨h₁, h₂, h₃, h₄.trans hsize⟩
      · intro _
        refine ⟨hs.skip hpc, hclosure.1, ?_, rfl⟩
        rw [(hs.fresh pc le_rfl hpc).2]
        rfl
    · exact ih h (hs.skip hpc) (by omega) (by omega)
    · obtain rfl := pure_ok.1 h
      rwa [show s.code.length = pc by omega]

/-- How the bindings of a prototype belong to its closures. -/
structure Bindings (p : Proto) : Prop where
  binding : ∀ k < p.size, ∀ c, (p.instr k).closureBindingFor = some c →
    c < k ∧ (p.instr c).op = .CLOSURE ∧ k ≤ c + (p.instr c).captures.length ∧
      ((p.instr k).op = .MOVE ∨ (p.instr k).op = .GETUPVAL) ∧ (p.instr k).extraWord = false
  covers : ∀ c < p.size, ∀ slot < (p.instr c).captures.length,
    c + slot + 1 < p.size ∧ (p.instr (c + slot + 1)).closureBindingFor = some c ∧
      (p.instr c).captures.getD slot default =
        ⟨(p.instr (c + slot + 1)).pc, (p.instr (c + slot + 1)).b,
          (p.instr (c + slot + 1)).op == .GETUPVAL⟩
  captured_iff : ∀ r < p.maxstack, p.capturedRegisters.getD r false = true ↔
    ∃ k < p.size, ∃ c, (p.instr k).closureBindingFor = some c ∧ (p.instr k).op = .MOVE ∧
      (p.instr k).b = r

theorem associateClosureCaptures_bindings {p q : Proto}
    (hp : ∀ pc < p.size, Fresh (p.instr pc)) (h : associateClosureCaptures p = .ok q) :
    Bindings q := by
  unfold associateClosureCaptures at h
  obtain ⟨s, hs, h⟩ := except_bind_ok.1 h
  obtain rfl := pure_ok.1 h
  have hstart : Bound p.maxstack 0
      { code := p.code, capturedRegisters := List.replicate p.maxstack false } := by
    refine ⟨fun k _ hk => hp k hk, fun k hk => absurd hk (Nat.not_lt_zero k),
      fun c hc => absurd hc (Nat.not_lt_zero c), List.length_replicate, fun r hr => ?_⟩
    rw [List.getD_eq_getElem _ _ (by simpa using hr), List.getElem_replicate]
    simp
  have hbound := associateFrom_bound hs hstart (by simp) (Nat.zero_le _)
  exact ⟨hbound.binding, hbound.covers, hbound.captured_iff⟩

/-- The layout of a prototype whose captures are associated. -/
structure Arranged (p : Proto) : Prop where
  extra : ExtraWords p.code
  bindings : Bindings p

/-- A list of instructions as the decoding loop leaves it. -/
structure Coded (code : List Instr) : Prop where
  decoded : ∀ pc < code.length, Decoded pc (code.getD pc default) ∧ Fresh (code.getD pc default)
  extra : ExtraWords code

theorem decodeCode_coded {rawCode : List ℕ} {code : List Instr}
    (h : decodeCode rawCode = .ok code) : Coded code :=
  ⟨decodeCode_decoded h, decodeCode_extraWords h⟩

theorem getD_base {code code' : List Instr} (h : code'.map Instr.base = code.map Instr.base)
    (k : ℕ) : (code'.getD k default).base = (code.getD k default).base := by
  have hget := congrArg (fun l => l.getD k (default : Instr).base) h
  simpa only [List.getD_map] using hget

theorem ExtraWords.of_base {code code' : List Instr} (h : ExtraWords code)
    (hbase : code'.map Instr.base = code.map Instr.base) : ExtraWords code' := by
  have hlen : code'.length = code.length := by simpa using congrArg List.length hbase
  have hextra : ∀ k, (code'.getD k default).extraWord = (code.getD k default).extraWord := fun k =>
    field_of_base (getD_base hbase k) Instr.extraWord fun _ => rfl
  have hhas : ∀ k, (code'.getD k default).HasExtraWord ↔ (code.getD k default).HasExtraWord := by
    intro k
    have hop : (code'.getD k default).op = (code.getD k default).op :=
      field_of_base (getD_base hbase k) Instr.op fun _ => rfl
    have hc : (code'.getD k default).c = (code.getD k default).c :=
      field_of_base (getD_base hbase k) Instr.c fun _ => rfl
    unfold Instr.HasExtraWord
    rw [hop, hc]
  refine ⟨fun k hk => ?_, fun k hk hc => ?_⟩
  · rw [hextra, h.extra_iff k (by omega)]
    exact exists_congr fun j => and_congr_right fun _ => (hhas j).symm
  · rw [hlen]
    exact h.extra_lt k (by omega) ((hhas k).1 hc)

end ByteVeil.Lua51
