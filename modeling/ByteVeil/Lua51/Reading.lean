import ByteVeil.Lua51.Texts
import ByteVeil.LuaSyntax.Chains

/-!
# How printed operands and calls are read

The printing of numbers is a parameter: a numeral for every finite magnitude, `inf` and `nan`, with a
minus sign in front of negative numbers.

1. Names, strings and numbers are read back token by token.
2. The tokens and the syntax tree of operands, reads and calls.
3. Which of them are prefixes, operands and closed expressions; a literal in front of a suffix blocks
   the parser.
-/

namespace ByteVeil.Lua51

open LuaSyntax Naming

/-! ## Numbers -/

/-- The printing of magnitudes, and the value of numerals. -/
structure NumberText where
  magnitude : ℕ → List Char
  value : List Char → Option Double
  finite : ∀ m < Double.infinite, IsNumeral (magnitude m) ∧ value (magnitude m) = some ⟨false, m⟩
  infinity : magnitude Double.infinite = ['i', 'n', 'f']
  nan : ∀ m, Double.infinite < m → magnitude m = ['n', 'a', 'n']

/-- The printing of numbers. -/
def NumberText.format (numbers : NumberText) (d : Double) : List Char :=
  (if d.negative then ['-'] else []) ++ numbers.magnitude d.magnitude

/-- A magnitude that is not finite is printed as a name. -/
theorem NumberText.isName (numbers : NumberText) {m : ℕ} (h : ¬m < Double.infinite) :
    IsName (numbers.magnitude m) := by
  rcases Nat.lt_or_eq_of_le (not_lt.1 h) with hlt | heq
  · rw [numbers.nan m hlt]
    exact ⟨isWord_of_all rfl, by decide⟩
  · rw [← heq, numbers.infinity]
    exact ⟨isWord_of_all rfl, by decide⟩

/-! ## Names -/

theorem startsName_eq (c : Char) : startsName c = isLetter c := by
  simp only [startsName, isLetter, isAlpha_eq, Char.le_def]
  rw [Bool.or_comm (decide _ && decide _)]
  simp only [ge_iff_le, Bool.decide_and]

theorem inName_eq (c : Char) : inName c = (isLetter c || ('0' ≤ c && c ≤ '9')) := by
  simp only [inName, startsName_eq, Char.isDigit, Char.le_def, ge_iff_le]

theorem keywords_eq : keywords = reserved := rfl

theorem isName_identifier {name : List UInt8} (h : validIdentifier name = true) :
    IsName (characters name) := by
  unfold validIdentifier at h
  unfold characters
  split at h
  · cases h
  · rename_i c cs heq
    rw [heq]
    simp only [Bool.and_eq_true, List.all_eq_true, Bool.not_eq_true'] at h
    refine ⟨⟨by rw [startsName_eq, h.1.1], fun d hd => by rw [inName_eq, h.1.2 d hd]⟩, ?_⟩
    simpa [keywords_eq] using h.2

theorem inName_decimal {n : ℕ} {c : Char} (h : c ∈ decimal n) : inName c = true := by
  have hdigit : c.isDigit = true := Nat.isDigit_of_mem_toDigits (by decide) (by decide) h
  simp [inName, hdigit]

theorem isName_regName (r : ℕ) : IsName (regName r) := by
  refine ⟨⟨by decide, fun d hd => inName_decimal hd⟩, fun hmem => ?_⟩
  have hdigits : ∀ c ∈ decimal r, c.isDigit = true := fun c hc =>
    Nat.isDigit_of_mem_toDigits (by decide) (by decide) hc
  have hletters : ∀ w ∈ reserved, (w.any Char.isDigit) = false := by decide
  have hne : decimal r ≠ [] := Nat.toDigits_ne_nil
  obtain ⟨d, ds, hd⟩ := List.exists_cons_of_ne_nil hne
  have hmem' : d ∈ regName r := List.mem_cons_of_mem _ (hd ▸ List.mem_cons_self)
  exact List.any_eq_false.1 (hletters _ hmem) d hmem' (hdigits d (hd ▸ List.mem_cons_self))

theorem isName_byteveil {word : List Char} (h : ∀ c ∈ word, inName c = true) :
    IsName (byteveil word) := by
  refine ⟨⟨by decide, fun d hd => ?_⟩, fun hmem => ?_⟩
  · have hall : ∀ c ∈ ['_', 'b', 'y', 't', 'e', 'v', 'e', 'i', 'l', '_'], inName c = true :=
      List.all_eq_true.1 rfl
    rcases List.mem_append.1 hd with hd | hd
    · exact hall d hd
    · exact h d hd
  · have hfirst : ∀ w ∈ reserved, w.head? ≠ some '_' := by decide
    exact hfirst _ hmem rfl

theorem isName_qualifiedName (p : Proto) (r : ℕ) : IsName (qualifiedName p r) := by
  refine isName_byteveil fun c hc => ?_
  simp only [List.mem_append, List.mem_cons, List.not_mem_nil, or_false] at hc
  rcases hc with ((rfl | hc) | rfl | rfl) | hc
  · decide
  · exact inName_decimal hc
  · decide
  · decide
  · exact inName_decimal hc

theorem isName_localReg (p : Proto) (r pc : ℕ) : IsName (localReg p r pc) := by
  unfold localReg
  split
  · split_ifs with hvalid
    · exact isName_identifier hvalid
    · exact isName_regName r
  · exact isName_regName r

theorem isName_renderedRegisterName (p : Proto) (r pc : ℕ) (context : RenderContext) :
    IsName (renderedRegisterName p r pc context) := by
  unfold renderedRegisterName
  split_ifs
  · exact isName_regName r
  · exact isName_qualifiedName p r
  · exact isName_localReg p r pc
  · exact isName_regName r
  · exact isName_qualifiedName p r

theorem isName_capturedCellName (p : Proto) (r : ℕ) : IsName (capturedCellName p r) := by
  unfold capturedCellName byteveil
  obtain ⟨k, hk⟩ := avoid_eq (debugNames p) '_'
    (byteveil (['u', 'p', 'c', 'e', 'l', 'l', '_', 'f'] ++ decimal p.id ++ ['_', 'r'] ++ decimal r))
  unfold byteveil at hk
  rw [hk, List.append_assoc]
  refine isName_byteveil fun c hc => ?_
  simp only [List.mem_append, List.mem_cons, List.not_mem_nil, or_false, List.mem_replicate] at hc
  rcases hc with (((hc | hc) | hc) | hc) | hc
  · rcases hc with rfl | rfl | rfl | rfl | rfl | rfl | rfl | rfl <;> decide
  · exact inName_decimal hc
  · rcases hc with rfl | rfl <;> decide
  · exact inName_decimal hc
  · rw [hc.2]
    decide

/-! ## Strings -/

theorem digit_spec {n : ℕ} (h : n < 10) : (digit n).isDigit = true ∧ (digit n).toNat - 48 = n := by
  have hall : ∀ n < 10, (digit n).isDigit = true ∧ (digit n).toNat - 48 = n := by decide
  exact hall n h

/-- The lexer reads the escape of a byte back. -/
theorem readString_quoteByte (b : UInt8) (cs : List Char) : readString '"' (quoteByte b ++ cs) =
    (readString '"' cs).map fun found => (Char.ofNat b.toNat :: found.1, found.2) := by
  have hlt : b.toNat < 256 := b.toNat_lt
  unfold quoteByte
  dsimp only
  split
  case h_10 hescape hquote _ _ _ _ _ _ _ =>
    split_ifs with hplain
    · have hall : ∀ n < 127, (n < 32 ∨ n = 92 ∨ n = 34) ∨ Char.ofNat n ≠ '"' ∧
          endsLine (Char.ofNat n) = false ∧ Char.ofNat n ≠ '\\' := by decide
      have hnot : ¬(b.toNat < 32 ∨ b.toNat = 92 ∨ b.toNat = 34) := by
        rintro (h | h | h)
        · exact absurd hplain.1 (Nat.not_le.2 h)
        · exact hescape h
        · exact hquote h
      obtain ⟨h₁, h₂, h₃⟩ := (hall b.toNat (by omega)).resolve_left hnot
      exact readString_plain h₁ h₂ h₃
    · obtain ⟨hd₁, hv₁⟩ := digit_spec (n := b.toNat / 100) (by omega)
      obtain ⟨hd₂, hv₂⟩ := digit_spec (n := b.toNat / 10 % 10) (by omega)
      obtain ⟨hd₃, hv₃⟩ := digit_spec (n := b.toNat % 10) (by omega)
      have hvalue : decimalValue [digit (b.toNat / 100), digit (b.toNat / 10 % 10),
          digit (b.toNat % 10)] = b.toNat := by
        simp only [decimalValue, List.foldl_cons, List.foldl_nil, hv₁, hv₂, hv₃]
        omega
      have hdigits : ∀ d ∈ [digit (b.toNat / 100), digit (b.toNat / 10 % 10), digit (b.toNat % 10)],
          d.isDigit = true := by simp [hd₁, hd₂, hd₃]
      have hread := @readString_decimal '"' _ _ _ cs (by decide) hdigits (by omega)
      rw [hvalue] at hread
      exact hread
  all_goals
    rename_i heq
    rw [heq]
    exact readString_letter (by decide) (by decide) (by decide)

theorem readString_body (bytes : List UInt8) (rest : List Char) :
    readString '"' (bytes.flatMap quoteByte ++ ['"'] ++ rest) = some (characters bytes, rest) := by
  induction bytes with
  | nil => exact readString_close '"' rest
  | cons b bytes ih =>
    rw [List.flatMap_cons, List.append_assoc, List.append_assoc, readString_quoteByte,
      ← List.append_assoc, ih]
    rfl

theorem prints_luaQuote (bytes : List UInt8) :
    Prints anything (luaQuote bytes) [.string (characters bytes)] :=
  prints_string (Or.inl rfl) (readString_body bytes)

/-! ## Operands -/

section Operands

variable (numbers : NumberText) (p : Proto) (context : RenderContext)

/-- The expression that a magnitude is read as. -/
def NumberText.operand (m : ℕ) : LuaSyntax.Expr :=
  if m < Double.infinite then .number (numbers.magnitude m) else .name (numbers.magnitude m)

/-- The expression that a constant is read as. -/
def Constant.tree : Constant → LuaSyntax.Expr
  | nil => .nil
  | boolean b => .boolean b
  | number d =>
    if d.negative then .unary .neg (numbers.operand d.magnitude) else numbers.operand d.magnitude
  | string bytes => .string (characters bytes)

/-- The expression that a register's variable is read as. -/
def localTree (r pc : ℕ) : LuaSyntax.Expr :=
  if managedCapturedLocal p r then .index (.name (capturedCellName p r)) (.number ['1'])
  else .name (renderedRegisterName p r pc context)

/-- The expression that a rendered value is read as. -/
def Rendered.tree : Rendered → LuaSyntax.Expr
  | constant c => c.tree numbers
  | register r pc => localTree p context r pc

/-- A number with a minus sign. -/
def Constant.negative : Constant → Bool
  | number d => d.negative
  | _ => false

/-- A magnitude does not begin with a minus sign. -/
theorem NumberText.exists_cons (m : ℕ) : ∃ c cs, numbers.magnitude m = c :: cs ∧ c ≠ '-' := by
  by_cases hfinite : m < Double.infinite
  · obtain ⟨whole, fraction, mark, digits, htext, hwhole, -⟩ := (numbers.finite m hfinite).1.parts
    obtain ⟨d, ds, rfl⟩ := List.exists_cons_of_ne_nil hwhole.1
    refine ⟨d, _, htext, ?_⟩
    rintro rfl
    exact absurd (hwhole.2 '-' List.mem_cons_self) (by decide)
  · have hword := (numbers.isName hfinite).word
    cases htext : numbers.magnitude m with
    | nil =>
      rw [htext] at hword
      exact hword.elim
    | cons c cs =>
      rw [htext] at hword
      refine ⟨c, cs, rfl, ?_⟩
      rintro rfl
      exact absurd hword.1 (by decide)

theorem NumberText.tight (m : ℕ) : Tight (numbers.magnitude m) (numbers.operand m) := by
  unfold NumberText.operand
  split_ifs with hfinite
  · exact ⟨_, prints_numeral (numbers.finite m hfinite).1, isOperand_literal rfl⟩
  · exact (heads_name (numbers.isName hfinite)).tight

theorem operand_number (d : Double) :
    LuaSyntax.Operand (numbers.format d) ((Constant.number d).tree numbers) := by
  have htight := numbers.tight d.magnitude
  show LuaSyntax.Operand _ (if d.negative then .unary .neg (numbers.operand d.magnitude)
    else numbers.operand d.magnitude)
  unfold NumberText.format
  cases d.negative
  · exact htight.operand
  · obtain ⟨c, cs, htext, hc⟩ := numbers.exists_cons d.magnitude
    rw [htext] at htight ⊢
    exact htight.neg (by simpa using hc) (List.cons_ne_nil _ _)

/-- A reserved word that is an expression. -/
theorem tight_word {text : List Char} {e : LuaSyntax.Expr} (hform : IsWord text)
    (hliteral : literal (wordToken text) = some e) : Tight text e :=
  ⟨_, prints_inName (prints_word hform), isOperand_literal hliteral⟩

/-- Only a sign does not bind tight. -/
theorem tight_constant {c : Constant} (h : c.negative = false) :
    Tight (c.text numbers.format) (c.tree numbers) := by
  cases c with
  | nil => exact tight_word (isWord_of_all rfl) rfl
  | boolean b => cases b <;> exact tight_word (isWord_of_all rfl) rfl
  | number d =>
    have hsign : d.negative = false := h
    show Tight ((if d.negative then ['-'] else []) ++ numbers.magnitude d.magnitude)
      (if d.negative then .unary .neg (numbers.operand d.magnitude) else numbers.operand d.magnitude)
    rw [hsign]
    exact numbers.tight d.magnitude
  | string bytes => exact ⟨_, prints_anything (prints_luaQuote bytes), isOperand_literal rfl⟩

theorem operand_constant (c : Constant) :
    LuaSyntax.Operand (c.text numbers.format) (c.tree numbers) := by
  cases h : c.negative
  · exact (tight_constant numbers h).operand
  · cases c with
    | number d => exact operand_number numbers d
    | _ => cases h

theorem isNumeral_one : IsNumeral ['1'] :=
  ⟨['1'], [], [], [], rfl, ⟨by decide, List.all_eq_true.1 rfl⟩, Or.inl rfl, Or.inl ⟨rfl, rfl⟩⟩

theorem heads_local (r pc : ℕ) : Heads (renderedLocal p r pc context) (localTree p context r pc) := by
  unfold renderedLocal localTree
  split_ifs
  · have hone : Tight ['1'] (.number ['1']) :=
      ⟨_, prints_numeral isNumeral_one, isOperand_literal rfl⟩
    exact (heads_name (isName_capturedCellName p r)).element hone.operand.closes
  · exact heads_name (isName_renderedRegisterName p r pc context)

theorem operand_local (r pc : ℕ) :
    LuaSyntax.Operand (renderedLocal p r pc context) (localTree p context r pc) :=
  (heads_local p context r pc).tight.operand

theorem operand_rendered (v : Rendered) :
    LuaSyntax.Operand (v.text numbers.format p context) (v.tree numbers p context) := by
  cases v with
  | constant c => exact operand_constant numbers c
  | register r pc => exact operand_local p context r pc

end Operands

end ByteVeil.Lua51
