import ByteVeil.LuaSyntax.Meaning

/-!
# Conjunctions and disjunctions

1. A term is read whole in front of weak operators and behind them; a comparison of operands is a
   term for `and` and `or`, although it has no parentheses.
2. Terms between equal operators are read from the left.
3. Texts that are read whole between `and` and `or`, and the truth of what they are joined to.
-/

namespace LuaSyntax

variable {ts us : List Token} {e e' : Expr}

/-! ## Terms -/

/-- The tokens of an operand of the operators of priority up to `bound`, whichever side they are on. -/
def IsTerm (bound : ℕ) (ts : List Token) (e : Expr) : Prop :=
  ∀ limit ≤ bound, ∀ rest o, NoSuffix rest → Stops bound rest →
    Settles (fun n => operators n limit e rest) o → Settles (fun n => expr n limit (ts ++ rest)) o

theorem Stops.mono {limit limit' : ℕ} {rest : List Token} (h : Stops limit rest)
    (hle : limit ≤ limit') : Stops limit' rest :=
  fun t ht op hop => (h t ht op hop).trans hle

theorem stops_cons {t : Token} {op : BinaryOp} {limit : ℕ} (hop : binaryOp t = some op)
    (hle : op.left ≤ limit) (rest : List Token) : Stops limit (t :: rest) := by
  intro u hu op' hop'
  obtain rfl := Option.some.inj hu
  rw [hop] at hop'
  obtain rfl := Option.some.inj hop'
  exact hle

theorem BinaryOp.left_le (op : BinaryOp) : op.left ≤ op.right + 1 := by
  cases op <;> decide

theorem IsOperand.term {bound : ℕ} (h : IsOperand bound ts e) : IsTerm bound ts e :=
  fun limit _ rest o hsuffix hstops ho => h limit rest o hsuffix hstops ho

theorem IsTerm.closed {bound : ℕ} (h : IsTerm bound ts e) : IsClosed ts e :=
  fun rest hrest =>
    h 0 (Nat.zero_le bound) rest _ hrest.suffix (hrest.stops bound) (settles_stop (hrest.stops 0))

/-- An operator between operands is a term of the weaker operators. -/
theorem isTerm_binary {t : Token} {op : BinaryOp} {bound bound' b : ℕ} (hop : binaryOp t = some op)
    (h : IsOperand bound ts e) (hbound : op.left ≤ bound) (h' : IsOperand bound' us e')
    (hbound' : b ≤ bound') (hb : b < op.left) : IsTerm b (ts ++ t :: us) (.binary op e e') := by
  intro limit hlimit rest o hsuffix hstops ho
  have hright : b ≤ op.right := by
    have := op.left_le
    omega
  rw [List.append_assoc, List.cons_append]
  apply h limit _ _ (noSuffix_of_binaryOp hop _) (stops_cons hop hbound _)
  apply settles_step hop (by omega) _ ho
  apply h' _ _ _ hsuffix (hstops.mono hbound')
  exact settles_stop (hstops.mono hright)

/-! ## Equal operators in a row -/

/-- Expressions with an operator between them, from the left. -/
def chain (op : BinaryOp) : Expr → List Expr → Expr := List.foldl (.binary op)

/-- Token lists behind an operator each. -/
def links (t : Token) (l : List (List Token)) : List Token := l.flatMap fun ts => t :: ts

theorem settles_links {t : Token} {op : BinaryOp} {bound limit : ℕ} (hop : binaryOp t = some op)
    (hright : op.right = op.left) (hbound : op.left ≤ bound) (hlimit : limit < op.left)
    {l : List (List Token)} {es : List Expr} (hl : List.Forall₂ (IsTerm bound) l es)
    {rest : List Token} (hsuffix : NoSuffix rest) (hstops : Stops op.left rest)
    {o : Option (Expr × List Token)} {e : Expr}
    (ho : Settles (fun n => operators n limit (chain op e es) rest) o) :
    Settles (fun n => operators n limit e (links t l ++ rest)) o := by
  induction hl generalizing e with
  | nil => exact ho
  | @cons us e' l es hus hl ih =>
    -- what stands behind a link: the next operator, or the end
    have hbehind : NoSuffix (links t l ++ rest) ∧ Stops op.left (links t l ++ rest) := by
      cases l with
      | nil => exact ⟨hsuffix, hstops⟩
      | cons vs l => exact ⟨noSuffix_of_binaryOp hop _, stops_cons hop le_rfl _⟩
    show Settles (fun n => operators n limit e ((t :: us ++ links t l) ++ rest)) o
    rw [List.cons_append, List.cons_append, List.append_assoc]
    apply settles_step hop hlimit _ (ih ho)
    rw [hright]
    apply hus _ hbound _ _ hbehind.1 (hbehind.2.mono hbound)
    exact settles_stop hbehind.2

/-- Terms with an operator between them. -/
theorem isTerm_links {t : Token} {op : BinaryOp} {bound b : ℕ} (hop : binaryOp t = some op)
    (hright : op.right = op.left) (hbound : op.left ≤ bound) (hb : b < op.left)
    (h : IsTerm bound ts e) {l : List (List Token)} {es : List Expr}
    (hl : List.Forall₂ (IsTerm bound) l es) : IsTerm b (ts ++ links t l) (chain op e es) := by
  intro limit hlimit rest o hsuffix hstops ho
  have hstops' : Stops op.left rest := hstops.mono hb.le
  have hbehind : NoSuffix (links t l ++ rest) ∧ Stops op.left (links t l ++ rest) := by
    cases l with
    | nil => exact ⟨hsuffix, hstops'⟩
    | cons vs l => exact ⟨noSuffix_of_binaryOp hop _, stops_cons hop le_rfl _⟩
  rw [List.append_assoc]
  apply h limit (by omega) _ _ hbehind.1 (hbehind.2.mono hbound)
  exact settles_links hop hright hbound (by omega) hl hsuffix hstops' ho

/-! ## Operands and comparisons -/

section Texts

variable {text text' : List Char}

/-- The priority of `and`, which binds tighter than `or`. -/
def joining : ℕ := BinaryOp.left .and

/-- The text is read as the expression wherever it stands between `and` and `or`. -/
def Stands (text : List Char) (e : Expr) : Prop :=
  ∃ ts, Prints inNumeral text ts ∧ IsTerm joining ts e

theorem Stands.closes (h : Stands text e) : Closes text e := by
  obtain ⟨ts, hprints, hterm⟩ := h
  exact ⟨ts, hprints, hterm.closed⟩

theorem Stands.reads (h : Stands text e) : Reads text e := h.closes.reads

theorem Operand.stands (h : Operand text e) : Stands text e := by
  obtain ⟨ts, hprints, hoperand⟩ := h
  exact ⟨ts, hprints, (hoperand.mono (by decide)).term⟩

/-- Operands with an operator between them that binds tighter than `and`. -/
theorem Operand.binary {mark : List Char} {op : BinaryOp} (h : Operand text e)
    (h' : Operand text' e') (hmark : IsMark mark) (hop : binaryOp (.mark mark) = some op)
    (hweak : op.left ≤ unaryPriority) (htight : joining < op.left) :
    Stands (text ++ (' ' :: mark ++ [' ']) ++ text') (.binary op e e') := by
  obtain ⟨ts, hprints, hoperand⟩ := h
  obtain ⟨us, hprints', hoperand'⟩ := h'
  exact ⟨_, hprints.binary hprints' hmark, isTerm_binary hop hoperand hweak hoperand' (by decide)
    htight⟩

end Texts

/-! ## Texts between `and` and `or` -/

/-- The operators of chains. -/
inductive Joiner
  | and | or
  deriving DecidableEq

/-- The reserved word. -/
def Joiner.word : Joiner → List Char
  | and => ['a', 'n', 'd']
  | or => ['o', 'r']

/-- The operator. -/
def Joiner.op : Joiner → BinaryOp
  | and => .and
  | or => .or

/-- What the operator does to truth values. -/
def Joiner.truth : Joiner → List Bool → Bool
  | and, bs => bs.all id
  | or, bs => bs.any id

/-- Texts with the word and blanks between them. -/
def Joiner.text (j : Joiner) (texts : List (List Char)) : List Char :=
  List.intercalate (' ' :: j.word ++ [' ']) texts

variable {text : List Char}

theorem Stands.paren (h : Stands text e) : Stands ('(' :: (text ++ [')'])) (.paren e) := by
  obtain ⟨ts, hprints, hterm⟩ := h
  refine ⟨_, (prints_paren hprints).mono (by simp [anything]), ?_⟩
  exact ((isPrefix_paren hterm.closed).operand.mono (by decide)).term

/-- `not` and a text in parentheses. -/
def notText (text : List Char) : List Char := ['n', 'o', 't', ' ', '('] ++ text ++ [')']

theorem Stands.not (h : Stands text e) : Stands (notText text) (.unary .not (.paren e)) := by
  obtain ⟨ts, hprints, hterm⟩ := h
  refine ⟨.word ['n', 'o', 't'] :: (.mark ['('] :: (ts ++ [.mark [')']])), ?_, ?_⟩
  · intro rest us hrest hus
    have hword : wordToken ['n', 'o', 't'] = .word ['n', 'o', 't'] := by decide
    have hform : IsWord ['n', 'o', 't'] := isWord_of_all rfl
    have hblank : isBlank ' ' = true := rfl
    have hinner := Lexes.blank hblank (prints_paren hprints rest us (fun _ _ => rfl) hus)
    have hnot := lexes_word hform (by simp [inName, startsName]) hinner
    rw [hword] at hnot
    exact hnot
  · have hop : unaryOp (.word ['n', 'o', 't']) = some .not := rfl
    exact (((isPrefix_paren hterm.closed).operand.unary hop).mono (by decide)).term

theorem Joiner.text_cons (j : Joiner) (text : List Char) (texts : List (List Char)) :
    j.text (text :: texts) = text ++ texts.flatMap fun t => ' ' :: j.word ++ ' ' :: t := by
  unfold Joiner.text
  induction texts generalizing text with
  | nil => simp [List.intercalate]
  | cons t texts ih =>
    have hsplit : List.intercalate (' ' :: j.word ++ [' ']) (text :: t :: texts) =
        text ++ (' ' :: j.word ++ [' ']) ++ List.intercalate (' ' :: j.word ++ [' ']) (t :: texts) := by
      simp [List.intercalate, List.intersperse]
    rw [hsplit, ih, List.flatMap_cons]
    simp

/-- The token of the word. -/
def Joiner.token (j : Joiner) : Token := .word j.word

theorem Joiner.lexes (j : Joiner) {rest : List Char} (h : Lexes rest ts) :
    Lexes (' ' :: j.word ++ ' ' :: rest) (j.token :: ts) := by
  have hword : IsWord j.word ∧ wordToken j.word = j.token := by
    cases j
    · exact ⟨isWord_of_all rfl, rfl⟩
    · exact ⟨isWord_of_all rfl, rfl⟩
  apply Lexes.blank rfl
  rw [← hword.2]
  exact lexes_word hword.1 (by simp [inName, startsName]) (.blank rfl h)

/-- Texts behind the word are read as terms behind the operator. -/
theorem exists_links (j : Joiner) {texts : List (List Char)} {es : List Expr}
    (h : List.Forall₂ Stands texts es) : ∃ l, List.Forall₂ (IsTerm joining) l es ∧
      Lexes (texts.flatMap fun t => ' ' :: j.word ++ ' ' :: t) (links j.token l) ∧
      ∀ c ∈ (texts.flatMap fun t => ' ' :: j.word ++ ' ' :: t).head?, inNumeral c = false := by
  induction h with
  | nil => exact ⟨[], .nil, .nil, by simp⟩
  | cons hstands _ ih =>
    obtain ⟨us, hprints, hterm⟩ := hstands
    obtain ⟨l, hl, hlexes, hhead⟩ := ih
    refine ⟨us :: l, .cons hterm hl, ?_, by simp [inNumeral, inName, startsName]⟩
    have hlink := j.lexes (hprints _ _ hhead hlexes)
    rw [List.flatMap_cons, List.append_assoc]
    simpa [links] using hlink

/-- The chain is read from the left, whatever its texts are. -/
theorem reads_chain (j : Joiner) (h : Stands text e) {texts : List (List Char)} {es : List Expr}
    (hes : List.Forall₂ Stands texts es) : Reads (j.text (text :: texts)) (chain j.op e es) := by
  obtain ⟨ts, hprints, hterm⟩ := h
  obtain ⟨l, hl, hlexes, hhead⟩ := exists_links j hes
  have hop : binaryOp j.token = some j.op ∧ j.op.right = j.op.left ∧ j.op.left ≤ joining ∧
      0 < j.op.left := by
    cases j <;> exact ⟨rfl, rfl, by decide, by decide⟩
  have hread := (isTerm_links hop.1 hop.2.1 hop.2.2.1 hop.2.2.2 hterm hl).closed [] ends_nil
  rw [List.append_nil] at hread
  rw [Joiner.text_cons]
  exact ⟨_, hprints _ _ hhead hlexes, hread⟩

theorem World.holds_chain {V : Type} (k : Values V) (w : World V) (j : Joiner) (e : Expr)
    (es : List Expr) :
    w.holds k (chain j.op e es) = j.truth ((e :: es).map (w.holds k)) := by
  induction es generalizing e with
  | nil => cases j <;> simp [chain, Joiner.truth]
  | cons e' es ih =>
    show w.holds k (chain j.op (.binary j.op e e') es) = _
    rw [ih]
    cases j <;> simp [Joiner.truth, Joiner.op, Bool.and_assoc, Bool.or_assoc]

end LuaSyntax
