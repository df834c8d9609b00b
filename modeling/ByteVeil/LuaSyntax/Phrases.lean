import ByteVeil.LuaSyntax.Operands
import Mathlib.Data.List.Forall2

/-!
# Texts of expressions

Texts that the lexer and the parser read as one expression, by what may stand behind them.

1. Kinds of texts.
2. The tokens of fields, elements and calls.
3. Fields, elements and calls of a prefix are prefixes; with a literal in front they are blocked, and
   so is a call with a blocked argument.
4. Signs, and powers, whose left operand binds tighter than its sign.
5. Lists of expressions.
-/

namespace LuaSyntax

variable {text text' name key : List Char} {ts us : List Token} {e e' : Expr}

/-! ## Kinds of texts -/

/-- The text is read as an expression that goes on with the suffixes behind it. -/
def Heads (text : List Char) (e : Expr) : Prop := ∃ ts, Prints inName text ts ∧ IsPrefix ts e

/-- The text is read as an operand of any operator. -/
def Tight (text : List Char) (e : Expr) : Prop :=
  ∃ ts, Prints inNumeral text ts ∧ IsOperand tightest ts e

/-- The text is read as an operand of any operator but `^`. -/
def Operand (text : List Char) (e : Expr) : Prop :=
  ∃ ts, Prints inNumeral text ts ∧ IsOperand unaryPriority ts e

/-- The text is read as an expression in front of a mark. -/
def Closes (text : List Char) (e : Expr) : Prop :=
  ∃ ts, Prints inNumeral text ts ∧ IsClosed ts e

/-- The text makes no expression. -/
def Blocked (bad : Char → Bool) (text : List Char) : Prop :=
  ∃ ts, Prints bad text ts ∧ IsBlocked ts

/-- The text makes no expression with a suffix behind it. -/
def Bars (bad : Char → Bool) (text : List Char) : Prop :=
  ∃ ts, Prints bad text ts ∧ ∀ t us, goesOn t = true → IsBlocked (ts ++ t :: us)

/-- The text has tokens. -/
def Printable (text : List Char) : Prop := ∃ ts, Prints inNumeral text ts

theorem prints_anything (h : Prints anything text ts) : Prints inNumeral text ts :=
  h.mono (by simp [anything])

theorem prints_inName (h : Prints inName text ts) : Prints inNumeral text ts :=
  h.mono fun c hc => by simp [inNumeral, hc]

theorem Heads.tight (h : Heads text e) : Tight text e := by
  obtain ⟨ts, hprints, hprefix⟩ := h
  exact ⟨ts, prints_inName hprints, hprefix.operand⟩

theorem Tight.operand (h : Tight text e) : Operand text e := by
  obtain ⟨ts, hprints, hoperand⟩ := h
  exact ⟨ts, hprints, hoperand.mono (by decide)⟩

theorem Operand.closes (h : Operand text e) : Closes text e := by
  obtain ⟨ts, hprints, hoperand⟩ := h
  exact ⟨ts, hprints, hoperand.closed⟩

theorem Heads.closes (h : Heads text e) : Closes text e := h.tight.operand.closes

theorem Closes.reads (h : Closes text e) : Reads text e := by
  obtain ⟨ts, hprints, hclosed⟩ := h
  have hread := hclosed [] ends_nil
  rw [List.append_nil] at hread
  exact ⟨ts, hprints.lexes, hread⟩

theorem heads_name (h : IsName text) : Heads text (.name text) :=
  ⟨_, prints_name h, isPrefix_name text⟩

theorem Blocked.bars {bad : Char → Bool} (h : Blocked bad text) : Bars bad text := by
  obtain ⟨ts, hprints, hblocked⟩ := h
  exact ⟨ts, hprints, fun t us _ => hblocked.append (t :: us)⟩

theorem IsLiteral.bars {bad : Char → Bool} (h : IsLiteral ts e) (hclosed : IsClosed ts e)
    (hprints : Prints bad text ts) : Bars bad text :=
  ⟨ts, hprints, fun _ us ht => h.blocked ht us hclosed.behindMark⟩

theorem Bars.weaken (h : Bars inName text) : Bars inNumeral text := by
  obtain ⟨ts, hprints, hbars⟩ := h
  exact ⟨ts, prints_inName hprints, hbars⟩

theorem Blocked.weaken (h : Blocked inName text) : Blocked inNumeral text := by
  obtain ⟨ts, hprints, hblocked⟩ := h
  exact ⟨ts, prints_inName hprints, hblocked⟩

theorem Blocked.printable (h : Blocked inNumeral text) : Printable text := by
  obtain ⟨ts, hprints, -⟩ := h
  exact ⟨ts, hprints⟩

theorem Closes.printable (h : Closes text e) : Printable text := by
  obtain ⟨ts, hprints, -⟩ := h
  exact ⟨ts, hprints⟩

/-! ## Tokens -/

theorem Prints.field (h : Prints inName text ts) (hname : IsName name) :
    Prints inName (text ++ '.' :: name) (ts ++ [.mark ['.'], .name name]) := by
  intro rest us hrest hus
  have hfield := prints_name hname rest us hrest hus
  have hdot : ∀ c ∈ (name ++ rest).head?, joins '.' c = false := by
    cases name with
    | nil => exact absurd hname.word id
    | cons c cs =>
      intro d hd
      obtain rfl : c = d := Option.some.inj hd
      have hletter : startsName c = true := hname.word.1
      have hdigit : c.isDigit = false := by
        by_contra h
        rw [Bool.not_eq_false] at h
        rw [startsName_digit h] at hletter
        cases hletter
      have hne : c ≠ '.' := by
        rintro rfl
        exact absurd hletter (by decide)
      simp [joins, hdigit, hne]
  have hall := h _ _ (by simp [inName, startsName]) (lexes_mark (by decide) hdot hfield)
  simpa using hall

theorem Prints.element (h : Prints inName text ts) (hkey : Prints inNumeral key us)
    (hjoins : ∀ c ∈ key.head?, joins '[' c = false) :
    Prints anything (text ++ '[' :: (key ++ [']'])) (ts ++ .mark ['['] :: (us ++ [.mark [']']])) := by
  intro rest vs _ hvs
  have hclose := lexes_mark (c := ']') (by decide) (fun _ _ => rfl) hvs
  have hinner := hkey _ _ (by simp [inNumeral, inName, startsName]) hclose
  have hbehind : ∀ c ∈ (key ++ ']' :: rest).head?, joins '[' c = false := by
    cases key with
    | nil => simp [joins]
    | cons c cs => exact hjoins
  have hall := h _ _ (by simp [inName, startsName]) (lexes_mark (by decide) hbehind hinner)
  simpa using hall

theorem Prints.call (h : Prints inNumeral text ts) (harguments : Prints inNumeral text' us) :
    Prints anything (text ++ '(' :: (text' ++ [')']))
      (ts ++ .mark ['('] :: (us ++ [.mark [')']])) := by
  intro rest vs _ hvs
  have hclose := lexes_mark (c := ')') (by decide) (fun _ _ => rfl) hvs
  have hinner := harguments _ _ (by simp [inNumeral, inName, startsName]) hclose
  have hopen := lexes_mark (c := '(') (by decide) (fun _ _ => rfl) hinner
  have hall := h _ _ (by simp [inNumeral, inName, startsName]) hopen
  simpa using hall

theorem prints_paren (h : Prints inNumeral text ts) :
    Prints anything ('(' :: (text ++ [')'])) (.mark ['('] :: (ts ++ [.mark [')']])) := by
  intro rest us _ hus
  have hclose := lexes_mark (c := ')') (by decide) (fun _ _ => rfl) hus
  have hinner := h _ _ (by simp [inNumeral, inName, startsName]) hclose
  have hopen := lexes_mark (c := '(') (by decide) (fun _ _ => rfl) hinner
  show Lexes ('(' :: ((text ++ [')']) ++ rest)) (.mark ['('] :: ((ts ++ [.mark [')']]) ++ us))
  rw [List.append_assoc, List.append_assoc]
  exact hopen

theorem Prints.method (h : Prints inName text ts) (hname : IsName name) :
    Prints inName (text ++ ':' :: name) (ts ++ [.mark [':'], .name name]) := by
  intro rest us hrest hus
  have hmethod := prints_name hname rest us hrest hus
  have hcolon := lexes_mark (c := ':') (by decide) (fun _ _ => rfl) hmethod
  have hall := h _ _ (by simp [inName, startsName]) hcolon
  simpa using hall

/-- The mark of an operator, whatever stands behind the blank that follows it. -/
def IsMark (mark : List Char) : Prop :=
  ∀ rest ts, Lexes rest ts → Lexes (mark ++ ' ' :: rest) (.mark mark :: ts)

theorem isMark_one {c : Char} (hc : c ∈ marks) (hjoins : joins c ' ' = false) : IsMark [c] := by
  intro rest ts h
  refine lexes_mark hc ?_ (.blank rfl h)
  intro d hd
  obtain rfl := Option.some.inj hd
  exact hjoins

theorem isMark_long {mark : List Char}
    (h : mark ∈ [['.', '.', '.'], ['=', '='], ['~', '='], ['<', '='], ['>', '=']]) : IsMark mark :=
  fun _ _ hts => lexes_longMark h (.blank rfl hts)

/-- An operator between blanks. -/
theorem Prints.binary {mark : List Char} (h : Prints inNumeral text ts)
    (h' : Prints inNumeral text' us) (hmark : IsMark mark) :
    Prints inNumeral (text ++ (' ' :: mark ++ [' ']) ++ text') (ts ++ .mark mark :: us) := by
  intro rest vs hrest hvs
  have hblank : isBlank ' ' = true := rfl
  have hbehind := Lexes.blank hblank (hmark _ _ (h' rest vs hrest hvs))
  have hall := h _ _ (by simp [inNumeral, inName, startsName]) hbehind
  simpa using hall

theorem Prints.minus (h : Prints inNumeral text ts) (hhead : ∀ c ∈ text.head?, c ≠ '-')
    (hne : text ≠ []) : Prints inNumeral ('-' :: text) (.mark ['-'] :: ts) := by
  intro rest us hrest hus
  apply lexes_mark (by decide) _ (h rest us hrest hus)
  obtain ⟨c, cs, rfl⟩ := List.exists_cons_of_ne_nil hne
  intro d hd
  obtain rfl : c = d := Option.some.inj hd
  exact joins_minus (hhead c rfl)

/-- The tokens of several texts. -/
theorem exists_tokens {texts : List (List Char)} {es : List Expr}
    (h : List.Forall₂ Closes texts es) : ∃ l, List.Forall₂ (Prints inNumeral) texts l ∧
      List.Forall₂ IsClosed l es := by
  induction h with
  | nil => exact ⟨[], .nil, .nil⟩
  | cons hcloses _ ih =>
    obtain ⟨ts, hprints, hclosed⟩ := hcloses
    obtain ⟨l, hl, hes⟩ := ih
    exact ⟨ts :: l, .cons hprints hl, .cons hclosed hes⟩

theorem printable_commaText {texts : List (List Char)} (h : ∀ text ∈ texts, Printable text) :
    Printable (commaText texts) := by
  have htokens : ∃ l, List.Forall₂ (Prints inNumeral) texts l := by
    induction texts with
    | nil => exact ⟨[], .nil⟩
    | cons text texts ih =>
      obtain ⟨ts, hts⟩ := h text List.mem_cons_self
      obtain ⟨l, hl⟩ := ih fun t ht => h t (List.mem_cons_of_mem _ ht)
      exact ⟨ts :: l, .cons hts hl⟩
  obtain ⟨l, hl⟩ := htokens
  exact ⟨_, prints_commas rfl hl⟩

/-- The mark that a bracket or an equality sign begins is no beginning of an expression. -/
theorem not_begins_of_lexes {c : Char} {cs : List Char} {t : Token} (hc : c = '[' ∨ c = '=')
    (h : Lexes (c :: cs) (t :: ts)) : begins t = false := by
  have hmark : isBlank c = false ∧ readToken (c :: cs) = readMark (c :: cs) := by
    rcases hc with rfl | rfl <;> exact ⟨rfl, rfl⟩
  cases h with
  | blank hblank =>
    rw [hmark.1] at hblank
    cases hblank
  | token hread =>
    rw [hmark.2] at hread
    unfold readMark at hread
    split at hread
    all_goals simp_all [begins, unaryOp, literal]
    all_goals grind

/-- An expression begins with nothing that an opening bracket would join. -/
theorem Closes.not_joins (h : Closes text e) : ∀ c ∈ text.head?, joins '[' c = false := by
  obtain ⟨ts, hprints, hclosed⟩ := h
  obtain ⟨t, us, rfl, ht⟩ := hclosed.begins
  intro c hc
  by_contra hjoins
  have hbracket : c = '[' ∨ c = '=' := by
    unfold joins at hjoins
    split at hjoins <;> simp_all
  cases text with
  | nil => cases hc
  | cons d cs =>
    obtain rfl : d = c := Option.some.inj hc
    rw [not_begins_of_lexes hbracket hprints.lexes] at ht
    cases ht

theorem Closes.paren (h : Closes text e) : Heads ('(' :: (text ++ [')'])) (.paren e) := by
  obtain ⟨ts, hprints, hclosed⟩ := h
  exact ⟨_, (prints_paren hprints).mono (by simp [anything]), isPrefix_paren hclosed⟩

/-! ## Suffixes -/

theorem Heads.field (h : Heads text e) (hname : IsName name) :
    Heads (text ++ '.' :: name) (.index e (.string name)) := by
  obtain ⟨ts, hprints, hprefix⟩ := h
  exact ⟨_, hprints.field hname, hprefix.field name⟩

theorem Bars.field (h : Bars inName text) (hname : IsName name) :
    Blocked inName (text ++ '.' :: name) := by
  obtain ⟨ts, hprints, hbars⟩ := h
  exact ⟨_, hprints.field hname, hbars _ _ rfl⟩

theorem Heads.element (h : Heads text e) (hkey : Closes key e') :
    Heads (text ++ '[' :: (key ++ [']'])) (.index e e') := by
  have hjoins := hkey.not_joins
  obtain ⟨ts, hprints, hprefix⟩ := h
  obtain ⟨us, hprints', hclosed⟩ := hkey
  exact ⟨_, (hprints.element hprints' hjoins).mono (by simp [anything]), hprefix.index hclosed⟩

theorem Bars.element (h : Bars inName text) (hkey : Closes key e') :
    Blocked inName (text ++ '[' :: (key ++ [']'])) := by
  have hjoins := hkey.not_joins
  obtain ⟨ts, hprints, hbars⟩ := h
  obtain ⟨us, hprints', -⟩ := hkey
  exact ⟨_, (hprints.element hprints' hjoins).mono (by simp [anything]), hbars _ _ rfl⟩

/-! ## Calls -/

section Calls

variable {texts : List (List Char)} {es : List Expr}

theorem Heads.call (h : Heads text e) (hes : List.Forall₂ Closes texts es) :
    Heads (text ++ '(' :: (commaText texts ++ [')'])) (.call e es) := by
  obtain ⟨ts, hprints, hprefix⟩ := h
  obtain ⟨l, hl, hclosed⟩ := exists_tokens hes
  have harguments : Prints inNumeral (commaText texts) (commas l) := prints_commas rfl hl
  exact ⟨_, ((prints_inName hprints).call harguments).mono (by simp [anything]),
    hprefix.call (isArguments_commas hclosed)⟩

theorem Heads.methodCall (h : Heads text e) (hname : IsName name)
    (hes : List.Forall₂ Closes texts es) :
    Heads (text ++ ':' :: name ++ '(' :: (commaText texts ++ [')'])) (.methodCall e name es) := by
  obtain ⟨ts, hprints, hprefix⟩ := h
  obtain ⟨l, hl, hclosed⟩ := exists_tokens hes
  have harguments : Prints inNumeral (commaText texts) (commas l) := prints_commas rfl hl
  have hcall := (prints_inName (hprints.method hname)).call harguments
  refine ⟨_, ?_, hprefix.methodCall name (isArguments_commas hclosed)⟩
  rw [List.append_assoc ts] at hcall
  exact hcall.mono (by simp [anything])

/-- A call with a blocked argument makes no expression. -/
theorem Heads.blocked_call (h : Heads text e) (hes : List.Forall₂ Closes texts es)
    (hblocked : Blocked inNumeral text') :
    Blocked inNumeral (text ++ '(' :: (commaText (texts ++ [text']) ++ [')'])) := by
  obtain ⟨ts, hprints, hprefix⟩ := h
  obtain ⟨l, hl, hclosed⟩ := exists_tokens hes
  obtain ⟨us, hprints', hus⟩ := hblocked
  have hall : List.Forall₂ (Prints inNumeral) (texts ++ [text']) (l ++ [us]) :=
    List.rel_append hl (.cons hprints' .nil)
  have harguments : Prints inNumeral (commaText (texts ++ [text'])) (commas (l ++ [us])) :=
    prints_commas rfl hall
  exact ⟨_, ((prints_inName hprints).call harguments).mono (by simp [anything]),
    hprefix.blocked_call hclosed hus⟩

theorem Bars.call (h : Bars inNumeral text) (htexts : ∀ text ∈ texts, Printable text) :
    Blocked inNumeral (text ++ '(' :: (commaText texts ++ [')'])) := by
  obtain ⟨ts, hprints, hbars⟩ := h
  obtain ⟨us, harguments⟩ := printable_commaText htexts
  exact ⟨_, (hprints.call harguments).mono (by simp [anything]), hbars _ _ rfl⟩

end Calls

/-! ## Signs and powers -/

theorem Tight.neg (h : Tight text e) (hhead : ∀ c ∈ text.head?, c ≠ '-') (hne : text ≠ []) :
    Operand ('-' :: text) (.unary .neg e) := by
  obtain ⟨ts, hprints, hoperand⟩ := h
  exact ⟨_, hprints.minus hhead hne, hoperand.unary rfl⟩

theorem Tight.pow (h : Tight text e) (h' : Operand text' e') :
    Closes (text ++ [' ', '^', ' '] ++ text') (.binary .pow e e') := by
  obtain ⟨ts, hprints, hoperand⟩ := h
  obtain ⟨us, hprints', hoperand'⟩ := h'
  have hmark : IsMark ['^'] := isMark_one (by decide) rfl
  exact ⟨_, hprints.binary hprints' hmark, isClosed_binary rfl hoperand le_rfl hoperand'⟩

theorem Blocked.neg (h : Blocked inNumeral text) (hhead : ∀ c ∈ text.head?, c ≠ '-')
    (hne : text ≠ []) : Blocked inNumeral ('-' :: text) := by
  obtain ⟨ts, hprints, hblocked⟩ := h
  exact ⟨_, hprints.minus hhead hne, hblocked.neg⟩

/-- The sign in front of a power is read last. -/
theorem Tight.neg_pow (h : Tight text e) (hhead : ∀ c ∈ text.head?, c ≠ '-') (hne : text ≠ [])
    (h' : Operand text' e') :
    Closes ('-' :: text ++ [' ', '^', ' '] ++ text') (.unary .neg (.binary .pow e e')) := by
  obtain ⟨ts, hprints, hoperand⟩ := h
  obtain ⟨us, hprints', hoperand'⟩ := h'
  have hmark : IsMark ['^'] := isMark_one (by decide) rfl
  exact ⟨_, (hprints.minus hhead hne).binary hprints' hmark, isClosed_neg_pow hoperand hoperand'⟩

/-! ## Lists -/

/-- The text is read as a list of expressions, or is empty. -/
def ReadsList (text : List Char) (es : List Expr) : Prop :=
  ∃ ts, Lexes text ts ∧
    if ts = [] then es = [] else Settles (fun n => expressions n ts) (some (es, []))

theorem ReadsList.unique {es es' : List Expr} (h : ReadsList text es) (h' : ReadsList text es') :
    es = es' := by
  obtain ⟨ts, hlex, hread⟩ := h
  obtain ⟨ts', hlex', hread'⟩ := h'
  obtain rfl := hlex.unique hlex'
  split_ifs at hread hread' with hnil
  · rw [hread, hread']
  · exact (Prod.mk.inj (Option.some.inj (hread.unique hread'))).1

theorem IsClosed.ne_nil (h : IsClosed ts e) : ts ≠ [] := by
  obtain ⟨t, us, rfl, -⟩ := h.begins
  exact List.cons_ne_nil t us

theorem IsBlocked.ne_nil (h : IsBlocked ts) : ts ≠ [] := by
  rintro rfl
  cases h.first [.mark [')']]

theorem commas_cons_ne_nil (h : ts ≠ []) (l : List (List Token)) : commas (ts :: l) ≠ [] := by
  cases l with
  | nil =>
    rw [commas_singleton]
    exact h
  | cons us l =>
    rw [commas_cons_cons]
    exact List.append_ne_nil_of_left_ne_nil h _

theorem readsList_commaText {texts : List (List Char)} {es : List Expr}
    (h : List.Forall₂ Closes texts es) : ReadsList (commaText texts) es := by
  obtain ⟨l, hl, hclosed⟩ := exists_tokens h
  have hprints : Prints inNumeral (commaText texts) (commas l) := prints_commas rfl hl
  refine ⟨_, hprints.lexes, ?_⟩
  cases hclosed with
  | nil => rfl
  | @cons ts e l es hts hes =>
    have hread := settles_commas (.cons hts hes) (List.cons_ne_nil ts l) ends_nil rfl
    rw [List.append_nil] at hread
    rw [if_neg (commas_cons_ne_nil hts.ne_nil l)]
    exact hread

theorem Closes.readsList (h : Closes text e) : ReadsList text [e] := by
  have hread := readsList_commaText (.cons h .nil)
  rwa [commaText_singleton] at hread

end LuaSyntax
