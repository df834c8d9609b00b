import Mathlib.Data.List.TakeWhile
import Mathlib.Tactic.Common

/-!
# Tokens of Lua 5.1

The lexer takes the longest token that the text begins with: a name or a reserved word, a decimal
numeral, a quoted string, or a mark. Comments, long brackets and strings that go on in the next line
are not read.

1. Reading one token.
2. The tokens of a text.
3. What the lexer reads back when a word, a numeral, a string or a mark stands in front of a text.
-/

namespace LuaSyntax

/-! ## One token -/

/-- A token; a string has its content. -/
inductive Token
  | name (text : List Char)
  | word (text : List Char)
  | number (text : List Char)
  | string (content : List Char)
  | mark (text : List Char)
  deriving DecidableEq

/-- The reserved words. -/
def reserved : List (List Char) :=
  [['a', 'n', 'd'], ['b', 'r', 'e', 'a', 'k'], ['d', 'o'], ['e', 'l', 's', 'e'],
   ['e', 'l', 's', 'e', 'i', 'f'], ['e', 'n', 'd'], ['f', 'a', 'l', 's', 'e'], ['f', 'o', 'r'],
   ['f', 'u', 'n', 'c', 't', 'i', 'o', 'n'], ['i', 'f'], ['i', 'n'], ['l', 'o', 'c', 'a', 'l'],
   ['n', 'i', 'l'], ['n', 'o', 't'], ['o', 'r'], ['r', 'e', 'p', 'e', 'a', 't'],
   ['r', 'e', 't', 'u', 'r', 'n'], ['t', 'h', 'e', 'n'], ['t', 'r', 'u', 'e'],
   ['u', 'n', 't', 'i', 'l'], ['w', 'h', 'i', 'l', 'e']]

/-- The marks of one character. -/
def marks : List Char :=
  ['+', '-', '*', '/', '%', '^', '#', '<', '>', '=', '(', ')', '{', '}', '[', ']', ';', ':', ',', '.']

/-- Blanks between tokens. -/
def isBlank (c : Char) : Bool := c == ' ' || c == '\t' || c == '\n' || c == '\r'

/-- A character that a name may begin with. -/
def startsName (c : Char) : Bool := c.isAlpha || c == '_'

/-- A character that a name may go on with. -/
def inName (c : Char) : Bool := startsName c || c.isDigit

/-- A name or a reserved word, and the text behind it. -/
def readWord (cs : List Char) : Token × List Char :=
  let text := cs.takeWhile inName
  (if reserved.contains text then .word text else .name text, cs.dropWhile inName)

/-- The mark of an exponent with its sign, and the text behind it. -/
def exponentMark : List Char → List Char × List Char
  | e :: cs =>
    if e = 'e' ∨ e = 'E' then
      match cs with
      | sign :: rest => if sign = '+' ∨ sign = '-' then ([e, sign], rest) else ([e], cs)
      | [] => ([e], [])
    else ([], e :: cs)
  | [] => ([], [])

/-- A decimal numeral, and the text behind it. -/
def readNumeral (cs : List Char) : Token × List Char :=
  let inWhole := fun c : Char => c.isDigit || c == '.'
  let mark := exponentMark (cs.dropWhile inWhole)
  (.number (cs.takeWhile inWhole ++ mark.1 ++ mark.2.takeWhile inName), mark.2.dropWhile inName)

/-- The character that an escape of one letter stands for. -/
def escaped : Char → Char
  | 'a' => Char.ofNat 7
  | 'b' => Char.ofNat 8
  | 'f' => Char.ofNat 12
  | 'n' => '\n'
  | 'r' => '\r'
  | 't' => '\t'
  | 'v' => Char.ofNat 11
  | c => c

/-- The value of decimal digits. -/
def decimalValue (digits : List Char) : ℕ := digits.foldl (fun n d => 10 * n + (d.toNat - 48)) 0

/-- The end of a line. -/
def endsLine (c : Char) : Bool := c == '\n' || c == '\r'

/-- The content of a string up to the closing quote, and the text behind that. -/
def readString (quote : Char) (cs : List Char) : Option (List Char × List Char) :=
  match cs with
  | [] => none
  | c :: cs =>
    if c = quote then some ([], cs)
    else if endsLine c then none
    else if c = '\\' then
      let digits := (cs.take 3).takeWhile Char.isDigit
      if digits = [] then
        match cs with
        | [] => none
        | letter :: rest =>
          if endsLine letter then none
          else (readString quote rest).map fun found => (escaped letter :: found.1, found.2)
      else if 255 < decimalValue digits then none
      else (readString quote (cs.drop digits.length)).map fun found =>
        (Char.ofNat (decimalValue digits) :: found.1, found.2)
    else (readString quote cs).map fun found => (c :: found.1, found.2)
termination_by cs.length
decreasing_by all_goals grind

/-- A mark of one or more characters, and the text behind it. -/
def readMark : List Char → Option (Token × List Char)
  | '.' :: '.' :: '.' :: cs => some (.mark ['.', '.', '.'], cs)
  | '.' :: '.' :: cs => some (.mark ['.', '.'], cs)
  | '=' :: '=' :: cs => some (.mark ['=', '='], cs)
  | '~' :: '=' :: cs => some (.mark ['~', '='], cs)
  | '<' :: '=' :: cs => some (.mark ['<', '='], cs)
  | '>' :: '=' :: cs => some (.mark ['>', '='], cs)
  | '-' :: '-' :: _ => none
  | '[' :: '[' :: _ => none
  | '[' :: '=' :: _ => none
  | c :: cs => if marks.contains c then some (.mark [c], cs) else none
  | [] => none

/-- The first token, and the text behind it. -/
def readToken : List Char → Option (Token × List Char)
  | [] => none
  | c :: cs =>
    if startsName c then some (readWord (c :: cs))
    else if c.isDigit || (c == '.' && cs.head?.any Char.isDigit) then some (readNumeral (c :: cs))
    else if c = '"' ∨ c = '\'' then
      (readString c cs).map fun found => (.string found.1, found.2)
    else readMark (c :: cs)

/-! ## All tokens -/

/-- The tokens of a text. -/
inductive Lexes : List Char → List Token → Prop
  | nil : Lexes [] []
  | blank {c : Char} {cs : List Char} {ts : List Token} : isBlank c = true → Lexes cs ts →
      Lexes (c :: cs) ts
  | token {cs rest : List Char} {t : Token} {ts : List Token} : readToken cs = some (t, rest) →
      Lexes rest ts → Lexes cs (t :: ts)

theorem readToken_blank {c : Char} {cs : List Char} (h : isBlank c = true) :
    readToken (c :: cs) = none := by
  simp only [isBlank, Bool.or_eq_true, beq_iff_eq] at h
  rcases h with ((rfl | rfl) | rfl) | rfl <;> rfl

/-- A text has one list of tokens. -/
theorem Lexes.unique {cs : List Char} {ts us : List Token} (h : Lexes cs ts) (h' : Lexes cs us) :
    ts = us := by
  induction h generalizing us with
  | nil =>
    cases h' with
    | nil => rfl
    | token hread => cases hread
  | blank hblank _ ih =>
    cases h' with
    | blank _ h' => exact ih h'
    | token hread => cases hread.symm.trans (readToken_blank hblank)
  | token hread _ ih =>
    cases h' with
    | nil => cases hread
    | blank hblank => cases hread.symm.trans (readToken_blank hblank)
    | token hread' h' =>
      obtain ⟨rfl, rfl⟩ := Prod.mk.inj (Option.some.inj (hread.symm.trans hread'))
      rw [ih h']

/-! ## Reading tokens back -/

theorem span_append {p : Char → Bool} {text rest : List Char} (htext : ∀ c ∈ text, p c = true)
    (hrest : ∀ c ∈ rest.head?, p c = false) :
    (text ++ rest).takeWhile p = text ∧ (text ++ rest).dropWhile p = rest := by
  have hnil : rest.takeWhile p = [] ∧ rest.dropWhile p = rest := by
    cases rest with
    | nil => exact ⟨rfl, rfl⟩
    | cons c cs => simp [hrest c rfl]
  rw [List.takeWhile_append_of_pos htext, List.dropWhile_append_of_pos htext, hnil.1, hnil.2,
    List.append_nil]
  exact ⟨rfl, rfl⟩

/-- The form of names and reserved words. -/
def IsWord : List Char → Prop
  | [] => False
  | c :: cs => startsName c = true ∧ ∀ d ∈ cs, inName d = true

theorem isWord_of_all {c : Char} {cs : List Char} (h : (startsName c && cs.all inName) = true) :
    IsWord (c :: cs) := by
  obtain ⟨hc, hcs⟩ := Bool.and_eq_true_iff.1 h
  exact ⟨hc, List.all_eq_true.1 hcs⟩

/-- A name, other than the reserved words. -/
structure IsName (text : List Char) : Prop where
  word : IsWord text
  not_reserved : text ∉ reserved

/-- The token of a word. -/
def wordToken (text : List Char) : Token :=
  if reserved.contains text then .word text else .name text

theorem IsName.token {text : List Char} (h : IsName text) : wordToken text = .name text := by
  unfold wordToken
  rw [if_neg]
  simpa using h.not_reserved

theorem IsWord.inName {text : List Char} (h : IsWord text) : ∀ c ∈ text, inName c = true := by
  cases text with
  | nil => exact h.elim
  | cons c cs =>
    intro d hd
    rcases List.mem_cons.1 hd with rfl | hd
    · simp [LuaSyntax.inName, h.1]
    · exact h.2 d hd

theorem lexes_word {text rest : List Char} {ts : List Token} (h : IsWord text)
    (hrest : ∀ c ∈ rest.head?, inName c = false) (hts : Lexes rest ts) :
    Lexes (text ++ rest) (wordToken text :: ts) := by
  refine .token ?_ hts
  obtain ⟨htake, hdrop⟩ := span_append h.inName hrest
  have hword : readWord (text ++ rest) = (wordToken text, rest) := by
    unfold readWord
    rw [htake, hdrop]
    rfl
  cases text with
  | nil => exact h.elim
  | cons c cs =>
    rw [List.cons_append] at hword ⊢
    unfold readToken
    dsimp only
    rw [if_pos h.1, hword]

theorem isAlpha_eq (c : Char) : c.isAlpha =
    (decide (c.val ≥ 'A'.val ∧ c.val ≤ 'Z'.val) ||
      (decide (c.val ≥ 'a'.val) && decide (c.val ≤ 'z'.val))) := rfl

theorem startsName_digit {d : Char} (h : d.isDigit = true) : startsName d = false := by
  simp only [Char.isDigit, Bool.and_eq_true, decide_eq_true_eq, ge_iff_le,
    UInt32.le_iff_toNat_le] at h
  have hzero : '0'.val.toNat = 48 := rfl
  have hnine : '9'.val.toNat = 57 := rfl
  have hletter : d.isAlpha = false := by
    have hA : 'A'.val.toNat = 65 := rfl
    have ha : 'a'.val.toNat = 97 := rfl
    simp only [isAlpha_eq, Bool.or_eq_false_iff, Bool.and_eq_false_iff, decide_eq_false_iff_not, ge_iff_le, UInt32.le_iff_toNat_le]
    omega
  have hunderscore : d ≠ '_' := by
    rintro rfl
    have hvalue : '_'.val.toNat = 95 := rfl
    omega
  simp [startsName, hletter, hunderscore]

/-- Digits. -/
def Digits (text : List Char) : Prop := text ≠ [] ∧ ∀ c ∈ text, c.isDigit = true

/-- A decimal numeral: a whole part, a fraction and an exponent. -/
structure IsNumeral (text : List Char) : Prop where
  parts : ∃ whole fraction mark digits, text = whole ++ fraction ++ (mark ++ digits) ∧
    Digits whole ∧ (fraction = [] ∨ ∃ ds, Digits ds ∧ fraction = '.' :: ds) ∧
    (mark = [] ∧ digits = [] ∨ Digits digits ∧ ∃ e ∈ ['e', 'E'], ∃ sign ∈ [[], ['+'], ['-']],
      mark = e :: sign)

/-- A character that a numeral may go on with. -/
def inNumeral (c : Char) : Bool := inName c || c == '.'

/-- A numeral does not go on with the text. -/
def Apart (rest : List Char) : Prop := ∀ c ∈ rest.head?, inNumeral c = false

theorem Apart.inName {rest : List Char} (h : Apart rest) : ∀ c ∈ rest.head?, inName c = false :=
  fun c hc => (Bool.or_eq_false_iff.1 (h c hc)).1

theorem exponentMark_append {mark digits rest : List Char} (hrest : Apart rest)
    (h : mark = [] ∧ digits = [] ∨ Digits digits ∧ ∃ e ∈ ['e', 'E'], ∃ sign ∈ [[], ['+'], ['-']],
      mark = e :: sign) :
    exponentMark (mark ++ digits ++ rest) = (mark, digits ++ rest) := by
  rcases h with ⟨rfl, rfl⟩ | ⟨hdigits, e, he, sign, hsign, rfl⟩
  · cases rest with
    | nil => rfl
    | cons c cs =>
      have hc := hrest.inName c rfl
      have hne : ¬(c = 'e' ∨ c = 'E') := by
        rintro (rfl | rfl) <;> exact absurd hc (by decide)
      simp [exponentMark, hne]
  · have he : e = 'e' ∨ e = 'E' := by simpa using he
    obtain ⟨d, ds, rfl⟩ := List.exists_cons_of_ne_nil hdigits.1
    have hd : ¬(d = '+' ∨ d = '-') := by
      rintro (rfl | rfl) <;> exact absurd (hdigits.2 _ List.mem_cons_self) (by decide)
    have hsign : sign = [] ∨ sign = ['+'] ∨ sign = ['-'] := by simpa using hsign
    rcases hsign with rfl | rfl | rfl <;> simp [exponentMark, he, hd]

theorem lexes_numeral {text rest : List Char} {ts : List Token} (h : IsNumeral text)
    (hrest : Apart rest) (hts : Lexes rest ts) : Lexes (text ++ rest) (.number text :: ts) := by
  refine .token ?_ hts
  obtain ⟨whole, fraction, mark, digits, rfl, hwhole, hfraction, hexponent⟩ := h.parts
  have hinWhole : ∀ c ∈ whole ++ fraction, (c.isDigit || c == '.') = true := by
    intro c hc
    rcases List.mem_append.1 hc with hc | hc
    · simp [hwhole.2 c hc]
    · rcases hfraction with rfl | ⟨ds, hds, rfl⟩
      · cases hc
      · rcases List.mem_cons.1 hc with rfl | hc
        · rfl
        · simp [hds.2 c hc]
  have hbehind : ∀ c ∈ (mark ++ digits ++ rest).head?, (c.isDigit || c == '.') = false := by
    intro c hc
    rcases hexponent with ⟨rfl, rfl⟩ | ⟨-, e, he, sign, -, rfl⟩
    · obtain ⟨hname, hdot⟩ := Bool.or_eq_false_iff.1 (hrest c hc)
      rw [(Bool.or_eq_false_iff.1 hname).2, hdot]
      rfl
    · obtain rfl : e = c := Option.some.inj hc
      have he : e = 'e' ∨ e = 'E' := by simpa using he
      rcases he with rfl | rfl <;> decide
  have hdigits : ∀ c ∈ digits, inName c = true := by
    intro c hc
    rcases hexponent with ⟨-, rfl⟩ | ⟨hdigits, -⟩
    · cases hc
    · simp [inName, hdigits.2 c hc]
  have hnumeral : readNumeral (whole ++ fraction ++ (mark ++ digits) ++ rest) =
      (.number (whole ++ fraction ++ (mark ++ digits)), rest) := by
    obtain ⟨htake, hdrop⟩ := span_append hinWhole hbehind
    obtain ⟨htail, hend⟩ := span_append hdigits hrest.inName
    unfold readNumeral
    dsimp only
    rw [List.append_assoc (whole ++ fraction), htake, hdrop, exponentMark_append hrest hexponent]
    dsimp only
    rw [htail, hend, List.append_assoc (whole ++ fraction)]
  obtain ⟨d, ds, rfl⟩ := List.exists_cons_of_ne_nil hwhole.1
  have hd := hwhole.2 d List.mem_cons_self
  have hletter := startsName_digit hd
  simp only [List.cons_append] at hnumeral ⊢
  unfold readToken
  dsimp only
  rw [hletter, if_neg Bool.false_ne_true, hd, Bool.true_or, if_pos rfl, hnumeral]

/-- A mark that the next character would make longer, or into something that is no mark. -/
def joins : Char → Char → Bool
  | '.', d => d == '.' || d.isDigit
  | '=', '=' | '~', '=' | '<', '=' | '>', '=' | '-', '-' | '[', '[' | '[', '=' => true
  | _, _ => false

theorem joins_minus {d : Char} (h : d ≠ '-') : joins '-' d = false := by
  unfold joins
  split
  all_goals simp_all

theorem lexes_mark {c : Char} {rest : List Char} {ts : List Token} (hc : c ∈ marks)
    (hrest : ∀ d ∈ rest.head?, joins c d = false) (hts : Lexes rest ts) :
    Lexes (c :: rest) (.mark [c] :: ts) := by
  refine .token ?_ hts
  have hplain : startsName c = false ∧ c.isDigit = false ∧ ¬(c = '"' ∨ c = '\'') := by
    have hall : (marks.all fun c => !startsName c && (!c.isDigit && !(c == '"' || c == '\''))) = true :=
      by decide
    simpa using List.all_eq_true.1 hall c hc
  have hdot : (c == '.' && rest.head?.any Char.isDigit) = false := by
    by_cases h : c = '.'
    · subst h
      cases rest with
      | nil => rfl
      | cons d ds =>
        have hd := hrest d rfl
        simp only [joins, Bool.or_eq_false_iff] at hd
        simp [hd.2]
    · simp [h]
  unfold readToken
  dsimp only
  rw [hplain.1, if_neg Bool.false_ne_true, hplain.2.1, hdot, Bool.or_false,
    if_neg Bool.false_ne_true, if_neg hplain.2.2]
  unfold readMark
  split
  all_goals first
    | (rename_i heq
       obtain ⟨rfl, rfl⟩ := List.cons.inj heq
       exact absurd (hrest _ rfl) (by decide))
    | simp_all

theorem lexes_longMark {text rest : List Char} {ts : List Token}
    (h : text ∈ [['.', '.', '.'], ['=', '='], ['~', '='], ['<', '='], ['>', '=']])
    (hts : Lexes rest ts) : Lexes (text ++ rest) (.mark text :: ts) := by
  refine .token ?_ hts
  simp only [List.mem_cons, List.not_mem_nil, or_false] at h
  rcases h with rfl | rfl | rfl | rfl | rfl <;> rfl

/-! ## Reading strings back -/

theorem readString_close (quote : Char) (rest : List Char) :
    readString quote (quote :: rest) = some ([], rest) := by
  rw [readString.eq_def]
  exact if_pos rfl

theorem readString_plain {quote c : Char} {cs : List Char} (hquote : c ≠ quote)
    (hend : endsLine c = false) (hescape : c ≠ '\\') :
    readString quote (c :: cs) = (readString quote cs).map fun found => (c :: found.1, found.2) := by
  rw [readString.eq_def]
  dsimp only
  rw [if_neg hquote, if_neg (by simp [hend]), if_neg hescape]

theorem readString_letter {quote letter : Char} {cs : List Char} (hquote : quote ≠ '\\')
    (hdigit : letter.isDigit = false) (hend : endsLine letter = false) :
    readString quote ('\\' :: letter :: cs) =
      (readString quote cs).map fun found => (escaped letter :: found.1, found.2) := by
  rw [readString.eq_def]
  have hnone : ((letter :: cs).take 3).takeWhile Char.isDigit = [] := by simp [hdigit]
  dsimp only
  rw [if_neg (Ne.symm hquote), if_neg (by decide), if_pos rfl]
  rw [if_pos hnone, if_neg (by simp [hend])]

theorem readString_decimal {quote a b c : Char} {cs : List Char} (hquote : quote ≠ '\\')
    (h : ∀ d ∈ [a, b, c], d.isDigit = true) (hvalue : decimalValue [a, b, c] ≤ 255) :
    readString quote ('\\' :: a :: b :: c :: cs) = (readString quote cs).map fun found =>
      (Char.ofNat (decimalValue [a, b, c]) :: found.1, found.2) := by
  rw [readString.eq_def]
  dsimp only
  rw [if_neg (Ne.symm hquote), if_neg (by decide), if_pos rfl]
  have hdigits : ((a :: b :: c :: cs).take 3).takeWhile Char.isDigit = [a, b, c] := by
    simp [h a (by simp), h b (by simp), h c (by simp)]
  rw [hdigits, if_neg (List.cons_ne_nil _ _), if_neg (by omega)]
  rfl

theorem lexes_string {quote : Char} {text content rest : List Char} {ts : List Token}
    (hquote : quote = '"' ∨ quote = '\'') (h : readString quote text = some (content, rest))
    (hts : Lexes rest ts) : Lexes (quote :: text) (.string content :: ts) := by
  refine .token ?_ hts
  have hplain : startsName quote = false ∧ quote.isDigit = false ∧ (quote == '.') = false := by
    rcases hquote with rfl | rfl <;> decide
  unfold readToken
  dsimp only
  rw [hplain.1, if_neg Bool.false_ne_true, hplain.2.1, hplain.2.2, Bool.false_and, Bool.or_false,
    if_neg Bool.false_ne_true, if_pos hquote, h]
  rfl

/-! ## Printed tokens -/

/-- The text is read as the tokens, in front of a character that is not `bad`. -/
def Prints (bad : Char → Bool) (text : List Char) (ts : List Token) : Prop :=
  ∀ rest us, (∀ c ∈ rest.head?, bad c = false) → Lexes rest us → Lexes (text ++ rest) (ts ++ us)

/-- Nothing stands in the way. -/
def anything (_ : Char) : Bool := false

section Prints

variable {bad bad' : Char → Bool} {text text' : List Char} {ts ts' : List Token}

theorem Prints.mono (h : Prints bad text ts) (hbad : ∀ c, bad c = true → bad' c = true) :
    Prints bad' text ts := by
  refine fun rest us hrest hus => h rest us (fun c hc => ?_) hus
  by_contra hc'
  rw [Bool.not_eq_false] at hc'
  exact absurd (hrest c hc) (by simp [hbad c hc'])

theorem Prints.lexes (h : Prints bad text ts) : Lexes text ts := by
  have hall := h [] [] (by simp) .nil
  rwa [List.append_nil, List.append_nil] at hall

theorem Prints.append (h : Prints bad text ts) (h' : Prints bad' text' ts') (hne : text' ≠ [])
    (hhead : ∀ c ∈ text'.head?, bad c = false) : Prints bad' (text ++ text') (ts ++ ts') := by
  intro rest us hrest hus
  rw [List.append_assoc, List.append_assoc]
  refine h _ _ (fun c hc => hhead c ?_) (h' rest us hrest hus)
  obtain ⟨d, ds, rfl⟩ := List.exists_cons_of_ne_nil hne
  exact hc

/-- A blank behind the tokens. -/
theorem Prints.blank (h : Prints bad text ts) (hbad : bad ' ' = false) :
    Prints anything (text ++ [' ']) ts := by
  intro rest us _ hus
  rw [List.append_assoc]
  exact h _ _ (by simp [hbad]) (.blank rfl hus)

theorem prints_word (h : IsWord text) : Prints inName text [wordToken text] :=
  fun _ _ hrest hus => lexes_word h hrest hus

theorem prints_name (h : IsName text) : Prints inName text [.name text] := by
  rw [← h.token]
  exact prints_word h.word

theorem prints_numeral (h : IsNumeral text) : Prints inNumeral text [.number text] :=
  fun _ _ hrest hus => lexes_numeral h hrest hus

theorem prints_string {quote : Char} {content : List Char} (hquote : quote = '"' ∨ quote = '\'')
    (h : ∀ rest, readString quote (text ++ rest) = some (content, rest)) :
    Prints anything (quote :: text) [.string content] :=
  fun rest _ _ hus => lexes_string hquote (h rest) hus

end Prints

end LuaSyntax
