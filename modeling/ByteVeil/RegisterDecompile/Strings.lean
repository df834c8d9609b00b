import ByteVeil.Lua51.Texts
import ByteVeil.MoonSec.Literals

/-!
# String literals read back

The two printers of string literals agree, and the lexer that collects the quoted strings of a
source reads a printed literal back, whatever stands behind it.
-/

namespace ByteVeil.RegisterDecompile

open Lua51 MoonSec

/-! ## The printer -/

/-- A digit. -/
def digitByte (n : ℕ) : UInt8 := UInt8.ofNat (48 + n)

/-- What is printed for a byte. -/
def escapedByte (c : UInt8) : List UInt8 :=
  match c.toNat with
  | 92 => [92, 92]
  | 34 => [92, 34]
  | 7 => [92, 97]
  | 8 => [92, 98]
  | 12 => [92, 102]
  | 10 => [92, 110]
  | 13 => [92, 114]
  | 9 => [92, 116]
  | 11 => [92, 118]
  | n =>
    if 32 ≤ n ∧ n ≤ 126 then [c]
    else [92, digitByte (n / 100), digitByte (n / 10 % 10), digitByte (n % 10)]

/-- `luaString`. -/
def luaString (data : List UInt8) : List UInt8 :=
  data.foldl (fun out c => out ++ escapedByte c) [34] ++ [34]

theorem luaString_eq (data : List UInt8) :
    luaString data = 34 :: data.flatMap escapedByte ++ [34] := by
  have hfold : ∀ out, data.foldl (fun out c => out ++ escapedByte c) out =
      out ++ data.flatMap escapedByte := by
    induction data with
    | nil => simp
    | cons c data ih => intro out; simp [ih]
  simp [luaString, hfold]

/-- The bytes of a printed text. -/
def textBytes (text : List Char) : List UInt8 := text.map fun c => UInt8.ofNat c.toNat

/-- What an escape of one byte looks like: the byte itself, a letter escape, an escaped mark, or
three digits. -/
inductive Escaped (c : UInt8) : List UInt8 → Prop
  | plain (hquote : c ≠ 34) (hescape : c ≠ 92) : Escaped c [c]
  | letter (letter : UInt8) (h : control letter = some c) : Escaped c [92, letter]
  | mark (h : c = 92 ∨ c = 34) : Escaped c [92, c]
  | digits (hundreds tens ones : ℕ) (hhundreds : hundreds < 10) (htens : tens < 10)
      (hones : ones < 10) (h : c.toNat = hundreds * 100 + tens * 10 + ones) :
      Escaped c [92, digitByte hundreds, digitByte tens, digitByte ones]

theorem escapedByte_escaped (c : UInt8) : Escaped c (escapedByte c) := by
  have hlt : c.toNat < 256 := c.toNat_lt
  have hbyte : ∀ n : ℕ, c.toNat = n → c = UInt8.ofNat n := by
    intro n hn
    rw [← hn, UInt8.ofNat_toNat]
  unfold escapedByte
  split
  case h_1 h => exact hbyte _ h ▸ Escaped.mark (.inl rfl)
  case h_2 h => exact hbyte _ h ▸ Escaped.mark (.inr rfl)
  case h_3 h => exact hbyte _ h ▸ Escaped.letter 97 rfl
  case h_4 h => exact hbyte _ h ▸ Escaped.letter 98 rfl
  case h_5 h => exact hbyte _ h ▸ Escaped.letter 102 rfl
  case h_6 h => exact hbyte _ h ▸ Escaped.letter 110 rfl
  case h_7 h => exact hbyte _ h ▸ Escaped.letter 114 rfl
  case h_8 h => exact hbyte _ h ▸ Escaped.letter 116 rfl
  case h_9 h => exact hbyte _ h ▸ Escaped.letter 118 rfl
  case h_10 hescape hquote _ _ _ _ _ _ _ =>
    split
    · exact .plain (fun h => hquote (by rw [h]; rfl)) fun h => hescape (by rw [h]; rfl)
    · exact .digits _ _ _ (by omega) (by omega) (by omega) (by omega)

/-- Both printers print the same bytes for each of the 256 bytes. -/
theorem textBytes_quoteByte (c : UInt8) : textBytes (quoteByte c) = escapedByte c := by
  have hall : ∀ n < 256,
      textBytes (quoteByte (UInt8.ofNat n)) = escapedByte (UInt8.ofNat n) := by decide +kernel
  have hc := hall c.toNat c.toNat_lt
  rwa [UInt8.ofNat_toNat] at hc

theorem textBytes_luaQuote (s : List UInt8) : textBytes (luaQuote s) = luaString s := by
  have hbody : textBytes (s.flatMap quoteByte) = s.flatMap escapedByte := by
    rw [textBytes, List.map_flatMap]
    exact List.flatMap_congr fun c _ => textBytes_quoteByte c
  rw [luaString_eq, luaQuote, textBytes, List.map_append, List.map_cons]
  exact congrArg (fun body => 34 :: body ++ [34]) hbody

/-! ## The lexer -/

theorem byteAt_length (before : List UInt8) (b : UInt8) (rest : List UInt8) :
    byteAt (before ++ b :: rest) before.length = b := by
  simp [byteAt]

theorem isDigit_digitByte {n : ℕ} (h : n < 10) : isDigit (digitByte n) = true := by
  have hall : ∀ n < 10, isDigit (digitByte n) = true := by decide
  exact hall n h

theorem digitByte_value {n : ℕ} (h : n < 10) : (digitByte n).toNat - 48 = n := by
  have hall : ∀ n < 10, (digitByte n).toNat - 48 = n := by decide
  exact hall n h

/-- A decimal escape of three digits ends behind the third one, whatever follows. -/
theorem decimalEscape_digits {c : UInt8} {hundreds tens ones : ℕ} (hhundreds : hundreds < 10)
    (htens : tens < 10) (hones : ones < 10)
    (h : c.toNat = hundreds * 100 + tens * 10 + ones) (before after : List UInt8) :
    decimalEscape (before ++ digitByte tens :: digitByte ones :: after) (digitByte hundreds)
      before.length = some ([c], before.length + 2) := by
  have hlt : c.toNat < 256 := c.toNat_lt
  have hvalue : (hundreds * 10 + tens) * 10 + ones = c.toNat := by omega
  simp only [decimalEscape, List.drop_left, List.take_succ_cons, List.take_zero,
    List.takeWhile_cons, isDigit_digitByte htens, isDigit_digitByte hones, if_true,
    List.takeWhile_nil, List.foldl_cons, List.foldl_nil, digitByte_value hhundreds,
    digitByte_value htens, digitByte_value hones, hvalue, UInt8.ofNat_toNat, List.length_cons,
    List.length_nil]
  rw [if_neg (by omega)]

/-- The lexer reads the escape behind a backslash back as the byte. -/
theorem escape_escaped {c : UInt8} {body : List UInt8} (h : Escaped c (92 :: body))
    (before after : List UInt8) :
    escape (before ++ (body ++ after)) before.length = some ([c], before.length + body.length) := by
  cases h with
  | plain _ hescape => exact absurd rfl hescape
  | letter letter hletter =>
    simp only [escape, List.cons_append, List.nil_append, byteAt_length, hletter, List.length_singleton]
  | mark hmark =>
    rcases hmark with rfl | rfl
    all_goals
      simp only [escape, List.cons_append, List.nil_append, byteAt_length, List.length_singleton]
      rfl
  | digits hundreds tens ones hhundreds htens hones hvalue =>
    have hall : ∀ n < 10, control (digitByte n) = none ∧ digitByte n ≠ 10 ∧ digitByte n ≠ 13 ∧
        digitByte n ≠ 122 ∧ digitByte n ≠ 120 := by decide
    obtain ⟨hcontrol, h10, h13, h122, h120⟩ := hall hundreds hhundreds
    have hdecimal := decimalEscape_digits hhundreds htens hones hvalue
      (before ++ [digitByte hundreds]) after
    simp only [List.append_assoc, List.cons_append, List.nil_append, List.length_append,
      List.length_singleton] at hdecimal
    simp only [escape, List.cons_append, List.nil_append, byteAt_length, hcontrol, if_neg h10, if_neg h13,
      if_neg h122, if_neg h120, isDigit_digitByte hhundreds, if_true, hdecimal, List.length_cons,
      List.length_nil]

/-- One round of the lexer reads what is printed for one byte. -/
theorem readQuotedFrom_escaped {c : UInt8} {text : List UInt8} (h : Escaped c text)
    (before after : List UInt8) (fuel : ℕ) (value : List UInt8) :
    readQuotedFrom (before ++ (text ++ after)) 34 (fuel + 1) before.length value =
      readQuotedFrom (before ++ (text ++ after)) 34 fuel (before.length + text.length)
        (value ++ [c]) := by
  by_cases hplain : text = [c]
  · subst hplain
    cases h with
    | plain hquote hescape =>
      rw [readQuotedFrom, if_neg (by simp)]
      simp only [List.cons_append, List.nil_append, byteAt_length, if_neg hquote, if_pos hescape,
        List.length_singleton]
  · obtain ⟨body, rfl, hbody⟩ : ∃ body, text = 92 :: body ∧ body ≠ [] := by
      cases h with
      | plain _ _ => exact absurd rfl hplain
      | letter letter _ => exact ⟨_, rfl, by simp⟩
      | mark _ => exact ⟨_, rfl, by simp⟩
      | digits _ _ _ _ _ _ _ => exact ⟨_, rfl, by simp⟩
    have hlength : 0 < body.length := List.length_pos_of_ne_nil hbody
    have hescape := escape_escaped h (before ++ [92]) after
    simp only [List.append_assoc, List.cons_append, List.nil_append, List.length_append,
      List.length_singleton] at hescape
    rw [readQuotedFrom, if_neg (by simp)]
    simp only [List.cons_append, byteAt_length]
    rw [if_neg (by decide), if_neg (by decide), if_neg (by simp only [List.length_append, List.length_cons]; omega), hescape]
    simp only [List.length_cons, Nat.add_assoc, Nat.add_comm 1]

/-- The lexer reads the bytes of a printed literal and stops behind the closing quote. -/
theorem readQuotedFrom_body (s before after : List UInt8) (fuel : ℕ) (value : List UInt8)
    (hfuel : s.length < fuel) :
    readQuotedFrom (before ++ (s.flatMap escapedByte ++ 34 :: after)) 34 fuel before.length value =
      some (value ++ s, before.length + (s.flatMap escapedByte).length + 1) := by
  induction s generalizing before fuel value with
  | nil =>
    obtain ⟨fuel, rfl⟩ : ∃ k, fuel = k + 1 := ⟨fuel - 1, by simp at hfuel; omega⟩
    simp only [List.flatMap_nil, List.nil_append]
    rw [readQuotedFrom, if_neg (by simp)]
    simp [byteAt_length]
  | cons c s ih =>
    obtain ⟨fuel, rfl⟩ : ∃ k, fuel = k + 1 := ⟨fuel - 1, by simp at hfuel; omega⟩
    have hstep := readQuotedFrom_escaped (escapedByte_escaped c) before
      (s.flatMap escapedByte ++ 34 :: after) fuel value
    have hrest := ih (before ++ escapedByte c) fuel (value ++ [c]) (by simpa using hfuel)
    simp only [List.append_assoc, List.length_append] at hrest
    simp only [List.flatMap_cons, List.append_assoc, List.length_append]
    rw [hstep, hrest]
    simp [Nat.add_assoc]

theorem length_le_flatMap (s : List UInt8) : s.length ≤ (s.flatMap escapedByte).length := by
  induction s with
  | nil => simp
  | cons c s ih =>
    have hc : 0 < (escapedByte c).length := by
      have hescaped := escapedByte_escaped c
      generalize escapedByte c = text at hescaped
      cases hescaped <;> simp
    rw [List.flatMap_cons, List.length_append, List.length_cons]
    omega

/-- A printed literal is read back wherever it stands. -/
theorem readQuotedLiteral_luaString (before s after : List UInt8) :
    readQuotedLiteral (before ++ (luaString s ++ after)) before.length =
      some (⟨s, before.length⟩, before.length + (luaString s).length) := by
  have hlength := length_le_flatMap s
  have hsource : before ++ (luaString s ++ after) =
      before ++ 34 :: (s.flatMap escapedByte ++ 34 :: after) := by simp [luaString_eq]
  have hopen : (before ++ [34]).length = before.length + 1 := by simp
  rw [hsource]
  have hbody := readQuotedFrom_body s (before ++ [34]) after
    (before ++ 34 :: (s.flatMap escapedByte ++ 34 :: after)).length []
    (by rw [List.length_append, List.length_cons, List.length_append]; omega)
  rw [List.append_assoc, List.cons_append, List.nil_append, List.nil_append,
    hopen] at hbody
  rw [readQuotedLiteral, byteAt_length, hbody, Option.map_some, luaString_eq, List.length_append,
    List.length_cons, List.length_singleton]
  simp only [Nat.add_assoc, Nat.add_comm 1]

/-- The lexer finds one literal in a printed literal, the string itself. -/
theorem stringsInSource_luaString (s : List UInt8) :
    stringsInSource (luaString s) = [⟨s, 0⟩] := by
  have hread := readQuotedLiteral_luaString [] s []
  simp only [List.nil_append, List.append_nil, List.length_nil, Nat.zero_add] at hread
  obtain ⟨rest, hrest⟩ : ∃ rest, luaString s = 34 :: rest := ⟨_, luaString_eq s⟩
  have hfirst : byteAt (luaString s) 0 = 34 := by rw [hrest]; rfl
  have hlength : (luaString s).length = rest.length + 1 := by rw [hrest]; rfl
  rw [stringsInSource, hlength, stringsFrom, hfirst, if_neg (by omega), if_neg (by simp),
    if_neg (by simp), if_pos (.inr rfl), hread]
  simp only [List.cons.injEq, true_and]
  cases rest with
  | nil => rfl
  | cons b rest => rw [List.length_cons, stringsFrom, if_pos (le_refl _)]

/-- Both printers print a string as the same literal, the lexer finds that literal alone in it, and
reads it back whatever stands behind the closing quote. -/
theorem luaQuote_reads_back (s after : List UInt8) :
    textBytes (luaQuote s) = luaString s ∧
      stringsInSource (textBytes (luaQuote s)) = [⟨s, 0⟩] ∧
      readQuotedLiteral (textBytes (luaQuote s)) 0 =
        some (⟨s, 0⟩, (textBytes (luaQuote s)).length) ∧
      readQuotedLiteral (textBytes (luaQuote s) ++ after) 0 =
        some (⟨s, 0⟩, (textBytes (luaQuote s)).length) := by
  have hread := readQuotedLiteral_luaString [] s
  simp only [List.nil_append, List.length_nil, Nat.zero_add] at hread
  rw [textBytes_luaQuote]
  exact ⟨rfl, stringsInSource_luaString s, by simpa using hread [], hread after⟩

example : luaString [0, 49] = [34, 92, 48, 48, 48, 49, 34] := by decide

end ByteVeil.RegisterDecompile
