import ByteVeil.Json.Utf8

/-!
# The body of a JSON string

What stands between the quotation marks of a JSON string, and the text that it denotes.
-/

namespace Json

open String (utf8EncodeChar)

/-- The value of a hexadecimal digit. -/
def hexDigit (c : Char) : Option ℕ :=
  if '0' ≤ c ∧ c ≤ '9' then some (c.toNat - 48)
  else if 'a' ≤ c ∧ c ≤ 'f' then some (c.toNat - 97 + 10)
  else if 'A' ≤ c ∧ c ≤ 'F' then some (c.toNat - 65 + 10)
  else none

/-- Four hexadecimal digits. -/
def codeUnit : List Char → Option (ℕ × List Char)
  | a :: b :: c :: d :: rest => do
    let a ← hexDigit a
    let b ← hexDigit b
    let c ← hexDigit c
    let d ← hexDigit d
    return (((a * 16 + b) * 16 + c) * 16 + d, rest)
  | _ => none

/-- What stands behind `\u`: a character, or one of the two halves of one with the other behind. -/
def unicode (rest : List Char) : Option (Char × List Char) := do
  let (unit, rest) ← codeUnit rest
  if unit < 0xd800 ∨ 0xdfff < unit then return (Char.ofNat unit, rest)
  else
    match rest with
    | '\\' :: 'u' :: rest => do
      let (low, rest) ← codeUnit rest
      if unit < 0xdc00 ∧ 0xdc00 ≤ low ∧ low ≤ 0xdfff then
        return (Char.ofNat (0x10000 + (unit - 0xd800) * 0x400 + (low - 0xdc00)), rest)
      else none
    | _ => none

/-- The escapes of one letter. -/
def escaped (c : Char) : Option Char :=
  if c = '"' ∨ c = '\\' ∨ c = '/' then some c
  else if c = 'b' then some '\x08'
  else if c = 'f' then some '\x0c'
  else if c = 'n' then some '\n'
  else if c = 'r' then some '\r'
  else if c = 't' then some '\t'
  else none

/-- The next character of a body. -/
def next : List Char → Option (Char × List Char)
  | [] => none
  | c :: rest =>
    if c = '"' ∨ c.toNat < 0x20 then none
    else if c ≠ '\\' then some (c, rest)
    else
      match rest with
      | [] => none
      | c :: rest => if c = 'u' then unicode rest else (escaped c).map (·, rest)

/-- A body, for at most so many characters. -/
def decodeFrom : ℕ → List Char → Option (List Char)
  | _, [] => some []
  | 0, _ :: _ => none
  | fuel + 1, c :: rest => do
    let (c, rest) ← next (c :: rest)
    let text ← decodeFrom fuel rest
    return c :: text

/-- The text that a body denotes; every character takes one character of the body at least. -/
def decode (body : List Char) : Option (List Char) := decodeFrom body.length body

/-! ## Pieces -/

/-- A piece of a body that denotes one character, whatever stands behind it. -/
structure Denotes (piece : List Char) (c : Char) : Prop where
  ne_nil : piece ≠ []
  next_eq : ∀ rest, next (piece ++ rest) = some (c, rest)

/-- A character that stands for itself. -/
theorem denotes_self {c : Char} (hquote : c ≠ '"') (hescape : c ≠ '\\') (hcontrol : 0x20 ≤ c.toNat) :
    Denotes [c] c := by
  refine ⟨List.cons_ne_nil _ _, fun rest => ?_⟩
  have hallowed : ¬(c = '"' ∨ c.toNat < 0x20) := not_or.2 ⟨hquote, hcontrol.not_gt⟩
  show (if c = '"' ∨ c.toNat < 0x20 then none else if c ≠ '\\' then some (c, rest) else _) = _
  rw [if_neg hallowed, if_pos hescape]

/-- An escape of one letter. -/
theorem denotes_escaped {letter c : Char} (hletter : letter ≠ 'u') (hc : escaped letter = some c) :
    Denotes ['\\', letter] c := by
  refine ⟨List.cons_ne_nil _ _, fun rest => ?_⟩
  show (if letter = 'u' then unicode rest else (escaped letter).map (·, rest)) = _
  rw [if_neg hletter, hc]
  rfl

/-- An escape by number, of a character that is no half of another. -/
theorem denotes_unicode {a b c d : Char} {m n p q : ℕ} (ha : hexDigit a = some m)
    (hb : hexDigit b = some n) (hc : hexDigit c = some p) (hd : hexDigit d = some q)
    (hunit : ((m * 16 + n) * 16 + p) * 16 + q < 0xd800) :
    Denotes ['\\', 'u', a, b, c, d] (Char.ofNat (((m * 16 + n) * 16 + p) * 16 + q)) := by
  refine ⟨List.cons_ne_nil _ _, fun rest => ?_⟩
  have hcodeUnit : codeUnit (a :: b :: c :: d :: rest) =
      some (((m * 16 + n) * 16 + p) * 16 + q, rest) := by
    rw [codeUnit, ha, hb, hc, hd]
    rfl
  show unicode (a :: b :: c :: d :: rest) = _
  rw [unicode, hcodeUnit]
  exact if_pos (.inl hunit)

/-- A body that consists of pieces denotes what the pieces denote. -/
theorem decode_pieces {pieces : List (List Char × Char)}
    (h : ∀ piece ∈ pieces, Denotes piece.1 piece.2) :
    decode (pieces.flatMap (·.1)) = some (pieces.map (·.2)) := by
  suffices hfrom : ∀ fuel, (pieces.flatMap (·.1)).length ≤ fuel →
      decodeFrom fuel (pieces.flatMap (·.1)) = some (pieces.map (·.2)) from hfrom _ le_rfl
  induction pieces with
  | nil =>
    intro fuel _
    cases fuel <;> rfl
  | cons piece pieces ih =>
    intro fuel hfuel
    obtain ⟨hpiece, hpieces⟩ := List.forall_mem_cons.1 h
    obtain ⟨a, body, hbody⟩ := List.exists_cons_of_ne_nil hpiece.ne_nil
    have hnext := hpiece.next_eq (pieces.flatMap (·.1))
    rw [List.flatMap_cons, List.length_append, hbody, List.length_cons] at hfuel
    obtain ⟨fuel, rfl⟩ : ∃ k, fuel = k + 1 := ⟨fuel - 1, by omega⟩
    rw [hbody, List.cons_append] at hnext
    rw [List.flatMap_cons, hbody, List.cons_append, decodeFrom, hnext]
    show (decodeFrom fuel (pieces.flatMap (·.1))).bind _ = _
    rw [ih hpieces fuel (by omega)]
    rfl

/-! ## Bodies written round by round -/

/-- The output of a loop over the places of a string, round by round: what a round writes and the
place where the next one starts. -/
def rounds (round : ℕ → List UInt8 × ℕ) (size : ℕ) : ℕ → ℕ → List UInt8
  | 0, _ => []
  | fuel + 1, index =>
    if index < size then (round index).1 ++ rounds round size fuel (round index).2 else []

/-- A round that reads one character at a place and writes a piece that denotes it. -/
inductive Reads (s : List UInt8) (index : ℕ) : List UInt8 × ℕ → Prop
  | sequence {piece : List Char} {c : Char} {bytes : List UInt8} (hpiece : Denotes piece c)
    (hdrop : s.drop index = utf8EncodeChar c ++ bytes) :
    Reads s index (utf8 piece, index + (utf8EncodeChar c).length)
  | byte {piece : List Char} {b : UInt8} {bytes : List UInt8} (hpiece : Denotes piece (byteChar b))
    (hdrop : s.drop index = b :: bytes) (hnone : ∀ c, ¬ utf8EncodeChar c <+: b :: bytes) :
    Reads s index (utf8 piece, index + 1)

theorem rounds_scans {s : List UInt8} {round : ℕ → List UInt8 × ℕ}
    (hround : ∀ index < s.length, Reads s index (round index)) {fuel index : ℕ}
    (hfuel : s.length ≤ index + fuel) :
    ∃ pieces : List (List Char × Char), (∀ piece ∈ pieces, Denotes piece.1 piece.2) ∧
      rounds round s.length fuel index = utf8 (pieces.flatMap (·.1)) ∧
      Scans (s.drop index) (pieces.map (·.2)) := by
  induction fuel generalizing index with
  | zero =>
    refine ⟨[], by simp, rfl, ?_⟩
    rw [List.drop_eq_nil_of_le (by omega)]
    exact .nil
  | succ fuel ih =>
    unfold rounds
    split_ifs with hindex
    · have hreads := hround index hindex
      generalize round index = r at hreads
      cases hreads with
      | @sequence piece c bytes hpiece hdrop =>
        have hpos := List.length_pos_of_ne_nil (String.utf8EncodeChar_ne_nil (c := c))
        have hnext : s.length ≤ index + (utf8EncodeChar c).length + fuel := by omega
        obtain ⟨pieces, hpieces, hout, hscans⟩ := ih hnext
        refine ⟨(piece, c) :: pieces, List.forall_mem_cons.2 ⟨hpiece, hpieces⟩, ?_, ?_⟩
        · rw [hout, List.flatMap_cons, utf8_append]
        · rw [← List.drop_drop, hdrop, List.drop_left] at hscans
          rw [hdrop]
          exact .sequence c hscans
      | @byte piece b bytes hpiece hdrop hnone =>
        have hnext : s.length ≤ index + 1 + fuel := by omega
        obtain ⟨pieces, hpieces, hout, hscans⟩ := ih hnext
        refine ⟨(piece, byteChar b) :: pieces, List.forall_mem_cons.2 ⟨hpiece, hpieces⟩, ?_, ?_⟩
        · rw [hout, List.flatMap_cons, utf8_append]
        · rw [← List.drop_drop, hdrop, List.drop_succ_cons, List.drop_zero] at hscans
          rw [hdrop]
          exact .byte b hnone hscans
    · refine ⟨[], by simp, rfl, ?_⟩
      rw [List.drop_eq_nil_of_le (by omega)]
      exact .nil

end Json
