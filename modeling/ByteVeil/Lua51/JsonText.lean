import ByteVeil.IR.JsonText

/-!
# Strings of the exported JSON

`jsonEscape`, the second copy of `esc`: both write the same, a body in UTF-8 that denotes the
characters of the string.
-/

namespace ByteVeil.Lua51

open Json

/-- `digits`. -/
def hexDigits : List Char :=
  ['0', '1', '2', '3', '4', '5', '6', '7', '8', '9', 'a', 'b', 'c', 'd', 'e', 'f']

/-- `escapeByte`. -/
def escapeByte (byte : UInt8) : List UInt8 :=
  ascii ['\\', 'u', '0', '0', hexDigits.getD (byte >>> 4).toNat '0',
    hexDigits.getD (byte &&& 15).toNat '0']

/-- One round of the loop of `jsonEscape`: what it writes, and the next `index`. -/
def jsonEscapeRound (value : List UInt8) (index : ℕ) : List UInt8 × ℕ :=
  let c := value.getD index 0
  if c = 34 then (ascii ['\\', '"'], index + 1)
  else if c = 92 then (ascii ['\\', '\\'], index + 1)
  else if c = 8 then (ascii ['\\', 'b'], index + 1)
  else if c = 12 then (ascii ['\\', 'f'], index + 1)
  else if c = 10 then (ascii ['\\', 'n'], index + 1)
  else if c = 13 then (ascii ['\\', 'r'], index + 1)
  else if c = 9 then (ascii ['\\', 't'], index + 1)
  else if c < 0x20 then (escapeByte c, index + 1)
  else if c < 0x80 then ([c], index + 1)
  else
    let length := if 0xc2 ≤ c ∧ c ≤ 0xdf then 2 else if 0xe0 ≤ c ∧ c ≤ 0xef then 3
      else if 0xf0 ≤ c ∧ c ≤ 0xf4 then 4 else 0
    let second := value.getD (index + 1) 0
    let valid := length != 0 && decide (index + length ≤ value.length)
    let valid := valid &&
      (List.range' 1 (length - 1)).all fun offset => value.getD (index + offset) 0 &&& 0xc0 == 0x80
    let valid := if valid && length == 3 then
      !((c == 0xe0 && decide (second < 0xa0)) || (c == 0xed && decide (0xa0 ≤ second))) else valid
    let valid := if valid && length == 4 then
      !((c == 0xf0 && decide (second < 0x90)) || (c == 0xf4 && decide (0x90 ≤ second))) else valid
    if valid then ((value.drop index).take length, index + length) else (escapeByte c, index + 1)

/-- `jsonEscape`. -/
def jsonEscape (value : List UInt8) : List UInt8 :=
  rounds (jsonEscapeRound value) value.length value.length 0

theorem jsonEscapeRound_eq (value : List UInt8) : jsonEscapeRound value = IR.escRound value := by
  funext index
  unfold jsonEscapeRound IR.escRound IR.sequenceValid IR.sequenceLength
  rfl

/-- Both copies write the same for every string: a body in UTF-8 that JSON decodes to the characters
of the string, read from left to right in the only way there is. -/
theorem jsonEscape_faithful (s : List UInt8) :
    IR.esc s = jsonEscape s ∧
    ∃ body text, jsonEscape s = utf8 body ∧ decode body = some text ∧ Scans s text ∧
      ∀ text', Scans s text' → text' = text := by
  have heq : IR.esc s = jsonEscape s := by
    unfold jsonEscape
    rw [jsonEscapeRound_eq]
    rfl
  obtain ⟨pieces, hpieces, hout, hscans⟩ := IR.esc_pieces s
  refine ⟨heq, _, _, heq.symm.trans hout, decode_pieces hpieces, hscans, ?_⟩
  intro text' h
  exact hscans.unique h

example : jsonEscape [0x61, 0xc3, 0xa9, 0x22, 0xed, 0xa0, 0x80] =
    utf8 ['a', 'é', '\\', '"', '\\', 'u', '0', '0', 'e', 'd', '\\', 'u', '0', '0', 'a', '0', '\\',
      'u', '0', '0', '8', '0'] := by
  decide

end ByteVeil.Lua51
