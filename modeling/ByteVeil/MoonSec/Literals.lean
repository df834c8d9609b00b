import Mathlib.Data.List.Basic
import Mathlib.Tactic.Common

/-!
# Literals of a MoonSec source

The lexer that collects the quoted strings of a Lua source, and the alphabet encoding of a payload.
Sources and payloads are strings of bytes.
-/

namespace ByteVeil.MoonSec

/-- `kMaxPayloadBytes`. -/
def kMaxPayloadBytes : ℕ := 64 * 1024 * 1024

/-- The bytes of an ASCII text. -/
def ascii (text : String) : List UInt8 := text.toList.map fun c => UInt8.ofNat c.toNat

/-- `std::string::find`: the first place from `pos` on where the text stands. -/
def find (source text : List UInt8) (pos : ℕ) : Option ℕ :=
  (List.range' pos (source.length + 1 - pos)).find? fun k => text.isPrefixOf (source.drop k)

/-- `source[cursor]`. -/
def byteAt (source : List UInt8) (cursor : ℕ) : UInt8 := source.getD cursor 0

/-- `hasMoonSecMarker`. -/
def hasMoonSecMarker (source : List UInt8) : Bool :=
  (find source (ascii "MoonSec V3") 0).isSome || (find source (ascii "MoonSecV3") 0).isSome ||
    (find source (ascii "moonsec v3") 0).isSome

/-! ## Long brackets -/

/-- `longBracketOpen`: the number of `=` and the place behind the bracket. -/
def longBracketOpen (source : List UInt8) (pos : ℕ) : Option (ℕ × ℕ) :=
  if source.length ≤ pos ∨ byteAt source pos ≠ 91 then none
  else
    let equals := ((source.drop (pos + 1)).takeWhile (· == 61)).length
    let cursor := pos + 1 + equals
    if source.length ≤ cursor ∨ byteAt source cursor ≠ 91 then none else some (equals, cursor + 1)

/-- `skipLongBracket`. -/
def skipLongBracket (source : List UInt8) (pos : ℕ) : ℕ :=
  match longBracketOpen source pos with
  | none => pos
  | some (equals, afterOpen) =>
    let close := 93 :: List.replicate equals 61 ++ [93]
    match find source close afterOpen with
    | none => source.length
    | some k => k + close.length

/-! ## Quoted strings -/

/-- `Literal`. -/
structure Literal where
  value : List UInt8
  offset : ℕ
  deriving DecidableEq

/-- The white space that an escaped `z` passes over. -/
def isSpace (byte : UInt8) : Bool :=
  byte == 32 || byte == 9 || byte == 13 || byte == 10 || byte == 12 || byte == 11

/-- A decimal digit. -/
def isDigit (byte : UInt8) : Bool := 48 ≤ byte && byte ≤ 57

/-- `hex`. -/
def hex (byte : UInt8) : Option ℕ :=
  if isDigit byte then some (byte.toNat - 48)
  else if 97 ≤ byte && byte ≤ 102 then some (byte.toNat - 97 + 10)
  else if 65 ≤ byte && byte ≤ 70 then some (byte.toNat - 65 + 10)
  else none

/-- The letter escapes for control characters. -/
def control (byte : UInt8) : Option UInt8 :=
  if byte = 97 then some 7
  else if byte = 98 then some 8
  else if byte = 102 then some 12
  else if byte = 110 then some 10
  else if byte = 114 then some 13
  else if byte = 116 then some 9
  else if byte = 118 then some 11
  else none

/-- A decimal escape whose first digit is `escaped`: up to two more digits. -/
def decimalEscape (source : List UInt8) (escaped : UInt8) (cursor : ℕ) :
    Option (List UInt8 × ℕ) :=
  let digits := ((source.drop cursor).take 2).takeWhile isDigit
  let decimal := digits.foldl (fun n d => n * 10 + (d.toNat - 48)) (escaped.toNat - 48)
  if 255 < decimal then none else some ([UInt8.ofNat decimal], cursor + digits.length)

/-- What an escape stands for, and the cursor behind it; `cursor` is behind the backslash. -/
def escape (source : List UInt8) (cursor : ℕ) : Option (List UInt8 × ℕ) :=
  let escaped := byteAt source cursor
  let cursor := cursor + 1
  match control escaped with
  | some byte => some ([byte], cursor)
  | none =>
    if escaped = 10 then some ([10], cursor)
    else if escaped = 13 then
      some ([10], if cursor < source.length ∧ byteAt source cursor = 10 then cursor + 1 else cursor)
    else if escaped = 122 then
      some ([], cursor + ((source.drop cursor).takeWhile isSpace).length)
    else if escaped = 120 then
      if source.length < cursor + 1 then none
      else
        let left := hex (byteAt source cursor)
        let right := if cursor + 1 < source.length then hex (byteAt source (cursor + 1)) else none
        match left, right with
        | some left, some right => some ([UInt8.ofNat (left * 16 + right)], cursor + 2)
        | _, _ => none
    else if isDigit escaped then decimalEscape source escaped cursor
    else some ([escaped], cursor)

/-- The loop of `readQuotedLiteral`; every round passes a byte, so as many rounds as there are bytes
suffice. -/
def readQuotedFrom (source : List UInt8) (quote : UInt8) :
    ℕ → ℕ → List UInt8 → Option (List UInt8 × ℕ)
  | 0, _, _ => none
  | fuel + 1, cursor, value =>
    if source.length ≤ cursor then none
    else
      let current := byteAt source cursor
      if current = quote then some (value, cursor + 1)
      else if current ≠ 92 then readQuotedFrom source quote fuel (cursor + 1) (value ++ [current])
      else if source.length ≤ cursor + 1 then none
      else
        match escape source (cursor + 1) with
        | none => none
        | some (bytes, cursor) => readQuotedFrom source quote fuel cursor (value ++ bytes)

/-- `readQuotedLiteral`: the literal whose quote is at `cursor`, and the cursor behind it. -/
def readQuotedLiteral (source : List UInt8) (cursor : ℕ) : Option (Literal × ℕ) :=
  (readQuotedFrom source (byteAt source cursor) source.length (cursor + 1) []).map
    fun result => (⟨result.1, cursor⟩, result.2)

/-- The end of the line comment at `cursor`. -/
def lineEnd (source : List UInt8) (cursor : ℕ) : ℕ :=
  let line := (source.drop cursor).takeWhile fun byte => byte != 13 && byte != 10
  if cursor + line.length < source.length then cursor + line.length + 1 else source.length

/-- The loop of `stringsInSource`. -/
def stringsFrom (source : List UInt8) : ℕ → ℕ → List Literal
  | 0, _ => []
  | fuel + 1, cursor =>
    if source.length ≤ cursor then []
    else if byteAt source cursor = 45 ∧ cursor + 1 < source.length ∧
        byteAt source (cursor + 1) = 45 then
      let longEnd := skipLongBracket source (cursor + 2)
      stringsFrom source fuel
        (if longEnd ≠ cursor + 2 then longEnd else lineEnd source (cursor + 2))
    else if byteAt source cursor = 91 ∧ skipLongBracket source cursor ≠ cursor then
      stringsFrom source fuel (skipLongBracket source cursor)
    else if byteAt source cursor = 39 ∨ byteAt source cursor = 34 then
      match readQuotedLiteral source cursor with
      | none => []
      | some (literal, cursor) => literal :: stringsFrom source fuel cursor
    else stringsFrom source fuel (cursor + 1)

/-- `stringsInSource`. -/
def stringsInSource (source : List UInt8) : List Literal := stringsFrom source source.length 0

example : (stringsInSource (ascii "x='a\\65b'")).map (·.value) = [[97, 65, 98]] := by decide

/-! ## The alphabet encoding -/

/-- `alphabetCandidate`: sixteen different bytes, then pairs. -/
def alphabetCandidate (text : List UInt8) : Bool :=
  !(text.length < 18 || (text.length - 16) % 2 != 0 || kMaxPayloadBytes * 2 + 16 < text.length) &&
    decide (text.take 16).Nodup && (text.take 16).all fun byte => byte != 13 && byte != 10

/-- `alphabet[byte]`; zero for a byte outside the alphabet. -/
def nibble (encoded : List UInt8) (byte : UInt8) : ℕ :=
  (((encoded.take 16).zipIdx.filter fun symbol => symbol.1 == byte).getLast?.map (·.2)).getD 0

/-- The loop of `decodeAlphabetPayload`, over what is left of the text. -/
def decodePairs (encoded : List UInt8) (key : ℕ) : ℕ → List UInt8 → List UInt8
  | rollingKey, left :: right :: rest =>
    UInt8.ofNat ((nibble encoded left * 16 + nibble encoded right + rollingKey) % 256) ::
      decodePairs encoded key ((rollingKey + key) % 256) rest
  | rollingKey, [left] => [UInt8.ofNat ((nibble encoded left * 16 + rollingKey) % 256)]
  | _, [] => []

/-- `decodeAlphabetPayload`. -/
def decodeAlphabetPayload (encoded : List UInt8) (key : ℕ) : List UInt8 :=
  decodePairs encoded key key (encoded.drop 16)

end ByteVeil.MoonSec
