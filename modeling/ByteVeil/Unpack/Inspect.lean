import ByteVeil.MoonSec.Extract

/-!
# Literal payloads

`inspect` looks for string literals behind the word `loadstring`, unless the MoonSec adapter answers.
It reads literals with a decoder of its own.
-/

namespace ByteVeil.Unpack

open MoonSec

/-! ## The scan -/

/-- `has`. -/
def has (data : List UInt8) (text : String) : Bool := (find data (ascii text) 0).isSome

/-- `family`. -/
def family (data : List UInt8) : String :=
  if has data "MoonSec" || has data "moonsec" then "MoonSec V3"
  else if has data "Luraph" || has data "LuraphScript" then "Luraph"
  else "generic-loader"

/-- What the decoder of the scan makes of the byte behind a backslash. -/
def unescape (n : UInt8) : UInt8 := if n = 110 then 10 else if n = 114 then 13 else n

/-- The inner loop of the scan from `q` on: the bytes that it gathers, where it stops, and whether it
stops at the closing quote. -/
def readLiteral (data : List UInt8) (quote : UInt8) : ℕ → ℕ → List UInt8 → List UInt8 × ℕ × Bool
  | 0, q, x => (x, q, false)
  | fuel + 1, q, x =>
    if data.length ≤ q then (x, q, false)
    else
      let c := byteAt data q
      if c = quote then (x, q, true)
      else if c = 92 ∧ q + 1 < data.length then
        readLiteral data quote fuel (q + 2) (x ++ [unescape (byteAt data (q + 1))])
      else readLiteral data quote fuel (q + 1) (x ++ [c])

/-- `find_first_of` with both quotation marks. -/
def findQuote (data : List UInt8) (pos : ℕ) : Option ℕ :=
  (List.range' pos (data.length - pos)).find? fun q => byteAt data q == 34 || byteAt data q == 39

/-- A payload, the place of the word in front of it and the place of its opening quote. -/
structure Found where
  name : ℕ
  quote : ℕ
  value : List UInt8
  deriving DecidableEq

/-- The loop of `inspect`; it passes the word in every round. -/
def scanFrom (data : List UInt8) : ℕ → ℕ → List Found
  | 0, _ => []
  | fuel + 1, p =>
    match find data (ascii "loadstring") p with
    | none => []
    | some p =>
      match findQuote data (p + 10) with
      | none => []
      | some q =>
        let (x, stop, ok) := readLiteral data (byteAt data q) data.length (q + 1) []
        (if ok && !x.isEmpty then [⟨p, q, x⟩] else []) ++ scanFrom data fuel (stop + 1)

/-- The answers of `inspect`. -/
inductive Report
  | moonSec (payload : Payload)
  | analysis (family : String) (payloads : List Found) (status : String)

/-- `inspect`. -/
def inspect (data : List UInt8) : Report :=
  let generic :=
    let payloads := scanFrom data data.length 0
    Report.analysis (family data) payloads
      (if payloads.isEmpty then "no-literal-payload" else "literal-payload-extracted")
  if family data = "MoonSec V3" then
    match extract data with
    | .ok payload => .moonSec payload
    | .error _ => generic
  else generic

/-- The literal payloads of a report. -/
def Report.payloads : Report → List Found
  | .moonSec _ => []
  | .analysis _ payloads _ => payloads

/-! ## Arguments of `loadstring` -/

/-- The place behind the comment, bracket, literal or byte at which the lexer of `stringsInSource`
stands. -/
def lexStep (source : List UInt8) (cursor : ℕ) : Option ℕ :=
  if byteAt source cursor = 45 ∧ cursor + 1 < source.length ∧ byteAt source (cursor + 1) = 45 then
    let longEnd := skipLongBracket source (cursor + 2)
    some (if longEnd ≠ cursor + 2 then longEnd else lineEnd source (cursor + 2))
  else if byteAt source cursor = 91 ∧ skipLongBracket source cursor ≠ cursor then
    some (skipLongBracket source cursor)
  else if byteAt source cursor = 39 ∨ byteAt source cursor = 34 then
    (readQuotedLiteral source cursor).map (·.2)
  else some (cursor + 1)

/-- The places at which the lexer of `stringsInSource` comes to stand. -/
def placesFrom (source : List UInt8) : ℕ → ℕ → List ℕ
  | 0, _ => []
  | fuel + 1, cursor =>
    if source.length ≤ cursor then []
    else cursor :: match lexStep source cursor with
      | none => []
      | some cursor => placesFrom source fuel cursor

/-- All places of a source outside comments and literals. -/
def places (source : List UInt8) : List ℕ := placesFrom source source.length 0

/-- A byte of a name. -/
def isNameByte (byte : UInt8) : Bool :=
  isDigit byte || byte == 95 || (97 ≤ byte && byte ≤ 122) || (65 ≤ byte && byte ≤ 90)

/-- White space, and one opening parenthesis at most. -/
def isCallGap (gap : List UInt8) : Bool :=
  (gap.filter fun byte => !isSpace byte) == [] || (gap.filter fun byte => !isSpace byte) == [40]

/-- The name `loadstring` stands at `name` in the code, and the quotation mark at `quote` follows it
directly or behind white space and an opening parenthesis. -/
def isArgument (source : List UInt8) (name quote : ℕ) : Bool :=
  (places source).contains name && (ascii "loadstring").isPrefixOf (source.drop name) &&
    (name == 0 || !isNameByte (byteAt source (name - 1))) &&
    decide (name + 10 ≤ quote) && isCallGap ((source.drop (name + 10)).take (quote - (name + 10)))

/-- The payload is the value of a literal of the source, as `readQuotedLiteral` reads it, and the
literal is the argument of `loadstring`. -/
def Found.Genuine (source : List UInt8) (f : Found) : Prop :=
  isArgument source f.name f.quote = true ∧ ⟨f.value, f.quote⟩ ∈ stringsInSource source ∧
    ∃ after, readQuotedLiteral source f.quote = some (⟨f.value, f.quote⟩, after)

example : (inspect (ascii "loadstring('a\\65b')")).payloads = [⟨0, 11, [97, 54, 53, 98]⟩] := by decide

end ByteVeil.Unpack
