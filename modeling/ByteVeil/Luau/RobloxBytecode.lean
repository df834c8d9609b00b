import ByteVeil.Bytes.Reader
import ByteVeil.Luau.Opcode

/-!
# Roblox bytecode

The structural parser of serialized Luau bytecode, which records where the instruction words of each
prototype stand, and the opcode transformation that undoes an encoded opcode table.
-/

namespace ByteVeil.RobloxBytecode

open Bytes Luau

/-! ## Reader -/

/-- `CodeRange`: the instruction words of a prototype. -/
structure CodeRange where
  offset : ℕ
  words : ℕ
  deriving DecidableEq, Inhabited

/-- The offset behind the last instruction word. -/
def CodeRange.stop (range : CodeRange) : ℕ := range.offset + range.words * 4

/-- Reading steps; the code ranges are the marks. -/
abbrev Read := Bytes.Read CodeRange

/-- `kMaxInputBytes`. -/
def maxInputBytes : ℕ := 268435456

/-- `kMaxObjects`. -/
def maxObjects : ℕ := 2000000

/-- `var` from byte `i` on. -/
def varFrom : ℕ → ℕ → ℕ → Read ℕ
  | 0, _, _ => throw "ULEB128 integer is too long"
  | left + 1, i, value => do
    let byte ← u8
    failIf (i = 4 ∧ 16 ≤ byte) "ULEB128 integer overflow"
    let value := value + byte % 128 * 128 ^ i
    if byte < 128 then return value else varFrom left (i + 1) value

/-- `var`. -/
def var : Read ℕ := varFrom 5 0 0

/-- `var64` from byte `i` on. -/
def var64From : ℕ → ℕ → Read Unit
  | 0, _ => throw "64-bit ULEB128 integer is too long"
  | left + 1, i => do
    let byte ← u8
    failIf (i = 9 ∧ 2 ≤ byte) "64-bit ULEB128 integer overflow"
    if byte < 128 then return () else var64From left (i + 1)

/-- `var64`. -/
def var64 : Read Unit := var64From 10 0

/-- `count`. -/
def count (name : String) : Read ℕ := do
  let value ← var
  failIf (maxObjects < value) name
  return value

/-- `stringId`. -/
def stringId (strings : ℕ) : Read Unit := do
  let id ← var
  failIf (strings < id) "string table index is out of range"

/-- An index below a bound. -/
def indexBelow (bound : ℕ) (error : String) : Read Unit := do
  let index ← var
  failIf (bound ≤ index) error

/-! ## The parts of a chunk -/

/-- The bytecode version and the version of the type information. -/
def versions : Read (ℕ × ℕ) := do
  let version ← u8
  failIf (version < 3 ∨ 14 < version) "unsupported Luau bytecode version"
  if 4 ≤ version then do
    let typeVersion ← u8
    failIf (typeVersion < 1 ∨ 3 < typeVersion) "unsupported Luau type-info version"
    return (version, typeVersion)
  else return (version, 0)

/-- The strings that are left, after `total` bytes. -/
def stringsFrom : ℕ → ℕ → Read Unit
  | 0, _ => pure ()
  | left + 1, total => do
    let length ← var
    failIf (maxInputBytes < total + length) "string data exceeds safety limit"
    skip length
    stringsFrom left (total + length)

/-- The userdata type map; at most `left` entries may follow. -/
def userdataMap (strings : ℕ) : ℕ → Read Unit
  | 0 => do
    let index ← u8
    failIf (index ≠ 0) "userdata type map exceeds safety limit"
  | left + 1 => do
    let index ← u8
    if index = 0 then pure ()
    else do
      stringId strings
      userdataMap strings left

/-- The userdata type map, which type information of version 3 has. -/
def typeMap (typeVersion strings : ℕ) : Read Unit :=
  if typeVersion = 3 then userdataMap strings 255 else pure ()

/-- `LuauBytecodeTag`: the kinds of constants. -/
inductive ConstantKind
  | NIL | BOOLEAN | NUMBER | STRING | IMPORT | TABLE | CLOSURE | VECTOR | TABLE_WITH_CONSTANTS
  | INTEGER | CLASS_SHAPE | VECTORD
  deriving DecidableEq

/-- The kinds by their tag. -/
def ConstantKind.all : List ConstantKind :=
  [NIL, BOOLEAN, NUMBER, STRING, IMPORT, TABLE, CLOSURE, VECTOR, TABLE_WITH_CONSTANTS, INTEGER,
   CLASS_SHAPE, VECTORD]

/-- One entry of a table constant with values. -/
def tableEntry (constants : ℕ) : Read Unit := do
  indexBelow constants "table-with-constants data is invalid"
  let value ← u32
  -- the value index is signed: from 2^31 on it is negative and not checked
  failIf (value < 2147483648 ∧ constants ≤ value) "table constant value index is out of range"

/-- One constant. -/
def constant (version strings protos constants : ℕ) : Read Unit := do
  let tag ← u8
  match ConstantKind.all[tag]? with
  | none => throw ("unknown Luau constant tag " ++ toString tag)
  | some .NIL => pure ()
  | some .BOOLEAN => skip 1
  | some .NUMBER => skip 8
  | some .STRING => stringId strings
  | some .IMPORT => skip 4
  | some .TABLE => do
    let keys ← count "table constant key count exceeds safety limit"
    times keys (indexBelow constants "table constant key index is out of range")
  | some .CLOSURE => indexBelow protos "closure prototype index is out of range"
  | some .VECTOR => do
    failIf (version < 5) "vector constant is invalid for bytecode version"
    skip 16
  | some .TABLE_WITH_CONSTANTS => do
    failIf (version < 7) "table-with-constants requires bytecode version 7"
    let keys ← count "table-with-constants key count exceeds safety limit"
    times keys (tableEntry constants)
  | some .INTEGER => do
    failIf (version < 8) "integer constant is invalid for bytecode version"
    skip 1
    var64
  | some .CLASS_SHAPE => do
    failIf (version < 10) "class shape is invalid for bytecode version"
    indexBelow constants "class shape is invalid for bytecode version"
    let properties ← var
    let methods ← var
    failIf (maxObjects < properties + methods) "class shape member count exceeds safety limit"
    times (properties + methods)
      (indexBelow constants "class shape member index is out of range")
  | some .VECTORD => do
    failIf (version < 13) "double vector constant is invalid for bytecode version"
    skip 32

/-- The line information for `codeWords` instruction words. -/
def lineInfo (codeWords : ℕ) : Read Unit := do
  let present ← u8
  failIf (1 < present) "invalid line-info flag"
  if present = 0 then pure ()
  else do
    let gap ← u8
    failIf (32 ≤ gap) "invalid line-info interval"
    skip (codeWords + (if codeWords = 0 then 0 else (codeWords - 1) / 2 ^ gap + 1) * 4)

/-- One local variable of the debug information. -/
def debugLocal (strings maxStack : ℕ) : Read Unit := do
  stringId strings
  let _ ← var
  let _ ← var
  let reg ← u8
  failIf (maxStack ≤ reg) "debug local register is out of range"

/-- The debug information. -/
def debugInfo (strings maxStack : ℕ) : Read Unit := do
  let present ← u8
  failIf (1 < present) "invalid debug-info flag"
  if present = 0 then pure ()
  else do
    let locals ← count "local debug count exceeds safety limit"
    times locals (debugLocal strings maxStack)
    let upvalues ← count "upvalue debug count exceeds safety limit"
    times upvalues (stringId strings)

/-- One slot of the feedback vector; `LFT_CALLTARGET` is the only kind. -/
def feedbackSlot : Read Unit := do
  let kind ← u8
  failIf (kind ≠ 0) "unsupported feedback-vector slot"
  let _ ← var
  pure ()

/-- The feedback vector. -/
def feedbackVector (version : ℕ) : Read Unit :=
  if version < 11 then pure ()
  else do
    let slots ← count "feedback-vector count exceeds safety limit"
    times slots feedbackSlot

/-- The cost that is stored for an inlinable function, `LPF_INLINABLE`. -/
def inlineCost (flags : ℕ) : Read Unit := if flags / 8 % 2 = 0 then pure () else var64

/-- The position at which a sized prototype ends. -/
def protoEnd (version : ℕ) : Read (Option ℕ) := do
  if version < 12 then return none
  else do
    let size ← var
    failIf (size = 0 ∨ (← remaining) < size) "prototype size is out of range"
    return some ((← offset) + size)

/-- The fields behind the feedback vector, up to the declared end of the prototype. -/
def protoTail (flags : ℕ) : Option ℕ → Read Unit
  | none => pure ()
  | some stop => do
    inlineCost flags
    failIf (stop < (← offset)) "prototype fields exceed declared size"
    skip (stop - (← offset))

/-- The flags and the type information. -/
def protoFlags (version : ℕ) : Read ℕ := do
  if version < 4 then return 0
  else do
    let flags ← u8
    let typeInfoSize ← var
    skip typeInfoSize
    return flags

/-- A prototype after `codeTotal` instruction words and `constantTotal` constants; the totals behind
it. -/
def proto (version strings protos codeTotal constantTotal : ℕ) : Read (ℕ × ℕ) := do
  let stop ← protoEnd version
  let maxStack ← u8
  let params ← u8
  let upvalues ← u8
  let vararg ← u8
  failIf (maxStack < params ∨ 200 < upvalues ∨ 1 < vararg) "invalid prototype register metadata"
  let flags ← protoFlags version
  let codeWords ← count "instruction word count exceeds safety limit"
  failIf (maxObjects < codeTotal + codeWords)
    "aggregate instruction word count exceeds safety limit"
  pass (fun offset => ⟨offset, codeWords⟩) (codeWords * 4)
  let constants ← count "constant count exceeds safety limit"
  failIf (maxObjects < constantTotal + constants) "aggregate constant count exceeds safety limit"
  times constants (constant version strings protos constants)
  let children ← count "child prototype count exceeds safety limit"
  times children (indexBelow protos "child prototype index is out of range")
  let _ ← var
  stringId strings
  lineInfo codeWords
  debugInfo strings maxStack
  feedbackVector version
  protoTail flags stop
  return (codeTotal + codeWords, constantTotal + constants)

/-- The prototypes that are left. -/
def protosFrom (version strings protos : ℕ) : ℕ → ℕ × ℕ → Read Unit
  | 0, _ => pure ()
  | left + 1, totals => do
    let totals ← proto version strings protos totals.1 totals.2
    protosFrom version strings protos left totals

/-- A chunk without its prefix; the version. -/
def chunk : Read ℕ := do
  let (version, typeVersion) ← versions
  let strings ← count "string table count exceeds safety limit"
  stringsFrom strings 0
  typeMap typeVersion strings
  let protos ← count "prototype count exceeds safety limit"
  failIf (protos = 0) "prototype table is empty"
  protosFrom version strings protos protos (0, 0)
  indexBelow protos "main prototype index is out of range"
  let trailing ← remaining
  failIf (trailing ≠ 0 ∧ trailing ≠ 24)
    "unexpected trailing data after main prototype (expected 0 or 24 bytes)"
  return version

/-- The optional prefix, `\x1bLuau`. -/
def chunkPrefix : List UInt8 := [0x1b, 0x4c, 0x75, 0x61, 0x75]

/-- The input without the optional prefix. -/
def removePrefix (input : List UInt8) : List UInt8 :=
  if input.take 5 = chunkPrefix then input.drop 5 else input

/-- `parse`: the version and the code ranges, whose offsets count from behind the prefix. -/
def parse (input : List UInt8) : Except String (ℕ × List CodeRange) := do
  let input := removePrefix input
  if input.isEmpty then throw "empty input"
  else if maxInputBytes < input.length then throw "input exceeds 256 MiB safety limit"
  else do
    let (version, c) ← chunk input {}
    return (version, c.marks)

/-! ## Opcodes -/

/-- The loop of `applyOpcodeTransform` over one range, from word `pc` on. -/
def transformRange (multiplier : ℕ) (range : CodeRange) :
    ℕ → ℕ → List UInt8 → Except String (List UInt8)
  | 0, _, bytes => pure bytes
  | fuel + 1, pc, bytes =>
    if range.words ≤ pc then pure bytes
    else
      let offset := range.offset + pc * 4
      let opcode := (bytes.getD offset 0).toNat * multiplier % 256
      match Opcode.ofNat? opcode with
      | none => throw ("unknown opcode " ++ toString opcode ++ " at code word " ++ toString pc)
      | some op =>
        if range.words < pc + op.getOpLength then
          throw ("instruction AUX word is truncated at code word " ++ toString pc)
        else
          transformRange multiplier range fuel (pc + op.getOpLength)
            (bytes.set offset (.ofNat opcode))

/-- `applyOpcodeTransform`. -/
def applyOpcodeTransform (bytes : List UInt8) (ranges : List CodeRange) (multiplier : ℕ) :
    Except String (List UInt8) :=
  ranges.foldlM (fun bytes range => transformRange multiplier range range.words 0 bytes) bytes

/-- `opcodeVariants`. -/
def opcodeVariants (input : List UInt8) : Except String (List (List UInt8)) := do
  let (_, ranges) ← parse input
  let bytes := removePrefix input
  match applyOpcodeTransform bytes ranges 1, applyOpcodeTransform bytes ranges 203 with
  | .ok plain, .ok decoded => return if plain = decoded then [plain] else [plain, decoded]
  | .ok plain, .error _ => return [plain]
  | .error _, .ok decoded => return [decoded]
  | .error _, .error error => throw ("Roblox opcode decoding failed: " ++ error)

end ByteVeil.RobloxBytecode
