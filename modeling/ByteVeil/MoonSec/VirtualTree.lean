import ByteVeil.MoonSec.SerializedReader
import Mathlib.Data.Int.Basic

/-!
# The decoded prototype tree

`VirtualTreeReader` reads the payload once more and keeps what it reads; its layout and its tag table
come from the texts of the payload.
-/

namespace ByteVeil.MoonSec

open Fallible

/-- `VirtualConstant`. -/
structure VirtualConstant where
  kind : ConstantKind := .unknown
  boolean : Bool := false
  bytes : List UInt8 := []

/-- `VirtualInstruction`. -/
structure VirtualInstruction where
  pc : ℕ := 0
  descriptor : ℕ := 0
  discarded : Bool := false
  opNum : ℤ := 0
  a : ℤ := 0
  b : ℤ := 0
  c : ℤ := 0
  isKA : Bool := false
  isKB : Bool := false
  isKC : Bool := false

/-- `VirtualFunction`. -/
structure VirtualFunction where
  parameters : ℕ := 0
  constants : List VirtualConstant := []
  instructions : List VirtualInstruction := []
  children : List VirtualFunction := []

/-! ## Texts -/

/-- `std::getline` with a comma until the end of the stream, with the line read so far. -/
def getlines : List Char → List Char → List (List Char)
  | line, [] => if line = [] then [] else [line]
  | line, c :: rest => if c = ',' then line :: getlines [] rest else getlines (line ++ [c]) rest

/-- The step with a name. -/
def stepOf (name : List Char) : Option Step :=
  if name = "constants".toList then some .constants
  else if name = "instructions".toList then some .instructions
  else if name = "functions".toList then some .functions
  else if name = "parameters".toList then some .parameters
  else none

/-- `decodeLayout`. -/
def decodeLayout (encoded : String) : Option (List Step) := do
  let layout ← (getlines [] encoded.toList).mapM stepOf
  if layout.length = 4 then some layout else none

/-- The kind with a name. -/
def kindNamed (name : List Char) : Option ConstantKind :=
  if name = "nil".toList then some .unknown
  else if name = "boolean".toList then some .boolean
  else if name = "number".toList then some .number
  else if name = "string".toList then some .string
  else none

/-- One entry of `decodeTags`. -/
def decodeTag (tags : List ConstantKind) : List Char → Option (List ConstantKind)
  | digit :: ':' :: c :: kind =>
    if digit < '0' ∨ '3' < digit then none
    else (kindNamed (c :: kind)).map fun k => tags.set (digit.toNat - '0'.toNat) k
  | _ => none

/-- `decodeTags`. -/
def decodeTags (encoded : String) : Option (List ConstantKind) :=
  (getlines [] encoded.toList).foldlM decodeTag (List.replicate 4 .unknown)

/-! ## The reader -/

/-- The members of `VirtualTreeReader` that change. -/
structure VirtualTreeReader where
  position : ℕ := 0
  functions : ℕ := 0
  instructions : ℕ := 0
  constants : ℕ := 0

namespace VirtualTreeReader

section Reader

variable (data : List UInt8) (layout : List Step) (tags : List ConstantKind)

/-- `need`. -/
def need (count : ℕ) : Partial VirtualTreeReader Unit :=
  demand fun r => decide (count ≤ data.length - r.position)

/-- A number of `n` bytes. -/
def readNumber (n : ℕ) : Partial VirtualTreeReader ℕ := do
  need data n
  let position ← inspect (·.position)
  modify fun r => { r with position := r.position + n }
  return littleEndian data position n

/-- `readByte`. -/
def readByte : Partial VirtualTreeReader ℕ := readNumber data 1

/-- `readI16`. -/
def readI16 : Partial VirtualTreeReader ℤ := do
  let raw ← readNumber data 2
  return if raw < 32768 then (raw : ℤ) else raw - 65536

/-- `readI32`. -/
def readI32 : Partial VirtualTreeReader ℤ := do
  let raw ← readNumber data 4
  return if raw < 2147483648 then (raw : ℤ) else raw - 4294967296

/-- `readU32`. -/
def readU32 : Partial VirtualTreeReader ℕ := readNumber data 4

/-- `readBytes`. -/
def readBytes (count : ℕ) : Partial VirtualTreeReader (List UInt8) := do
  need data count
  let position ← inspect (·.position)
  modify fun r => { r with position := r.position + count }
  return (data.drop position).take count

/-- The loop body of `parseConstants`. -/
def parseConstant : Partial VirtualTreeReader VirtualConstant := do
  let kind := kindOf tags (← readByte data)
  match kind with
  | .unknown => return { kind := kind }
  | .boolean =>
    let value ← readByte data
    return { kind := kind, boolean := value != 0 }
  | .number => return { kind := kind, bytes := ← readBytes data 8 }
  | .string =>
    let length ← readU32 data
    need data length
    demand fun _ => decide (length ≤ kMaxPayloadBytes)
    return { kind := kind, bytes := ← readBytes data length }

/-- `parseConstants`. -/
def parseConstants : Partial VirtualTreeReader (List VirtualConstant) := do
  let n ← readU32 data
  demand fun r => decide (n ≤ kMaxConstants - r.constants)
  need data n
  modify fun r => { r with constants := r.constants + n }
  gather n (parseConstant data tags)

/-- The loop body of `parseInstructions`; the pc is set by the loop. -/
def parseInstruction : Partial VirtualTreeReader VirtualInstruction := do
  let descriptor ← readByte data
  if descriptor % 2 = 1 then return { descriptor := descriptor, discarded := true }
  else
    let opNum ← readI16 data
    let a ← readI16 data
    let (b, c) ← match descriptor / 2 % 4 with
      | 0 => do
        let b ← readI16 data
        let c ← readI16 data
        pure (b, c)
      | 1 => do
        let b ← readI32 data
        pure (b, (0 : ℤ))
      | 2 => do
        let b ← readI32 data
        pure (b - 65536, (0 : ℤ))
      | _ => do
        let b ← readI32 data
        let c ← readI16 data
        pure (b - 65536, c)
    modify fun r => { r with instructions := r.instructions + 1 }
    return { descriptor := descriptor, opNum := opNum, a := a, b := b, c := c
             isKA := descriptor / 8 % 2 == 1, isKB := descriptor / 16 % 2 == 1
             isKC := descriptor / 32 % 2 == 1 }

/-- `parseInstructions`. -/
def parseInstructions : Partial VirtualTreeReader (List VirtualInstruction) := do
  let n ← readU32 data
  demand fun r => decide (n ≤ kMaxInstructions - r.instructions)
  need data n
  let output ← gather n (parseInstruction data)
  return output.zipIdx.map fun (instruction, pc) => { instruction with pc := pc }

/-- `parseFunctions`, given how a child is parsed. -/
def parseFunctions (child : Partial VirtualTreeReader VirtualFunction) :
    Partial VirtualTreeReader (List VirtualFunction) := do
  let n ← readU32 data
  demand fun r => decide (n ≤ kMaxFunctions - r.functions) && decide (n ≤ data.length / 5)
  gather n child

/-- A step of `parseFunction`. -/
def parseStep (child : Partial VirtualTreeReader VirtualFunction) (output : VirtualFunction) :
    Step → Partial VirtualTreeReader VirtualFunction
  | .constants => do return { output with constants := ← parseConstants data tags }
  | .instructions => do return { output with instructions := ← parseInstructions data }
  | .functions => do return { output with children := ← parseFunctions data child }
  | .parameters => do return { output with parameters := ← readByte data }

/-- The loop of `parseFunction` over the steps. -/
def parseSteps (child : Partial VirtualTreeReader VirtualFunction) :
    VirtualFunction → List Step → Partial VirtualTreeReader VirtualFunction
  | output, [] => return output
  | output, step :: steps => do
    let output ← parseStep data tags child output step
    parseSteps child output steps

/-- `parseFunction` with `levels` further levels of depth allowed. -/
def parseFunction : ℕ → Partial VirtualTreeReader VirtualFunction
  | 0 => failure
  | levels + 1 => do
    demand fun r => decide (r.functions < kMaxFunctions)
    modify fun r => { r with functions := r.functions + 1 }
    parseSteps data tags (parseFunction levels) {} layout

/-- `parse`. -/
def parse : Option VirtualFunction :=
  match (parseFunction data layout tags (kMaxPrototypeDepth + 1)).run {} with
  | none => none
  | some (root, r) => if r.position = data.length then some root else none

end Reader

end VirtualTreeReader

/-! ## Counts of a tree -/

namespace VirtualFunction

mutual

/-- The sum of a count over the functions of a tree. -/
def total (count : VirtualFunction → ℕ) : VirtualFunction → ℕ
  | ⟨parameters, constants, instructions, children⟩ =>
    count ⟨parameters, constants, instructions, children⟩ + totalAll count children

/-- The sum of a count over the functions of several trees. -/
def totalAll (count : VirtualFunction → ℕ) : List VirtualFunction → ℕ
  | [] => 0
  | f :: rest => total count f + totalAll count rest

end

theorem total_eq (count : VirtualFunction → ℕ) (f : VirtualFunction) :
    f.total count = count f + totalAll count f.children := by
  cases f
  rw [total]

/-- The nodes of a tree. -/
def nodes (f : VirtualFunction) : ℕ := f.total fun _ => 1

/-- The instructions of a tree that are not discarded. -/
def kept (f : VirtualFunction) : ℕ :=
  f.total fun g => (g.instructions.filter fun i => !i.discarded).length

/-- The constants of a tree. -/
def constantCount (f : VirtualFunction) : ℕ := f.total fun g => g.constants.length

end VirtualFunction

end ByteVeil.MoonSec
