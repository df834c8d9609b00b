import ByteVeil.Fallible.Lockstep
import ByteVeil.MoonSec.Literals

/-!
# The serialized prototype tree

`SerializedReader` walks over a payload and counts what it passes; `probe` tries it with every order
of the four steps and every tag table and keeps the best outcome.
-/

namespace ByteVeil.MoonSec

open Fallible

/-- `kMaxPrototypeDepth`. -/
def kMaxPrototypeDepth : ℕ := 128

/-- `kMaxFunctions`. -/
def kMaxFunctions : ℕ := 100000

/-- `kMaxInstructions`. -/
def kMaxInstructions : ℕ := 4000000

/-- `kMaxConstants`. -/
def kMaxConstants : ℕ := 4000000

/-- `Step`. -/
inductive Step
  | constants | instructions | functions | parameters
  deriving DecidableEq, Inhabited

/-- `ConstantKind`. -/
inductive ConstantKind
  | unknown | boolean | number | string
  deriving DecidableEq, Inhabited

/-- `Metrics`. -/
structure Metrics where
  functions : ℕ := 0
  instructions : ℕ := 0
  constants : ℕ := 0
  strings : ℕ := 0
  nonNilConstants : ℕ := 0

/-- The kind of a constant by its tag; other tags are nil. -/
def kindOf (tags : List ConstantKind) (tag : ℕ) : ConstantKind := tags.getD tag .unknown

/-- Bytes from `position` on as a number, the least significant first. -/
def littleEndian (data : List UInt8) (position : ℕ) : ℕ → ℕ
  | 0 => 0
  | n + 1 => (byteAt data position).toNat + 256 * littleEndian data (position + 1) n

/-! ## The reader -/

/-- The members of `SerializedReader` that change. -/
structure SerializedReader where
  position : ℕ := 0
  metrics : Metrics := {}

namespace SerializedReader

section Reader

variable (data : List UInt8) (order : List Step) (tags : List ConstantKind)

/-- `need`. -/
def need (count : ℕ) : Partial SerializedReader Unit :=
  demand fun r => decide (count ≤ data.length - r.position)

/-- `readByte`, `readU16` and `readU32`: a number of `n` bytes. -/
def readNumber (n : ℕ) : Partial SerializedReader ℕ := do
  need data n
  let position ← inspect (·.position)
  modify fun r => { r with position := r.position + n }
  return littleEndian data position n

/-- `readByte`. -/
def readByte : Partial SerializedReader ℕ := readNumber data 1

/-- `readU16`. -/
def readU16 : Partial SerializedReader ℕ := readNumber data 2

/-- `readU32`. -/
def readU32 : Partial SerializedReader ℕ := readNumber data 4

/-- `skip`. -/
def skip (count : ℕ) : Partial SerializedReader Unit := do
  need data count
  modify fun r => { r with position := r.position + count }

/-- Changes the metrics. -/
def count (f : Metrics → Metrics) : Partial SerializedReader Unit :=
  modify fun r => { r with metrics := f r.metrics }

/-- The loop body of `parseConstants`. -/
def parseConstant : Partial SerializedReader Unit := do
  match kindOf tags (← readByte data) with
  | .unknown => pure ()
  | .boolean =>
    skip data 1
    count fun m => { m with nonNilConstants := m.nonNilConstants + 1 }
  | .number =>
    skip data 8
    count fun m => { m with nonNilConstants := m.nonNilConstants + 1 }
  | .string =>
    let length ← readU32 data
    need data length
    demand fun _ => decide (length ≤ kMaxPayloadBytes)
    skip data length
    count fun m =>
      { m with nonNilConstants := m.nonNilConstants + 1, strings := m.strings + 1 }

/-- `parseConstants`. -/
def parseConstants : Partial SerializedReader Unit := do
  let n ← readU32 data
  demand fun r => decide (n ≤ kMaxConstants - r.metrics.constants)
  need data n
  count fun m => { m with constants := m.constants + n }
  repeated n (parseConstant data tags)

/-- The loop body of `parseInstructions`. -/
def parseInstruction : Partial SerializedReader Unit := do
  let descriptor ← readByte data
  if descriptor % 2 = 1 then pure ()
  else
    -- opcode and A
    let _ ← readU16 data
    let _ ← readU16 data
    match descriptor / 2 % 4 with
    | 0 =>
      let _ ← readU16 data
      let _ ← readU16 data
    | 1 | 2 =>
      let _ ← readU32 data
    | _ =>
      let _ ← readU32 data
      let _ ← readU16 data
    count fun m => { m with instructions := m.instructions + 1 }

/-- `parseInstructions`. -/
def parseInstructions : Partial SerializedReader Unit := do
  let n ← readU32 data
  demand fun r => decide (n ≤ kMaxInstructions - r.metrics.instructions)
  need data n
  repeated n (parseInstruction data)

/-- `parseFunctions`, given how a child is parsed. -/
def parseFunctions (child : Partial SerializedReader Unit) : Partial SerializedReader Unit := do
  let n ← readU32 data
  demand fun r => decide (n ≤ kMaxFunctions - r.metrics.functions) && decide (n ≤ data.length / 5)
  repeated n child

/-- A step of `parseFunction`. -/
def parseStep (child : Partial SerializedReader Unit) : Step → Partial SerializedReader Unit
  | .constants => parseConstants data tags
  | .instructions => parseInstructions data
  | .functions => parseFunctions data child
  | .parameters => do
    let _ ← readByte data

/-- The loop of `parseFunction` over the steps. -/
def parseSteps (child : Partial SerializedReader Unit) : List Step → Partial SerializedReader Unit
  | [] => pure ()
  | step :: steps => do
    parseStep data tags child step
    parseSteps child steps

/-- `parseFunction` with `levels` further levels of depth allowed. -/
def parseFunction : ℕ → Partial SerializedReader Unit
  | 0 => failure
  | levels + 1 => do
    demand fun r => decide (r.metrics.functions < kMaxFunctions)
    count fun m => { m with functions := m.functions + 1 }
    parseSteps data tags (parseFunction levels) order

/-- `parse`. -/
def parse : Option Metrics :=
  match (parseFunction data order tags (kMaxPrototypeDepth + 1)).run {} with
  | none => none
  | some (_, r) =>
    if r.position ≠ data.length ∨ r.metrics.functions = 0 ∨ r.metrics.instructions = 0 then none
    else some r.metrics

end Reader

end SerializedReader

/-! ## Names -/

/-- The name of a step. -/
def Step.name : Step → String
  | .constants => "constants"
  | .instructions => "instructions"
  | .functions => "functions"
  | .parameters => "parameters"

/-- The name of a kind. -/
def ConstantKind.name : ConstantKind → String
  | .unknown => "nil"
  | .boolean => "boolean"
  | .number => "number"
  | .string => "string"

/-- `layoutName`. -/
def layoutName (layout : List Step) : String := ",".intercalate (layout.map Step.name)

/-- The text of a tag. -/
def tagText (tag : ConstantKind × ℕ) : String := toString tag.2 ++ ":" ++ tag.1.name

/-- `tagName`. -/
def tagName (tags : List ConstantKind) : String := ",".intercalate (tags.zipIdx.map tagText)

/-! ## Probing -/

/-- The orders that `std::next_permutation` runs through from a sorted list on. -/
def orders : ℕ → List Step → List (List Step)
  | 0, _ => [[]]
  | n + 1, steps => steps.flatMap fun step => (orders n (steps.erase step)).map (step :: ·)

/-- The layouts that `probe` tries, in their order. -/
def layouts : List (List Step) :=
  orders 4 [.constants, .instructions, .functions, .parameters]

/-- The tag tables that `probe` tries, in their order. -/
def tagTables : List (List ConstantKind) := do
  let booleanTag ← List.range 4
  let numberTag ← List.range 4
  let stringTag ← List.range 4
  if numberTag = booleanTag ∨ stringTag = booleanTag ∨ stringTag = numberTag then []
  else
    [(((List.replicate 4 ConstantKind.unknown).set booleanTag .boolean).set numberTag .number).set
      stringTag .string]

/-- An outcome of `probe`. -/
structure Candidate where
  score : ℕ
  metrics : Metrics
  layout : List Step
  tags : List ConstantKind

/-- The score of a successful parse. -/
def scoreOf (m : Metrics) : ℕ :=
  min m.instructions 1000000 + min m.functions 100000 * 3 + min m.strings 100000 * 4 +
    min m.nonNilConstants 100000

/-- One round of `probe`: a better candidate replaces the best one so far. -/
def tryCandidate (bytes : List UInt8) (best : Option Candidate)
    (attempt : List Step × List ConstantKind) : Option Candidate :=
  match SerializedReader.parse bytes attempt.1 attempt.2 with
  | none => best
  | some metrics =>
    let candidate : Candidate := ⟨scoreOf metrics, metrics, attempt.1, attempt.2⟩
    match best with
    | none => some candidate
    | some other => if other.score < candidate.score then some candidate else best

/-- The layouts and tag tables in the order of the loops of `probe`. -/
def attempts : List (List Step × List ConstantKind) :=
  layouts.flatMap fun layout => tagTables.map fun tags => (layout, tags)

/-- The candidate that `probe` settles on. -/
def bestCandidate (bytes : List UInt8) : Option Candidate :=
  attempts.foldl (tryCandidate bytes) none

end ByteVeil.MoonSec
