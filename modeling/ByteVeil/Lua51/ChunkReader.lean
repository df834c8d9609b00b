import ByteVeil.Fallible.Refines
import ByteVeil.Lua51.Numbering
import Mathlib.Data.List.Induction
import Mathlib.Tactic.Ring

/-!
# The chunk reader on the bytes of its input

The reader of Lua 5.1 chunks with its position in the input, its budgets and every way in which it
could stop: an error of its own, an access beyond the input, a subtraction below zero. It stops with
errors of its own alone, and reads what `parse` reads.
-/

namespace ByteVeil.Lua51

open Fallible

/-- The ways in which the reader stops without a result. -/
inductive Stop
  | thrown (error : String)
  | outside (index : ℕ)
  | underflow
  deriving DecidableEq

/-- The reader with its input; `next` is the number that the next prototype gets. -/
structure ChunkReader where
  data : List UInt8
  pos : ℕ := 0
  little : Bool := true
  sizeT : ℕ := 4
  totalInstructions : ℕ := 0
  totalConstants : ℕ := 0
  totalDebugEntries : ℕ := 0
  totalPrototypes : ℕ := 0
  next : ℕ := 0

namespace ChunkReader

/-- Steps of the reader. -/
abbrev Step := StateT ChunkReader (Except Stop)

/-- Throws the error when `bad` holds. -/
def throwIf (bad : Prop) [Decidable bad] (error : String) : Step Unit :=
  if bad then throw (.thrown error) else pure ()

/-- A difference of two unsigned numbers. -/
def minus (m n : ℕ) : Step ℕ := if m < n then throw .underflow else pure (m - n)

/-- `data[pos++]`. -/
def nextByte : Step UInt8 := do
  let r ← get
  match r.data[r.pos]? with
  | none => throw (.outside r.pos)
  | some b => do
    set { r with pos := r.pos + 1 }
    return b

/-- `need`. -/
def need (n : ℕ) : Step Unit := do
  let r ← get
  let left ← minus r.data.length r.pos
  throwIf (left < n) "truncated Lua 5.1 chunk"

/-- An unsigned number of `n` bytes, byte by byte in the order of the chunk. -/
def number (n : ℕ) : Step ℕ := do
  need n
  if (← get).little then
    (List.range n).foldlM (fun v i => do return v ||| ((← nextByte).toNat <<< (8 * i))) 0
  else
    (List.range n).foldlM (fun v _ => do return (v <<< 8 ||| (← nextByte).toNat) % 2 ^ (8 * n)) 0

/-- `u8`. -/
def u8 : Step ℕ := do
  need 1
  return (← nextByte).toNat

/-- `u32`. -/
def u32 : Step ℕ := number 4

/-- `u64`. -/
def u64 : Step ℕ := number 8

/-- `i32`. -/
def i32 : Step ℤ := do return signed32 (← u32)

/-- `bytes`. -/
def bytes (n : ℕ) : Step (List UInt8) := do
  need n
  let r ← get
  if r.data.length < r.pos + n then throw (.outside r.data.length)
  else
    set { r with pos := r.pos + n }
    return (r.data.drop r.pos).take n

/-- `luaString`. -/
def luaString : Step (List UInt8) := do
  let n ← if (← get).sizeT = 4 then u32 else u64
  if n = 0 then return []
  throwIf (64 * 1024 * 1024 < n) "invalid Lua 5.1 string length"
  let s ← bytes (← minus n 1)
  let _ ← u8
  return s

/-- The elements of a counted list. -/
def many {α : Type} (n : ℕ) (item : Step α) : Step (List α) := (List.replicate n item).mapM id

/-- `header`. -/
def header : Step Unit := do
  throwIf ((← bytes 4) ≠ [0x1b, 0x4c, 0x75, 0x61]) "not a Lua 5.1 chunk"
  throwIf ((← u8) ≠ 0x51) "unsupported Lua version; expected 5.1"
  throwIf ((← u8) ≠ 0) "unsupported Lua binary format"
  let endian ← u8
  throwIf (endian ≠ 0 ∧ endian ≠ 1) "invalid Lua endianness"
  modify fun r => { r with little := endian == 1 }
  throwIf ((← u8) ≠ 4) "unsupported Lua integer width"
  let sizeT ← u8
  modify fun r => { r with sizeT := sizeT }
  throwIf (sizeT ≠ 4 ∧ sizeT ≠ 8) "unsupported Lua size_t width"
  throwIf ((← u8) ≠ 4) "unsupported Lua instruction width"
  throwIf ((← u8) ≠ 8) "unsupported Lua number width"
  throwIf ((← u8) ≠ 0) "integral Lua number chunks are unsupported"

/-- `constant`. -/
def constant : Step Constant := do
  match ← u8 with
  | 0 => return .nil
  | 1 => return .boolean ((← u8) != 0)
  | 3 => return .number (.ofBits (← u64))
  | 4 => return .string (← luaString)
  | _ => throw (.thrown "unsupported Lua constant tag")

/-- The errors of a part that does not read. -/
def thrown {α : Type} : Except String α → Except Stop α
  | .error e => .error (.thrown e)
  | .ok a => .ok a

/-- Takes `n` out of what is left of a budget of a million. -/
def spend (total : ChunkReader → ℕ) (take : ChunkReader → ℕ → ChunkReader) (n : ℕ) (error : String) :
    Step Unit := do
  let r ← get
  let left ← minus 1000000 (total r)
  throwIf (left < n) error
  set (take r n)

/-- The instruction budget. -/
def takeInstructions (n : ℕ) : Step Unit :=
  spend (·.totalInstructions) (fun r n => { r with totalInstructions := r.totalInstructions + n }) n
    "Lua instruction limit exceeded"

/-- The constant budget. -/
def takeConstants (n : ℕ) : Step Unit :=
  spend (·.totalConstants) (fun r n => { r with totalConstants := r.totalConstants + n }) n
    "Lua constant limit exceeded"

/-- The budget for debug entries. -/
def takeDebugEntries (n : ℕ) (error : String) : Step Unit :=
  spend (·.totalDebugEntries) (fun r n => { r with totalDebugEntries := r.totalDebugEntries + n }) n
    error

/-- A counted debug list. -/
def debugList {α : Type} (error : String) (item : Step α) : Step (List α) := do
  let n ← u32
  takeDebugEntries n error
  many n item

/-- The instruction list of `parseProto`. -/
def readCode : Step (List Instr) := do
  let ncode ← u32
  takeInstructions ncode
  let rawCode ← many ncode u32
  thrown (decodeCode rawCode)

/-- The constant list of `parseProto`. -/
def readConstants : Step (List Constant) := do
  let nk ← u32
  takeConstants nk
  many nk constant

/-- `++r.totalPrototypes > 100000` and `next++`. -/
def nextId : Step ℕ := do
  modify fun r => { r with totalPrototypes := r.totalPrototypes + 1 }
  throwIf (100000 < (← get).totalPrototypes) "Lua prototype limit exceeded"
  let id := (← get).next
  modify fun r => { r with next := r.next + 1 }
  return id

/-- The part of `parseProto` before the children. -/
def readPrologue (parent : ℤ) : Step Proto := do
  let id ← nextId
  let source ← luaString
  let linedefined ← i32
  let lastline ← i32
  let nups ← u8
  let params ← u8
  let vararg ← u8
  let maxstack ← u8
  throwIf (maxstack = 0) "Lua prototype has zero maxstack"
  let code ← readCode
  let constants ← readConstants
  return {
    id := id, parent := parent, source := source, linedefined := linedefined
    lastline := lastline, nups := nups, params := params, vararg := vararg, maxstack := maxstack
    code := code, constants := constants, children := [], lines := [], locals := []
    upvalues := [], capturedRegisters := [], managedCapturedRegisters := [] }

/-- The part of `parseProto` after the children. -/
def readEpilogue (p : Proto) : Step Proto := do
  let lines ← debugList "Lua lineinfo limit exceeded" i32
  let locals ← debugList "Lua local debug limit exceeded" do
    return { name := ← luaString, start := signed32 (← u32), stop := signed32 (← u32) }
  let upvalues ← debugList "Lua upvalue debug limit exceeded" luaString
  return { p with lines := lines, locals := locals, upvalues := upvalues }

/-- `parseProto`. -/
def parseProto (depth : ℕ) (parent : ℤ) : Step Proto :=
  if hdepth : 128 < depth then throw (.thrown "Lua prototype nesting exceeds 128")
  else do
    let p ← readPrologue parent
    let np ← u32
    throwIf (100000 < np) "Lua child prototype limit exceeded"
    let children ← many np (parseProto (depth + 1) p.id)
    let p ← readEpilogue { p with children := children }
    thrown (finishProto p)
termination_by 129 - depth

/-- `parse`, with the reader as it is left. -/
def parse (data : List UInt8) : Except Stop (Proto × ChunkReader) :=
  (do
    header
    let p ← parseProto 0 (-1)
    throwIf ((← get).pos ≠ data.length) "trailing bytes after Lua chunk"
    return p : Step Proto).run { data := data }

/-! ## The same as `parse` -/

/-- The reader stands where the other one does, inside its input and within its budgets. -/
structure Follows (data : List UInt8) (m : ChunkReader) (r : Reader) : Prop where
  data_eq : m.data = data
  rest : r.rest = data.drop m.pos
  inside : m.pos ≤ data.length
  little : m.little = r.little
  sizeT : m.sizeT = r.sizeT
  instructions : m.totalInstructions = r.totalInstructions
  constants : m.totalConstants = r.totalConstants
  debugEntries : m.totalDebugEntries = r.totalDebugEntries
  prototypes : m.totalPrototypes = r.totalPrototypes
  next : m.next = r.totalPrototypes
  budget : m.totalInstructions ≤ 1000000 ∧ m.totalConstants ≤ 1000000 ∧
    m.totalDebugEntries ≤ 1000000 ∧ m.totalPrototypes ≤ 100000

section Follows

variable {data : List UInt8} {α : Type}

/-- A step reads what the other reader reads. -/
abbrev Matches (data : List UInt8) (x : Step α) (y : Read α) : Prop :=
  Refines (Follows data) Stop.thrown x y

theorem Follows.length_rest {m : ChunkReader} {r : Reader} (h : Follows data m r) :
    r.rest.length = data.length - m.pos := by
  rw [h.rest, List.length_drop]

/-- Both readers pass `n` bytes. -/
theorem Follows.pass {m : ChunkReader} {r : Reader} (h : Follows data m r) {n : ℕ}
    (hn : n ≤ r.rest.length) :
    Follows data { m with pos := m.pos + n } { r with rest := r.rest.drop n } := by
  have hlength := h.length_rest
  have hinside := h.inside
  exact { h with
    rest := by rw [h.rest, List.drop_drop]
    inside := by
      show m.pos + n ≤ data.length
      omega }

theorem matches_throwIf (bad : Prop) [Decidable bad] (error : String) :
    Matches data (throwIf bad error) (failIf bad error) := by
  unfold throwIf failIf
  split_ifs
  · exact refines_throw error
  · exact refines_pure ()

/-- `need` asks whether so many bytes are left; there is nothing to run below. -/
theorem need_eq {m : ChunkReader} {r : Reader} (h : Follows data m r) (n : ℕ) :
    need n m = if r.rest.length < n then .error (.thrown "truncated Lua 5.1 chunk")
      else .ok ((), m) := by
  have hlength := h.length_rest
  have hnot : ¬m.data.length < m.pos := by
    have := h.inside
    rw [h.data_eq]
    omega
  show (minus m.data.length m.pos >>= fun left => throwIf (left < n) "truncated Lua 5.1 chunk") m = _
  unfold minus
  rw [if_neg hnot, pure_bind, h.data_eq, ← hlength]
  unfold throwIf
  split_ifs
  · rfl
  · rfl

/-! ### Numbers -/

/-- Bytes as a number, the most significant first. -/
def bigValue (bytes : List UInt8) : ℕ := bytes.foldl (fun v b => v * 256 + b.toNat) 0

theorem bigValue_append (bytes : List UInt8) (b : UInt8) :
    bigValue (bytes ++ [b]) = bigValue bytes * 256 + b.toNat := by
  unfold bigValue
  rw [List.foldl_append]
  rfl

theorem bigValue_cons (b : UInt8) (bytes : List UInt8) :
    bigValue (b :: bytes) = b.toNat * 256 ^ bytes.length + bigValue bytes := by
  induction bytes using List.reverseRecOn with
  | nil => simp [bigValue]
  | append_singleton bytes c ih =>
    rw [← List.cons_append, bigValue_append, bigValue_append, ih, List.length_append,
      List.length_singleton, pow_succ]
    ring

theorem bigValue_lt (bytes : List UInt8) : bigValue bytes < 256 ^ bytes.length := by
  induction bytes using List.reverseRecOn with
  | nil => simp [bigValue]
  | append_singleton bytes b ih =>
    have hb := b.toNat_lt
    rw [bigValue_append, List.length_append, List.length_singleton, pow_succ]
    omega

theorem nextByte_eq {m : ChunkReader} {r : Reader} (h : Follows data m r) {k : ℕ}
    (hk : k < r.rest.length) :
    nextByte { m with pos := m.pos + k } = .ok (r.rest[k], { m with pos := m.pos + k + 1 }) := by
  have hget : m.data[m.pos + k]? = some r.rest[k] := by
    rw [← List.getElem?_eq_getElem hk, h.rest, List.getElem?_drop, h.data_eq]
  show (match m.data[m.pos + k]? with
    | none => (throw (Stop.outside (m.pos + k)) : Step UInt8)
    | some b => (do
      set { m with pos := m.pos + k + 1 }
      return b)) { m with pos := m.pos + k } = _
  rw [hget]
  rfl

/-- One more round of a loop that reads a byte in every round. -/
theorem loop_succ (update : ℕ → ℕ → ℕ → ℕ) {m : ChunkReader} {r : Reader} (h : Follows data m r)
    {n v : ℕ} (hn : n < r.rest.length)
    (hloop : (List.range n).foldlM
      (fun v i => do return update v i (← nextByte).toNat : ℕ → ℕ → Step ℕ) 0 m =
        .ok (v, { m with pos := m.pos + n })) :
    (List.range (n + 1)).foldlM
      (fun v i => do return update v i (← nextByte).toNat : ℕ → ℕ → Step ℕ) 0 m =
        .ok (update v n r.rest[n].toNat, { m with pos := m.pos + (n + 1) }) := by
  rw [List.range_succ, List.foldlM_append]
  show ((List.range n).foldlM
    (fun v i => do return update v i (← nextByte).toNat : ℕ → ℕ → Step ℕ) 0 m >>= fun p =>
      [n].foldlM (fun v i => do return update v i (← nextByte).toNat : ℕ → ℕ → Step ℕ) p.1 p.2) = _
  rw [hloop]
  show ((do return update v n (← nextByte).toNat) { m with pos := m.pos + n } >>= fun p =>
    (pure p.1 : Step ℕ) p.2) = _
  show ((nextByte { m with pos := m.pos + n } >>= fun p =>
    (pure (update v n p.1.toNat) : Step ℕ) p.2) >>= fun p => (pure p.1 : Step ℕ) p.2) = _
  rw [nextByte_eq h hn]
  rfl

/-- The loop of a number that starts with the least significant byte. -/
theorem littleLoop_eq {m : ChunkReader} {r : Reader} (h : Follows data m r) {n : ℕ}
    (hn : n ≤ r.rest.length) :
    (List.range n).foldlM
      (fun v i => do return v ||| ((← nextByte).toNat <<< (8 * i)) : ℕ → ℕ → Step ℕ) 0 m =
        .ok (bigValue (r.rest.take n).reverse, { m with pos := m.pos + n }) := by
  induction n with
  | zero => rfl
  | succ n ih =>
    have hlt : n < r.rest.length := hn
    have hlength : (r.rest.take n).reverse.length = n := by
      rw [List.length_reverse, List.length_take, Nat.min_eq_left (Nat.le_of_lt hlt)]
    have hbound := bigValue_lt (r.rest.take n).reverse
    have hpow : 2 ^ (8 * n) = 256 ^ n := pow_mul 2 8 n
    rw [hlength, ← hpow] at hbound
    rw [loop_succ (fun v i b => v ||| b <<< (8 * i)) h hlt (ih (Nat.le_of_lt hlt)),
      ← List.take_append_getElem hlt, List.reverse_append, List.reverse_singleton,
      List.singleton_append, bigValue_cons, hlength, Nat.or_comm,
      ← Nat.shiftLeft_add_eq_or_of_lt hbound, Nat.shiftLeft_eq, hpow]

/-- The loop of a number that starts with the most significant byte. -/
theorem bigLoop_eq {m : ChunkReader} {r : Reader} (h : Follows data m r) {n w : ℕ}
    (hn : n ≤ r.rest.length) (hw : n ≤ w) :
    (List.range n).foldlM
      (fun v _ => do return (v <<< 8 ||| (← nextByte).toNat) % 2 ^ (8 * w) : ℕ → ℕ → Step ℕ) 0 m =
        .ok (bigValue (r.rest.take n), { m with pos := m.pos + n }) := by
  induction n with
  | zero => rfl
  | succ n ih =>
    have hlt : n < r.rest.length := hn
    have hbound := bigValue_lt (r.rest.take (n + 1))
    have hbyte : r.rest[n].toNat < 2 ^ 8 := r.rest[n].toNat_lt
    have hwidth : 256 ^ (r.rest.take (n + 1)).length ≤ 2 ^ (8 * w) := by
      rw [List.length_take, Nat.min_eq_left hn, pow_mul]
      exact Nat.pow_le_pow_right (by decide) hw
    rw [loop_succ (fun v _ b => (v <<< 8 ||| b) % 2 ^ (8 * w)) h hlt
      (ih (Nat.le_of_lt hlt) (Nat.le_of_lt hw)), ← Nat.shiftLeft_add_eq_or_of_lt hbyte,
      Nat.shiftLeft_eq]
    rw [← List.take_append_getElem hlt] at hbound hwidth ⊢
    rw [bigValue_append] at hbound ⊢
    rw [Nat.mod_eq_of_lt (hbound.trans_le hwidth)]

/-! ### Reading steps -/

theorem bytes_run (n : ℕ) (r : Reader) :
    Lua51.bytes n r = if r.rest.length < n then .error "truncated Lua 5.1 chunk"
      else .ok (r.rest.take n, { r with rest := r.rest.drop n }) := by
  show (failIf (r.rest.length < n) "truncated Lua 5.1 chunk" >>= fun _ =>
    set { r with rest := r.rest.drop n } >>= fun _ => pure (r.rest.take n) : Read (List UInt8)) r = _
  unfold failIf
  split_ifs
  · rfl
  · rfl

/-- The error of a reader that comes to the end of its input. -/
def truncated : String := "truncated Lua 5.1 chunk"

theorem bytes_eq {m : ChunkReader} {r : Reader} (h : Follows data m r) (n : ℕ) :
    bytes n m = if r.rest.length < n then .error (.thrown truncated)
      else .ok (r.rest.take n, { m with pos := m.pos + n }) := by
  have hlength := h.length_rest
  have hinside := h.inside
  show (need n m >>= fun p => _) = _
  rw [need_eq h]
  split_ifs with hn
  · rfl
  · have hnot : ¬m.data.length < m.pos + n := by
      rw [h.data_eq]
      omega
    show (if m.data.length < m.pos + n then throw (Stop.outside m.data.length)
      else _ : Step (List UInt8)) m = _
    rw [if_neg hnot, h.rest, ← h.data_eq]
    rfl

theorem unsigned_run (n : ℕ) (r : Reader) :
    unsigned n r = if r.rest.length < n then .error truncated
      else .ok (bigValue (if r.little then (r.rest.take n).reverse else r.rest.take n),
        { r with rest := r.rest.drop n }) := by
  show (Lua51.bytes n r >>= fun p => _) = _
  rw [bytes_run]
  by_cases hn : r.rest.length < n
  · rw [if_pos hn, if_pos hn]
    rfl
  · rw [if_neg hn, if_neg hn]
    rfl

theorem number_eq {m : ChunkReader} {r : Reader} (h : Follows data m r) (n : ℕ) :
    number n m = if r.rest.length < n then .error (.thrown truncated)
      else .ok (bigValue (if r.little then (r.rest.take n).reverse else r.rest.take n),
        { m with pos := m.pos + n }) := by
  show (need n m >>= fun p => _) = _
  rw [need_eq h]
  by_cases hn : r.rest.length < n
  · rw [if_pos hn, if_pos hn]
    rfl
  · rw [if_neg hn, if_neg hn]
    have hle : n ≤ r.rest.length := Nat.le_of_not_lt hn
    show (if m.little then _ else _ : Step ℕ) m = _
    by_cases hlittle : r.little = true
    · rw [if_pos (h.little.trans hlittle), if_pos hlittle]
      exact littleLoop_eq h hle
    · rw [if_neg (h.little ▸ hlittle), if_neg hlittle]
      exact bigLoop_eq h hle le_rfl

theorem u8_eq {m : ChunkReader} {r : Reader} (h : Follows data m r) :
    u8 m = if r.rest.length < 1 then .error (.thrown truncated)
      else .ok (bigValue (if r.little then (r.rest.take 1).reverse else r.rest.take 1),
        { m with pos := m.pos + 1 }) := by
  show (need 1 m >>= fun p => _) = _
  rw [need_eq h]
  by_cases hn : r.rest.length < 1
  · rw [if_pos hn, if_pos hn]
    rfl
  · rw [if_neg hn, if_neg hn]
    have hpos : 0 < r.rest.length := by omega
    have hvalue : bigValue (if r.little then (r.rest.take 1).reverse else r.rest.take 1) =
        r.rest[0].toNat := by
      obtain ⟨b, rest, hrest⟩ := List.exists_cons_of_length_pos hpos
      simp [hrest, bigValue]
    show (nextByte { m with pos := m.pos + 0 } >>= fun p => _) = _
    rw [nextByte_eq h hpos, hvalue]
    rfl

/-- Both readers pass `n` bytes and read the same from them. -/
theorem matches_pass {x : Step α} {y : Read α} (n : ℕ) (value : Reader → α)
    (hx : ∀ m r, Follows data m r → x m = if r.rest.length < n then .error (.thrown truncated)
      else .ok (value r, { m with pos := m.pos + n }))
    (hy : ∀ r, y r = if r.rest.length < n then .error truncated
      else .ok (value r, { r with rest := r.rest.drop n })) : Matches data x y := by
  intro m r h
  rw [hx m r h, hy r]
  split_ifs with hn
  · refine ⟨fun e he => ?_, nofun⟩
    obtain rfl := Except.error.inj he
    rfl
  · refine ⟨nofun, fun a r' hr' => ?_⟩
    obtain ⟨rfl, rfl⟩ := Prod.mk.inj (Except.ok.inj hr')
    exact ⟨_, rfl, h.pass (Nat.le_of_not_lt hn)⟩

theorem matches_bytes (n : ℕ) : Matches data (bytes n) (Lua51.bytes n) :=
  matches_pass n (fun r => r.rest.take n) (fun _ _ h => bytes_eq h n) (bytes_run n)

theorem matches_number (n : ℕ) : Matches data (number n) (unsigned n) :=
  matches_pass n _ (fun _ _ h => number_eq h n) (unsigned_run n)

theorem matches_u8 : Matches data u8 Lua51.u8 := matches_pass 1 _ (fun _ _ h => u8_eq h) (unsigned_run 1)

theorem matches_u32 : Matches data u32 Lua51.u32 := matches_number 4

theorem matches_i32 : Matches data i32 Lua51.i32 := matches_u32.bind fun _ => refines_pure _

/-- The error checks of a length and the bytes that it announces. -/
theorem matches_luaString : Matches data luaString Lua51.luaString := by
  have hrest (n : ℕ) : Matches data (do
      if n = 0 then return []
      throwIf (64 * 1024 * 1024 < n) "invalid Lua 5.1 string length"
      let s ← bytes (← minus n 1)
      let _ ← u8
      return s) (do
      if n = 0 then return []
      failIf (67108864 < n) "invalid Lua 5.1 string length"
      let s ← Lua51.bytes (n - 1)
      let _ ← Lua51.u8
      return s) := by
    by_cases hn : n = 0
    · rw [if_pos hn, if_pos hn]
      exact refines_pure []
    · have hminus : minus n 1 = pure (n - 1) := by
        unfold minus
        rw [if_neg (by omega)]
      rw [if_neg hn, if_neg hn, hminus]
      exact (matches_throwIf _ _).bind fun _ => (matches_bytes _).bind fun _ =>
        matches_u8.bind fun _ => refines_pure _
  refine refines_get fun m r h => ?_
  rw [h.sizeT]
  by_cases hsizeT : r.sizeT = 4
  · rw [if_pos hsizeT, if_pos hsizeT]
    exact matches_u32.bind hrest
  · rw [if_neg hsizeT, if_neg hsizeT]
    exact (matches_number 8).bind hrest

theorem matches_many {x : Step α} {y : Read α} (h : Matches data x y) (n : ℕ) :
    Matches data (many n x) (Lua51.many n y) :=
  refines_replicate h n

theorem matches_header : Matches data header Lua51.header := by
  refine (matches_bytes 4).bind fun _ => (matches_throwIf _ _).bind fun _ => ?_
  refine matches_u8.bind fun _ => (matches_throwIf _ _).bind fun _ => ?_
  refine matches_u8.bind fun _ => (matches_throwIf _ _).bind fun _ => ?_
  refine matches_u8.bind fun endian => (matches_throwIf _ _).bind fun _ => ?_
  refine (refines_modify fun m r h => { h with little := rfl }).bind fun _ => ?_
  refine matches_u8.bind fun _ => (matches_throwIf _ _).bind fun _ => ?_
  refine matches_u8.bind fun sizeT => ?_
  refine (refines_modify fun m r h => { h with sizeT := rfl }).bind fun _ => ?_
  refine (matches_throwIf _ _).bind fun _ => ?_
  refine matches_u8.bind fun _ => (matches_throwIf _ _).bind fun _ => ?_
  refine matches_u8.bind fun _ => (matches_throwIf _ _).bind fun _ => ?_
  exact matches_u8.bind fun _ => matches_throwIf _ _

theorem matches_constant : Matches data constant Lua51.constant := by
  refine matches_u8.bind fun tag => ?_
  match tag with
  | 0 => exact refines_pure _
  | 1 => exact matches_u8.bind fun _ => refines_pure _
  | 2 => exact refines_throw _
  | 3 => exact (matches_number 8).bind fun _ => refines_pure _
  | 4 => exact matches_luaString.bind fun _ => refines_pure _
  | _ + 5 => exact refines_throw _

theorem matches_thrown (v : Except String α) :
    Matches data (liftM (thrown v)) (liftM v) :=
  refines_lift (fun e he => by rw [he]; rfl) fun a ha => by rw [ha]; rfl

/-! ### Budgets -/

theorem spend_eq {total : ChunkReader → ℕ} {m : ChunkReader} (h : total m ≤ 1000000)
    (take : ChunkReader → ℕ → ChunkReader) (n : ℕ) (error : String) :
    spend total take n error m = if 1000000 < total m + n then .error (.thrown error)
      else .ok ((), take m n) := by
  have hminus : minus 1000000 (total m) = pure (1000000 - total m) := by
    unfold minus
    rw [if_neg (by omega)]
  have hleft : (1000000 - total m < n) = (1000000 < total m + n) := by
    rw [eq_iff_iff]
    omega
  show ((minus 1000000 (total m) >>= fun left => throwIf (left < n) error >>= fun _ =>
    set (take m n) : Step Unit) m) = _
  rw [hminus, pure_bind]
  unfold throwIf
  simp only [hleft]
  split_ifs
  · rfl
  · rfl

/-- A budget with room for `n` more is checked and charged alike. -/
theorem matches_spend {total : ChunkReader → ℕ} {take : ChunkReader → ℕ → ChunkReader}
    {total' : Reader → ℕ} {take' : Reader → Reader} {n : ℕ} {error : String} {x : Step α} {y : Read α}
    (htotal : ∀ m r, Follows data m r → total m = total' r ∧ total m ≤ 1000000)
    (htake : ∀ m r, Follows data m r → total m + n ≤ 1000000 → Follows data (take m n) (take' r))
    (h : Matches data x y) :
    Matches data (spend total take n error >>= fun _ => x) (do
      let r ← get
      failIf (1000000 < total' r + n) error
      set (take' r)
      y) := by
  refine refines_update (fun m r hfollows => ?_) h
  obtain ⟨heq, hle⟩ := htotal m r hfollows
  rw [spend_eq hle, heq]
  unfold failIf
  split_ifs with hbad
  · exact .inl ⟨error, rfl, rfl⟩
  · refine .inr ⟨rfl, _, rfl, htake m r hfollows ?_⟩
    omega

theorem matches_readCode : Matches data readCode Lua51.readCode := by
  refine matches_u32.bind fun ncode => ?_
  refine matches_spend (fun m r h => ⟨h.instructions, h.budget.1⟩) (fun m r h hle => ?_)
    ((matches_many matches_u32 ncode).bind fun rawCode => matches_thrown _)
  exact { h with
    instructions := congrArg (· + ncode) h.instructions
    budget := ⟨hle, h.budget.2⟩ }

theorem matches_readConstants : Matches data readConstants Lua51.readConstants := by
  refine matches_u32.bind fun nk => ?_
  refine matches_spend (fun m r h => ⟨h.constants, h.budget.2.1⟩) (fun m r h hle => ?_)
    (matches_many matches_constant nk)
  exact { h with
    constants := congrArg (· + nk) h.constants
    budget := ⟨h.budget.1, hle, h.budget.2.2⟩ }

theorem matches_debugList {x : Step α} {y : Read α} (h : Matches data x y) (error : String) :
    Matches data (debugList error x) (Lua51.debugList error y) := by
  refine matches_u32.bind fun n => ?_
  refine matches_spend (fun m r h => ⟨h.debugEntries, h.budget.2.2.1⟩) (fun m r h hle => ?_)
    (matches_many h n)
  exact { h with
    debugEntries := congrArg (· + n) h.debugEntries
    budget := ⟨h.budget.1, h.budget.2.1, hle, h.budget.2.2.2⟩ }

theorem matches_readEpilogue (p : Proto) : Matches data (readEpilogue p) (Lua51.readEpilogue p) := by
  refine (matches_debugList matches_i32 _).bind fun lines => ?_
  refine (matches_debugList ?_ _).bind fun locals => ?_
  · exact matches_luaString.bind fun _ => matches_u32.bind fun _ => matches_u32.bind fun _ =>
      refines_pure _
  · exact (matches_debugList matches_luaString _).bind fun upvalues => refines_pure _

/-- The numbers of the two readers agree. -/
theorem matches_nextId {k : ℕ → Step α} {l : Reader → Read α}
    (h : ∀ r, Matches data (k r.totalPrototypes) (l r)) :
    Matches data (nextId >>= k) (do
      let r ← get
      failIf (100000 < r.totalPrototypes + 1) "Lua prototype limit exceeded"
      set { r with totalPrototypes := r.totalPrototypes + 1 }
      l r) := by
  intro m r hfollows
  have hrun : nextId m = if 100000 < r.totalPrototypes + 1
      then .error (.thrown "Lua prototype limit exceeded")
      else .ok (r.totalPrototypes, { m with
        totalPrototypes := m.totalPrototypes + 1
        next := m.next + 1 }) := by
    rw [← hfollows.next]
    show ((throwIf (100000 < m.totalPrototypes + 1) "Lua prototype limit exceeded" >>= fun _ => _ :
      Step ℕ) { m with totalPrototypes := m.totalPrototypes + 1 }) = _
    rw [hfollows.prototypes, ← hfollows.next]
    unfold throwIf
    split_ifs
    · rfl
    · rfl
  have hread : (do
      let r ← get
      failIf (100000 < r.totalPrototypes + 1) "Lua prototype limit exceeded"
      set { r with totalPrototypes := r.totalPrototypes + 1 }
      l r : Read α) r = if 100000 < r.totalPrototypes + 1 then .error "Lua prototype limit exceeded"
      else l r { r with totalPrototypes := r.totalPrototypes + 1 } := by
    show ((failIf (100000 < r.totalPrototypes + 1) "Lua prototype limit exceeded" >>= fun _ =>
      _ : Read α) r) = _
    unfold failIf
    split_ifs
    · rfl
    · rfl
  have hbind : (nextId >>= k) m = nextId m >>= fun p => k p.1 p.2 := rfl
  rw [hbind, hrun, hread]
  have heq := hfollows.prototypes
  obtain ⟨hinstructions, hconstants, hdebug, -⟩ := hfollows.budget
  split_ifs with hlimit
  · refine ⟨fun e he => ?_, nofun⟩
    obtain rfl := Except.error.inj he
    rfl
  · exact h r _ _ { hfollows with
      prototypes := congrArg (· + 1) heq
      next := congrArg (· + 1) hfollows.next
      budget := ⟨hinstructions, hconstants, hdebug, by
        show m.totalPrototypes + 1 ≤ 100000
        omega⟩ }

theorem matches_readPrologue (levels : ℕ) (parent : ℤ) :
    Matches data (readPrologue parent) (Lua51.readPrologue (levels + 1) parent) := by
  have hlevels : failIf (levels + 1 = 0) "Lua prototype nesting exceeds 128" = pure () :=
    if_neg (Nat.succ_ne_zero levels)
  unfold readPrologue Lua51.readPrologue
  rw [hlevels, pure_bind]
  refine matches_nextId fun r => ?_
  refine matches_luaString.bind fun source => matches_i32.bind fun linedefined => ?_
  refine matches_i32.bind fun lastline => matches_u8.bind fun nups => matches_u8.bind fun params => ?_
  refine matches_u8.bind fun vararg => matches_u8.bind fun maxstack => ?_
  refine (matches_throwIf _ _).bind fun _ => matches_readCode.bind fun code => ?_
  exact matches_readConstants.bind fun constants => refines_pure _

/-- With the levels that are left at a depth. -/
theorem matches_parseProto {levels depth : ℕ} (hlevels : depth + levels = 129) (parent : ℤ) :
    Matches data (parseProto depth parent) (Lua51.parseProto levels parent) := by
  induction levels generalizing depth parent with
  | zero =>
    rw [parseProto, dif_pos (by omega)]
    exact refines_throw _
  | succ levels ih =>
    rw [parseProto, dif_neg (by omega), Lua51.parseProto]
    refine (matches_readPrologue levels parent).bind fun p => matches_u32.bind fun np => ?_
    refine (matches_throwIf _ _).bind fun _ => ?_
    refine (matches_many (ih (by omega) _) np).bind fun children => ?_
    exact (matches_readEpilogue _).bind fun p => matches_thrown _

end Follows

end ChunkReader

end ByteVeil.Lua51
