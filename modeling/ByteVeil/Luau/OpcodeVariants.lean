import ByteVeil.Luau.RobloxBytecode

/-!
# Undoing an opcode encoding

1. The parser does not look at instruction words, so it reads the same from an encoded chunk.
2. The heads of a walk through a code range, and what the transformation makes of a range.
3. The variants of an encoded chunk contain the original, and those of the original begin with it.
-/

namespace ByteVeil.RobloxBytecode

open Bytes Fallible Luau

/-! ## The parser looks past instruction words -/

/-- The outcome does not depend on the instruction words. -/
def BlindToCode {α : Type} (x : Read α) : Prop := Blind CodeRange.offset CodeRange.stop x

section Fields

/-! The fields around the instruction words leave no marks, so it does not matter what a mark is. -/

variable {first last : CodeRange → ℕ}

theorem blind_varFrom (left i value : ℕ) : Blind first last (varFrom left i value) := by
  induction left generalizing i value with
  | zero => exact blind_throw _
  | succ left ih =>
    refine blind_u8.bind fun byte => (blind_failIf _ _).bind fun _ => ?_
    exact blind_ite (blind_pure _) (ih _ _)

theorem blind_var : Blind first last var := blind_varFrom 5 0 0

theorem blind_var64From (left i : ℕ) : Blind first last (var64From left i) := by
  induction left generalizing i with
  | zero => exact blind_throw _
  | succ left ih =>
    refine blind_u8.bind fun byte => (blind_failIf _ _).bind fun _ => ?_
    exact blind_ite (blind_pure _) (ih _)

theorem blind_count (name : String) : Blind first last (count name) :=
  blind_var.bind fun _ => (blind_failIf _ _).bind fun _ => blind_pure _

theorem blind_stringId (strings : ℕ) : Blind first last (stringId strings) :=
  blind_var.bind fun _ => blind_failIf _ _

theorem blind_indexBelow (bound : ℕ) (error : String) : Blind first last (indexBelow bound error) :=
  blind_var.bind fun _ => blind_failIf _ _

theorem blind_versions : Blind first last versions := by
  refine blind_u8.bind fun version => (blind_failIf _ _).bind fun _ => blind_ite ?_ (blind_pure _)
  exact blind_u8.bind fun _ => (blind_failIf _ _).bind fun _ => blind_pure _

theorem blind_stringsFrom (left total : ℕ) : Blind first last (stringsFrom left total) := by
  induction left generalizing total with
  | zero => exact blind_pure ()
  | succ left ih =>
    refine blind_var.bind fun length => (blind_failIf _ _).bind fun _ => ?_
    exact (blind_skip _).bind fun _ => ih _

theorem blind_userdataMap (strings left : ℕ) : Blind first last (userdataMap strings left) := by
  induction left with
  | zero => exact blind_u8.bind fun _ => blind_failIf _ _
  | succ left ih =>
    refine blind_u8.bind fun index => blind_ite (blind_pure _) ?_
    exact (blind_stringId _).bind fun _ => ih

theorem blind_typeMap (typeVersion strings : ℕ) : Blind first last (typeMap typeVersion strings) :=
  blind_ite (blind_userdataMap _ _) (blind_pure _)

theorem blind_tableEntry (constants : ℕ) : Blind first last (tableEntry constants) :=
  (blind_indexBelow _ _).bind fun _ => blind_u32.bind fun _ => blind_failIf _ _

theorem blind_constant (version strings protos constants : ℕ) :
    Blind first last (constant version strings protos constants) := by
  refine blind_u8.bind fun tag => ?_
  split
  case h_1 => exact blind_throw _
  case h_2 => exact blind_pure _
  case h_3 | h_4 | h_6 => exact blind_skip _
  case h_5 => exact blind_stringId _
  case h_7 => exact (blind_count _).bind fun _ => blind_times (blind_indexBelow _ _) _
  case h_8 => exact blind_indexBelow _ _
  case h_9 | h_13 => exact (blind_failIf _ _).bind fun _ => blind_skip _
  case h_10 =>
    refine (blind_failIf _ _).bind fun _ => (blind_count _).bind fun _ => ?_
    exact blind_times (blind_tableEntry _) _
  case h_11 =>
    exact (blind_failIf _ _).bind fun _ => (blind_skip _).bind fun _ => blind_var64From _ _
  case h_12 =>
    refine (blind_failIf _ _).bind fun _ => (blind_indexBelow _ _).bind fun _ => ?_
    refine blind_var.bind fun _ => blind_var.bind fun _ => (blind_failIf _ _).bind fun _ => ?_
    exact blind_times (blind_indexBelow _ _) _

theorem blind_lineInfo (codeWords : ℕ) : Blind first last (lineInfo codeWords) := by
  refine blind_u8.bind fun _ => (blind_failIf _ _).bind fun _ => blind_ite (blind_pure _) ?_
  exact blind_u8.bind fun _ => (blind_failIf _ _).bind fun _ => blind_skip _

theorem blind_debugLocal (strings maxStack : ℕ) : Blind first last (debugLocal strings maxStack) := by
  refine (blind_stringId _).bind fun _ => blind_var.bind fun _ => blind_var.bind fun _ => ?_
  exact blind_u8.bind fun _ => blind_failIf _ _

theorem blind_debugInfo (strings maxStack : ℕ) : Blind first last (debugInfo strings maxStack) := by
  refine blind_u8.bind fun _ => (blind_failIf _ _).bind fun _ => blind_ite (blind_pure _) ?_
  refine (blind_count _).bind fun _ => (blind_times (blind_debugLocal _ _) _).bind fun _ => ?_
  exact (blind_count _).bind fun _ => blind_times (blind_stringId _) _

theorem blind_feedbackSlot : Blind first last feedbackSlot :=
  blind_u8.bind fun _ => (blind_failIf _ _).bind fun _ => blind_var.bind fun _ => blind_pure _

theorem blind_feedbackVector (version : ℕ) : Blind first last (feedbackVector version) :=
  blind_ite (blind_pure _) ((blind_count _).bind fun _ => blind_times blind_feedbackSlot _)

theorem blind_inlineCost (flags : ℕ) : Blind first last (inlineCost flags) :=
  blind_ite (blind_pure _) (blind_var64From _ _)

theorem blind_protoEnd (version : ℕ) : Blind first last (protoEnd version) := by
  refine blind_ite (blind_pure _) (blind_var.bind fun _ => blind_remaining.bind fun _ => ?_)
  exact (blind_failIf _ _).bind fun _ => blind_offset.bind fun _ => blind_pure _

theorem blind_protoTail (flags : ℕ) (stop : Option ℕ) : Blind first last (protoTail flags stop) := by
  cases stop with
  | none => exact blind_pure _
  | some stop =>
    refine (blind_inlineCost _).bind fun _ => ?_
    refine blind_offset.bind fun _ => (blind_failIf _ _).bind fun _ => ?_
    exact blind_offset.bind fun _ => blind_skip _

theorem blind_protoFlags (version : ℕ) : Blind first last (protoFlags version) := by
  refine blind_ite (blind_pure _) (blind_u8.bind fun _ => blind_var.bind fun _ => ?_)
  exact (blind_skip _).bind fun _ => blind_pure _

end Fields

theorem blind_proto (version strings protos codeTotal constantTotal : ℕ) :
    BlindToCode (proto version strings protos codeTotal constantTotal) := by
  refine (blind_protoEnd _).bind fun stop => blind_u8.bind fun _ => blind_u8.bind fun _ => ?_
  refine blind_u8.bind fun _ => blind_u8.bind fun _ => (blind_failIf _ _).bind fun _ => ?_
  refine (blind_protoFlags _).bind fun _ => (blind_count _).bind fun codeWords => ?_
  refine (blind_failIf _ _).bind fun _ => ?_
  -- the instruction words are passed over and marked
  refine (blind_pass (fun _ => rfl) fun _ => rfl).bind fun _ => ?_
  refine (blind_count _).bind fun _ => (blind_failIf _ _).bind fun _ => ?_
  refine (blind_times (blind_constant _ _ _ _) _).bind fun _ => (blind_count _).bind fun _ => ?_
  refine (blind_times (blind_indexBelow _ _) _).bind fun _ => blind_var.bind fun _ => ?_
  refine (blind_stringId _).bind fun _ => (blind_lineInfo _).bind fun _ => ?_
  refine (blind_debugInfo _ _).bind fun _ => (blind_feedbackVector _).bind fun _ => ?_
  exact (blind_protoTail _ _).bind fun _ => blind_pure _

theorem blind_protosFrom (version strings protos left : ℕ) (totals : ℕ × ℕ) :
    BlindToCode (protosFrom version strings protos left totals) := by
  induction left generalizing totals with
  | zero => exact blind_pure _
  | succ left ih => exact (blind_proto _ _ _ _ _).bind fun _ => ih _

theorem blind_chunk : BlindToCode chunk := by
  refine blind_versions.bind fun versions => (blind_count _).bind fun strings => ?_
  refine (blind_stringsFrom _ _).bind fun _ => (blind_typeMap _ _).bind fun _ => ?_
  refine (blind_count _).bind fun _ => (blind_failIf _ _).bind fun _ => ?_
  refine (blind_protosFrom _ _ _ _ _).bind fun _ => (blind_indexBelow _ _).bind fun _ => ?_
  exact blind_remaining.bind fun _ => (blind_failIf _ _).bind fun _ => blind_pure _

/-! ## Walks -/

/-- The opcode code in the instruction word at `pc`. -/
def opcodeAt (bytes : List UInt8) (range : CodeRange) (pc : ℕ) : ℕ :=
  (bytes.getD (range.offset + pc * 4) 0).toNat

/-- The instruction heads of a walk from word `pc` on. -/
def headsFrom (bytes : List UInt8) (range : CodeRange) : ℕ → ℕ → List ℕ
  | 0, _ => []
  | fuel + 1, pc =>
    if range.words ≤ pc then []
    else
      pc :: match Opcode.ofNat? (opcodeAt bytes range pc) with
        | some op => headsFrom bytes range fuel (pc + op.getOpLength)
        | none => []

/-- The instruction heads of a range. -/
def heads (bytes : List UInt8) (range : CodeRange) : List ℕ := headsFrom bytes range range.words 0

/-- A walk meets only opcodes below `LOP__COUNT` and no truncated AUX word. -/
def WalkOk (bytes : List UInt8) (range : CodeRange) : Prop :=
  ∀ pc ∈ heads bytes range, ∃ op, Opcode.ofNat? (opcodeAt bytes range pc) = some op ∧
    pc + op.getOpLength ≤ range.words

theorem headsFrom_bounds {bytes : List UInt8} {range : CodeRange} {fuel pc n : ℕ}
    (h : n ∈ headsFrom bytes range fuel pc) : pc ≤ n ∧ n < range.words := by
  induction fuel generalizing pc with
  | zero => cases h
  | succ fuel ih =>
    unfold headsFrom at h
    split_ifs at h with hpc
    · cases h
    · rcases List.mem_cons.1 h with rfl | h
      · exact ⟨le_rfl, by omega⟩
      · split at h
        · obtain ⟨hle, hlt⟩ := ih h
          exact ⟨by omega, hlt⟩
        · cases h

/-- The words that a walk touches lie in its range. -/
theorem head_offset {bytes : List UInt8} {range : CodeRange} {n : ℕ} (h : n ∈ heads bytes range) :
    range.offset ≤ range.offset + n * 4 ∧ range.offset + n * 4 < range.stop := by
  have hlt := (headsFrom_bounds h).2
  unfold CodeRange.stop
  omega

theorem getD_set (bytes : List UInt8) (k n : ℕ) (b : UInt8) (hk : k < bytes.length) :
    (bytes.set k b).getD n 0 = if n = k then b else bytes.getD n 0 := by
  simp only [List.getD_eq_getElem?_getD, List.getElem?_set]
  split_ifs with h₁ h₂ h₂
  · rfl
  · exact absurd h₁.symm h₂
  · exact absurd h₂.symm h₁
  · rfl

/-- The transformation of the walk from `pc` on puts the decoded opcodes in place. -/
theorem transformRange_ok {source : List UInt8} {range : CodeRange} {multiplier fuel pc : ℕ}
    {bytes : List UInt8} (hlen : range.stop ≤ bytes.length) (hfuel : range.words ≤ pc + fuel)
    (hwalk : ∀ n ∈ headsFrom source range fuel pc,
      ∃ op, Opcode.ofNat? (opcodeAt source range n) = some op ∧ n + op.getOpLength ≤ range.words)
    (hvalue : ∀ n ∈ headsFrom source range fuel pc,
      opcodeAt bytes range n * multiplier % 256 = opcodeAt source range n) :
    ∃ out, transformRange multiplier range fuel pc bytes = .ok out ∧ out.length = bytes.length ∧
      (∀ n ∈ headsFrom source range fuel pc,
        out.getD (range.offset + n * 4) 0 = source.getD (range.offset + n * 4) 0) ∧
      ∀ k, (∀ n ∈ headsFrom source range fuel pc, k ≠ range.offset + n * 4) →
        out.getD k 0 = bytes.getD k 0 := by
  induction fuel generalizing pc bytes with
  | zero => exact ⟨bytes, rfl, rfl, by simp [headsFrom], fun _ _ => rfl⟩
  | succ fuel ih =>
    unfold transformRange
    unfold headsFrom at hwalk hvalue ⊢
    by_cases hpc : range.words ≤ pc
    · simp only [if_pos hpc]
      exact ⟨bytes, rfl, rfl, by simp, fun _ _ => rfl⟩
    simp only [if_neg hpc] at hwalk hvalue ⊢
    obtain ⟨op, hop, hfits⟩ := hwalk pc (List.mem_cons_self ..)
    have hcode := hvalue pc (List.mem_cons_self ..)
    rw [hop] at hwalk hvalue ⊢
    dsimp only at hwalk hvalue ⊢
    unfold opcodeAt at hcode
    rw [hcode, show (source.getD (range.offset + pc * 4) 0).toNat = opcodeAt source range pc from rfl,
      hop]
    dsimp only
    rw [if_neg (by omega)]
    have hin : range.offset + pc * 4 < bytes.length := by
      unfold CodeRange.stop at hlen
      omega
    have hget := getD_set bytes (range.offset + pc * 4)
    have hlater : ∀ n ∈ headsFrom source range fuel (pc + op.getOpLength),
        range.offset + n * 4 ≠ range.offset + pc * 4 := by
      intro n hn
      have := (headsFrom_bounds hn).1
      have := Opcode.getOpLength_pos op
      omega
    have hvalue' : ∀ n ∈ headsFrom source range fuel (pc + op.getOpLength),
        opcodeAt (bytes.set (range.offset + pc * 4) (.ofNat (opcodeAt source range pc))) range n *
          multiplier % 256 = opcodeAt source range n := by
      intro n hn
      have hold := hvalue n (List.mem_cons_of_mem _ hn)
      unfold opcodeAt at hold ⊢
      rwa [hget _ _ hin, if_neg (hlater n hn)]
    have hpos := Opcode.getOpLength_pos op
    obtain ⟨out, hout, hsize, hheads, hothers⟩ := ih (by rw [List.length_set]; exact hlen)
      (by omega) (fun n hn => hwalk n (List.mem_cons_of_mem _ hn)) hvalue'
    refine ⟨out, hout, by rw [hsize, List.length_set], List.forall_mem_cons.2 ⟨?_, hheads⟩,
      fun k hk => ?_⟩
    · rw [hothers _ fun n hn => (hlater n hn).symm, hget _ _ hin, if_pos rfl]
      unfold opcodeAt
      exact UInt8.ofNat_toNat
    · rw [hothers k fun n hn => hk n (List.mem_cons_of_mem _ hn), hget _ _ hin,
        if_neg (hk pc (List.mem_cons_self ..))]

/-- Where the opcode bytes of the instruction heads stand. -/
def headOffsets (bytes : List UInt8) (ranges : List CodeRange) : List ℕ :=
  ranges.flatMap fun range => (heads bytes range).map fun n => range.offset + n * 4

theorem mem_headOffsets_cons {bytes : List UInt8} {range : CodeRange} {ranges : List CodeRange}
    {k : ℕ} : k ∈ headOffsets bytes (range :: ranges) ↔
      (∃ n ∈ heads bytes range, k = range.offset + n * 4) ∨ k ∈ headOffsets bytes ranges := by
  unfold headOffsets
  rw [List.flatMap_cons, List.mem_append, List.mem_map]
  simp only [eq_comm]

/-- An opcode byte lies in one of the ranges. -/
theorem headOffsets_inside {bytes : List UInt8} {ranges : List CodeRange} {k : ℕ}
    (h : k ∈ headOffsets bytes ranges) : ∃ range ∈ ranges, range.offset ≤ k ∧ k < range.stop := by
  obtain ⟨range, hmem, hk⟩ := List.mem_flatMap.1 h
  obtain ⟨n, hn, rfl⟩ := List.mem_map.1 hk
  exact ⟨range, hmem, head_offset hn⟩

/-- The transformation undoes an encoding of the opcodes when it does so on every single one. -/
theorem applyOpcodeTransform_ok {source : List UInt8} {multiplier : ℕ} {ranges : List CodeRange}
    {bytes : List UInt8} (hordered : ranges.Pairwise fun m n => m.stop ≤ n.offset)
    (hlen : ∀ range ∈ ranges, range.stop ≤ bytes.length)
    (hwalk : ∀ range ∈ ranges, WalkOk source range)
    (hvalue : ∀ k ∈ headOffsets source ranges,
      (bytes.getD k 0).toNat * multiplier % 256 = (source.getD k 0).toNat) :
    ∃ out, applyOpcodeTransform bytes ranges multiplier = .ok out ∧ out.length = bytes.length ∧
      (∀ k ∈ headOffsets source ranges, out.getD k 0 = source.getD k 0) ∧
      ∀ k, k ∉ headOffsets source ranges → out.getD k 0 = bytes.getD k 0 := by
  induction ranges generalizing bytes with
  | nil => exact ⟨bytes, rfl, rfl, fun k hk => absurd hk List.not_mem_nil, fun _ _ => rfl⟩
  | cons range ranges ih =>
    obtain ⟨hbehind, hordered⟩ := List.pairwise_cons.1 hordered
    obtain ⟨hstop, hlen⟩ := List.forall_mem_cons.1 hlen
    obtain ⟨hfirst, hwalk⟩ := List.forall_mem_cons.1 hwalk
    obtain ⟨mid, hmid, hsize, hheads, hothers⟩ := transformRange_ok hstop (by omega) hfirst
      fun n hn => hvalue _ (mem_headOffsets_cons.2 (.inl ⟨n, hn, rfl⟩))
    -- the heads of the other ranges stand behind this one
    have hkeep : ∀ k ∈ headOffsets source ranges,
        ∀ n ∈ heads source range, k ≠ range.offset + n * 4 := by
      rintro k hk n hn rfl
      obtain ⟨other, hmem, hle, -⟩ := headOffsets_inside hk
      have := hbehind other hmem
      have := (head_offset hn).2
      omega
    obtain ⟨out, hout, hsize', hheads', hothers'⟩ := ih hordered (by rwa [hsize]) hwalk
      fun k hk => by
        rw [hothers k (hkeep k hk)]
        exact hvalue k (mem_headOffsets_cons.2 (.inr hk))
    refine ⟨out, ?_, hsize'.trans hsize, fun k hk => ?_, fun k hk => ?_⟩
    · unfold applyOpcodeTransform at hout ⊢
      rw [List.foldlM_cons]
      exact except_bind_ok.2 ⟨mid, hmid, hout⟩
    · by_cases hlater : k ∈ headOffsets source ranges
      · exact hheads' k hlater
      · obtain ⟨n, hn, rfl⟩ := (mem_headOffsets_cons.1 hk).resolve_right hlater
        rw [hothers' _ hlater, hheads n hn]
    · rw [mem_headOffsets_cons, not_or] at hk
      rw [hothers' k hk.2, hothers k fun n hn heq => hk.1 ⟨n, hn, heq⟩]

/-! ## Encoded chunks -/

/-- The bytes with every opcode multiplied by 227. -/
def encode (bytes : List UInt8) (ranges : List CodeRange) : List UInt8 :=
  bytes.mapIdx fun k byte => if k ∈ headOffsets bytes ranges then byte * 227 else byte

/-- The optional prefix, as the input has it. -/
def prefixOf (input : List UInt8) : List UInt8 :=
  if input.take 5 = chunkPrefix then chunkPrefix else []

/-- The input with every opcode encoded and its prefix kept. -/
def encodedChunk (input : List UInt8) (ranges : List CodeRange) : List UInt8 :=
  prefixOf input ++ encode (removePrefix input) ranges

theorem length_encode (bytes : List UInt8) (ranges : List CodeRange) :
    (encode bytes ranges).length = bytes.length := List.length_mapIdx

theorem getD_encode (bytes : List UInt8) (ranges : List CodeRange) (k : ℕ) :
    (encode bytes ranges).getD k 0 =
      if k ∈ headOffsets bytes ranges then bytes.getD k 0 * 227 else bytes.getD k 0 := by
  unfold encode
  rw [List.getD_eq_getElem?_getD, List.getElem?_mapIdx, List.getD_eq_getElem?_getD]
  cases bytes[k]? with
  | none => simp
  | some byte => rfl

/-- `203` is the inverse of `227`. -/
theorem decode_encode (byte : UInt8) : (byte * 227).toNat * 203 % 256 = byte.toNat := by
  have hlt := byte.toNat_lt
  rw [UInt8.toNat_mul, show (227 : UInt8).toNat = 227 from rfl]
  omega

theorem ext_getD {bytes bytes' : List UInt8} (hlen : bytes.length = bytes'.length)
    (h : ∀ k, bytes.getD k 0 = bytes'.getD k 0) : bytes = bytes' := by
  refine List.ext_getElem hlen fun k hk hk' => ?_
  have hget := h k
  rwa [List.getD_eq_getElem _ _ hk, List.getD_eq_getElem _ _ hk'] at hget

/-- What an accepted chunk gives. -/
structure Parsed (bytes : List UInt8) (version : ℕ) (ranges : List CodeRange) : Prop where
  nonempty : bytes.isEmpty = false
  size_le : bytes.length ≤ maxInputBytes
  accepted : ∃ c, chunk bytes {} = .ok (version, c) ∧ c.marks = ranges

theorem parse_ok {input : List UInt8} {version : ℕ} {ranges : List CodeRange} :
    parse input = .ok (version, ranges) ↔ Parsed (removePrefix input) version ranges := by
  unfold parse
  dsimp only
  split_ifs with hempty hsize
  · refine iff_of_false not_false fun h => ?_
    rw [h.nonempty] at hempty
    cases hempty
  · exact iff_of_false not_false fun h => absurd h.size_le (by omega)
  · rw [except_bind_ok]
    constructor
    · rintro ⟨⟨v, c⟩, hchunk, hout⟩
      obtain ⟨rfl, rfl⟩ := Prod.mk.inj (pure_ok.1 hout)
      exact ⟨by simpa using hempty, by omega, c, hchunk, rfl⟩
    · rintro ⟨-, -, c, hchunk, rfl⟩
      exact ⟨(version, c), hchunk, rfl⟩

namespace Parsed

variable {bytes : List UInt8} {version : ℕ} {ranges : List CodeRange}

/-- The ranges stand one behind the other, within the chunk. -/
theorem layout (h : Parsed bytes version ranges) :
    (ranges.Pairwise fun m n => m.stop ≤ n.offset) ∧ ∀ range ∈ ranges, range.stop ≤ bytes.length := by
  obtain ⟨c, hchunk, rfl⟩ := h.accepted
  obtain ⟨new, hadv, -⟩ := blind_chunk bytes {} version c hchunk
  have hmarks : c.marks = new := hadv.marks
  rw [hmarks]
  exact ⟨hadv.ordered, fun m hm => le_trans (hadv.inside m hm).2.2 (hadv.bound (Nat.zero_le _))⟩

/-- Opcode bytes may change without any effect on the parser. -/
theorem of_agree (h : Parsed bytes version ranges) {bytes' : List UInt8}
    (hlen : bytes'.length = bytes.length)
    (hagree : ∀ k, (∀ range ∈ ranges, ¬(range.offset ≤ k ∧ k < range.stop)) →
      bytes'.getD k 0 = bytes.getD k 0) : Parsed bytes' version ranges := by
  obtain ⟨c, hchunk, rfl⟩ := h.accepted
  obtain ⟨new, hadv, hblind⟩ := blind_chunk bytes {} version c hchunk
  have hmarks : c.marks = new := hadv.marks
  refine ⟨?_, hlen ▸ h.size_le, c, hblind bytes' ⟨hlen, fun k _ _ hout => ?_⟩, rfl⟩
  · have hpos := h.nonempty
    rw [List.isEmpty_eq_false_iff, ← List.length_pos_iff] at hpos ⊢
    omega
  · exact hagree k (by rwa [hmarks])

/-- A chunk does not begin like the optional prefix. -/
theorem removePrefix_eq (h : Parsed bytes version ranges) : removePrefix bytes = bytes := by
  obtain ⟨c, hchunk, -⟩ := h.accepted
  unfold removePrefix
  rw [if_neg]
  intro hprefix
  -- the first byte is the version
  obtain ⟨_, _, hversions, -⟩ := read_bind_ok.1 (show (versions >>= _) bytes {} = _ from hchunk)
  obtain ⟨first, _, hfirst, hrest⟩ := read_bind_ok.1 (show (u8 >>= _) bytes {} = _ from hversions)
  obtain ⟨-, -, rfl⟩ := u8_ok.1 hfirst
  cases bytes with
  | nil => cases hprefix
  | cons byte bytes =>
    obtain ⟨rfl, -⟩ := List.cons.inj hprefix
    cases hrest

end Parsed

theorem removePrefix_encodedChunk {input : List UInt8} {version : ℕ} {ranges : List CodeRange}
    (h : Parsed (encode (removePrefix input) ranges) version ranges) :
    removePrefix (encodedChunk input ranges) = encode (removePrefix input) ranges := by
  unfold encodedChunk prefixOf
  split_ifs with hprefix
  · unfold removePrefix
    rw [if_pos (by rfl)]
    rfl
  · exact h.removePrefix_eq

theorem Parsed.encode {bytes : List UInt8} {version : ℕ} {ranges : List CodeRange}
    (h : Parsed bytes version ranges) : Parsed (encode bytes ranges) version ranges := by
  refine h.of_agree (length_encode bytes ranges) fun k hk => ?_
  rw [getD_encode, if_neg]
  intro hmem
  obtain ⟨range, hrange, hin⟩ := headOffsets_inside hmem
  exact hk range hrange hin

/-! ## The variants -/

theorem opcodeVariants_eq {input : List UInt8} {version : ℕ} {ranges : List CodeRange}
    (h : parse input = .ok (version, ranges)) : opcodeVariants input =
      match applyOpcodeTransform (removePrefix input) ranges 1,
        applyOpcodeTransform (removePrefix input) ranges 203 with
      | .ok plain, .ok decoded => return if plain = decoded then [plain] else [plain, decoded]
      | .ok plain, .error _ => return [plain]
      | .error _, .ok decoded => return [decoded]
      | .error _, .error error => throw ("Roblox opcode decoding failed: " ++ error) := by
  unfold opcodeVariants
  rw [h]
  rfl

/-- The plain bytes, if they make sense, are the first variant. -/
theorem opcodeVariants_plain {input plain : List UInt8} {version : ℕ} {ranges : List CodeRange}
    (h : parse input = .ok (version, ranges))
    (hplain : applyOpcodeTransform (removePrefix input) ranges 1 = .ok plain) :
    ∃ rest, opcodeVariants input = .ok (plain :: rest) := by
  rw [opcodeVariants_eq h, hplain]
  cases applyOpcodeTransform (removePrefix input) ranges 203 with
  | error error => exact ⟨[], rfl⟩
  | ok decoded =>
    dsimp only
    split_ifs
    · exact ⟨[], rfl⟩
    · exact ⟨[decoded], rfl⟩

/-- The decoded bytes, if they make sense, are among the variants. -/
theorem opcodeVariants_decoded {input decoded : List UInt8} {version : ℕ}
    {ranges : List CodeRange} (h : parse input = .ok (version, ranges))
    (hdecoded : applyOpcodeTransform (removePrefix input) ranges 203 = .ok decoded) :
    ∃ variants, opcodeVariants input = .ok variants ∧ decoded ∈ variants := by
  rw [opcodeVariants_eq h, hdecoded]
  cases applyOpcodeTransform (removePrefix input) ranges 1 with
  | error error => exact ⟨[decoded], rfl, List.mem_singleton_self decoded⟩
  | ok plain =>
    dsimp only
    split_ifs with heq
    · exact ⟨[plain], rfl, by rw [heq]; exact List.mem_singleton_self decoded⟩
    · exact ⟨[plain, decoded], rfl, List.mem_cons_of_mem _ (List.mem_singleton_self decoded)⟩

/-- Decoding gives the source back when it does so on every opcode byte. -/
theorem applyOpcodeTransform_eq {source bytes : List UInt8} {version multiplier : ℕ}
    {ranges : List CodeRange} (h : Parsed source version ranges)
    (hwalk : ∀ range ∈ ranges, WalkOk source range) (hlen : bytes.length = source.length)
    (hothers : ∀ k, k ∉ headOffsets source ranges → bytes.getD k 0 = source.getD k 0)
    (hvalue : ∀ k ∈ headOffsets source ranges,
      (bytes.getD k 0).toNat * multiplier % 256 = (source.getD k 0).toNat) :
    applyOpcodeTransform bytes ranges multiplier = .ok source := by
  obtain ⟨hordered, hinside⟩ := h.layout
  obtain ⟨out, hout, hsize, hheads, hkept⟩ :=
    applyOpcodeTransform_ok hordered (by rwa [hlen]) hwalk hvalue
  have heq : out = source := ext_getD (hsize.trans hlen) fun k => by
    by_cases hk : k ∈ headOffsets source ranges
    · exact hheads k hk
    · exact (hkept k hk).trans (hothers k hk)
  rw [hout, heq]

/-- The variants of an encoded chunk contain the chunk without its prefix, and those of the chunk
itself begin with it. -/
theorem opcodeVariants_encodedChunk {input : List UInt8} {version : ℕ} {ranges : List CodeRange}
    (hparse : parse input = .ok (version, ranges))
    (hwalk : ∀ range ∈ ranges, WalkOk (removePrefix input) range) :
    (∃ variants, opcodeVariants (encodedChunk input ranges) = .ok variants ∧
      removePrefix input ∈ variants) ∧
    ∃ rest, opcodeVariants input = .ok (removePrefix input :: rest) := by
  have hparsed := parse_ok.1 hparse
  constructor
  · have hremove := removePrefix_encodedChunk hparsed.encode
    have hencoded : parse (encodedChunk input ranges) = .ok (version, ranges) :=
      parse_ok.2 (by rw [hremove]; exact hparsed.encode)
    refine opcodeVariants_decoded hencoded ?_
    rw [hremove]
    refine applyOpcodeTransform_eq hparsed hwalk (length_encode _ ranges) (fun k hk => ?_)
      fun k hk => ?_
    · rw [getD_encode, if_neg hk]
    · rw [getD_encode, if_pos hk, decode_encode]
  · refine opcodeVariants_plain hparse (applyOpcodeTransform_eq hparsed hwalk rfl (fun _ _ => rfl) ?_)
    intro k _
    rw [Nat.mul_one, Nat.mod_eq_of_lt (UInt8.toNat_lt _)]

/-- `GETGLOBAL` with an AUX word that looks like `RETURN`, and `RETURN`, behind the prefix. -/
def smallChunk : List UInt8 :=
  chunkPrefix ++ [3, 0, 1, 2, 0, 0, 0, 3, 7, 0, 0, 0, 22, 0, 0, 0, 22, 0, 1, 0, 0, 0, 0, 0, 0, 0, 0]

theorem smallChunk_variants :
    (∃ variants, opcodeVariants (encodedChunk smallChunk [⟨8, 3⟩]) = .ok variants ∧
      removePrefix smallChunk ∈ variants) ∧
    ∃ rest, opcodeVariants smallChunk = .ok (removePrefix smallChunk :: rest) := by
  have hwalk : WalkOk (removePrefix smallChunk) ⟨8, 3⟩ := by
    show ∀ n ∈ ([0, 2] : List ℕ), _
    exact List.forall_mem_cons.2 ⟨⟨.GETGLOBAL, rfl, by decide⟩,
      List.forall_mem_singleton.2 ⟨.RETURN, rfl, by decide⟩⟩
  exact opcodeVariants_encodedChunk (show parse smallChunk = .ok (3, [⟨8, 3⟩]) from rfl)
    (List.forall_mem_singleton.2 hwalk)

end ByteVeil.RobloxBytecode
