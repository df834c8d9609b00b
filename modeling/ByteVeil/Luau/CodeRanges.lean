import ByteVeil.Luau.OpcodeVariants
import Mathlib.Algebra.BigOperators.Group.List.Basic
import Mathlib.Algebra.GroupWithZero.Nat

/-!
# Rewriting the recorded code ranges

1. The parser leaves one range for each prototype, one behind the other inside the chunk, and never
   more words than there may be.
2. The transformation as it works on the bytes in place, with every way in which it can stop.
3. On recorded ranges it stops inside the chunk and writes to the opcode bytes of instruction heads
   alone.
-/

namespace ByteVeil.RobloxBytecode

open Bytes Fallible Luau

/-! ## The recorded ranges -/

/-- A prototype leaves one range strictly inside the bytes it is read from, and the words of all
prototypes so far stay within the limit. -/
theorem proto_ok {version strings protos codeTotal constantTotal : ℕ} {bytes : List UInt8}
    {c c' : Cursor CodeRange} {totals : ℕ × ℕ}
    (h : proto version strings protos codeTotal constantTotal bytes c = .ok (totals, c')) :
    ∃ range : CodeRange, c'.marks = c.marks ++ [range] ∧ c.pos < range.offset ∧
      range.stop ≤ c'.pos ∧ c'.pos ≤ bytes.length ∧
      totals.1 = codeTotal + range.words ∧ totals.1 ≤ maxObjects := by
  unfold proto at h
  obtain ⟨stop, c₁, hstop, h⟩ := read_bind_ok.1 h
  obtain ⟨maxStack, c₂, hmaxStack, h⟩ := read_bind_ok.1 h
  obtain ⟨params, c₃, hparams, h⟩ := read_bind_ok.1 h
  obtain ⟨upvalues, c₄, hupvalues, h⟩ := read_bind_ok.1 h
  obtain ⟨vararg, c₅, hvararg, h⟩ := read_bind_ok.1 h
  obtain ⟨_, c₆, hmetadata, h⟩ := read_bind_ok.1 h
  obtain ⟨flags, c₇, hflags, h⟩ := read_bind_ok.1 h
  obtain ⟨codeWords, c₈, hwords, h⟩ := read_bind_ok.1 h
  obtain ⟨_, c₉, hlimit, h⟩ := read_bind_ok.1 h
  obtain ⟨_, c₁₀, hpass, h⟩ := read_bind_ok.1 h
  obtain ⟨hmarks₁, hpos₁, -⟩ := advances_of_blind (fun _ _ => blind_protoEnd version) hstop
  obtain ⟨-, rfl, -⟩ := u8_ok.1 hmaxStack
  obtain ⟨-, rfl, -⟩ := u8_ok.1 hparams
  obtain ⟨-, rfl, -⟩ := u8_ok.1 hupvalues
  obtain ⟨-, rfl, -⟩ := u8_ok.1 hvararg
  obtain ⟨hmarks₆, hpos₆, -⟩ := advances_of_blind (fun _ _ => blind_failIf _ _) hmetadata
  obtain ⟨hmarks₇, hpos₇, -⟩ := advances_of_blind (fun _ _ => blind_protoFlags version) hflags
  obtain ⟨hmarks₈, hpos₈, -⟩ := advances_of_blind (fun _ _ => blind_count _) hwords
  obtain ⟨hmarks₉, hpos₉, -⟩ := advances_of_blind (fun _ _ => blind_failIf _ _) hlimit
  obtain ⟨hinside, rfl⟩ := pass_ok.1 hpass
  -- what follows the instruction words leaves no marks either
  obtain ⟨hmarks, hpos, hin⟩ := advances_of_blind (fun _ _ => by
    refine (blind_count _).bind fun _ => (blind_failIf _ _).bind fun _ => ?_
    refine (blind_times (blind_constant _ _ _ _) _).bind fun _ => (blind_count _).bind fun _ => ?_
    refine (blind_times (blind_indexBelow _ _) _).bind fun _ => blind_var.bind fun _ => ?_
    refine (blind_stringId _).bind fun _ => (blind_lineInfo _).bind fun _ => ?_
    refine (blind_debugInfo _ _).bind fun _ => (blind_feedbackVector _).bind fun _ => ?_
    exact (blind_protoTail _ _).bind fun _ => blind_pure _) h
  have htotal : totals.1 = codeTotal + codeWords := by
    iterate 11 obtain ⟨_, _, -, h⟩ := read_bind_ok.1 h
    obtain ⟨rfl, -⟩ := Prod.mk.inj (Except.ok.inj h)
    rfl
  refine ⟨⟨c₉.pos, codeWords⟩, ?_, ?_, hpos, hin hinside, htotal, ?_⟩
  · rw [hmarks, hmarks₉, hmarks₈, hmarks₇, hmarks₆, hmarks₁]
  · dsimp only at hpos₆ ⊢
    omega
  · unfold failIf at hlimit
    split_ifs at hlimit with hle
    · cases hlimit
    · omega

/-- Ranges one strictly behind the other between two positions. -/
structure Between (start stop : ℕ) (ranges : List CodeRange) : Prop where
  ordered : ranges.Pairwise fun m n => m.stop < n.offset
  inside : ∀ range ∈ ranges, start < range.offset ∧ range.stop ≤ stop

theorem Between.of_cons {start stop : ℕ} {range : CodeRange} {ranges : List CodeRange}
    (h : Between start stop (range :: ranges)) :
    start < range.offset ∧ range.stop ≤ stop ∧ Between range.stop stop ranges := by
  obtain ⟨hbehind, hordered⟩ := List.pairwise_cons.1 h.ordered
  obtain ⟨⟨hstart, hstop⟩, hinside⟩ := List.forall_mem_cons.1 h.inside
  exact ⟨hstart, hstop, hordered, fun n hn => ⟨hbehind n hn, (hinside n hn).2⟩⟩

/-- The words of all ranges. -/
def totalWords (ranges : List CodeRange) : ℕ := (ranges.map (·.words)).sum

theorem protosFrom_ok {version strings protos left : ℕ} {totals : ℕ × ℕ} {bytes : List UInt8}
    {c c' : Cursor CodeRange} {u : Unit}
    (h : protosFrom version strings protos left totals bytes c = .ok (u, c'))
    (htotals : totals.1 ≤ maxObjects) :
    ∃ new, c'.marks = c.marks ++ new ∧ c.pos ≤ c'.pos ∧ Between c.pos c'.pos new ∧
      totals.1 + totalWords new ≤ maxObjects := by
  induction left generalizing totals c with
  | zero =>
    obtain ⟨-, rfl⟩ := Prod.mk.inj (Except.ok.inj h)
    exact ⟨[], (List.append_nil _).symm, le_rfl, ⟨.nil, by simp⟩, htotals⟩
  | succ left ih =>
    obtain ⟨totals', c₁, hproto, hrest⟩ := read_bind_ok.1 h
    obtain ⟨range, hmarks, hstart, hstop, -, htotal, hlimit⟩ := proto_ok hproto
    obtain ⟨new, hmarks', hle, hbetween, htotal'⟩ := ih hrest hlimit
    have hrange : range.offset ≤ range.stop := Nat.le_add_right _ _
    refine ⟨range :: new, ?_, by omega, ⟨?_, ?_⟩, ?_⟩
    · rw [hmarks', hmarks, List.append_assoc, List.singleton_append]
    · refine List.pairwise_cons.2 ⟨fun n hn => ?_, hbetween.ordered⟩
      have := (hbetween.inside n hn).1
      omega
    · refine List.forall_mem_cons.2 ⟨⟨hstart, by omega⟩, fun n hn => ?_⟩
      obtain ⟨hn₁, hn₂⟩ := hbetween.inside n hn
      exact ⟨by omega, hn₂⟩
    · unfold totalWords at htotal' ⊢
      rw [List.map_cons, List.sum_cons]
      omega

/-- The ranges of an accepted chunk stand strictly one behind the other inside it, and have no more
words in total than there may be. -/
theorem Parsed.ranges {bytes : List UInt8} {version : ℕ} {ranges : List CodeRange}
    (h : Parsed bytes version ranges) :
    Between 0 bytes.length ranges ∧ totalWords ranges ≤ maxObjects := by
  obtain ⟨c, hchunk, rfl⟩ := h.accepted
  unfold chunk at hchunk
  obtain ⟨versions, c₁, hversions, h₁⟩ := read_bind_ok.1 hchunk
  obtain ⟨strings, c₂, hstrings, h₂⟩ := read_bind_ok.1 h₁
  obtain ⟨_, c₃, hstringsFrom, h₃⟩ := read_bind_ok.1 h₂
  obtain ⟨_, c₄, htypeMap, h₄⟩ := read_bind_ok.1 h₃
  obtain ⟨protos, c₅, hprotos, h₅⟩ := read_bind_ok.1 h₄
  obtain ⟨_, c₆, hempty, h₆⟩ := read_bind_ok.1 h₅
  obtain ⟨_, c₇, hprotosFrom, h₇⟩ := read_bind_ok.1 h₆
  obtain ⟨hmarks₁, -, -⟩ := advances_of_blind (fun _ _ => blind_versions) hversions
  obtain ⟨hmarks₂, -, -⟩ := advances_of_blind (fun _ _ => blind_count _) hstrings
  obtain ⟨hmarks₃, -, -⟩ := advances_of_blind (fun _ _ => blind_stringsFrom _ _) hstringsFrom
  obtain ⟨hmarks₄, -, -⟩ := advances_of_blind (fun _ _ => blind_typeMap _ _) htypeMap
  obtain ⟨hmarks₅, -, -⟩ := advances_of_blind (fun _ _ => blind_count _) hprotos
  obtain ⟨hmarks₆, -, -⟩ := advances_of_blind (fun _ _ => blind_failIf _ _) hempty
  obtain ⟨new, hnew, -, hbetween, htotal⟩ := protosFrom_ok hprotosFrom (Nat.zero_le _)
  obtain ⟨hmarks₇, hpos₇, -⟩ := advances_of_blind (fun _ _ => by
    refine (blind_indexBelow _ _).bind fun _ => blind_remaining.bind fun _ => ?_
    exact (blind_failIf _ _).bind fun _ => blind_pure _) h₇
  have hmarks : c.marks = new := by
    rw [hmarks₇, hnew, hmarks₆, hmarks₅, hmarks₄, hmarks₃, hmarks₂, hmarks₁]
    rfl
  obtain ⟨-, hinside⟩ := h.layout
  rw [hmarks] at hinside ⊢
  refine ⟨⟨hbetween.ordered, fun range hrange => ⟨?_, hinside range hrange⟩⟩, by omega⟩
  have := (hbetween.inside range hrange).1
  omega

/-! ## The transformation in place -/

/-- How the loops over the instruction words end; `running` is for a loop that has not ended yet. -/
inductive Ending
  | done
  | failed (error : String)
  | outside (index : ℕ)
  | running
  deriving DecidableEq

/-- The bytes as the loops leave them, the places of the instruction heads they have looked at, and
how they ended. -/
structure Rewritten where
  bytes : List UInt8
  heads : List ℕ
  ending : Ending

/-- Goes on with what is left to do, unless something has failed. -/
def Rewritten.andThen (r : Rewritten) (next : List UInt8 → Rewritten) : Rewritten :=
  match r.ending with
  | .done => { next r.bytes with heads := r.heads ++ (next r.bytes).heads }
  | _ => r

/-- The inner loop of `applyOpcodeTransform` from word `pc` on, for at most `fuel` rounds. -/
def rewriteFrom (multiplier : ℕ) (range : CodeRange) : ℕ → ℕ → List UInt8 → Rewritten
  | 0, _, bytes => ⟨bytes, [], .running⟩
  | fuel + 1, pc, bytes =>
    if range.words ≤ pc then ⟨bytes, [], .done⟩
    else
      let opcodeOffset := range.offset + pc * 4
      match bytes[opcodeOffset]? with
      | none => ⟨bytes, [], .outside opcodeOffset⟩
      | some encoded =>
        let opcode := encoded.toNat * multiplier % 256
        match Opcode.ofNat? opcode with
        | none =>
          ⟨bytes, [opcodeOffset],
            .failed ("unknown opcode " ++ toString opcode ++ " at code word " ++ toString pc)⟩
        | some op =>
          if range.words - pc < op.getOpLength then
            ⟨bytes, [opcodeOffset],
              .failed ("instruction AUX word is truncated at code word " ++ toString pc)⟩
          else
            (Rewritten.mk (bytes.set opcodeOffset (.ofNat opcode)) [opcodeOffset] .done).andThen
              (rewriteFrom multiplier range fuel (pc + op.getOpLength))

/-- The outer loop of `applyOpcodeTransform`; a walk through `n` words makes at most `n` rounds and
looks at its condition once more. -/
def rewriteRanges (multiplier : ℕ) : List CodeRange → List UInt8 → Rewritten
  | [], bytes => ⟨bytes, [], .done⟩
  | range :: ranges, bytes =>
    (rewriteFrom multiplier range (range.words + 1) 0 bytes).andThen
      (rewriteRanges multiplier ranges)

/-- What the caller of `applyOpcodeTransform` gets to see. -/
def Rewritten.result (r : Rewritten) : Except String (List UInt8) :=
  match r.ending with
  | .done => .ok r.bytes
  | .failed error => .error error
  | .outside _ | .running => .error ""

/-- The opcode that the byte at `k` is decoded to. -/
def decodedAt (multiplier : ℕ) (bytes : List UInt8) (k : ℕ) : Option Opcode :=
  Opcode.ofNat? ((bytes.getD k 0).toNat * multiplier % 256)

/-- The loops end, they look at places between two positions alone, write to instruction heads alone,
and no other byte of an instruction that they walk over is a head. -/
structure Rewrites (multiplier start stop : ℕ) (bytes : List UInt8) (r : Rewritten) : Prop where
  ends : r.ending = .done ∨ ∃ error, r.ending = .failed error
  length_eq : r.bytes.length = bytes.length
  inside : ∀ k ∈ r.heads, start ≤ k ∧ k < stop
  kept : ∀ k, k ∉ r.heads → r.bytes.getD k 0 = bytes.getD k 0
  apart : ∀ k ∈ r.heads, ∀ op, decodedAt multiplier bytes k = some op →
    ∀ j, k < j → j < k + op.getOpLength * 4 → j ∉ r.heads
  fits : r.ending = .done → ∀ k ∈ r.heads, ∀ op, decodedAt multiplier bytes k = some op →
    k + op.getOpLength * 4 ≤ stop

section Rewrites

variable {multiplier start mid mid' stop : ℕ} {bytes : List UInt8}

/-- Nothing to do. -/
theorem rewrites_done : Rewrites multiplier start stop bytes ⟨bytes, [], .done⟩ :=
  ⟨.inl rfl, rfl, by simp, fun _ _ => rfl, by simp, by simp⟩

/-- A head at which the loop fails. -/
theorem rewrites_failed {k : ℕ} (hstart : start ≤ k) (hstop : k < stop) (error : String) :
    Rewrites multiplier start stop bytes ⟨bytes, [k], .failed error⟩ := by
  refine ⟨.inr ⟨error, rfl⟩, rfl, ?_, fun _ _ => rfl, ?_, nofun⟩
  · exact List.forall_mem_singleton.2 ⟨hstart, hstop⟩
  · refine List.forall_mem_singleton.2 fun op _ j hj _ hmem => ?_
    rw [List.mem_singleton.1 hmem] at hj
    exact lt_irrefl k hj

/-- A head that is decoded. -/
theorem rewrites_head {k : ℕ} {op : Opcode} {byte : UInt8} (hk : k < bytes.length)
    (hop : decodedAt multiplier bytes k = some op) :
    Rewrites multiplier k (k + op.getOpLength * 4) bytes ⟨bytes.set k byte, [k], .done⟩ := by
  have hpos := Opcode.getOpLength_pos op
  refine ⟨.inl rfl, List.length_set .., ?_, fun j hj => ?_, ?_, fun _ => ?_⟩
  · exact List.forall_mem_singleton.2 ⟨le_rfl, by omega⟩
  · rw [getD_set _ _ _ _ hk, if_neg fun h => hj (List.mem_singleton.2 h)]
  · refine List.forall_mem_singleton.2 fun _ _ j hj _ hmem => ?_
    rw [List.mem_singleton.1 hmem] at hj
    exact lt_irrefl k hj
  · refine List.forall_mem_singleton.2 fun op' hop' => ?_
    rw [hop] at hop'
    rw [Option.some.inj hop']

theorem Rewrites.widen {start' : ℕ} {r : Rewritten} (h : Rewrites multiplier start stop bytes r)
    (hstart : start' ≤ start) : Rewrites multiplier start' stop bytes r :=
  { h with inside := fun k hk => ⟨hstart.trans (h.inside k hk).1, (h.inside k hk).2⟩ }

/-- Two stretches, one behind the other. -/
theorem Rewrites.andThen {r : Rewritten} {next : List UInt8 → Rewritten}
    (h : Rewrites multiplier start mid bytes r) (hstart : start ≤ mid') (hmid : mid ≤ mid')
    (hstop : mid ≤ stop) (hnext : Rewrites multiplier mid' stop r.bytes (next r.bytes)) :
    Rewrites multiplier start stop bytes (r.andThen next) := by
  unfold Rewritten.andThen
  rcases h.ends with hdone | ⟨error, hfailed⟩
  · -- behind the first stretch the bytes are the old ones
    have hold : ∀ k ∈ (next r.bytes).heads, k ∉ r.heads ∧
        decodedAt multiplier r.bytes k = decodedAt multiplier bytes k := by
      intro k hk
      have hnot : k ∉ r.heads := fun hk' => by
        have := (h.inside k hk').2
        have := (hnext.inside k hk).1
        omega
      refine ⟨hnot, ?_⟩
      unfold decodedAt
      rw [h.kept k hnot]
    rw [hdone]
    refine ⟨hnext.ends, hnext.length_eq.trans h.length_eq, ?_, fun k hk => ?_, ?_, fun hend => ?_⟩
    · refine List.forall_mem_append.2 ⟨fun k hk => ?_, fun k hk => ?_⟩
      · have := h.inside k hk
        omega
      · have := hnext.inside k hk
        omega
    · rw [List.mem_append, not_or] at hk
      exact (hnext.kept k hk.2).trans (h.kept k hk.1)
    · refine List.forall_mem_append.2 ⟨fun k hk op hop j hj hlt hmem => ?_,
        fun k hk op hop j hj hlt hmem => ?_⟩
      · rcases List.mem_append.1 hmem with hmem | hmem
        · exact h.apart k hk op hop j hj hlt hmem
        · have := h.fits hdone k hk op hop
          have := (hnext.inside j hmem).1
          omega
      · rcases List.mem_append.1 hmem with hmem | hmem
        · have := (h.inside j hmem).2
          have := (hnext.inside k hk).1
          omega
        · exact hnext.apart k hk op ((hold k hk).2.trans hop) j hj hlt hmem
    · refine List.forall_mem_append.2 ⟨fun k hk op hop => ?_, fun k hk op hop => ?_⟩
      · exact (h.fits hdone k hk op hop).trans hstop
      · exact hnext.fits hend k hk op ((hold k hk).2.trans hop)
  · rw [hfailed]
    refine ⟨.inr ⟨error, hfailed⟩, h.length_eq, fun k hk => ?_, h.kept, h.apart, fun hdone => ?_⟩
    · have := h.inside k hk
      omega
    · rw [hfailed] at hdone
      cases hdone

end Rewrites

theorem rewriteFrom_rewrites (multiplier : ℕ) {fuel pc : ℕ} {range : CodeRange} {bytes : List UInt8}
    (hstop : range.stop ≤ bytes.length) (hfuel : range.words < pc + fuel) (hpc : pc ≤ range.words) :
    Rewrites multiplier (range.offset + pc * 4) range.stop bytes
      (rewriteFrom multiplier range fuel pc bytes) := by
  induction fuel generalizing pc bytes with
  | zero => omega
  | succ fuel ih =>
    unfold rewriteFrom
    split_ifs with hend
    · exact rewrites_done
    have hlt : range.offset + pc * 4 < range.stop := by
      unfold CodeRange.stop
      omega
    have hget : bytes[range.offset + pc * 4]? = some (bytes.getD (range.offset + pc * 4) 0) := by
      rw [List.getD_eq_getElem _ _ (by omega), List.getElem?_eq_getElem (by omega)]
    dsimp only
    rw [hget]
    dsimp only
    cases hop : Opcode.ofNat? ((bytes.getD (range.offset + pc * 4) 0).toNat * multiplier % 256) with
    | none => exact rewrites_failed le_rfl hlt _
    | some op =>
      have hpos := Opcode.getOpLength_pos op
      dsimp only
      split_ifs with htruncated
      · exact rewrites_failed le_rfl hlt _
      · have hnext : range.offset + pc * 4 + op.getOpLength * 4 =
            range.offset + (pc + op.getOpLength) * 4 := by omega
        have hinside : range.offset + pc * 4 + op.getOpLength * 4 ≤ range.stop := by
          unfold CodeRange.stop
          omega
        refine (rewrites_head (by omega) hop).andThen (by omega) hnext.le hinside ?_
        exact ih (by rw [List.length_set]; exact hstop) (by omega) (by omega)

theorem rewriteRanges_rewrites (multiplier : ℕ) {start : ℕ} {ranges : List CodeRange} {bytes : List UInt8}
    (h : Between start bytes.length ranges) :
    Rewrites multiplier start bytes.length bytes (rewriteRanges multiplier ranges bytes) := by
  induction ranges generalizing start bytes with
  | nil => exact rewrites_done
  | cons range ranges ih =>
    obtain ⟨hstart, hstop, hrest⟩ := h.of_cons
    have hrange : range.offset ≤ range.stop := Nat.le_add_right _ _
    have hfirst := rewriteFrom_rewrites multiplier hstop
      (show range.words < 0 + (range.words + 1) by omega) (Nat.zero_le _)
    refine (hfirst.widen (by omega)).andThen (by omega) le_rfl hstop ?_
    rw [← hfirst.length_eq] at hrest ⊢
    exact ih hrest

/-! ## The heads -/

theorem mem_heads_andThen {r : Rewritten} {next : List UInt8 → Rewritten} {k : ℕ}
    (h : k ∈ (r.andThen next).heads) : k ∈ r.heads ∨ k ∈ (next r.bytes).heads := by
  unfold Rewritten.andThen at h
  split at h
  · exact List.mem_append.1 h
  · exact .inl h

theorem mem_heads_rewriteFrom {multiplier fuel pc k : ℕ} {range : CodeRange} {bytes : List UInt8}
    (h : k ∈ (rewriteFrom multiplier range fuel pc bytes).heads) :
    ∃ pc' < range.words, k = range.offset + 4 * pc' := by
  induction fuel generalizing pc bytes with
  | zero => cases h
  | succ fuel ih =>
    unfold rewriteFrom at h
    split_ifs at h with hend
    · cases h
    have hhead (hk : k ∈ [range.offset + pc * 4]) :
        ∃ pc' < range.words, k = range.offset + 4 * pc' := by
      refine ⟨pc, Nat.lt_of_not_le hend, ?_⟩
      rw [List.mem_singleton.1 hk, Nat.mul_comm]
    dsimp only at h
    split at h
    · cases h
    · split at h
      · exact hhead h
      · split_ifs at h
        · exact hhead h
        · rcases mem_heads_andThen h with h | h
          · exact hhead h
          · exact ih h

theorem mem_heads_rewriteRanges {multiplier k : ℕ} {ranges : List CodeRange} {bytes : List UInt8}
    (h : k ∈ (rewriteRanges multiplier ranges bytes).heads) :
    ∃ range ∈ ranges, ∃ pc < range.words, k = range.offset + 4 * pc := by
  induction ranges generalizing bytes with
  | nil => cases h
  | cons range ranges ih =>
    rcases mem_heads_andThen h with h | h
    · exact ⟨range, List.mem_cons_self, mem_heads_rewriteFrom h⟩
    · obtain ⟨range', hmem, hpc⟩ := ih h
      exact ⟨range', List.mem_cons_of_mem _ hmem, hpc⟩

/-! ## The same as the transformation -/

theorem result_andThen (r : Rewritten) (next : List UInt8 → Rewritten) :
    (r.andThen next).result = r.result >>= fun bytes => (next bytes).result := by
  unfold Rewritten.andThen Rewritten.result
  cases hend : r.ending with
  | done => rfl
  | failed error => simp only [hend]; rfl
  | outside index => simp only [hend]; rfl
  | running => simp only [hend]; rfl

theorem rewriteFrom_result (multiplier : ℕ) {fuel fuel' pc : ℕ} {range : CodeRange} {bytes : List UInt8}
    (hstop : range.stop ≤ bytes.length) (hfuel : range.words < pc + fuel)
    (hfuel' : range.words ≤ pc + fuel') (hpc : pc ≤ range.words) :
    (rewriteFrom multiplier range fuel pc bytes).result =
      transformRange multiplier range fuel' pc bytes := by
  induction fuel generalizing fuel' pc bytes with
  | zero => omega
  | succ fuel ih =>
    unfold rewriteFrom
    split_ifs with hend
    · cases fuel' with
      | zero => rfl
      | succ fuel' =>
        unfold transformRange
        rw [if_pos hend]
        rfl
    · obtain ⟨fuel', rfl⟩ : ∃ k, fuel' = k + 1 := ⟨fuel' - 1, by omega⟩
      have hlt : range.offset + pc * 4 < bytes.length := by
        unfold CodeRange.stop at hstop
        omega
      have hget : bytes[range.offset + pc * 4]? = some (bytes.getD (range.offset + pc * 4) 0) := by
        rw [List.getD_eq_getElem _ _ hlt, List.getElem?_eq_getElem hlt]
      unfold transformRange
      rw [if_neg hend]
      dsimp only
      rw [hget]
      dsimp only
      cases hop : Opcode.ofNat?
        ((bytes.getD (range.offset + pc * 4) 0).toNat * multiplier % 256) with
      | none => rfl
      | some op =>
        have hpos := Opcode.getOpLength_pos op
        have htruncated : range.words - pc < op.getOpLength ↔
            range.words < pc + op.getOpLength := by omega
        dsimp only
        simp only [htruncated]
        split_ifs with hshort
        · rfl
        · rw [result_andThen]
          exact ih (by rw [List.length_set]; exact hstop) (by omega) (by omega) (by omega)

/-- On recorded ranges the loops give what `applyOpcodeTransform` gives. -/
theorem rewriteRanges_result {multiplier start : ℕ} {ranges : List CodeRange} {bytes : List UInt8}
    (h : Between start bytes.length ranges) :
    (rewriteRanges multiplier ranges bytes).result =
      applyOpcodeTransform bytes ranges multiplier := by
  induction ranges generalizing start bytes with
  | nil => rfl
  | cons range ranges ih =>
    obtain ⟨-, hstop, hrest⟩ := h.of_cons
    have hfirst := rewriteFrom_rewrites multiplier hstop
      (show range.words < 0 + (range.words + 1) by omega) (Nat.zero_le _)
    have hresult := rewriteFrom_result multiplier hstop
      (show range.words < 0 + (range.words + 1) by omega)
      (show range.words ≤ 0 + range.words by omega) (Nat.zero_le _)
    rw [← hfirst.length_eq] at hrest
    unfold applyOpcodeTransform at ih ⊢
    rw [List.foldlM_cons, rewriteRanges, result_andThen, ← hresult]
    generalize rewriteFrom multiplier range (range.words + 1) 0 bytes = r at hfirst hrest ⊢
    rcases hfirst.ends with hdone | ⟨error, hfailed⟩
    · have hok : r.result = .ok r.bytes := by
        unfold Rewritten.result
        rw [hdone]
      rw [hok]
      exact ih hrest
    · have herror : r.result = .error error := by
        unfold Rewritten.result
        rw [hfailed]
      rw [herror]
      rfl

/-! ## Accepted chunks -/

/-- The ranges that the parser records stand one behind the other inside the chunk and have no more
words than there may be; with every multiplier the transformation ends inside the chunk, as the loops
of the source do it, and writes to opcode bytes of instruction heads alone. -/
theorem recorded_ranges_rewritable {input : List UInt8} {version : ℕ} {ranges : List CodeRange}
    (h : parse input = .ok (version, ranges)) :
    (ranges.Pairwise fun m n => m.stop < n.offset) ∧
    (∀ range ∈ ranges, range.offset + 4 * range.words ≤ (removePrefix input).length) ∧
    totalWords ranges ≤ 2000000 ∧
    ∀ multiplier, let r := rewriteRanges multiplier ranges (removePrefix input)
      (r.ending = .done ∨ ∃ error, r.ending = .failed error) ∧
      r.result = applyOpcodeTransform (removePrefix input) ranges multiplier ∧
      r.bytes.length = (removePrefix input).length ∧
      (∀ k ∈ r.heads, ∃ range ∈ ranges, ∃ pc < range.words, k = range.offset + 4 * pc) ∧
      (∀ k ∈ r.heads, ∀ op, decodedAt multiplier (removePrefix input) k = some op →
        ∀ j, k < j → j < k + 4 * op.getOpLength → j ∉ r.heads) ∧
      ∀ k, k ∉ r.heads → r.bytes.getD k 0 = (removePrefix input).getD k 0 := by
  obtain ⟨hbetween, htotal⟩ := (parse_ok.1 h).ranges
  refine ⟨hbetween.ordered, fun range hrange => ?_, htotal, fun multiplier => ?_⟩
  · have := (hbetween.inside range hrange).2
    unfold CodeRange.stop at this
    omega
  · have hrewrites := rewriteRanges_rewrites multiplier hbetween
    refine ⟨hrewrites.ends, rewriteRanges_result hbetween, hrewrites.length_eq,
      fun k hk => mem_heads_rewriteRanges hk, ?_, hrewrites.kept⟩
    intro k hk op hop j hj hlt
    exact hrewrites.apart k hk op hop j hj (by omega)

theorem smallChunk_ranges_rewritable :
    (⟨8, 3⟩ : CodeRange).offset + 4 * 3 ≤ (removePrefix smallChunk).length ∧
    ∀ multiplier, let r := rewriteRanges multiplier [⟨8, 3⟩] (removePrefix smallChunk)
      (r.ending = .done ∨ ∃ error, r.ending = .failed error) ∧
      r.bytes.length = (removePrefix smallChunk).length := by
  obtain ⟨-, hinside, -, hrewrites⟩ :=
    recorded_ranges_rewritable (show parse smallChunk = .ok (3, [⟨8, 3⟩]) from rfl)
  refine ⟨hinside _ List.mem_cons_self, fun multiplier => ?_⟩
  obtain ⟨hends, -, hlength, -⟩ := hrewrites multiplier
  exact ⟨hends, hlength⟩

end ByteVeil.RobloxBytecode
