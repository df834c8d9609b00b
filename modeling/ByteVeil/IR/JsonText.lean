import ByteVeil.Json.StringBody
import Mathlib.Data.List.GetD

/-!
# Strings of the exported JSON

`esc` turns a byte string into the body of a JSON string.
-/

namespace ByteVeil.IR

open Json
open String (utf8EncodeChar)

/-- `digits`. -/
def digits : List Char :=
  ['0', '1', '2', '3', '4', '5', '6', '7', '8', '9', 'a', 'b', 'c', 'd', 'e', 'f']

/-- `hexByte`. -/
def hexByte (byte : UInt8) : List UInt8 :=
  ascii ['\\', 'u', '0', '0', digits.getD (byte >>> 4).toNat '0',
    digits.getD (byte &&& 15).toNat '0']

/-- The `length` that the first byte of a sequence promises. -/
def sequenceLength (c : UInt8) : ℕ :=
  if 0xc2 ≤ c ∧ c ≤ 0xdf then 2 else if 0xe0 ≤ c ∧ c ≤ 0xef then 3
    else if 0xf0 ≤ c ∧ c ≤ 0xf4 then 4 else 0

/-- Whether a sequence of this `length` is `valid`. -/
def sequenceValid (s : List UInt8) (index length : ℕ) : Bool :=
  let c := s.getD index 0
  let second := s.getD (index + 1) 0
  let valid := length != 0 && decide (index + length ≤ s.length)
  let valid := valid &&
    (List.range' 1 (length - 1)).all fun offset => s.getD (index + offset) 0 &&& 0xc0 == 0x80
  let valid := if valid && length == 3 then
    !((c == 0xe0 && decide (second < 0xa0)) || (c == 0xed && decide (0xa0 ≤ second))) else valid
  if valid && length == 4 then
    !((c == 0xf0 && decide (second < 0x90)) || (c == 0xf4 && decide (0x90 ≤ second))) else valid

/-- One round of the loop of `esc`: what it writes, and the next `index`. -/
def escRound (s : List UInt8) (index : ℕ) : List UInt8 × ℕ :=
  let c := s.getD index 0
  if c = 34 then (ascii ['\\', '"'], index + 1)
  else if c = 92 then (ascii ['\\', '\\'], index + 1)
  else if c = 8 then (ascii ['\\', 'b'], index + 1)
  else if c = 12 then (ascii ['\\', 'f'], index + 1)
  else if c = 10 then (ascii ['\\', 'n'], index + 1)
  else if c = 13 then (ascii ['\\', 'r'], index + 1)
  else if c = 9 then (ascii ['\\', 't'], index + 1)
  else if c < 0x20 then (hexByte c, index + 1)
  else if c < 0x80 then ([c], index + 1)
  else
    let length := sequenceLength c
    if sequenceValid s index length then ((s.drop index).take length, index + length)
    else (hexByte c, index + 1)

/-- `esc`. -/
def esc (s : List UInt8) : List UInt8 := rounds (escRound s) s.length s.length 0

/-! ## Pieces -/

theorem digits_eq {n : ℕ} (h : n < 16) :
    hexDigit (digits.getD n '0') = some n ∧ (digits.getD n '0').toNat < 0x80 := by
  revert n
  decide

/-- An escape by number denotes its byte. -/
theorem hexByte_piece (b : UInt8) : ∃ piece, hexByte b = utf8 piece ∧ Denotes piece (byteChar b) := by
  have hhigh : (b >>> 4).toNat = b.toNat / 16 := by
    rw [UInt8.toNat_shiftRight]
    exact Nat.shiftRight_eq_div_pow _ _
  have hlow : (b &&& 15).toNat = b.toNat % 16 := by
    rw [UInt8.toNat_and]
    exact Nat.and_two_pow_sub_one_eq_mod _ 4
  have hlt := b.toNat_lt
  obtain ⟨hhighDigit, hhighAscii⟩ := digits_eq (n := b.toNat / 16) (by omega)
  obtain ⟨hlowDigit, hlowAscii⟩ := digits_eq (n := b.toNat % 16) (by omega)
  have hpiece := denotes_unicode (a := '0') (b := '0') (m := 0) (n := 0) rfl rfl hhighDigit hlowDigit
    (by omega)
  have hchar : Char.ofNat (((0 * 16 + 0) * 16 + b.toNat / 16) * 16 + b.toNat % 16) = byteChar b := by
    unfold byteChar
    congr 1
    omega
  rw [hchar] at hpiece
  refine ⟨_, ?_, hpiece⟩
  unfold hexByte
  rw [hhigh, hlow, utf8_eq_ascii]
  simp only [List.forall_mem_cons]
  exact ⟨by decide, by decide, by decide, by decide, hhighAscii, hlowAscii, nofun⟩

/-! ## Sequences -/

theorem and_eq_iff (b : UInt8) : (b &&& 0xc0 == 0x80) = true ↔ Continuation b := by
  have htable : ∀ n < 256, n &&& 0xc0 = 0x80 ↔ 0x80 ≤ n ∧ n < 0xc0 := by
    decide +kernel
  rw [beq_iff_eq, ← UInt8.toNat_inj, UInt8.toNat_and]
  exact htable _ b.toNat_lt

section Sequence

variable {s rest : List UInt8} {index : ℕ} {w x y z : UInt8}

theorem getD_of_drop (hdrop : s.drop index = rest) (k : ℕ) : s.getD (index + k) 0 = rest.getD k 0 := by
  rw [← hdrop, List.getD_eq_getElem?_getD, List.getD_eq_getElem?_getD, List.getElem?_drop]

theorem length_of_drop (hdrop : s.drop index = w :: rest) : s.length = index + (rest.length + 1) := by
  have hlength := congrArg List.length hdrop
  rw [List.length_drop, List.length_cons] at hlength
  omega

/-- The places behind the first one that the loop checks. -/
theorem all_continuation (bytes : List UInt8) (hdrop : s.drop index = w :: bytes ++ rest) :
    ((List.range' 1 bytes.length).all fun offset => s.getD (index + offset) 0 &&& 0xc0 == 0x80) =
      true ↔ ∀ b ∈ bytes, Continuation b := by
  have hplace {offset : ℕ} (hoffset : offset < bytes.length) :
      s.getD (index + (1 + offset)) 0 = bytes[offset] := by
    rw [getD_of_drop hdrop, Nat.add_comm 1, List.cons_append, List.getD_cons_succ,
      List.getD_append _ _ _ _ hoffset, List.getD_eq_getElem _ _ hoffset]
  rw [List.all_eq_true]
  refine ⟨fun h b hb => ?_, fun h offset hoffset => ?_⟩
  · obtain ⟨offset, hoffset, rfl⟩ := List.mem_iff_getElem.1 hb
    rw [← and_eq_iff, ← hplace hoffset]
    exact h _ (List.mem_range'_1.2 ⟨Nat.le_add_right _ _, by omega⟩)
  · obtain ⟨hle, hlt⟩ := List.mem_range'_1.1 hoffset
    obtain ⟨k, rfl⟩ := Nat.exists_eq_add_of_le hle
    have hk : k < bytes.length := by omega
    rw [hplace hk, and_eq_iff]
    exact h _ (List.getElem_mem hk)

theorem sequenceValid_two (hdrop : s.drop index = w :: x :: rest) :
    sequenceValid s index 2 = true ↔ Continuation x := by
  have hlength := length_of_drop hdrop
  have hall := all_continuation [x] hdrop
  unfold sequenceValid
  generalize ((List.range' 1 1).all fun offset => s.getD (index + offset) 0 &&& 0xc0 == 0x80) = all at hall
  rw [hlength]
  simp [hall]

theorem sequenceValid_three (hdrop : s.drop index = w :: x :: y :: rest) :
    sequenceValid s index 3 = true ↔ Continuation x ∧ Continuation y ∧
      (w.toNat = 0xe0 → 0xa0 ≤ x.toNat) ∧ (w.toNat = 0xed → x.toNat < 0xa0) := by
  have hlength := length_of_drop hdrop
  have hw : s.getD index 0 = w := getD_of_drop hdrop 0
  have hx : s.getD (index + 1) 0 = x := getD_of_drop hdrop 1
  have hall := all_continuation [x, y] hdrop
  unfold sequenceValid
  generalize ((List.range' 1 2).all fun offset => s.getD (index + offset) 0 &&& 0xc0 == 0x80) = all at hall
  rw [hlength, hx, hw]
  simp only [List.forall_mem_cons] at hall
  cases all with
  | false =>
    have hnot := (iff_of_eq Bool.false_eq_true).symm.trans hall
    exact iff_of_false (by simp) fun h => hnot.2 (by simp [h])
  | true =>
    simp only [true_iff] at hall
    simp [hall, imp_iff_not_or, ← UInt8.toNat_inj, UInt8.le_iff_toNat_le, UInt8.lt_iff_toNat_lt]

theorem sequenceValid_four (hdrop : s.drop index = w :: x :: y :: z :: rest) :
    sequenceValid s index 4 = true ↔ Continuation x ∧ Continuation y ∧ Continuation z ∧
      (w.toNat = 0xf0 → 0x90 ≤ x.toNat) ∧ (w.toNat = 0xf4 → x.toNat < 0x90) := by
  have hlength := length_of_drop hdrop
  have hw : s.getD index 0 = w := getD_of_drop hdrop 0
  have hx : s.getD (index + 1) 0 = x := getD_of_drop hdrop 1
  have hall := all_continuation [x, y, z] hdrop
  unfold sequenceValid
  generalize ((List.range' 1 3).all fun offset => s.getD (index + offset) 0 &&& 0xc0 == 0x80) = all at hall
  rw [hlength, hx, hw]
  simp only [List.forall_mem_cons] at hall
  cases all with
  | false =>
    have hnot := (iff_of_eq Bool.false_eq_true).symm.trans hall
    exact iff_of_false (by simp) fun h => hnot.2 (by simp [h])
  | true =>
    simp only [true_iff] at hall
    simp [hall, imp_iff_not_or, ← UInt8.toNat_inj, UInt8.le_iff_toNat_le, UInt8.lt_iff_toNat_lt]

theorem sequenceLength_cases (c : UInt8) :
    0xc2 ≤ c.toNat ∧ c.toNat < 0xe0 ∧ sequenceLength c = 2 ∨
    0xe0 ≤ c.toNat ∧ c.toNat < 0xf0 ∧ sequenceLength c = 3 ∨
    0xf0 ≤ c.toNat ∧ c.toNat < 0xf5 ∧ sequenceLength c = 4 ∨
    (c.toNat < 0xc2 ∨ 0xf5 ≤ c.toNat) ∧ sequenceLength c = 0 := by
  unfold sequenceLength
  simp only [UInt8.le_iff_toNat_le, UInt8.reduceToNat]
  split_ifs <;> omega

theorem le_of_sequenceValid {length : ℕ} (h : sequenceValid s index length = true) :
    length ≠ 0 ∧ index + length ≤ s.length := by
  unfold sequenceValid at h
  by_contra hnot
  have hfalse : (length != 0 && decide (index + length ≤ s.length)) = false := by
    simpa using hnot
  simp [hfalse] at h

/-- What the checks let through is a sequence. -/
theorem sequence_of_valid (hdrop : s.drop index = w :: rest)
    (hvalid : sequenceValid s index (sequenceLength w) = true) :
    ∃ bytes after, Sequence bytes ∧ bytes.length = sequenceLength w ∧
      s.drop index = bytes ++ after := by
  obtain ⟨hne, hle⟩ := le_of_sequenceValid hvalid
  have hlength := length_of_drop hdrop
  rcases sequenceLength_cases w with ⟨hw₁, hw₂, h⟩ | ⟨hw₁, hw₂, h⟩ | ⟨hw₁, hw₂, h⟩ | ⟨-, h⟩
  · rw [h] at hvalid hle ⊢
    obtain ⟨x, rest, rfl⟩ := List.exists_cons_of_length_pos (l := rest) (by omega)
    have hx := (sequenceValid_two hdrop).1 hvalid
    exact ⟨[w, x], rest, .two ⟨hw₁, hw₂⟩ hx, rfl, hdrop⟩
  · rw [h] at hvalid hle ⊢
    obtain ⟨x, rest, rfl⟩ := List.exists_cons_of_length_pos (l := rest) (by omega)
    rw [List.length_cons] at hlength
    obtain ⟨y, rest, rfl⟩ := List.exists_cons_of_length_pos (l := rest) (by omega)
    obtain ⟨hx, hy, hlong, hsurrogate⟩ := (sequenceValid_three hdrop).1 hvalid
    exact ⟨[w, x, y], rest, .three ⟨hw₁, hw₂⟩ hx hy hlong hsurrogate, rfl, hdrop⟩
  · rw [h] at hvalid hle ⊢
    obtain ⟨x, rest, rfl⟩ := List.exists_cons_of_length_pos (l := rest) (by omega)
    rw [List.length_cons] at hlength
    obtain ⟨y, rest, rfl⟩ := List.exists_cons_of_length_pos (l := rest) (by omega)
    rw [List.length_cons] at hlength
    obtain ⟨z, rest, rfl⟩ := List.exists_cons_of_length_pos (l := rest) (by omega)
    obtain ⟨hx, hy, hz, hlong, hlast⟩ := (sequenceValid_four hdrop).1 hvalid
    exact ⟨[w, x, y, z], rest, .four ⟨hw₁, hw₂⟩ hx hy hz hlong hlast, rfl, hdrop⟩
  · exact absurd h hne

/-- The checks let every sequence through. -/
theorem valid_of_sequence {bytes : List UInt8} (hdrop : s.drop index = w :: rest)
    (hw : 0x80 ≤ w.toNat) (hsequence : Sequence bytes) (hbegins : bytes <+: w :: rest) :
    sequenceValid s index (sequenceLength w) = true := by
  obtain ⟨after, hafter⟩ := hbegins
  have hcases := sequenceLength_cases w
  cases hsequence with
  | one hone =>
    obtain ⟨rfl, -⟩ := List.cons.inj hafter
    omega
  | two hlead hx =>
    obtain ⟨rfl, rfl⟩ := List.cons.inj hafter
    rw [show sequenceLength _ = 2 by omega]
    exact (sequenceValid_two hdrop).2 hx
  | three hlead hx hy hlong hsurrogate =>
    obtain ⟨rfl, rfl⟩ := List.cons.inj hafter
    rw [show sequenceLength _ = 3 by omega]
    exact (sequenceValid_three hdrop).2 ⟨hx, hy, hlong, hsurrogate⟩
  | four hlead hx hy hz hlong hlast =>
    obtain ⟨rfl, rfl⟩ := List.cons.inj hafter
    rw [show sequenceLength _ = 4 by omega]
    exact (sequenceValid_four hdrop).2 ⟨hx, hy, hz, hlong, hlast⟩

/-! ## Rounds -/

theorem utf8EncodeChar_byteChar (hw : w.toNat < 0x80) : utf8EncodeChar (byteChar w) = [w] := by
  have hle : (byteChar w).val.toNat ≤ 0x7f := by
    have := toNat_byteChar w
    show (byteChar w).toNat ≤ 0x7f
    omega
  have hval : (byteChar w).val.toNat = w.toNat := toNat_byteChar w
  unfold utf8EncodeChar
  rw [if_pos hle, hval, UInt8.ofNat_toNat]

/-- A round that passes an ASCII byte. -/
theorem reads_ascii {piece : List Char} (hdrop : s.drop index = w :: rest) (hw : w.toNat < 0x80)
    (hpiece : Denotes piece (byteChar w)) : Reads s index (utf8 piece, index + 1) := by
  have hencode := utf8EncodeChar_byteChar hw
  have hsplit : s.drop index = utf8EncodeChar (byteChar w) ++ rest := by
    rw [hencode, hdrop, List.singleton_append]
  have hreads := Reads.sequence hpiece hsplit
  rwa [hencode] at hreads

end Sequence

/-- The bytes that are escaped by a letter. -/
def letters : List (UInt8 × Char) :=
  [(34, '"'), (92, '\\'), (8, 'b'), (12, 'f'), (10, 'n'), (13, 'r'), (9, 't')]

theorem letters_spec {c : UInt8} {letter : Char} (h : (c, letter) ∈ letters) :
    c.toNat < 0x80 ∧ letter ≠ 'u' ∧ escaped letter = some (byteChar c) := by
  simp only [letters, List.mem_cons, Prod.mk.injEq, List.not_mem_nil, or_false] at h
  rcases h with ⟨rfl, rfl⟩ | ⟨rfl, rfl⟩ | ⟨rfl, rfl⟩ | ⟨rfl, rfl⟩ | ⟨rfl, rfl⟩ | ⟨rfl, rfl⟩ |
    ⟨rfl, rfl⟩
  all_goals exact ⟨by decide, by decide, rfl⟩

/-- A round that escapes a byte by a letter. -/
theorem escRound_letter {s : List UInt8} {index : ℕ} {letter : Char}
    (h : (s.getD index 0, letter) ∈ letters) :
    escRound s index = (utf8 ['\\', letter], index + 1) := by
  unfold escRound
  generalize s.getD index 0 = c at h
  simp only [letters, List.mem_cons, Prod.mk.injEq, List.not_mem_nil, or_false] at h
  rcases h with ⟨rfl, rfl⟩ | ⟨rfl, rfl⟩ | ⟨rfl, rfl⟩ | ⟨rfl, rfl⟩ | ⟨rfl, rfl⟩ | ⟨rfl, rfl⟩ |
    ⟨rfl, rfl⟩
  all_goals rfl

/-- A round that comes to another byte. -/
theorem escRound_other {s : List UInt8} {index : ℕ} {c : UInt8} (hc : s.getD index 0 = c)
    (h : ∀ letter, (c, letter) ∉ letters) : escRound s index =
      if c < 0x20 then (hexByte c, index + 1)
      else if c < 0x80 then ([c], index + 1)
      else if sequenceValid s index (sequenceLength c) then
        ((s.drop index).take (sequenceLength c), index + sequenceLength c)
      else (hexByte c, index + 1) := by
  have hne : ∀ entry ∈ letters, c ≠ entry.1 := fun entry hentry heq => h entry.2 (heq ▸ hentry)
  simp only [letters, List.forall_mem_cons] at hne
  obtain ⟨hquote, hbackslash, hb, hf, hn, hr, ht, -⟩ := hne
  unfold escRound
  rw [hc, if_neg hquote, if_neg hbackslash, if_neg hb, if_neg hf, if_neg hn, if_neg hr, if_neg ht]

theorem escRound_reads {s : List UInt8} {index : ℕ} (hindex : index < s.length) :
    Reads s index (escRound s index) := by
  obtain ⟨c, rest, hdrop⟩ := List.exists_cons_of_ne_nil
    (List.ne_nil_of_length_pos (l := s.drop index) (by rw [List.length_drop]; omega))
  have hc : s.getD index 0 = c := getD_of_drop hdrop 0
  by_cases hletter : ∃ letter, (c, letter) ∈ letters
  · obtain ⟨letter, hmem⟩ := hletter
    obtain ⟨hascii, hu, hescaped⟩ := letters_spec hmem
    rw [escRound_letter (hc ▸ hmem)]
    exact reads_ascii hdrop hascii (denotes_escaped hu hescaped)
  rw [not_exists] at hletter
  rw [escRound_other hc hletter]
  have hquote : ¬c = 34 := fun h => hletter '"' (h ▸ by decide)
  have hbackslash : ¬c = 92 := fun h => hletter '\\' (h ▸ by decide)
  by_cases hcontrol : c < 0x20
  · rw [if_pos hcontrol]
    obtain ⟨piece, hout, hpiece⟩ := hexByte_piece c
    rw [hout]
    exact reads_ascii hdrop (lt_trans hcontrol (by decide)) hpiece
  rw [if_neg hcontrol]
  by_cases hascii : c < 0x80
  · rw [if_pos hascii]
    have hout : utf8 [byteChar c] = [c] := (List.append_nil _).trans (utf8EncodeChar_byteChar hascii)
    have hne {b : UInt8} (hb : ¬c = b) : byteChar c ≠ byteChar b := by
      intro h
      have hnat := congrArg Char.toNat h
      rw [toNat_byteChar, toNat_byteChar] at hnat
      exact hb (UInt8.toNat_inj.1 hnat)
    rw [← hout]
    apply reads_ascii hdrop hascii
    apply denotes_self (hne hquote) (hne hbackslash)
    rw [toNat_byteChar]
    exact UInt8.not_lt.1 hcontrol
  rw [if_neg hascii]
  by_cases hvalid : sequenceValid s index (sequenceLength c) = true
  · rw [if_pos hvalid]
    obtain ⟨bytes, after, hsequence, hlength, hbytes⟩ := sequence_of_valid hdrop hvalid
    obtain ⟨d, rfl⟩ := hsequence.exists_encode
    have hd : 0x80 ≤ d.toNat := toNat_of_lead (UInt8.not_lt.1 hascii) (hbytes.symm.trans hdrop)
    have hne {a : Char} (ha : a.toNat < 0x80) : d ≠ a := by
      rintro rfl
      omega
    have hpiece := denotes_self (hne (by decide)) (hne (by decide)) (show 0x20 ≤ d.toNat by omega)
    have hout : utf8 [d] = utf8EncodeChar d := List.append_nil _
    have hreads := Reads.sequence hpiece hbytes
    rw [hout] at hreads
    rw [hbytes, ← hlength, List.take_left]
    exact hreads
  · rw [if_neg hvalid]
    obtain ⟨piece, hout, hpiece⟩ := hexByte_piece c
    rw [hout]
    refine .byte hpiece hdrop fun d hbegins => hvalid ?_
    exact valid_of_sequence hdrop (UInt8.not_lt.1 hascii) (sequence_utf8EncodeChar d) hbegins

/-- What `esc` writes consists of pieces that denote the characters of the string. -/
theorem esc_pieces (s : List UInt8) :
    ∃ pieces : List (List Char × Char), (∀ piece ∈ pieces, Denotes piece.1 piece.2) ∧
      esc s = utf8 (pieces.flatMap (·.1)) ∧ Scans s (pieces.map (·.2)) :=
  rounds_scans (fun _ => escRound_reads) (Nat.le_add_left _ _)

end ByteVeil.IR
