import Mathlib.Data.List.Basic
import Mathlib.Data.Char
import Mathlib.Tactic.Common

/-!
# UTF-8

A byte string scanned from left to right: every well-formed sequence is the character that it
encodes, every other byte stands for itself. Characters are scalar values, so a well-formed sequence
is the encoding of a character.
-/

namespace Json

open String (utf8EncodeChar)

/-- The encoding of a text. -/
def utf8 (text : List Char) : List UInt8 := text.flatMap utf8EncodeChar

@[simp]
theorem utf8_cons (c : Char) (text : List Char) : utf8 (c :: text) = utf8EncodeChar c ++ utf8 text :=
  List.flatMap_cons

@[simp]
theorem utf8_append (text text' : List Char) : utf8 (text ++ text') = utf8 text ++ utf8 text' :=
  List.flatMap_append

theorem toNat_ofNat {n : ℕ} (h : n.isValidChar) : (Char.ofNat n).toNat = n := by
  unfold Char.ofNat
  rw [dif_pos h]
  rfl

/-- The character whose number is a byte. -/
def byteChar (b : UInt8) : Char := Char.ofNat b.toNat

theorem toNat_byteChar (b : UInt8) : (byteChar b).toNat = b.toNat :=
  toNat_ofNat (.inl (lt_trans b.toNat_lt (by decide)))

/-- The bytes of an ASCII text. -/
def ascii (text : List Char) : List UInt8 := text.map fun c => UInt8.ofNat c.toNat

theorem utf8_eq_ascii {text : List Char} (h : ∀ c ∈ text, c.toNat < 0x80) : utf8 text = ascii text := by
  induction text with
  | nil => rfl
  | cons c text ih =>
    obtain ⟨hc, htext⟩ := List.forall_mem_cons.1 h
    have hle : c.val.toNat ≤ 0x7f := Nat.le_of_lt_succ hc
    rw [utf8_cons, ih htext]
    unfold utf8EncodeChar
    rw [if_pos hle]
    rfl

/-- A byte string read as characters. -/
inductive Scans : List UInt8 → List Char → Prop
  | nil : Scans [] []
  | sequence {bytes : List UInt8} {text : List Char} (c : Char) (h : Scans bytes text) :
    Scans (utf8EncodeChar c ++ bytes) (c :: text)
  | byte {bytes : List UInt8} {text : List Char} (b : UInt8)
    (hnone : ∀ c, ¬ utf8EncodeChar c <+: b :: bytes) (h : Scans bytes text) :
    Scans (b :: bytes) (byteChar b :: text)

/-- The encoding of one character, byte by byte. -/
theorem utf8EncodeChar_toNat (c : Char) :
    c.toNat < 0x80 ∧ (utf8EncodeChar c).map UInt8.toNat = [c.toNat] ∨
    0x80 ≤ c.toNat ∧ c.toNat < 0x800 ∧
      (utf8EncodeChar c).map UInt8.toNat = [0xc0 + c.toNat / 64, 0x80 + c.toNat % 64] ∨
    0x800 ≤ c.toNat ∧ c.toNat < 0x10000 ∧ ¬(0xd800 ≤ c.toNat ∧ c.toNat < 0xe000) ∧
      (utf8EncodeChar c).map UInt8.toNat =
        [0xe0 + c.toNat / 4096, 0x80 + c.toNat / 64 % 64, 0x80 + c.toNat % 64] ∨
    0x10000 ≤ c.toNat ∧ c.toNat < 0x110000 ∧
      (utf8EncodeChar c).map UInt8.toNat = [0xf0 + c.toNat / 262144, 0x80 + c.toNat / 4096 % 64,
        0x80 + c.toNat / 64 % 64, 0x80 + c.toNat % 64] := by
  have hvalid : c.toNat < 0xd800 ∨ 0xdfff < c.toNat ∧ c.toNat < 0x110000 := c.valid
  have hval : c.val.toNat = c.toNat := rfl
  unfold utf8EncodeChar
  rw [hval]
  dsimp only
  generalize c.toNat = v at hvalid
  have hbyte {n : ℕ} (h : n < 256) : (UInt8.ofNat n).toNat = n := by
    rw [UInt8.toNat_ofNat', Nat.mod_eq_of_lt h]
  split_ifs with hone htwo hthree
  · refine .inl ⟨by omega, ?_⟩
    simp only [List.map_cons, List.map_nil]
    rw [hbyte (by omega)]
  · refine .inr (.inl ⟨by omega, by omega, ?_⟩)
    simp only [List.map_cons, List.map_nil]
    rw [hbyte (by omega), hbyte (by omega), Nat.mod_eq_of_lt (by omega), Nat.add_comm,
      Nat.add_comm 0x80]
  · refine .inr (.inr (.inl ⟨by omega, by omega, by omega, ?_⟩))
    simp only [List.map_cons, List.map_nil]
    rw [hbyte (by omega), hbyte (by omega), hbyte (by omega), Nat.mod_eq_of_lt (a := v / 4096) (by omega),
      Nat.add_comm, Nat.add_comm 0x80, Nat.add_comm 0x80]
  · refine .inr (.inr (.inr ⟨by omega, by omega, ?_⟩))
    simp only [List.map_cons, List.map_nil]
    rw [hbyte (by omega), hbyte (by omega), hbyte (by omega), hbyte (by omega),
      Nat.mod_eq_of_lt (a := v / 262144) (by omega), Nat.add_comm, Nat.add_comm 0x80, Nat.add_comm 0x80, Nat.add_comm 0x80]

/-- A character beyond ASCII starts with a byte beyond ASCII. -/
theorem toNat_of_lead {c : Char} {w : UInt8} {bytes after : List UInt8} (hw : 0x80 ≤ w.toNat)
    (h : utf8EncodeChar c ++ after = w :: bytes) : 0x80 ≤ c.toNat := by
  rcases utf8EncodeChar_toNat c with ⟨hc, hencode⟩ | ⟨hc, -⟩ | ⟨hc, -⟩ | ⟨hc, -⟩
  · obtain ⟨b, hb, hb'⟩ := List.map_eq_singleton_iff.1 hencode
    rw [hb] at h
    obtain ⟨rfl, -⟩ := List.cons.inj h
    omega
  · exact hc
  · omega
  · omega

/-! ## The table of sequences -/

/-- A byte behind the first one of a sequence. -/
def Continuation (b : UInt8) : Prop := 0x80 ≤ b.toNat ∧ b.toNat < 0xc0

/-- The well-formed sequences by their bytes: none is longer than needed, none encodes a surrogate,
none goes beyond the last character. -/
inductive Sequence : List UInt8 → Prop
  | one {w : UInt8} (hw : w.toNat < 0x80) : Sequence [w]
  | two {w x : UInt8} (hw : 0xc2 ≤ w.toNat ∧ w.toNat < 0xe0) (hx : Continuation x) : Sequence [w, x]
  | three {w x y : UInt8} (hw : 0xe0 ≤ w.toNat ∧ w.toNat < 0xf0) (hx : Continuation x)
    (hy : Continuation y) (hlong : w.toNat = 0xe0 → 0xa0 ≤ x.toNat)
    (hsurrogate : w.toNat = 0xed → x.toNat < 0xa0) : Sequence [w, x, y]
  | four {w x y z : UInt8} (hw : 0xf0 ≤ w.toNat ∧ w.toNat < 0xf5) (hx : Continuation x)
    (hy : Continuation y) (hz : Continuation z) (hlong : w.toNat = 0xf0 → 0x90 ≤ x.toNat)
    (hlast : w.toNat = 0xf4 → x.toNat < 0x90) : Sequence [w, x, y, z]

theorem utf8EncodeChar_eq {c : Char} {bytes : List UInt8}
    (h : (utf8EncodeChar c).map UInt8.toNat = bytes.map UInt8.toNat) : utf8EncodeChar c = bytes :=
  List.map_injective_iff.2 (fun _ _ => UInt8.toNat_inj.1) h

theorem Sequence.exists_encode {bytes : List UInt8} (h : Sequence bytes) :
    ∃ c, utf8EncodeChar c = bytes := by
  have hencode {n : ℕ} (hn : n < 0xd800 ∨ 0xdfff < n ∧ n < 0x110000)
      (hbytes : ∀ c : Char, c.toNat = n → (utf8EncodeChar c).map UInt8.toNat = bytes.map UInt8.toNat) :
      ∃ c, utf8EncodeChar c = bytes :=
    ⟨Char.ofNat n, utf8EncodeChar_eq (hbytes _ (toNat_ofNat hn))⟩
  -- the number that the bytes spell, without the marks of their places
  cases h with
  | @one w hw =>
    apply hencode (n := w.toNat) (by omega)
    intro c hc
    rcases utf8EncodeChar_toNat c with h | h | h | h <;> rw [hc] at h
    · exact h.2
    all_goals omega
  | @two w x hw hx =>
    unfold Continuation at hx
    apply hencode (n := (w.toNat - 0xc0) * 64 + (x.toNat - 0x80)) (by omega)
    intro c hc
    rcases utf8EncodeChar_toNat c with h | h | h | h <;> rw [hc] at h
    · omega
    · rw [h.2.2, List.map_cons, List.map_cons, List.map_nil]
      simp only [List.cons.injEq, and_true]
      omega
    all_goals omega
  | @three w x y hw hx hy hlong hsurrogate =>
    unfold Continuation at hx hy
    apply hencode (n := (w.toNat - 0xe0) * 4096 + (x.toNat - 0x80) * 64 + (y.toNat - 0x80)) (by omega)
    intro c hc
    rcases utf8EncodeChar_toNat c with h | h | h | h <;> rw [hc] at h
    · omega
    · omega
    · rw [h.2.2.2, List.map_cons, List.map_cons, List.map_cons, List.map_nil]
      simp only [List.cons.injEq, and_true]
      omega
    · omega
  | @four w x y z hw hx hy hz hlong hlast =>
    unfold Continuation at hx hy hz
    apply hencode (n := (w.toNat - 0xf0) * 262144 + (x.toNat - 0x80) * 4096 + (y.toNat - 0x80) * 64 +
      (z.toNat - 0x80)) (by omega)
    intro c hc
    rcases utf8EncodeChar_toNat c with h | h | h | h <;> rw [hc] at h
    · omega
    · omega
    · omega
    · rw [h.2.2, List.map_cons, List.map_cons, List.map_cons, List.map_cons, List.map_nil]
      simp only [List.cons.injEq, and_true]
      omega

theorem sequence_utf8EncodeChar (c : Char) : Sequence (utf8EncodeChar c) := by
  rcases utf8EncodeChar_toNat c with ⟨hc, hbytes⟩ | ⟨hle, hlt, hbytes⟩ | ⟨hle, hlt, hnot, hbytes⟩ |
    ⟨hle, hlt, hbytes⟩
  · obtain ⟨w, hw, hw'⟩ := List.map_eq_singleton_iff.1 hbytes
    rw [hw]
    exact .one (by omega)
  · simp only [List.map_eq_cons_iff, List.map_eq_nil_iff] at hbytes
    obtain ⟨w, _, hbytes, hw, x, _, rfl, hx, rfl⟩ := hbytes
    rw [hbytes]
    apply Sequence.two
    · omega
    · unfold Continuation
      omega
  · simp only [List.map_eq_cons_iff, List.map_eq_nil_iff] at hbytes
    obtain ⟨w, _, hbytes, hw, x, _, rfl, hx, y, _, rfl, hy, rfl⟩ := hbytes
    rw [hbytes]
    apply Sequence.three
    · omega
    · unfold Continuation
      omega
    · unfold Continuation
      omega
    · omega
    · omega
  · simp only [List.map_eq_cons_iff, List.map_eq_nil_iff] at hbytes
    obtain ⟨w, _, hbytes, hw, x, _, rfl, hx, y, _, rfl, hy, z, _, rfl, hz, rfl⟩ := hbytes
    rw [hbytes]
    apply Sequence.four
    · omega
    · unfold Continuation
      omega
    · unfold Continuation
      omega
    · unfold Continuation
      omega
    · omega
    · omega

/-- The table lists the encodings of the characters. -/
theorem sequence_iff {bytes : List UInt8} : Sequence bytes ↔ ∃ c, utf8EncodeChar c = bytes := by
  refine ⟨Sequence.exists_encode, ?_⟩
  rintro ⟨c, rfl⟩
  exact sequence_utf8EncodeChar c

/-! ## One reading -/

/-- No encoding is the beginning of another. -/
theorem utf8EncodeChar_append {c c' : Char} {bytes bytes' : List UInt8}
    (h : utf8EncodeChar c ++ bytes = utf8EncodeChar c' ++ bytes') : c = c' ∧ bytes = bytes' := by
  have hc : c = c' := by
    apply Option.some.inj
    rw [← ByteArray.utf8DecodeChar?_utf8EncodeChar_append (b := bytes.toByteArray),
      ← List.toByteArray_append, h, List.toByteArray_append,
      ByteArray.utf8DecodeChar?_utf8EncodeChar_append]
  subst hc
  exact ⟨rfl, List.append_cancel_left h⟩

/-- A byte string is read in one way. -/
theorem Scans.unique {bytes : List UInt8} {text text' : List Char} (h : Scans bytes text)
    (h' : Scans bytes text') : text' = text := by
  induction h generalizing text' with
  | nil =>
    generalize hbytes : ([] : List UInt8) = bytes at h'
    cases h' with
    | nil => rfl
    | sequence c => exact absurd (List.append_eq_nil_iff.1 hbytes.symm).1 String.utf8EncodeChar_ne_nil
    | byte => cases hbytes
  | @sequence bytes text c h ih =>
    generalize hbytes : utf8EncodeChar c ++ bytes = whole at h'
    cases h' with
    | nil => exact absurd (List.append_eq_nil_iff.1 hbytes).1 String.utf8EncodeChar_ne_nil
    | sequence c' h' =>
      obtain ⟨rfl, rfl⟩ := utf8EncodeChar_append hbytes
      rw [ih h']
    | byte b hnone => exact absurd ⟨bytes, hbytes⟩ (hnone c)
  | @byte bytes text b hnone h ih =>
    generalize hbytes : b :: bytes = whole at h'
    cases h' with
    | nil => cases hbytes
    | @sequence bytes' _ c' => exact absurd ⟨bytes', hbytes.symm⟩ (hnone c')
    | byte b' _ h' =>
      obtain ⟨rfl, rfl⟩ := List.cons.inj hbytes
      rw [ih h']

end Json
