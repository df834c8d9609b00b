import ByteVeil.MoonSec.Literals
import Mathlib.Data.Int.Cast.Basic
import Mathlib.Data.List.GetD
import Mathlib.Data.List.Induction
import Mathlib.Data.List.Nodup

/-!
# The alphabet encoding inverted

A payload is encoded by writing the alphabet and then two symbols for every byte, shifted by a key
that grows with the place of the byte. `decodeAlphabetPayload` undoes this, and a text whose symbols
all belong to its alphabet is the encoding of what it decodes to.
-/

namespace ByteVeil.MoonSec

/-! ## Encoding -/

/-- Sixteen different bytes without line ends. -/
structure Alphabet where
  symbols : List UInt8
  length_eq : symbols.length = 16
  nodup : symbols.Nodup
  no_line_end : ∀ byte ∈ symbols, byte ≠ 13 ∧ byte ≠ 10

/-- The byte at place `i` shifted back by the key of that place. -/
def shifted (key i : ℕ) (byte : UInt8) : ℕ :=
  (((byte.toNat : ℤ) - (i + 1) * key) % 256).toNat

/-- The symbols of the high and the low nibble. -/
def symbolPair (symbols : List UInt8) (n : ℕ) : List UInt8 :=
  [symbols.getD (n / 16) 0, symbols.getD (n % 16) 0]

/-- The symbols of the bytes from place `i` on. -/
def encodeFrom (symbols : List UInt8) (key : ℕ) : ℕ → List UInt8 → List UInt8
  | _, [] => []
  | i, byte :: rest =>
    symbolPair symbols (shifted key i byte) ++ encodeFrom symbols key (i + 1) rest

/-- The alphabet, and two symbols for each byte of the payload. -/
def encodePayload (symbols : List UInt8) (key : ℕ) (payload : List UInt8) : List UInt8 :=
  symbols ++ encodeFrom symbols key 0 payload

theorem shifted_eq (key i : ℕ) (byte : UInt8) :
    shifted key i byte = (byte.toNat + (256 - (i + 1) * key % 256)) % 256 := by
  have hplace : ((i : ℤ) + 1) * key = ((i + 1) * key : ℕ) := by
    push_cast
    rfl
  unfold shifted
  rw [hplace]
  omega

theorem shifted_lt (key i : ℕ) (byte : UInt8) : shifted key i byte < 256 := by
  rw [shifted_eq]
  omega

theorem length_encodeFrom (symbols : List UInt8) (key i : ℕ) (payload : List UInt8) :
    (encodeFrom symbols key i payload).length = 2 * payload.length := by
  induction payload generalizing i with
  | nil => rfl
  | cons byte rest ih =>
    rw [encodeFrom, List.length_append, ih, List.length_cons]
    show 2 + 2 * rest.length = 2 * (rest.length + 1)
    omega

/-! ## Symbols and nibbles -/

theorem filter_zipIdx {l : List UInt8} (h : l.Nodup) (start : ℕ) (byte : UInt8) :
    (l.zipIdx start).filter (fun symbol => symbol.1 == byte) =
      if byte ∈ l then [(byte, start + l.idxOf byte)] else [] := by
  induction l generalizing start with
  | nil => rfl
  | cons a l ih =>
    obtain ⟨ha, hl⟩ := List.nodup_cons.1 h
    rw [List.zipIdx_cons, List.filter_cons, ih hl]
    by_cases hab : a = byte
    · subst hab
      simp [ha]
    · have hba : byte ≠ a := fun h => hab h.symm
      have hidx : (a :: l).idxOf byte = l.idxOf byte + 1 := List.idxOf_cons_ne l hab
      simp [hab, hba, hidx, Nat.add_assoc, Nat.add_comm 1]

/-- The nibble of a symbol is its place in the alphabet. -/
theorem nibble_of_mem {encoded : List UInt8} (h : (encoded.take 16).Nodup) {byte : UInt8}
    (hbyte : byte ∈ encoded.take 16) : nibble encoded byte = (encoded.take 16).idxOf byte := by
  unfold nibble
  rw [filter_zipIdx h, if_pos hbyte]
  simp

theorem nibble_lt {encoded : List UInt8} (h : (encoded.take 16).Nodup) {byte : UInt8}
    (hbyte : byte ∈ encoded.take 16) : nibble encoded byte < 16 := by
  rw [nibble_of_mem h hbyte]
  exact lt_of_lt_of_le (List.idxOf_lt_length_of_mem hbyte) (List.length_take_le 16 encoded)

theorem symbol_nibble {encoded : List UInt8} (h : (encoded.take 16).Nodup) {byte : UInt8}
    (hbyte : byte ∈ encoded.take 16) : (encoded.take 16).getD (nibble encoded byte) 0 = byte := by
  rw [nibble_of_mem h hbyte, List.getD_eq_getElem _ _ (List.idxOf_lt_length_of_mem hbyte)]
  exact List.getElem_idxOf _

section Encoded

variable (alphabet : Alphabet) (rest : List UInt8)

theorem take_alphabet : (alphabet.symbols ++ rest).take 16 = alphabet.symbols := by
  rw [← alphabet.length_eq]
  exact List.take_left

theorem drop_alphabet : (alphabet.symbols ++ rest).drop 16 = rest := by
  rw [← alphabet.length_eq]
  exact List.drop_left

theorem nibble_symbol {n : ℕ} (hn : n < 16) :
    nibble (alphabet.symbols ++ rest) (alphabet.symbols.getD n 0) = n := by
  have hlt : n < alphabet.symbols.length := by rw [alphabet.length_eq]; exact hn
  have hmem : alphabet.symbols[n] ∈ alphabet.symbols := List.getElem_mem hlt
  rw [List.getD_eq_getElem _ _ hlt, nibble_of_mem, take_alphabet]
  · exact alphabet.nodup.idxOf_getElem n hlt
  · rw [take_alphabet]
    exact alphabet.nodup
  · rwa [take_alphabet]

end Encoded

/-! ## Decoding what was encoded -/

/-- The key of a place, reduced and not reduced, shifts a byte back to where it was. -/
theorem unshift {key i rollingKey : ℕ} (hkey : rollingKey % 256 = (i + 1) * key % 256)
    (byte : UInt8) : (shifted key i byte + rollingKey) % 256 = byte.toNat := by
  have hlt := byte.toNat_lt
  rw [shifted_eq]
  omega

theorem decodePairs_encodeFrom (alphabet : Alphabet) (rest : List UInt8) {key i rollingKey : ℕ}
    (hkey : rollingKey % 256 = (i + 1) * key % 256) (payload : List UInt8) :
    decodePairs (alphabet.symbols ++ rest) key rollingKey
      (encodeFrom alphabet.symbols key i payload) = payload := by
  induction payload generalizing i rollingKey with
  | nil => rfl
  | cons byte payload ih =>
    have hn := shifted_lt key i byte
    have hnext : (rollingKey + key) % 256 % 256 = (i + 1 + 1) * key % 256 := by
      rw [Nat.mod_mod, Nat.add_mod, hkey, ← Nat.add_mod, Nat.succ_mul (i + 1)]
    have hvalue : shifted key i byte / 16 * 16 + shifted key i byte % 16 = shifted key i byte := by
      omega
    rw [encodeFrom, symbolPair, List.cons_append, List.cons_append, List.nil_append, decodePairs,
      nibble_symbol alphabet rest (by omega), nibble_symbol alphabet rest (by omega), hvalue,
      unshift hkey, UInt8.ofNat_toNat, ih hnext]

/-! ## Encoding what was decoded -/

/-- The byte that the pair decodes to is shifted back to the pair. -/
theorem shifted_decoded {key i rollingKey n : ℕ} (hkey : rollingKey % 256 = (i + 1) * key % 256)
    (hn : n < 256) : shifted key i (UInt8.ofNat ((n + rollingKey) % 256)) = n := by
  rw [shifted_eq, UInt8.toNat_ofNat']
  omega

theorem encodeFrom_decodePairs {encoded : List UInt8} (hnodup : (encoded.take 16).Nodup)
    {key i rollingKey : ℕ} (hkey : rollingKey % 256 = (i + 1) * key % 256) (text : List UInt8)
    (hmem : ∀ byte ∈ text, byte ∈ encoded.take 16) (heven : text.length % 2 = 0) :
    encodeFrom (encoded.take 16) key i (decodePairs encoded key rollingKey text) = text := by
  induction text using List.twoStepInduction generalizing i rollingKey with
  | nil => rfl
  | singleton left => simp at heven
  | cons_cons left right text ih _ =>
    have hleft := hmem left (by simp)
    have hright := hmem right (by simp)
    have hhi := nibble_lt hnodup hleft
    have hlo := nibble_lt hnodup hright
    have hnext : (rollingKey + key) % 256 % 256 = (i + 1 + 1) * key % 256 := by
      rw [Nat.mod_mod, Nat.add_mod, hkey, ← Nat.add_mod, Nat.succ_mul (i + 1)]
    have hdiv : (nibble encoded left * 16 + nibble encoded right) / 16 = nibble encoded left := by
      omega
    have hmod : (nibble encoded left * 16 + nibble encoded right) % 16 = nibble encoded right := by
      omega
    have hrest : text.length % 2 = 0 := by
      simp only [List.length_cons] at heven
      omega
    rw [decodePairs, encodeFrom, shifted_decoded hkey (by omega), symbolPair, hdiv, hmod,
      symbol_nibble hnodup hleft, symbol_nibble hnodup hright,
      ih hnext (fun byte hbyte => hmem byte (by simp [hbyte])) hrest]
    rfl

/-! ## Both directions -/

theorem alphabetCandidate_iff {text : List UInt8} : alphabetCandidate text = true ↔
    18 ≤ text.length ∧ (text.length - 16) % 2 = 0 ∧ text.length ≤ kMaxPayloadBytes * 2 + 16 ∧
      (text.take 16).Nodup ∧ ∀ byte ∈ text.take 16, byte ≠ 13 ∧ byte ≠ 10 := by
  simp only [alphabetCandidate, Bool.and_eq_true, Bool.not_eq_true', Bool.or_eq_false_iff,
    decide_eq_false_iff_not, not_lt, bne_eq_false_iff_eq, decide_eq_true_eq, List.all_eq_true,
    bne_iff_ne, and_assoc]

/-- An encoded payload is accepted and decoded again, and an accepted text over its alphabet is the
encoding of what it decodes to. -/
theorem alphabet_inverts (key : ℕ) :
    (∀ (alphabet : Alphabet) (payload : List UInt8), payload ≠ [] →
      payload.length ≤ kMaxPayloadBytes →
      alphabetCandidate (encodePayload alphabet.symbols key payload) = true ∧
        decodeAlphabetPayload (encodePayload alphabet.symbols key payload) key = payload) ∧
    ∀ text, alphabetCandidate text = true → (∀ byte ∈ text.drop 16, byte ∈ text.take 16) →
      encodePayload (text.take 16) key (decodeAlphabetPayload text key) = text := by
  constructor
  · intro alphabet payload hne hsize
    have hpos := List.length_pos_of_ne_nil hne
    have hlength : (encodePayload alphabet.symbols key payload).length = 16 + 2 * payload.length := by
      rw [encodePayload, List.length_append, alphabet.length_eq, length_encodeFrom]
    refine ⟨alphabetCandidate_iff.2 ⟨by omega, by omega, by omega, ?_, ?_⟩, ?_⟩
    · rw [encodePayload, take_alphabet]
      exact alphabet.nodup
    · rw [encodePayload, take_alphabet]
      exact alphabet.no_line_end
    · unfold decodeAlphabetPayload encodePayload
      rw [drop_alphabet]
      exact decodePairs_encodeFrom alphabet _ (by rw [Nat.zero_add, Nat.one_mul]) payload
  · intro text hcandidate hmem
    obtain ⟨-, heven, -, hnodup, -⟩ := alphabetCandidate_iff.1 hcandidate
    unfold encodePayload decodeAlphabetPayload
    rw [encodeFrom_decodePairs hnodup (by rw [Nat.zero_add, Nat.one_mul]) _ hmem
      (by rw [List.length_drop]; exact heven), List.take_append_drop]

/-- The hexadecimal digits. -/
def hexDigits : Alphabet where
  symbols := ascii "0123456789abcdef"
  length_eq := rfl
  nodup := by decide
  no_line_end := by decide +kernel

theorem alphabet_inverts_hexDigits :
    (alphabetCandidate (encodePayload hexDigits.symbols 7 [3, 0]) = true ∧
      decodeAlphabetPayload (encodePayload hexDigits.symbols 7 [3, 0]) 7 = [3, 0]) ∧
    encodePayload (ascii "0123456789abcdef") 7
      (decodeAlphabetPayload (ascii "0123456789abcdeffcf2") 7) = ascii "0123456789abcdeffcf2" :=
  ⟨(alphabet_inverts 7).1 hexDigits [3, 0] (by decide) (by decide),
    (alphabet_inverts 7).2 (ascii "0123456789abcdeffcf2") (by decide) (by decide +kernel)⟩

end ByteVeil.MoonSec
