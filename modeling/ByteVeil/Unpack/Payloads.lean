import ByteVeil.Unpack.Inspect
import Mathlib.Data.List.TakeWhile

/-!
# When the payloads are genuine

The scan takes a stretch of the text from the first quotation mark behind the word to the mark that
closes it. What it reads there is the value of an argument of `loadstring` exactly when the stretch
is one and has no escape that the decoder of the scan takes for the byte itself.
-/

namespace ByteVeil.Unpack

open MoonSec

/-! ## Stretches -/

/-- The bytes from a quotation mark to the one that closes it, with the bytes behind backslashes. -/
structure Stretch where
  name : ℕ
  quote : ℕ
  close : ℕ
  escapes : List UInt8
  deriving DecidableEq

/-- The place of the closing quotation mark, and the bytes behind backslashes before it. -/
def closing (data : List UInt8) (quote : UInt8) : ℕ → ℕ → Option (ℕ × List UInt8)
  | 0, _ => none
  | fuel + 1, q =>
    if data.length ≤ q then none
    else if byteAt data q = quote then some (q, [])
    else if byteAt data q = 92 ∧ q + 1 < data.length then
      (closing data quote fuel (q + 2)).map fun r => (r.1, byteAt data (q + 1) :: r.2)
    else closing data quote fuel (q + 1)

/-- The stretches from `p` on, each behind the next word behind the last one. -/
def stretchesFrom (data : List UInt8) : ℕ → ℕ → List Stretch
  | 0, _ => []
  | fuel + 1, p =>
    match find data (ascii "loadstring") p with
    | none => []
    | some p =>
      match findQuote data (p + 10) with
      | none => []
      | some q =>
        match closing data (byteAt data q) data.length (q + 1) with
        | none => []
        | some (close, escapes) => ⟨p, q, close, escapes⟩ :: stretchesFrom data fuel (close + 1)

/-- The stretches that the scan takes. -/
def stretches (data : List UInt8) : List Stretch := stretchesFrom data data.length 0

/-- The bytes that a backslash does not change, the two letters that both decoders know, and the line
feed. -/
def plainEscape (n : UInt8) : Bool :=
  !([97, 98, 102, 116, 118, 122, 120, 13] : List UInt8).contains n && !isDigit n

/-- What the decoder of the scan reads up to a closing quotation mark. -/
inductive Units (data : List UInt8) (quote : UInt8) : ℕ → ℕ → List UInt8 → List UInt8 → Prop
  | close {q : ℕ} (hq : q < data.length) (hquote : byteAt data q = quote) : Units data quote q q [] []
  | byte {q stop : ℕ} {value escapes : List UInt8} (hq : q < data.length)
    (hquote : byteAt data q ≠ quote) (hescape : byteAt data q ≠ 92)
    (h : Units data quote (q + 1) stop value escapes) :
    Units data quote q stop (byteAt data q :: value) escapes
  | escape {q stop : ℕ} {value escapes : List UInt8} (hq : q + 1 < data.length)
    (hquote : byteAt data q ≠ quote) (hescape : byteAt data q = 92)
    (h : Units data quote (q + 2) stop value escapes) :
    Units data quote q stop (unescape (byteAt data (q + 1)) :: value)
      (byteAt data (q + 1) :: escapes)

section Units

variable {data : List UInt8} {quote : UInt8} {fuel q stop : ℕ} {value escapes : List UInt8}

theorem Units.of_closing (h : closing data quote fuel q = some (stop, escapes)) :
    ∃ value, Units data quote q stop value escapes ∧
      ∀ x, readLiteral data quote fuel q x = (x ++ value, stop, true) := by
  induction fuel generalizing q escapes with
  | zero => cases h
  | succ fuel ih =>
    unfold closing at h
    split_ifs at h with hlength hquote hescape
    · obtain ⟨rfl, rfl⟩ := Prod.mk.inj (Option.some.inj h)
      refine ⟨[], .close (by omega) hquote, fun x => ?_⟩
      rw [readLiteral, if_neg hlength, List.append_nil]
      exact if_pos hquote
    · obtain ⟨⟨stop', escapes'⟩, hrest, hpair⟩ := Option.map_eq_some_iff.1 h
      obtain ⟨rfl, rfl⟩ := Prod.mk.inj hpair
      obtain ⟨value, hunits, hread⟩ := ih hrest
      refine ⟨_, .escape hescape.2 hquote hescape.1 hunits, fun x => ?_⟩
      rw [readLiteral, if_neg hlength]
      dsimp only
      rw [if_neg hquote, if_pos hescape, hread, List.append_assoc, List.singleton_append]
    · obtain ⟨value, hunits, hread⟩ := ih h
      have hplain : byteAt data q ≠ 92 := by
        intro hbyte
        -- a backslash at the very end leaves nothing to close
        have hend : data.length ≤ q + 1 := by
          by_contra hlt
          exact hescape ⟨hbyte, by omega⟩
        cases hunits <;> omega
      refine ⟨_, .byte (by omega) hquote hplain hunits, fun x => ?_⟩
      rw [readLiteral, if_neg hlength]
      dsimp only
      rw [if_neg hquote, if_neg hescape, hread, List.append_assoc, List.singleton_append]

/-- Without a closing quotation mark the decoder runs to the end. -/
theorem readLiteral_of_closing (h : closing data quote fuel q = none) (hfuel : data.length < q + fuel)
    (x : List UInt8) :
    (readLiteral data quote fuel q x).2.2 = false ∧ data.length ≤ (readLiteral data quote fuel q x).2.1 := by
  induction fuel generalizing q x with
  | zero => exact ⟨rfl, by show data.length ≤ q; omega⟩
  | succ fuel ih =>
    unfold closing at h
    unfold readLiteral
    split_ifs at h with hlength hquote hescape
    · rw [if_pos hlength]
      exact ⟨rfl, hlength⟩
    · rw [if_neg hlength]
      dsimp only
      rw [if_neg hquote, if_pos hescape]
      exact ih (Option.map_eq_none_iff.1 h) (by omega) _
    · rw [if_neg hlength]
      dsimp only
      rw [if_neg hquote, if_neg hescape]
      exact ih h (by omega) _

end Units

/-! ## The two decoders -/

/-- What holds of the first 256 numbers holds of every byte. -/
theorem forall_byte {P : UInt8 → Prop} (h : ∀ n < 256, P (UInt8.ofNat n)) (b : UInt8) : P b := by
  have hb := h b.toNat b.toNat_lt
  rwa [UInt8.ofNat_toNat] at hb

/-- A byte that neither ends a literal nor starts an escape. -/
def Ordinary (b : UInt8) : Prop := b ≠ 34 ∧ b ≠ 39 ∧ b ≠ 92

instance (b : UInt8) : Decidable (Ordinary b) := inferInstanceAs (Decidable (_ ∧ _))

theorem ordinary_of {f : UInt8 → Bool} (hf : f 34 = false ∧ f 39 = false ∧ f 92 = false) {b : UInt8}
    (h : f b = true) : Ordinary b := by
  refine ⟨?_, ?_, ?_⟩
  · rintro rfl
    exact Bool.false_ne_true (hf.1.symm.trans h)
  · rintro rfl
    exact Bool.false_ne_true (hf.2.1.symm.trans h)
  · rintro rfl
    exact Bool.false_ne_true (hf.2.2.symm.trans h)

theorem ordinary_of_isSpace {b : UInt8} (h : isSpace b = true) : Ordinary b :=
  ordinary_of ⟨rfl, rfl, rfl⟩ h

theorem ordinary_of_isDigit {b : UInt8} (h : isDigit b = true) : Ordinary b :=
  ordinary_of ⟨rfl, rfl, rfl⟩ h

theorem ordinary_of_hex {b : UInt8} (h : (hex b).isSome = true) : Ordinary b :=
  ordinary_of (f := fun b => (hex b).isSome) ⟨rfl, rfl, rfl⟩ h

theorem byteAt_mem {source bytes : List UInt8} {c j : ℕ} (hbytes : bytes <+: source.drop c)
    (hj : j < bytes.length) : byteAt source (c + j) ∈ bytes := by
  have hget : byteAt source (c + j) = bytes[j] := by
    unfold byteAt
    rw [List.getD_eq_getElem?_getD, ← List.getElem?_drop,
      List.getElem?_eq_getElem (hj.trans_le hbytes.length_le), hbytes.getElem hj, Option.getD_some]
  rw [hget]
  exact List.getElem_mem hj

/-- The bytes behind a place that meet a condition, up to the first that does not. -/
theorem of_lt_takeWhile {source bytes : List UInt8} {p : UInt8 → Bool} {c j : ℕ}
    (hbytes : bytes <+: source.drop c) (hj : j < (bytes.takeWhile p).length) :
    p (byteAt source (c + j)) = true :=
  List.mem_takeWhile_imp (byteAt_mem ((List.takeWhile_prefix p).trans hbytes) hj)

theorem control_plain : ∀ n, plainEscape n = true →
    MoonSec.control n = if n = 110 then some 10 else if n = 114 then some 13 else none :=
  forall_byte (by decide +kernel)

theorem plainEscape_ne {n : UInt8} (h : plainEscape n = true) :
    n ≠ 13 ∧ n ≠ 122 ∧ n ≠ 120 ∧ isDigit n = false := by
  unfold plainEscape at h
  rw [Bool.and_eq_true, Bool.not_eq_true', Bool.not_eq_true'] at h
  refine ⟨?_, ?_, ?_, h.2⟩
  · rintro rfl
    exact Bool.false_ne_true h.1.symm
  · rintro rfl
    exact Bool.false_ne_true h.1.symm
  · rintro rfl
    exact Bool.false_ne_true h.1.symm

/-- The decoders agree on an escape that is plain. -/
theorem escape_plain {source : List UInt8} {c : ℕ} (h : plainEscape (byteAt source c) = true) :
    escape source c = some ([unescape (byteAt source c)], c + 1) := by
  obtain ⟨hreturn, hz, hx, hdigit⟩ := plainEscape_ne h
  unfold escape unescape
  dsimp only
  rw [control_plain _ h]
  by_cases hn : byteAt source c = 110
  · rw [if_pos hn, if_pos hn]
  · rw [if_neg hn, if_neg hn]
    by_cases hr : byteAt source c = 114
    · rw [if_pos hr, if_pos hr]
    · rw [if_neg hr, if_neg hr]
      by_cases hfeed : byteAt source c = 10
      · rw [if_pos hfeed, hfeed]
      · rw [if_neg hfeed, if_neg hreturn, if_neg hz, if_neg hx, hdigit]
        rfl

/-- What `readQuotedLiteral` makes of an escape: at most one byte, from bytes that the scan takes for
themselves. -/
theorem escape_spec {source bytes : List UInt8} {c c' : ℕ} (h : escape source c = some (bytes, c')) :
    ∃ k, c' = c + 1 + k ∧ (∀ j < k, Ordinary (byteAt source (c + 1 + j))) ∧
      bytes.length ≤ 1 ∧
      (k = 0 → bytes = [unescape (byteAt source c)] → plainEscape (byteAt source c) = true) := by
  have hcontrol : ∀ n, MoonSec.control n = some (unescape n) → plainEscape n = true :=
    forall_byte (by decide +kernel)
  have hdigit : ∀ n, isDigit n = true → UInt8.ofNat (n.toNat - 48) ≠ unescape n :=
    forall_byte (by decide +kernel)
  have hother : ∀ n, (MoonSec.control n).isNone ∧ n ≠ 13 ∧ n ≠ 122 ∧ n ≠ 120 ∧ ¬isDigit n = true →
      plainEscape n = true := forall_byte (by decide +kernel)
  unfold escape at h
  dsimp only at h
  generalize hn : byteAt source c = n at h ⊢
  cases hletter : MoonSec.control n with
  | some byte =>
    rw [hletter] at h
    obtain ⟨rfl, rfl⟩ := Prod.mk.inj (Option.some.inj h)
    refine ⟨0, rfl, nofun, le_rfl, fun _ hbyte => hcontrol n ?_⟩
    rw [hletter, (List.cons.inj hbyte).1]
  | none =>
    rw [hletter] at h
    dsimp only at h
    split_ifs at h with hfeed hreturn hfeed' hz hx hshort hlast hdecimal
    · obtain ⟨rfl, rfl⟩ := Prod.mk.inj (Option.some.inj h)
      refine ⟨0, rfl, nofun, le_rfl, fun _ _ => ?_⟩
      rw [hfeed]
      rfl
    · obtain ⟨rfl, rfl⟩ := Prod.mk.inj (Option.some.inj h)
      refine ⟨1, rfl, fun j hj => ?_, le_rfl, nofun⟩
      obtain rfl : j = 0 := by omega
      rw [Nat.add_zero, hfeed'.2]
      decide
    · obtain ⟨rfl, rfl⟩ := Prod.mk.inj (Option.some.inj h)
      refine ⟨0, rfl, nofun, le_rfl, fun _ hbyte => ?_⟩
      rw [hreturn] at hbyte
      exact absurd hbyte (by decide)
    · obtain ⟨rfl, rfl⟩ := Prod.mk.inj (Option.some.inj h)
      exact ⟨_, rfl, fun j hj => ordinary_of_isSpace (of_lt_takeWhile List.prefix_rfl hj), Nat.zero_le _,
        nofun⟩
    · -- both bytes behind an `x` are digits
      cases hleft : hex (byteAt source (c + 1)) with
      | none => rw [hleft] at h; cases h
      | some left =>
        cases hright : hex (byteAt source (c + 1 + 1)) with
        | none => rw [hleft, hright] at h; cases h
        | some right =>
          rw [hleft, hright] at h
          obtain ⟨rfl, rfl⟩ := Prod.mk.inj (Option.some.inj h)
          refine ⟨2, rfl, fun j hj => ?_, le_rfl, nofun⟩
          obtain rfl | rfl : j = 0 ∨ j = 1 := by omega
          · exact ordinary_of_hex (by rw [Nat.add_zero, hleft]; rfl)
          · exact ordinary_of_hex (by rw [hright]; rfl)
    · cases hleft : hex (byteAt source (c + 1)) with
      | none => rw [hleft] at h; cases h
      | some left => rw [hleft] at h; cases h
    · unfold decimalEscape at h
      dsimp only at h
      split_ifs at h with hlimit
      obtain ⟨rfl, rfl⟩ := Prod.mk.inj (Option.some.inj h)
      refine ⟨_, rfl, fun j hj => ?_, le_rfl, fun hk hbyte => ?_⟩
      · exact ordinary_of_isDigit (of_lt_takeWhile (List.take_prefix _ _) hj)
      · rw [List.eq_nil_of_length_eq_zero hk] at hbyte
        exact absurd (List.cons.inj hbyte).1 (hdigit n hdecimal)
    · obtain ⟨rfl, rfl⟩ := Prod.mk.inj (Option.some.inj h)
      exact ⟨0, rfl, nofun, le_rfl, fun _ _ => hother n ⟨by rw [hletter]; rfl, hreturn, hz, hx, hdecimal⟩⟩

section Units

variable {data : List UInt8} {quote : UInt8} {fuel q stop : ℕ} {value escapes : List UInt8}

/-- Ordinary bytes stand for themselves. -/
theorem Units.skip (hquote : quote = 34 ∨ quote = 39) {k : ℕ}
    (hordinary : ∀ j < k, Ordinary (byteAt data (q + j)))
    (h : Units data quote q stop value escapes) :
    ∃ before after, value = before ++ after ∧ before.length = k ∧
      Units data quote (q + k) stop after escapes := by
  induction k generalizing q value with
  | zero => exact ⟨[], value, rfl, rfl, h⟩
  | succ k ih =>
    obtain ⟨hdouble, hsingle, hescape⟩ := hordinary 0 (Nat.succ_pos k)
    cases h with
    | close hq hclose => rcases hquote with rfl | rfl <;> contradiction
    | @byte _ _ value _ hq _ _ h =>
      obtain ⟨before, after, rfl, hlength, hunits⟩ := ih (q := q + 1) (fun j hj => by
        have := hordinary (j + 1) (Nat.succ_lt_succ hj)
        rwa [← Nat.add_assoc, Nat.add_right_comm] at this) h
      refine ⟨_ :: before, after, rfl, congrArg (· + 1) hlength, ?_⟩
      rwa [← Nat.add_assoc, Nat.add_right_comm]
    | escape hq _ hbackslash h => exact absurd hbackslash hescape

/-- Where both succeed, `readQuotedLiteral` reads no more bytes than the scan, and the same bytes only
if every escape is plain. -/
theorem readQuotedFrom_plain (hquote : quote = 34 ∨ quote = 39) {acc out : List UInt8} {after : ℕ}
    (hunits : Units data quote q stop value escapes)
    (h : readQuotedFrom data quote fuel q acc = some (out, after)) :
    ∃ read, out = acc ++ read ∧ read.length ≤ value.length ∧
      (read = value → ∀ n ∈ escapes, plainEscape n = true) := by
  induction fuel generalizing q acc value escapes with
  | zero => cases h
  | succ fuel ih =>
    unfold readQuotedFrom at h
    cases hunits with
    | close hq hclose =>
      rw [if_neg (by omega)] at h
      dsimp only at h
      rw [if_pos hclose] at h
      obtain ⟨rfl, rfl⟩ := Prod.mk.inj (Option.some.inj h)
      exact ⟨[], (List.append_nil acc).symm, le_rfl, fun _ => nofun⟩
    | byte hq hne hescape hunits =>
      rw [if_neg (by omega)] at h
      dsimp only at h
      rw [if_neg hne, if_pos hescape] at h
      obtain ⟨read, hout, hlength, hplain⟩ := ih hunits h
      refine ⟨byteAt data q :: read, ?_, Nat.succ_le_succ hlength, fun heq => ?_⟩
      · rw [hout, List.append_assoc, List.singleton_append]
      · exact hplain (List.cons.inj heq).2
    | escape hq hne hescape hunits =>
      rw [if_neg (by omega)] at h
      dsimp only at h
      rw [if_neg hne, if_neg (not_not.2 hescape), if_neg (by omega)] at h
      split at h
      · cases h
      · rename_i bytes cursor hbytes
        obtain ⟨k, rfl, hordinary, hone, hsame⟩ := escape_spec hbytes
        obtain ⟨before, rest, rfl, hbefore, hrest⟩ := hunits.skip hquote hordinary
        obtain ⟨read, hout, hlength, hplain⟩ := ih hrest h
        refine ⟨bytes ++ read, ?_, ?_, fun heq => ?_⟩
        · rw [hout, List.append_assoc]
        · rw [List.length_append, List.length_cons, List.length_append]
          omega
        · -- equally many bytes, so the escape has none behind it and stands for one
          have hcount := congrArg List.length heq
          rw [List.length_append, List.length_cons, List.length_append] at hcount
          obtain rfl : k = 0 := by omega
          obtain rfl := List.eq_nil_of_length_eq_zero hbefore
          obtain ⟨byte, rfl⟩ := List.length_eq_one_iff.1 (show bytes.length = 1 by omega)
          obtain ⟨hbyte, hread⟩ := List.cons.inj heq
          exact List.forall_mem_cons.2 ⟨hsame rfl (by rw [hbyte]), hplain hread⟩

/-- Where every escape is plain, `readQuotedLiteral` reads what the scan reads. -/
theorem readQuotedFrom_units {acc : List UInt8} (hunits : Units data quote q stop value escapes)
    (hfuel : data.length < q + fuel) (hplain : ∀ n ∈ escapes, plainEscape n = true) :
    readQuotedFrom data quote fuel q acc = some (acc ++ value, stop + 1) := by
  -- both decoders take the same steps
  induction hunits generalizing fuel acc with
  | close hq hclose =>
    obtain ⟨fuel, rfl⟩ : ∃ k, fuel = k + 1 := ⟨fuel - 1, by omega⟩
    rw [readQuotedFrom, if_neg (by omega), List.append_nil]
    exact if_pos hclose
  | byte hq hne hescape hunits ih =>
    obtain ⟨fuel, rfl⟩ : ∃ k, fuel = k + 1 := ⟨fuel - 1, by omega⟩
    rw [readQuotedFrom, if_neg (by omega)]
    dsimp only
    rw [if_neg hne, if_pos hescape, ih (by omega) hplain, List.append_assoc, List.singleton_append]
  | escape hq hne hescape hunits ih =>
    obtain ⟨fuel, rfl⟩ : ∃ k, fuel = k + 1 := ⟨fuel - 1, by omega⟩
    obtain ⟨hfirst, hrest⟩ := List.forall_mem_cons.1 hplain
    rw [readQuotedFrom, if_neg (by omega)]
    dsimp only
    rw [if_neg hne, if_neg (not_not.2 hescape), if_neg (by omega), escape_plain hfirst]
    dsimp only
    rw [ih (by omega) hrest, List.append_assoc, List.singleton_append]

theorem Units.le (h : Units data quote q stop value escapes) : q ≤ stop := by
  induction h <;> omega

theorem Units.lt (h : Units data quote q stop value escapes) : stop < data.length := by
  induction h <;> assumption

theorem Units.eq_nil_iff (h : Units data quote q stop value escapes) : value = [] ↔ stop = q := by
  cases h with
  | close hq hclose => exact iff_of_true rfl rfl
  | byte hq hne hescape h =>
    have hle := h.le
    exact iff_of_false (List.cons_ne_nil _ _) (by omega)
  | escape hq hne hescape h =>
    have hle := h.le
    exact iff_of_false (List.cons_ne_nil _ _) (by omega)

end Units

/-! ## Places in the code -/

section Places

variable {source : List UInt8} {fuel c p : ℕ}

theorem readQuotedFrom_lt {quote : UInt8} {value out : List UInt8} {after : ℕ}
    (h : readQuotedFrom source quote fuel c value = some (out, after)) : c < after := by
  induction fuel generalizing c value with
  | zero => cases h
  | succ fuel ih =>
    unfold readQuotedFrom at h
    by_cases hlength : source.length ≤ c
    · rw [if_pos hlength] at h
      cases h
    rw [if_neg hlength] at h
    dsimp only at h
    by_cases hquote : byteAt source c = quote
    · rw [if_pos hquote] at h
      obtain ⟨-, rfl⟩ := Prod.mk.inj (Option.some.inj h)
      exact Nat.lt_succ_self c
    rw [if_neg hquote] at h
    by_cases hescape : byteAt source c = 92
    · rw [if_neg (not_not.2 hescape)] at h
      split_ifs at h with hlast
      split at h
      · cases h
      · rename_i bytes cursor hbytes
        obtain ⟨k, rfl, -⟩ := escape_spec hbytes
        have := ih h
        omega
    · rw [if_pos hescape] at h
      exact Nat.lt_of_succ_lt (ih h)

theorem le_skipLongBracket (hc : c ≤ source.length) : c ≤ skipLongBracket source c := by
  unfold skipLongBracket
  split
  · exact le_rfl
  · rename_i equals afterOpen hopen
    have hafter : c ≤ afterOpen := by
      unfold longBracketOpen at hopen
      split_ifs at hopen with hbracket
      dsimp only at hopen
      split_ifs at hopen with hsecond
      obtain ⟨-, rfl⟩ := Prod.mk.inj (Option.some.inj hopen)
      omega
    dsimp only
    split
    · exact hc
    · rename_i k hfind
      have hmem := List.mem_of_find?_eq_some hfind
      have := (List.mem_range'_1.1 hmem).1
      omega

theorem lexStep_lt (hc : c < source.length) {c' : ℕ} (h : lexStep source c = some c') : c < c' := by
  unfold lexStep at h
  split_ifs at h with hcomment hbracket hquote
  · dsimp only at h
    obtain rfl := Option.some.inj h
    have hle : c + 2 ≤ skipLongBracket source (c + 2) := le_skipLongBracket (by omega)
    split_ifs
    · omega
    · unfold lineEnd
      dsimp only
      split_ifs <;> omega
  · obtain rfl := Option.some.inj h
    have hle : c ≤ skipLongBracket source c := le_skipLongBracket hc.le
    omega
  · obtain ⟨⟨literal, after⟩, hread, rfl⟩ := Option.map_eq_some_iff.1 h
    unfold readQuotedLiteral at hread
    obtain ⟨⟨out, after'⟩, hfrom, hpair⟩ := Option.map_eq_some_iff.1 hread
    obtain ⟨-, rfl⟩ := Prod.mk.inj hpair
    have := readQuotedFrom_lt hfrom
    dsimp only
    omega
  · obtain rfl := Option.some.inj h
    exact Nat.lt_succ_self c

/-- The lexer goes on from a byte of the code to the next one. -/
theorem places_succ (hfuel : source.length ≤ c + fuel) (hp : p ∈ placesFrom source fuel c)
    (hstep : lexStep source p = some (p + 1)) (hlength : p + 1 < source.length) :
    p + 1 ∈ placesFrom source fuel c := by
  induction fuel generalizing c with
  | zero => cases hp
  | succ fuel ih =>
    unfold placesFrom at hp ⊢
    split_ifs at hp ⊢ with hc
    · cases hp
    refine List.mem_cons_of_mem _ ?_
    rcases List.mem_cons.1 hp with rfl | hp
    · obtain ⟨fuel, rfl⟩ : ∃ k, fuel = k + 1 := ⟨fuel - 1, by omega⟩
      rw [hstep]
      show p + 1 ∈ placesFrom source (fuel + 1) (p + 1)
      rw [placesFrom, if_neg (by omega)]
      exact List.mem_cons_self
    · cases hnext : lexStep source c with
      | none => rw [hnext] at hp; cases hp
      | some c' =>
        rw [hnext] at hp
        have hlt := lexStep_lt (by omega) hnext
        exact ih (by omega) hp

/-- A run of bytes that open neither a comment, nor a bracket, nor a literal. -/
theorem places_add (hp : p ∈ places source) {k : ℕ} (hlength : p + k < source.length)
    (hplain : ∀ j < k, byteAt source (p + j) ∉ ([45, 91, 39, 34] : List UInt8)) :
    p + k ∈ places source := by
  induction k with
  | zero => exact hp
  | succ k ih =>
    have hbyte := hplain k (Nat.lt_succ_self k)
    simp only [List.mem_cons, List.not_mem_nil, or_false, not_or] at hbyte
    obtain ⟨hminus, hbracket, hsingle, hdouble⟩ := hbyte
    refine places_succ (by omega) (ih (by omega) fun j hj => hplain j (by omega)) ?_ hlength
    unfold lexStep
    rw [if_neg (by tauto), if_neg (by tauto), if_neg (by tauto)]

/-- A literal that the lexer comes to is one of the source. -/
theorem mem_stringsFrom (hp : p ∈ placesFrom source fuel c)
    (hquote : byteAt source p = 39 ∨ byteAt source p = 34) {literal : Literal} {after : ℕ}
    (hread : readQuotedLiteral source p = some (literal, after)) :
    literal ∈ stringsFrom source fuel c := by
  induction fuel generalizing c with
  | zero => cases hp
  | succ fuel ih =>
    unfold placesFrom at hp
    unfold stringsFrom
    by_cases hc : source.length ≤ c
    · rw [if_pos hc] at hp
      cases hp
    rw [if_neg hc] at hp ⊢
    rcases List.mem_cons.1 hp with rfl | hp
    · have hminus : ¬byteAt source p = 45 := by
        rcases hquote with h | h <;> rw [h] <;> decide
      have hbracket : ¬byteAt source p = 91 := by
        rcases hquote with h | h <;> rw [h] <;> decide
      rw [if_neg (by tauto), if_neg (by tauto), if_pos hquote, hread]
      exact List.mem_cons_self
    · unfold lexStep at hp
      by_cases hcomment : byteAt source c = 45 ∧ c + 1 < source.length ∧ byteAt source (c + 1) = 45
      · rw [if_pos hcomment] at hp ⊢
        exact ih hp
      rw [if_neg hcomment] at hp ⊢
      by_cases hbracket : byteAt source c = 91 ∧ skipLongBracket source c ≠ c
      · rw [if_pos hbracket] at hp ⊢
        exact ih hp
      rw [if_neg hbracket] at hp ⊢
      by_cases hmark : byteAt source c = 39 ∨ byteAt source c = 34
      · rw [if_pos hmark] at hp ⊢
        cases hfirst : readQuotedLiteral source c with
        | none => rw [hfirst] at hp; cases hp
        | some result =>
          rw [hfirst] at hp
          exact List.mem_cons_of_mem _ (ih hp)
      · rw [if_neg hmark] at hp ⊢
        exact ih hp

end Places

/-! ## Arguments -/

/-- The bytes of a call before its argument open nothing that the lexer passes over. -/
theorem callGap_plain {gap : List UInt8} (h : isCallGap gap = true) :
    ∀ b ∈ gap, b ∉ ([45, 91, 39, 34] : List UInt8) := by
  have hnone : ([45, 91, 39, 34] : List UInt8).all (fun c => !isSpace c) = true := rfl
  intro b hb
  by_cases hb' : isSpace b = true
  · intro hmem
    have hnot := List.all_eq_true.1 hnone b hmem
    rw [hb'] at hnot
    cases hnot
  · have hmem : b ∈ gap.filter fun byte => !isSpace byte :=
      List.mem_filter.2 ⟨hb, by simp only [hb', Bool.not_false]⟩
    unfold isCallGap at h
    rw [Bool.or_eq_true, beq_iff_eq, beq_iff_eq] at h
    rcases h with h | h
    · rw [h] at hmem
      cases hmem
    · rw [h, List.mem_singleton] at hmem
      rw [hmem]
      decide

/-- The lexer comes to the quotation mark of an argument. -/
theorem quote_mem_places {source : List UInt8} {name quote : ℕ}
    (h : isArgument source name quote = true) (hquote : quote < source.length) :
    quote ∈ places source := by
  unfold isArgument at h
  simp only [Bool.and_eq_true, List.contains_iff_mem, decide_eq_true_eq] at h
  obtain ⟨⟨⟨⟨hname, hword⟩, -⟩, hle⟩, hgap⟩ := h
  have hletters : ∀ b ∈ ascii "loadstring", b ∉ ([45, 91, 39, 34] : List UInt8) := by
    decide +kernel
  obtain ⟨k, rfl⟩ := Nat.exists_eq_add_of_le hle
  rw [Nat.add_sub_cancel_left] at hgap
  rw [Nat.add_assoc]
  refine places_add hname (by omega) fun j hj => ?_
  by_cases hj' : j < 10
  · exact hletters _ (byteAt_mem (List.isPrefixOf_iff_prefix.1 hword) hj')
  · obtain ⟨i, rfl⟩ := Nat.exists_eq_add_of_le (Nat.le_of_not_lt hj')
    rw [← Nat.add_assoc]
    refine callGap_plain hgap _ (byteAt_mem (List.take_prefix _ _) ?_)
    rw [List.length_take, List.length_drop]
    omega

/-! ## The payloads -/

/-- What the scan finds in a stretch. -/
def Stretch.found (data : List UInt8) (s : Stretch) : Option Found :=
  let value := (readLiteral data (byteAt data s.quote) data.length (s.quote + 1) []).1
  if value.isEmpty then none else some ⟨s.name, s.quote, value⟩

section Scan

variable {data : List UInt8} {fuel p : ℕ}

theorem scanFrom_end (hp : data.length < p) : scanFrom data fuel p = [] := by
  cases fuel with
  | zero => rfl
  | succ fuel =>
    have hfind : find data (ascii "loadstring") p = none := by
      unfold find
      rw [show data.length + 1 - p = 0 by omega]
      rfl
    rw [scanFrom, hfind]

theorem scanFrom_eq (data : List UInt8) (fuel p : ℕ) :
    scanFrom data fuel p = (stretchesFrom data fuel p).filterMap (Stretch.found data) := by
  induction fuel generalizing p with
  | zero => rfl
  | succ fuel ih =>
    unfold scanFrom stretchesFrom
    cases find data (ascii "loadstring") p with
    | none => rfl
    | some name =>
      dsimp only
      cases findQuote data (name + 10) with
      | none => rfl
      | some q =>
        dsimp only
        cases hclosing : closing data (byteAt data q) data.length (q + 1) with
        | none =>
          obtain ⟨hopen, hend⟩ := readLiteral_of_closing hclosing (by omega) []
          dsimp only
          rw [hopen, Bool.false_and, scanFrom_end (Nat.lt_succ_of_le hend)]
          rfl
        | some result =>
          obtain ⟨value, hunits, hread⟩ := Units.of_closing hclosing
          dsimp only
          rw [hread, ih, List.filterMap_cons]
          unfold Stretch.found
          dsimp only
          rw [hread, List.nil_append, Bool.true_and]
          cases value.isEmpty <;> rfl

theorem findQuote_eq {q : ℕ} (h : findQuote data p = some q) :
    byteAt data q = 34 ∨ byteAt data q = 39 := by
  have hbyte := List.find?_some h
  rwa [Bool.or_eq_true, beq_iff_eq, beq_iff_eq] at hbyte

/-- A stretch lies between a quotation mark and the one that closes it. -/
theorem mem_stretchesFrom {s : Stretch} (h : s ∈ stretchesFrom data fuel p) :
    (byteAt data s.quote = 34 ∨ byteAt data s.quote = 39) ∧
      closing data (byteAt data s.quote) data.length (s.quote + 1) = some (s.close, s.escapes) := by
  induction fuel generalizing p with
  | zero => cases h
  | succ fuel ih =>
    unfold stretchesFrom at h
    split at h
    · cases h
    split at h
    · cases h
    rename_i hquote
    split at h
    · cases h
    rename_i hclosing
    rcases List.mem_cons.1 h with rfl | h
    · exact ⟨findQuote_eq hquote, hclosing⟩
    · exact ih h

/-- The payload of a stretch is genuine exactly when the stretch is the argument of `loadstring` and
all its escapes are plain. -/
theorem genuine_iff {s : Stretch} (hs : s ∈ stretches data) (hempty : s.close ≠ s.quote + 1) :
    ∃ f, s.found data = some f ∧ (f.Genuine data ↔
      isArgument data s.name s.quote = true ∧ ∀ n ∈ s.escapes, plainEscape n = true) := by
  obtain ⟨hquote, hclosing⟩ := mem_stretchesFrom hs
  obtain ⟨value, hunits, hread⟩ := Units.of_closing hclosing
  have hvalue : value ≠ [] := fun h => hempty (hunits.eq_nil_iff.1 h)
  have hfound : s.found data = some ⟨s.name, s.quote, value⟩ := by
    unfold Stretch.found
    dsimp only
    rw [hread, List.nil_append, if_neg (by rwa [List.isEmpty_iff])]
  refine ⟨_, hfound, ?_⟩
  unfold Found.Genuine
  dsimp only
  constructor
  · rintro ⟨hargument, -, after, hliteral⟩
    refine ⟨hargument, ?_⟩
    unfold readQuotedLiteral at hliteral
    obtain ⟨⟨out, after'⟩, hfrom, hpair⟩ := Option.map_eq_some_iff.1 hliteral
    obtain ⟨hout, -⟩ := Prod.mk.inj hpair
    have hout : out = value := congrArg Literal.value hout
    obtain ⟨read, hacc, -, hplain⟩ := readQuotedFrom_plain hquote hunits hfrom
    exact hplain (hacc.symm.trans hout)
  · rintro ⟨hargument, hplain⟩
    have hlength : s.quote < data.length := by
      have := hunits.le
      have := hunits.lt
      omega
    have hfrom : readQuotedFrom data (byteAt data s.quote) data.length (s.quote + 1) [] =
        some ([] ++ value, s.close + 1) := readQuotedFrom_units hunits (by omega) hplain
    have hliteral : readQuotedLiteral data s.quote = some (⟨value, s.quote⟩, s.close + 1) := by
      unfold readQuotedLiteral
      rw [hfrom]
      rfl
    refine ⟨hargument, ?_, _, hliteral⟩
    exact mem_stringsFrom (quote_mem_places hargument hlength) hquote.symm hliteral

theorem found_of_empty {s : Stretch} (hs : s ∈ stretches data) (hempty : s.close = s.quote + 1) :
    s.found data = none := by
  obtain ⟨-, hclosing⟩ := mem_stretchesFrom hs
  obtain ⟨value, hunits, hread⟩ := Units.of_closing hclosing
  unfold Stretch.found
  dsimp only
  rw [hread, hunits.eq_nil_iff.2 hempty]
  rfl

end Scan

/-- The MoonSec adapter answers in place of the scan. -/
def isDelegated (data : List UInt8) : Bool := family data == "MoonSec V3" && (extract data).isOk

theorem inspect_payloads (data : List UInt8) :
    (inspect data).payloads =
      if isDelegated data then [] else (stretches data).filterMap (Stretch.found data) := by
  unfold inspect isDelegated stretches
  rw [← scanFrom_eq]
  dsimp only
  by_cases hfamily : family data = "MoonSec V3"
  · rw [if_pos hfamily, hfamily]
    cases extract data with
    | ok payload => rfl
    | error error => rfl
  · rw [if_neg hfamily, beq_false_of_ne hfamily]
    rfl

/-- All payloads that `inspect` lists are genuine exactly when the MoonSec adapter answers or every
stretch of the scan that is not empty is the argument of `loadstring` and has plain escapes alone. -/
theorem payloads_genuine_iff (data : List UInt8) :
    (∀ f ∈ (inspect data).payloads, f.Genuine data) ↔ isDelegated data = true ∨
      ∀ s ∈ stretches data, s.close ≠ s.quote + 1 →
        isArgument data s.name s.quote = true ∧ ∀ n ∈ s.escapes, plainEscape n = true := by
  rw [inspect_payloads]
  by_cases hdelegated : isDelegated data = true
  · rw [if_pos hdelegated]
    exact iff_of_true nofun (.inl hdelegated)
  rw [if_neg hdelegated, or_iff_right hdelegated]
  constructor
  · intro h s hs hempty
    obtain ⟨f, hf, hiff⟩ := genuine_iff hs hempty
    exact hiff.1 (h f (List.mem_filterMap.2 ⟨s, hs, hf⟩))
  · intro h f hf
    obtain ⟨s, hs, hfound⟩ := List.mem_filterMap.1 hf
    have hempty : s.close ≠ s.quote + 1 := fun hempty => by
      rw [found_of_empty hs hempty] at hfound
      cases hfound
    obtain ⟨f', hf', hiff⟩ := genuine_iff hs hempty
    obtain rfl := Option.some.inj (hfound.symm.trans hf')
    exact hiff.2 (h s hs hempty)

/-- The argument `"\65"` is the letter `A`; the scan reports the two digits, which are the value of
no literal of the source. -/
theorem decimalEscape_not_genuine :
    let data := ascii "loadstring('\\65')"
    (inspect data).payloads = [⟨0, 11, [54, 53]⟩] ∧
      (stringsInSource data).map (·.value) = [[65]] ∧
      ¬∀ f ∈ (inspect data).payloads, f.Genuine data := by
  have hpayloads : (inspect (ascii "loadstring('\\65')")).payloads = [⟨0, 11, [54, 53]⟩] := by decide
  have hstrings : stringsInSource (ascii "loadstring('\\65')") = [⟨[65], 11⟩] := by decide
  refine ⟨hpayloads, by rw [hstrings]; rfl, fun h => ?_⟩
  obtain ⟨-, hliteral, -⟩ := h ⟨0, 11, [54, 53]⟩ (by rw [hpayloads]; exact List.mem_singleton_self _)
  rw [hstrings] at hliteral
  exact absurd hliteral (by decide)

end ByteVeil.Unpack
