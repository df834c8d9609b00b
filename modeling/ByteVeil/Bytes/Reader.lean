import ByteVeil.Fallible.Except
import Mathlib.Data.List.GetD
import Mathlib.Data.Nat.Basic
import Mathlib.Tactic.Common

/-!
# Reading a string of bytes

A reader walks forward through the bytes. It may pass over a stretch without looking at it and leave
a mark for it. `Blind` says that the outcome does not depend on the marked bytes; it holds of the
primitive readers and of everything composed from them.
-/

namespace Bytes

open Fallible

/-- A position and the marks left so far. -/
structure Cursor (σ : Type) where
  pos : ℕ := 0
  marks : List σ := []

/-- Reading steps with errors. -/
abbrev Read (σ α : Type) := ReaderT (List UInt8) (StateT (Cursor σ) (Except String)) α

section Primitives

variable {σ : Type}

/-- The position. -/
def offset : Read σ ℕ := do return (← get).pos

/-- How many bytes are left. -/
def remaining : Read σ ℕ := do
  let bytes ← read
  return bytes.length - (← get).pos

/-- One byte. -/
def u8 : Read σ ℕ := do
  let bytes ← read
  let c ← get
  if bytes.length < c.pos + 1 then throw "truncated byte"
  else
    set { c with pos := c.pos + 1 }
    return (bytes.getD c.pos 0).toNat

/-- Four bytes, the least significant first. -/
def u32 : Read σ ℕ := do
  let bytes ← read
  let c ← get
  if bytes.length < c.pos + 4 then throw "truncated 32-bit value"
  else
    set { c with pos := c.pos + 4 }
    return (bytes.getD c.pos 0).toNat + (bytes.getD (c.pos + 1) 0).toNat * 256 +
      (bytes.getD (c.pos + 2) 0).toNat * 65536 + (bytes.getD (c.pos + 3) 0).toNat * 16777216

/-- Passes over bytes. -/
def skip (n : ℕ) : Read σ Unit := do
  let bytes ← read
  let c ← get
  if bytes.length < c.pos + n then throw "truncated field"
  else set { c with pos := c.pos + n }

/-- Passes over bytes and leaves a mark for them. -/
def pass (mark : ℕ → σ) (n : ℕ) : Read σ Unit := do
  let bytes ← read
  let c ← get
  if bytes.length < c.pos + n then throw "truncated field"
  else set { c with pos := c.pos + n, marks := c.marks ++ [mark c.pos] }

/-- Fails with the text when `bad` holds. -/
def failIf (bad : Prop) [Decidable bad] (error : String) : Read σ Unit :=
  if bad then throw error else pure ()

/-- A step a number of times. -/
def times : ℕ → Read σ Unit → Read σ Unit
  | 0, _ => pure ()
  | n + 1, step => do
    step
    times n step

end Primitives

/-! ## Looking past marks -/

section Blind

variable {σ α β : Type} (first last : σ → ℕ)

/-- A reader moved forward and left the marks `new`, one behind the other. -/
structure Advances (bytes : List UInt8) (c c' : Cursor σ) (new : List σ) : Prop where
  marks : c'.marks = c.marks ++ new
  le : c.pos ≤ c'.pos
  bound : c.pos ≤ bytes.length → c'.pos ≤ bytes.length
  inside : ∀ m ∈ new, c.pos ≤ first m ∧ first m ≤ last m ∧ last m ≤ c'.pos
  ordered : new.Pairwise fun m n => last m ≤ first n

/-- Two strings differ between two positions only under marks. -/
structure AgreeOutside (bytes bytes' : List UInt8) (start stop : ℕ) (new : List σ) : Prop where
  length_eq : bytes'.length = bytes.length
  getD_eq : ∀ k, start ≤ k → k < stop → (∀ m ∈ new, ¬(first m ≤ k ∧ k < last m)) →
    bytes'.getD k 0 = bytes.getD k 0

/-- The outcome does not depend on the marked bytes. -/
def Blind (x : Read σ α) : Prop :=
  ∀ bytes c a c', x bytes c = .ok (a, c') → ∃ new, Advances first last bytes c c' new ∧
    ∀ bytes', AgreeOutside first last bytes bytes' c.pos c'.pos new → x bytes' c = .ok (a, c')

variable {first last}

theorem read_bind_ok {x : Read σ α} {f : α → Read σ β} {bytes : List UInt8} {c c' : Cursor σ}
    {b : β} : (x >>= f) bytes c = .ok (b, c') ↔
      ∃ a c₁, x bytes c = .ok (a, c₁) ∧ f a bytes c₁ = .ok (b, c') := by
  show (x bytes c >>= fun s => f s.1 bytes s.2) = _ ↔ _
  rw [except_bind_ok]
  exact Prod.exists

/-- A reader that is blind whatever the marks stand for leaves none. -/
theorem advances_of_blind {x : Read σ α} (hx : ∀ first last : σ → ℕ, Blind first last x)
    {bytes : List UInt8} {c c' : Cursor σ} {a : α} (h : x bytes c = .ok (a, c')) :
    c'.marks = c.marks ∧ c.pos ≤ c'.pos ∧ (c.pos ≤ bytes.length → c'.pos ≤ bytes.length) := by
  obtain ⟨new, hadv, -⟩ := hx (fun _ => 1) (fun _ => 0) bytes c a c' h
  cases new with
  | nil => exact ⟨hadv.marks.trans (List.append_nil _), hadv.le, hadv.bound⟩
  | cons m new => exact absurd (hadv.inside m List.mem_cons_self).2.1 (by decide)

theorem blind_pure (a : α) : Blind first last (pure a) := by
  rintro bytes c b c' h
  obtain ⟨rfl, rfl⟩ := Prod.mk.inj (Except.ok.inj h)
  refine ⟨[], ⟨(List.append_nil _).symm, le_rfl, fun h => h, by simp, .nil⟩, fun bytes' _ => rfl⟩

theorem blind_throw (error : String) : Blind first last (throw error : Read σ α) := by
  rintro bytes c b c' h
  cases h

theorem Blind.bind {x : Read σ α} {f : α → Read σ β} (hx : Blind first last x)
    (hf : ∀ a, Blind first last (f a)) : Blind first last (x >>= f) := by
  rintro bytes c b c' h
  obtain ⟨a, c₁, ha, hb⟩ := read_bind_ok.1 h
  obtain ⟨new₁, h₁, hagree₁⟩ := hx bytes c a c₁ ha
  obtain ⟨new₂, h₂, hagree₂⟩ := hf a bytes c₁ b c' hb
  refine ⟨new₁ ++ new₂, ⟨?_, le_trans h₁.le h₂.le, fun h => h₂.bound (h₁.bound h), ?_, ?_⟩,
    fun bytes' hagree => ?_⟩
  · rw [h₂.marks, h₁.marks, List.append_assoc]
  · refine List.forall_mem_append.2 ⟨fun m hm => ?_, fun m hm => ?_⟩
    · obtain ⟨hle, hinner, hstop⟩ := h₁.inside m hm
      exact ⟨hle, hinner, le_trans hstop h₂.le⟩
    · obtain ⟨hle, hinner, hstop⟩ := h₂.inside m hm
      exact ⟨le_trans h₁.le hle, hinner, hstop⟩
  · exact List.pairwise_append.2 ⟨h₁.ordered, h₂.ordered, fun m hm n hn =>
      le_trans (h₁.inside m hm).2.2 (h₂.inside n hn).1⟩
  · -- the marks of the other part lie on the other side
    refine read_bind_ok.2 ⟨a, c₁, hagree₁ bytes' ⟨hagree.length_eq, fun k hk hlt hout => ?_⟩,
      hagree₂ bytes' ⟨hagree.length_eq, fun k hk hlt hout => ?_⟩⟩
    · refine hagree.getD_eq k hk (lt_of_lt_of_le hlt h₂.le) (List.forall_mem_append.2 ⟨hout, ?_⟩)
      rintro m hm ⟨hle, -⟩
      have := (h₂.inside m hm).1
      omega
    · refine hagree.getD_eq k (le_trans h₁.le hk) hlt (List.forall_mem_append.2 ⟨?_, hout⟩)
      rintro m hm ⟨-, hlast⟩
      have := (h₁.inside m hm).2.2
      omega

theorem blind_ite {bad : Prop} [Decidable bad] {x y : Read σ α} (hx : Blind first last x)
    (hy : Blind first last y) : Blind first last (if bad then x else y) := by
  split_ifs
  · exact hx
  · exact hy

theorem blind_failIf (bad : Prop) [Decidable bad] (error : String) :
    Blind first last (failIf bad error) :=
  blind_ite (blind_throw error) (blind_pure ())

theorem blind_times {step : Read σ Unit} (h : Blind first last step) (n : ℕ) :
    Blind first last (times n step) := by
  induction n with
  | zero => exact blind_pure ()
  | succ n ih => exact h.bind fun _ => ih

/-- A step forward that looks at the bytes it passes. -/
theorem blind_of_eq {x : Read σ α} (n : ℕ) (value : List UInt8 → ℕ → α)
    (hx : ∀ bytes c a c', x bytes c = .ok (a, c') ↔ c.pos + n ≤ bytes.length ∧
      c' = { c with pos := c.pos + n } ∧ a = value bytes c.pos)
    (hvalue : ∀ bytes bytes' pos, (∀ k, pos ≤ k → k < pos + n → bytes'.getD k 0 = bytes.getD k 0) →
      value bytes' pos = value bytes pos) : Blind first last x := by
  rintro bytes c a c' h
  obtain ⟨hlen, rfl, rfl⟩ := (hx bytes c a c').1 h
  refine ⟨[], ⟨(List.append_nil _).symm, Nat.le_add_right _ n, fun _ => hlen, by simp, .nil⟩,
    fun bytes' hagree => (hx ..).2 ⟨by rw [hagree.length_eq]; exact hlen, rfl, ?_⟩⟩
  exact (hvalue bytes bytes' c.pos fun k hk hlt => hagree.getD_eq k hk hlt (by simp)).symm

theorem blind_offset : Blind first last (offset : Read σ ℕ) := by
  rintro bytes c a c' h
  obtain ⟨rfl, rfl⟩ := Prod.mk.inj (Except.ok.inj h)
  exact ⟨[], ⟨(List.append_nil _).symm, le_rfl, fun h => h, by simp, .nil⟩, fun bytes' _ => rfl⟩

theorem blind_remaining : Blind first last (remaining : Read σ ℕ) := by
  rintro bytes c a c' h
  obtain ⟨rfl, rfl⟩ := Prod.mk.inj (Except.ok.inj h)
  refine ⟨[], ⟨(List.append_nil _).symm, le_rfl, fun h => h, by simp, .nil⟩, fun bytes' hagree => ?_⟩
  show Except.ok (bytes'.length - c.pos, c) = _
  rw [hagree.length_eq]

theorem u8_ok {bytes : List UInt8} {c c' : Cursor σ} {a : ℕ} : u8 bytes c = .ok (a, c') ↔
    c.pos + 1 ≤ bytes.length ∧ c' = { c with pos := c.pos + 1 } ∧
      a = (bytes.getD c.pos 0).toNat := by
  show (if bytes.length < c.pos + 1 then (throw "truncated byte" : Read σ ℕ) else _) bytes c = _ ↔ _
  split_ifs with hlen
  · exact iff_of_false (fun h => by cases h) fun h => by omega
  · constructor
    · intro h
      obtain ⟨rfl, rfl⟩ := Prod.mk.inj (Except.ok.inj h)
      exact ⟨by omega, rfl, rfl⟩
    · rintro ⟨-, rfl, rfl⟩
      rfl

theorem blind_u8 : Blind first last (u8 : Read σ ℕ) :=
  blind_of_eq 1 (fun bytes pos => (bytes.getD pos 0).toNat) (fun _ _ _ _ => u8_ok)
    fun bytes bytes' pos h => by rw [h pos le_rfl (Nat.lt_succ_self pos)]

theorem u32_ok {bytes : List UInt8} {c c' : Cursor σ} {a : ℕ} : u32 bytes c = .ok (a, c') ↔
    c.pos + 4 ≤ bytes.length ∧ c' = { c with pos := c.pos + 4 } ∧
      a = (bytes.getD c.pos 0).toNat + (bytes.getD (c.pos + 1) 0).toNat * 256 +
        (bytes.getD (c.pos + 2) 0).toNat * 65536 +
        (bytes.getD (c.pos + 3) 0).toNat * 16777216 := by
  show (if bytes.length < c.pos + 4 then (throw "truncated 32-bit value" : Read σ ℕ) else _) bytes c =
    _ ↔ _
  split_ifs with hlen
  · exact iff_of_false (fun h => by cases h) fun h => by omega
  · constructor
    · intro h
      obtain ⟨rfl, rfl⟩ := Prod.mk.inj (Except.ok.inj h)
      exact ⟨by omega, rfl, rfl⟩
    · rintro ⟨-, rfl, rfl⟩
      rfl

theorem blind_u32 : Blind first last (u32 : Read σ ℕ) :=
  blind_of_eq 4 (fun bytes pos => (bytes.getD pos 0).toNat +
      (bytes.getD (pos + 1) 0).toNat * 256 + (bytes.getD (pos + 2) 0).toNat * 65536 +
      (bytes.getD (pos + 3) 0).toNat * 16777216) (fun _ _ _ _ => u32_ok)
    fun bytes bytes' pos h => by
      rw [h pos (by omega) (by omega), h (pos + 1) (by omega) (by omega),
        h (pos + 2) (by omega) (by omega), h (pos + 3) (by omega) (by omega)]

theorem skip_ok {n : ℕ} {bytes : List UInt8} {c c' : Cursor σ} {a : Unit} :
    skip n bytes c = .ok (a, c') ↔
      c.pos + n ≤ bytes.length ∧ c' = { c with pos := c.pos + n } ∧ a = () := by
  show (if bytes.length < c.pos + n then (throw "truncated field" : Read σ Unit) else _) bytes c =
    _ ↔ _
  split_ifs with hlen
  · exact iff_of_false (fun h => by cases h) fun h => by omega
  · constructor
    · intro h
      obtain ⟨rfl, rfl⟩ := Prod.mk.inj (Except.ok.inj h)
      exact ⟨by omega, rfl, rfl⟩
    · rintro ⟨-, rfl, -⟩
      rfl

theorem blind_skip (n : ℕ) : Blind first last (skip n : Read σ Unit) :=
  blind_of_eq n (fun _ _ => ()) (fun _ _ _ _ => skip_ok) fun _ _ _ _ => rfl

theorem pass_ok {mark : ℕ → σ} {n : ℕ} {bytes : List UInt8} {c c' : Cursor σ} {a : Unit} :
    pass mark n bytes c = .ok (a, c') ↔ c.pos + n ≤ bytes.length ∧
      c' = { c with pos := c.pos + n, marks := c.marks ++ [mark c.pos] } := by
  show (if bytes.length < c.pos + n then (throw "truncated field" : Read σ Unit) else _) bytes c =
    _ ↔ _
  split_ifs with hlen
  · exact iff_of_false (fun h => by cases h) fun h => by omega
  · constructor
    · intro h
      obtain ⟨-, rfl⟩ := Prod.mk.inj (Except.ok.inj h)
      exact ⟨by omega, rfl⟩
    · rintro ⟨-, rfl⟩
      rfl

theorem blind_pass {mark : ℕ → σ} {n : ℕ} (hfirst : ∀ pos, first (mark pos) = pos)
    (hlast : ∀ pos, last (mark pos) = pos + n) : Blind first last (pass mark n) := by
  rintro bytes c a c' h
  obtain ⟨hlen, rfl⟩ := pass_ok.1 h
  refine ⟨[mark c.pos], ⟨rfl, Nat.le_add_right _ n, fun _ => hlen, ?_, List.pairwise_singleton ..⟩,
    fun bytes' hagree => pass_ok.2 ⟨by rw [hagree.length_eq]; exact hlen, rfl⟩⟩
  rw [List.forall_mem_singleton, hfirst, hlast]
  exact ⟨le_rfl, Nat.le_add_right _ n, le_rfl⟩

end Blind

end Bytes
