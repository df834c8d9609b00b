import ByteVeil.Fallible.Together
import ByteVeil.RegisterDecompile.Jumps

/-!
# The same values on both sides

The machine and the emitted function on registers of their own. The machine moves the end of an open
list with open lists only, the emitted function with every register above it; everything else is
alike.
-/

namespace ByteVeil.RegisterDecompile

open ByteVeil.Luau ByteVeil.IR Fallible

/-! ## Operations on the world -/

section Outside

variable {W α β : Type}

/-- The computation neither reads nor changes the registers and the end of an open list. -/
def Outside (x : Exec W α) : Prop := ∀ (m : Machine W) registers top,
  x.run { m with registers := registers, top := top } =
    (x.run m).map fun y => (y.1, { y.2 with registers := registers, top := top })

/-- No closure shares registers with the function that runs. -/
structure Private (rt : Runtime W) : Prop where
  arith : ∀ op x y, Outside (rt.arith op x y)
  minus : ∀ x, Outside (rt.minus x)
  length : ∀ x, Outside (rt.length x)
  concat : ∀ values, Outside (rt.concat values)
  equal : ∀ kind m n, Outside (rt.equal kind m n)
  less : ∀ x y, Outside (rt.less x y)
  lessEqual : ∀ x y, Outside (rt.lessEqual x y)
  index : ∀ x y, Outside (rt.index x y)
  setIndex : ∀ x y v, Outside (rt.setIndex x y v)
  upvalue : ∀ n, Outside (rt.upvalue n)
  setUpvalue : ∀ n v, Outside (rt.setUpvalue n v)
  newTable : ∀ fields, Outside (rt.newTable fields)
  call : ∀ v arguments, Outside (rt.call v arguments)

theorem Outside.kept {x : Exec W α} (h : Outside x) {m m₁ : Machine W} {a : α}
    (hrun : x.run m = some (a, m₁)) : m₁.registers = m.registers ∧ m₁.top = m.top := by
  have hself := h m m.registers m.top
  rw [show ({ m with registers := m.registers, top := m.top } : Machine W) = m from rfl, hrun] at hself
  have heq : m₁ = { m₁ with registers := m.registers, top := m.top } :=
    congrArg Prod.snd (Option.some.inj hself)
  exact ⟨by rw [heq], by rw [heq]⟩

/-! ## Machines that are alike -/

/-- The same registers and the same world. -/
def Alike (m m' : Machine W) : Prop := m'.registers = m.registers ∧ m'.world = m.world

theorem Alike.refl (m : Machine W) : Alike m m := ⟨rfl, rfl⟩

theorem Alike.eq {m m' : Machine W} (h : Alike m m') : m' = { m with top := m'.top } := by
  obtain ⟨registers, top, world⟩ := m'
  obtain ⟨rfl, rfl⟩ := h
  rfl

/-- The computation does not depend on the end of an open list. -/
def Looks (x : Exec W α) : Prop := Together Alike x x (Same Alike)

theorem looks_pure (a : α) : Looks (pure a : Exec W α) := together_pure fun _ _ h => ⟨rfl, h⟩

theorem looks_raise : Looks (raise : Exec W α) := together_fail (fun _ => rfl) fun _ => rfl

theorem Looks.bind {x : Exec W α} {f : α → Exec W β} (hx : Looks x) (hf : ∀ a, Looks (f a)) :
    Looks (x >>= f) :=
  Together.bind_same hx hf

theorem looks_ite {c : Prop} [Decidable c] {x y : Exec W α} (hx : Looks x) (hy : Looks y) :
    Looks (if c then x else y) := by
  split_ifs
  · exact hx
  · exact hy

theorem looks_require (b : Bool) : Looks (require b : Exec W Unit) := by
  unfold require
  exact looks_ite (looks_pure ()) looks_raise

theorem Looks.mapM {f : β → Exec W α} {l : List β} (h : ∀ b ∈ l, Looks (f b)) : Looks (l.mapM f) :=
  Together.mapM h

/-- What is known of the registers stays known. -/
theorem Outside.together {x : Exec W α} (h : Outside x) (P : (ℕ → Value) → Prop) :
    Together (fun m m' => Alike m m' ∧ P m.registers) x x
      (Same fun m m' => Alike m m' ∧ P m.registers) := by
  rintro m m' ⟨halike, hP⟩
  have hrun := h m m.registers m'.top
  rw [halike.eq]
  cases hx : x.run m with
  | none =>
    rw [hx] at hrun
    rw [show x.run { m with top := m'.top } = none from hrun]
    exact .none
  | some y =>
    have hkept := (h.kept hx).1
    rw [hx] at hrun
    rw [show x.run { m with top := m'.top } = _ from hrun]
    refine .some ⟨rfl, ⟨hkept.symm, rfl⟩, ?_⟩
    rw [hkept]
    exact hP

theorem Outside.looks {x : Exec W α} (h : Outside x) : Looks x :=
  (h.together fun _ => True).mono (fun _ _ halike => ⟨halike, trivial⟩)
    fun _ _ _ _ hsame => ⟨hsame.1, hsame.2.1⟩

end Outside

/-! ## Operators and expressions -/

section Expressions

variable {W : Type} {rt : Runtime W}

mutual

theorem looks_literal (hrt : Private rt) : ∀ l : Literal, Looks (l.eval rt)
  | .nil => looks_pure _
  | .boolean _ => looks_pure _
  | .number _ => looks_pure _
  | .integer _ => looks_pure _
  | .string _ => looks_pure _
  | .table fields => (looks_fields hrt fields).bind fun values => (hrt.newTable values).looks

theorem looks_fields (hrt : Private rt) : ∀ fields : List (Literal × Literal), Looks (Literal.evalFields rt fields)
  | [] => looks_pure _
  | (key, value) :: fields =>
    (looks_literal hrt key).bind fun _ => (looks_literal hrt value).bind fun _ =>
      (looks_require _).bind fun _ => (looks_fields hrt fields).bind fun _ => looks_pure _

end

end Expressions

end ByteVeil.RegisterDecompile
