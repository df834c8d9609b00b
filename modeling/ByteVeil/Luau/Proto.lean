import ByteVeil.Luau.Opcode

/-!
# Luau prototypes

The part of the loaded `Proto` that the tool reads: code words, constants, child prototypes and the
register and parameter counts.
-/

namespace ByteVeil.Luau

/-- A constant (`TValue` of `Proto::k`). Numbers are kept as their 64-bit pattern, strings as bytes,
and the prototype of a closure constant as the identity of that prototype. -/
inductive Constant
  | nil
  | boolean (b : Bool)
  | number (bits : BitVec 64)
  | integer (l : ℤ)
  | vector (lanes : List (BitVec 32))
  | string (bytes : List UInt8)
  | table (array : List Constant) (nodes : List (Constant × Constant))
  | function (target : Option ℕ)
  | other
  deriving Inhabited

/-- A loaded prototype. `ident` stands for its address: two occurrences of one `Proto*` in the tree
carry the same number. -/
structure Proto where
  ident : ℕ
  nups : ℕ
  numparams : ℕ
  maxstacksize : ℕ
  code : List UInt32
  k : List Constant
  p : List Proto
  deriving Inhabited

namespace Proto

/-- `p->code[pc]`. -/
def word (p : Proto) (pc : ℕ) : UInt32 := p.code.getD pc 0

/-- `p->sizecode`. -/
def sizecode (p : Proto) : ℕ := p.code.length

/-- `p->sizek`. -/
def sizek (p : Proto) : ℕ := p.k.length

/-- `p->sizep`. -/
def sizep (p : Proto) : ℕ := p.p.length

mutual

/-- The prototype and everything nested in it. -/
def tree : Proto → List Proto
  | ⟨ident, nups, numparams, maxstacksize, code, k, children⟩ =>
    ⟨ident, nups, numparams, maxstacksize, code, k, children⟩ :: trees children

/-- The trees of several prototypes. -/
def trees : List Proto → List Proto
  | [] => []
  | p :: ps => tree p ++ trees ps

end

theorem tree_eq (p : Proto) : p.tree = p :: trees p.p := by
  cases p
  rw [tree]

theorem mem_trees {ps : List Proto} {q : Proto} : q ∈ trees ps ↔ ∃ p ∈ ps, q ∈ p.tree := by
  induction ps with
  | nil => simp [trees]
  | cons p ps ih => simp [trees, ih]

end Proto

end ByteVeil.Luau
