import ByteVeil.LuaSyntax.Lexer

/-!
# Expressions of Lua 5.1

The parser is that of the language: an operand may begin with operators in front of it, and goes on
over the operators behind it that bind tighter than the place where it stands. Functions and table
constructors are not read.

1. Syntax and priorities.
2. The parser; it gets as much fuel as it needs.
3. One lemma for each way in which the parser goes on.
-/

namespace LuaSyntax

/-! ## Syntax -/

/-- Operators in front of an operand. -/
inductive UnaryOp
  | neg | not | len
  deriving DecidableEq

/-- Operators between operands. -/
inductive BinaryOp
  | or | and | lt | gt | le | ge | ne | eq | concat | add | sub | mul | div | mod | pow
  deriving DecidableEq

/-- Expressions; `e.name` is the same as `e["name"]`. -/
inductive Expr
  | nil
  | boolean (b : Bool)
  | varargs
  | number (text : List Char)
  | string (content : List Char)
  | name (text : List Char)
  | index (table key : Expr)
  | call (function : Expr) (arguments : List Expr)
  | methodCall (object : Expr) (name : List Char) (arguments : List Expr)
  | unary (op : UnaryOp) (e : Expr)
  | binary (op : BinaryOp) (lhs rhs : Expr)
  | paren (e : Expr)

/-- The priority of an operator behind its left operand. -/
def BinaryOp.left : BinaryOp → ℕ
  | or => 1
  | and => 2
  | lt | gt | le | ge | ne | eq => 3
  | concat => 5
  | add | sub => 6
  | mul | div | mod => 7
  | pow => 10

/-- The priority in front of its right operand. -/
def BinaryOp.right : BinaryOp → ℕ
  | concat => 4
  | pow => 9
  | op => op.left

/-- The priority behind an operator in front of its operand. -/
def unaryPriority : ℕ := 8

/-- The operator in front of an operand that a token is. -/
def unaryOp : Token → Option UnaryOp
  | .mark ['-'] => some .neg
  | .mark ['#'] => some .len
  | .word ['n', 'o', 't'] => some .not
  | _ => none

/-- The operator between operands that a token is. -/
def binaryOp : Token → Option BinaryOp
  | .word ['o', 'r'] => some .or
  | .word ['a', 'n', 'd'] => some .and
  | .mark ['<'] => some .lt
  | .mark ['>'] => some .gt
  | .mark ['<', '='] => some .le
  | .mark ['>', '='] => some .ge
  | .mark ['~', '='] => some .ne
  | .mark ['=', '='] => some .eq
  | .mark ['.', '.'] => some .concat
  | .mark ['+'] => some .add
  | .mark ['-'] => some .sub
  | .mark ['*'] => some .mul
  | .mark ['/'] => some .div
  | .mark ['%'] => some .mod
  | .mark ['^'] => some .pow
  | _ => none

/-- The expression that a token is by itself. -/
def literal : Token → Option Expr
  | .word ['n', 'i', 'l'] => some .nil
  | .word ['t', 'r', 'u', 'e'] => some (.boolean true)
  | .word ['f', 'a', 'l', 's', 'e'] => some (.boolean false)
  | .mark ['.', '.', '.'] => some .varargs
  | .number text => some (.number text)
  | .string content => some (.string content)
  | _ => none

/-! ## The parser -/

/-- The text behind a mark. -/
def behindMark (c : Char) : List Token → Option (List Token)
  | .mark [d] :: ts => if d = c then some ts else none
  | _ => none

mutual

/-- `subexpr`: an expression, up to the first operator that does not bind tighter than `limit`. -/
def expr : ℕ → ℕ → List Token → Option (Expr × List Token)
  | 0, _, _ => none
  | _ + 1, _, [] => none
  | n + 1, limit, t :: ts =>
    match unaryOp t with
    | some op => do
      let (e, rest) ← expr n unaryPriority ts
      operators n limit (.unary op e) rest
    | none => do
      let (e, rest) ← operand n t ts
      operators n limit e rest

/-- The operators behind an operand. -/
def operators : ℕ → ℕ → Expr → List Token → Option (Expr × List Token)
  | 0, _, _, _ => none
  | _ + 1, _, lhs, [] => some (lhs, [])
  | n + 1, limit, lhs, t :: ts =>
    match binaryOp t with
    | some op =>
      if limit < op.left then do
        let (rhs, rest) ← expr n op.right ts
        operators n limit (.binary op lhs rhs) rest
      else some (lhs, t :: ts)
    | none => some (lhs, t :: ts)

/-- `simpleexp`: an expression without operators. -/
def operand : ℕ → Token → List Token → Option (Expr × List Token)
  | 0, _, _ => none
  | n + 1, t, ts =>
    match literal t with
    | some e => some (e, ts)
    | none =>
      match t with
      | .name text => suffixes n (.name text) ts
      | .mark ['('] => do
        let (e, rest) ← expr n 0 ts
        let rest ← behindMark ')' rest
        suffixes n (.paren e) rest
      | _ => none

/-- `primaryexp`: fields, elements and calls of an expression. -/
def suffixes : ℕ → Expr → List Token → Option (Expr × List Token)
  | 0, _, _ => none
  | n + 1, e, .mark ['.'] :: .name field :: ts => suffixes n (.index e (.string field)) ts
  | n + 1, e, .mark ['['] :: ts => do
    let (key, rest) ← expr n 0 ts
    let rest ← behindMark ']' rest
    suffixes n (.index e key) rest
  | n + 1, e, .mark ['('] :: ts => do
    let (es, rest) ← arguments n ts
    suffixes n (.call e es) rest
  | n + 1, e, .string content :: ts => suffixes n (.call e [.string content]) ts
  | n + 1, e, .mark [':'] :: .name method :: .mark ['('] :: ts => do
    let (es, rest) ← arguments n ts
    suffixes n (.methodCall e method es) rest
  | _ + 1, _, .mark ['.'] :: _ => none
  | _ + 1, _, .mark [':'] :: _ => none
  | _ + 1, _, .mark ['{'] :: _ => none
  | _ + 1, e, ts => some (e, ts)

/-- The arguments of a call behind its opening parenthesis. -/
def arguments : ℕ → List Token → Option (List Expr × List Token)
  | 0, _ => none
  | n + 1, ts =>
    match behindMark ')' ts with
    | some rest => some ([], rest)
    | none => do
      let (es, rest) ← expressions n ts
      let rest ← behindMark ')' rest
      return (es, rest)

/-- `explist1`: expressions between commas. -/
def expressions : ℕ → List Token → Option (List Expr × List Token)
  | 0, _ => none
  | n + 1, ts => do
    let (e, rest) ← expr n 0 ts
    match behindMark ',' rest with
    | some rest => do
      let (es, rest) ← expressions n rest
      return (e :: es, rest)
    | none => return ([e], rest)

end

/-! ## Enough fuel -/

section Settles

variable {α β : Type}

/-- With enough fuel the parser returns `o`. -/
def Settles (f : ℕ → Option α) (o : Option α) : Prop := ∃ n, ∀ m, n ≤ m → f m = o

variable {f : ℕ → Option α} {g : ℕ → Option β} {o : Option α}

theorem Settles.unique {o' : Option α} (h : Settles f o) (h' : Settles f o') : o = o' := by
  obtain ⟨n, hn⟩ := h
  obtain ⟨n', hn'⟩ := h'
  rw [← hn (max n n') (le_max_left n n'), hn' (max n n') (le_max_right n n')]

theorem settles_const (o : Option α) : Settles (fun _ => o) o := ⟨0, fun _ _ => rfl⟩

/-- One unit of fuel is spent. -/
theorem Settles.succ {f' : ℕ → Option α} (h : Settles f' o) (hf : ∀ m, f (m + 1) = f' m) :
    Settles f o := by
  obtain ⟨n, hn⟩ := h
  refine ⟨n + 1, fun m hm => ?_⟩
  obtain ⟨k, rfl⟩ : ∃ k, m = k + 1 := ⟨m - 1, by omega⟩
  rw [hf, hn k (by omega)]

theorem Settles.bind {y : β} {k : ℕ → β → Option α} (h : Settles g (some y))
    (hk : Settles (fun n => k n y) o) : Settles (fun n => g n >>= k n) o := by
  obtain ⟨n, hn⟩ := h
  obtain ⟨n', hn'⟩ := hk
  refine ⟨max n n', fun m hm => ?_⟩
  dsimp only
  rw [hn m (by omega), Option.bind_eq_bind, Option.bind_some]
  exact hn' m (by omega)

theorem Settles.bind_none {k : ℕ → β → Option α} (h : Settles g none) :
    Settles (fun n => g n >>= k n) none := by
  obtain ⟨n, hn⟩ := h
  refine ⟨n, fun m hm => ?_⟩
  dsimp only
  rw [hn m hm]
  rfl

end Settles

/-- The text is read as the expression. -/
def Reads (text : List Char) (e : Expr) : Prop :=
  ∃ ts, Lexes text ts ∧ Settles (fun n => expr n 0 ts) (some (e, []))

theorem Reads.unique {text : List Char} {e e' : Expr} (h : Reads text e) (h' : Reads text e') :
    e = e' := by
  obtain ⟨ts, hlex, hread⟩ := h
  obtain ⟨ts', hlex', hread'⟩ := h'
  obtain rfl := hlex.unique hlex'
  exact (Prod.mk.inj (Option.some.inj (hread.unique hread'))).1

theorem Reads.ne_nil {text : List Char} {e : Expr} (h : Reads text e) : text ≠ [] := by
  rintro rfl
  obtain ⟨ts, hlex, hread⟩ := h
  obtain rfl := hlex.unique .nil
  have hnone : Settles (fun n => expr n 0 []) none := (settles_const none).succ fun m => by rw [expr]
  cases hread.unique hnone

/-! ## Steps of the parser -/

section Steps

variable {limit : ℕ} {t : Token} {ts rest : List Token} {e lhs rhs : Expr}
  {o : Option (Expr × List Token)}

attribute [local simp] expr operators operand suffixes arguments expressions

theorem settles_unary {op : UnaryOp} (hop : unaryOp t = some op)
    (he : Settles (fun n => expr n unaryPriority ts) (some (e, rest)))
    (ho : Settles (fun n => operators n limit (.unary op e) rest) o) :
    Settles (fun n => expr n limit (t :: ts)) o :=
  (he.bind ho).succ fun m => by rw [expr, hop]

theorem settles_unary_none {op : UnaryOp} (hop : unaryOp t = some op)
    (he : Settles (fun n => expr n unaryPriority ts) none) :
    Settles (fun n => expr n limit (t :: ts)) none :=
  he.bind_none.succ fun m => by rw [expr, hop]

theorem settles_operand (hop : unaryOp t = none)
    (he : Settles (fun n => operand n t ts) (some (e, rest)))
    (ho : Settles (fun n => operators n limit e rest) o) :
    Settles (fun n => expr n limit (t :: ts)) o :=
  (he.bind ho).succ fun m => by rw [expr, hop]

theorem settles_operand_none (hop : unaryOp t = none) (he : Settles (fun n => operand n t ts) none) :
    Settles (fun n => expr n limit (t :: ts)) none :=
  he.bind_none.succ fun m => by rw [expr, hop]

/-- No operator that binds tighter follows. -/
def Stops (limit : ℕ) (ts : List Token) : Prop :=
  ∀ t ∈ ts.head?, ∀ op, binaryOp t = some op → op.left ≤ limit

theorem settles_stop (h : Stops limit ts) :
    Settles (fun n => operators n limit e ts) (some (e, ts)) := by
  refine (settles_const _).succ fun m => ?_
  cases ts with
  | nil => rw [operators]
  | cons t ts =>
    rw [operators]
    cases hop : binaryOp t with
    | none => rfl
    | some op => exact if_neg (not_lt.2 (h t rfl op hop))

theorem settles_step {op : BinaryOp} (hop : binaryOp t = some op) (hlimit : limit < op.left)
    (hrhs : Settles (fun n => expr n op.right ts) (some (rhs, rest)))
    (ho : Settles (fun n => operators n limit (.binary op lhs rhs) rest) o) :
    Settles (fun n => operators n limit lhs (t :: ts)) o :=
  (hrhs.bind ho).succ fun m => by rw [operators, hop]; exact if_pos hlimit

theorem settles_literal (h : literal t = some e) :
    Settles (fun n => operand n t ts) (some (e, ts)) :=
  (settles_const _).succ fun m => by unfold operand; rw [h]

theorem settles_name {text : List Char} (h : Settles (fun n => suffixes n (.name text) ts) o) :
    Settles (fun n => operand n (.name text) ts) o :=
  h.succ fun m => by rw [operand]; rfl

theorem settles_paren (he : Settles (fun n => expr n 0 ts) (some (e, .mark [')'] :: rest)))
    (ho : Settles (fun n => suffixes n (.paren e) rest) o) :
    Settles (fun n => operand n (.mark ['(']) ts) o :=
  (he.bind ho).succ fun m => by rw [operand]; rfl

/-- The tokens with which an operand goes on. -/
def goesOn : Token → Bool
  | .mark ['.'] | .mark ['['] | .mark ['('] | .mark [':'] | .mark ['{'] | .string _ => true
  | _ => false

theorem settles_end (h : ∀ t ∈ ts.head?, goesOn t = false) :
    Settles (fun n => suffixes n e ts) (some (e, ts)) := by
  refine (settles_const _).succ fun m => ?_
  unfold suffixes
  split <;> first
    | rfl
    | exact absurd (h _ rfl) (by simp [goesOn])
    | omega

theorem settles_field {field : List Char}
    (h : Settles (fun n => suffixes n (.index e (.string field)) ts) o) :
    Settles (fun n => suffixes n e (.mark ['.'] :: .name field :: ts)) o :=
  h.succ fun m => by rw [suffixes]

theorem settles_index {key : Expr}
    (hkey : Settles (fun n => expr n 0 ts) (some (key, .mark [']'] :: rest)))
    (ho : Settles (fun n => suffixes n (.index e key) rest) o) :
    Settles (fun n => suffixes n e (.mark ['['] :: ts)) o :=
  (hkey.bind ho).succ fun m => by rw [suffixes]

theorem settles_call {es : List Expr} (hes : Settles (fun n => arguments n ts) (some (es, rest)))
    (ho : Settles (fun n => suffixes n (.call e es) rest) o) :
    Settles (fun n => suffixes n e (.mark ['('] :: ts)) o :=
  (hes.bind ho).succ fun m => by rw [suffixes]

theorem settles_call_none (hes : Settles (fun n => arguments n ts) none) :
    Settles (fun n => suffixes n e (.mark ['('] :: ts)) none :=
  hes.bind_none.succ fun m => by rw [suffixes]

theorem settles_method {method : List Char} {es : List Expr}
    (hes : Settles (fun n => arguments n ts) (some (es, rest)))
    (ho : Settles (fun n => suffixes n (.methodCall e method es) rest) o) :
    Settles (fun n => suffixes n e (.mark [':'] :: .name method :: .mark ['('] :: ts)) o :=
  (hes.bind ho).succ fun m => by rw [suffixes]

theorem settles_noArguments : Settles (fun n => arguments n (.mark [')'] :: ts)) (some ([], ts)) :=
  (settles_const _).succ fun m => by rw [arguments]; rfl

theorem settles_arguments {es : List Expr} (h : behindMark ')' ts = none)
    (hes : Settles (fun n => expressions n ts) (some (es, .mark [')'] :: rest))) :
    Settles (fun n => arguments n ts) (some (es, rest)) :=
  (hes.bind (settles_const (some (es, rest)))).succ fun m => by rw [arguments, h]

/-- The expressions behind the first one. -/
theorem expressions_succ (n : ℕ) (ts : List Token) : expressions (n + 1) ts =
    expr n 0 ts >>= fun found => match behindMark ',' found.2 with
      | some rest => do
        let (es, rest) ← expressions n rest
        return (found.1 :: es, rest)
      | none => return ([found.1], found.2) := by
  rw [expressions]

theorem settles_expressions_last (he : Settles (fun n => expr n 0 ts) (some (e, rest)))
    (h : behindMark ',' rest = none) : Settles (fun n => expressions n ts) (some ([e], rest)) := by
  refine (he.bind (o := some ([e], rest)) ?_).succ fun m => expressions_succ m ts
  dsimp only
  rw [h]
  exact settles_const _

theorem settles_expressions_cons {es : List Expr} {rest' : List Token}
    (he : Settles (fun n => expr n 0 ts) (some (e, .mark [','] :: rest)))
    (hes : Settles (fun n => expressions n rest) (some (es, rest'))) :
    Settles (fun n => expressions n ts) (some (e :: es, rest')) := by
  refine (he.bind ?_).succ fun m => expressions_succ m ts
  exact hes.bind (settles_const (some (e :: es, rest')))

end Steps

end LuaSyntax
