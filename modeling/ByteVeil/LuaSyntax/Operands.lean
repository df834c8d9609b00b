import ByteVeil.LuaSyntax.Grammar

/-!
# Operands and what is built from them

Tokens that the parser reads as one expression whatever stands behind them, as long as it does not
go on there.

1. A prefix goes on with suffixes; an operand goes on with operators that bind weakly enough; a
   closed expression does not go on.
2. Fields, elements and calls of a prefix are prefixes, and so is a closed expression in parentheses.
3. An operator between operands, and a sign in front of a power.
4. Lists of closed expressions.
5. A literal is no prefix: with a suffix behind it, neither it nor a list that it ends is read.
-/

namespace LuaSyntax

variable {ts us : List Token} {e e' : Expr}

/-! ## Kinds of token lists -/

/-- No suffix follows. -/
def NoSuffix (rest : List Token) : Prop := ∀ t ∈ rest.head?, goesOn t = false

/-- Neither a suffix nor an operator follows. -/
structure Ends (rest : List Token) : Prop where
  suffix : NoSuffix rest
  operator : ∀ t ∈ rest.head?, binaryOp t = none

/-- The tokens of an expression that goes on with the suffixes behind it. -/
def IsPrefix (ts : List Token) (e : Expr) : Prop :=
  ∃ t us, ts = t :: us ∧ unaryOp t = none ∧ ∀ rest o, Settles (fun n => suffixes n e rest) o →
    Settles (fun n => operand n t (us ++ rest)) o

/-- The tokens of an operand of all operators of priority up to `bound`. -/
def IsOperand (bound : ℕ) (ts : List Token) (e : Expr) : Prop :=
  ∀ limit rest o, NoSuffix rest → Stops bound rest →
    Settles (fun n => operators n limit e rest) o → Settles (fun n => expr n limit (ts ++ rest)) o

/-- The tokens of an expression in front of something that does not go on. -/
def IsClosed (ts : List Token) (e : Expr) : Prop :=
  ∀ rest, Ends rest → Settles (fun n => expr n 0 (ts ++ rest)) (some (e, rest))

/-- The priority of the tightest operator. -/
def tightest : ℕ := BinaryOp.left .pow

theorem stops_tightest (rest : List Token) : Stops tightest rest := by
  intro t _ op _
  cases op <;> decide

theorem Ends.stops {rest : List Token} (h : Ends rest) (limit : ℕ) : Stops limit rest := by
  intro t ht op hop
  rw [h.operator t ht] at hop
  cases hop

theorem ends_nil : Ends [] := ⟨by simp [NoSuffix], by simp⟩

theorem ends_mark {c : Char} (h : c = ']' ∨ c = ')' ∨ c = ',') (rest : List Token) :
    Ends (.mark [c] :: rest) := by
  refine ⟨fun t ht => ?_, fun t ht => ?_⟩
  all_goals
    obtain rfl := Option.some.inj ht
    rcases h with rfl | rfl | rfl <;> rfl

theorem noSuffix_of_binaryOp {t : Token} {op : BinaryOp} (h : binaryOp t = some op)
    (rest : List Token) : NoSuffix (t :: rest) := by
  intro u hu
  obtain rfl := Option.some.inj hu
  unfold binaryOp at h
  split at h <;> first
    | rfl
    | cases h

theorem IsOperand.mono {bound bound' : ℕ} (h : IsOperand bound ts e) (hle : bound' ≤ bound) :
    IsOperand bound' ts e :=
  fun limit rest o hsuffix hstops ho =>
    h limit rest o hsuffix (fun t ht op hop => (hstops t ht op hop).trans hle) ho

theorem IsOperand.closed {bound : ℕ} (h : IsOperand bound ts e) : IsClosed ts e :=
  fun rest hrest => h 0 rest _ hrest.suffix (hrest.stops bound) (settles_stop (hrest.stops 0))

theorem IsPrefix.operand (h : IsPrefix ts e) : IsOperand tightest ts e := by
  obtain ⟨t, us, rfl, hop, hgo⟩ := h
  intro limit rest o hsuffix _ ho
  exact settles_operand hop (hgo rest _ (settles_end hsuffix)) ho

theorem IsPrefix.closed (h : IsPrefix ts e) : IsClosed ts e := h.operand.closed

theorem unaryOp_of_literal {t : Token} (h : literal t = some e) : unaryOp t = none := by
  unfold literal at h
  split at h <;> first
    | rfl
    | cases h

theorem isOperand_literal {t : Token} (h : literal t = some e) : IsOperand tightest [t] e :=
  fun _ _ _ _ _ ho => settles_operand (unaryOp_of_literal h) (settles_literal h) ho

/-- An operator in front of an operand. -/
theorem IsOperand.unary {t : Token} {op : UnaryOp} (h : IsOperand tightest ts e)
    (hop : unaryOp t = some op) : IsOperand unaryPriority (t :: ts) (.unary op e) :=
  fun _ rest _ hsuffix hstops ho => settles_unary hop
    (h unaryPriority rest _ hsuffix (stops_tightest rest) (settles_stop hstops)) ho

/-! ## Prefixes -/

theorem isPrefix_name (text : List Char) : IsPrefix [.name text] (.name text) :=
  ⟨.name text, [], rfl, rfl, fun _ _ h => settles_name h⟩

theorem isPrefix_paren (h : IsClosed ts e) :
    IsPrefix (.mark ['('] :: (ts ++ [.mark [')']])) (.paren e) := by
  refine ⟨_, _, rfl, rfl, fun rest o ho => ?_⟩
  rw [List.append_assoc]
  exact settles_paren (h _ (ends_mark (Or.inr (Or.inl rfl)) rest)) ho

theorem IsPrefix.field (h : IsPrefix ts e) (name : List Char) :
    IsPrefix (ts ++ [.mark ['.'], .name name]) (.index e (.string name)) := by
  obtain ⟨t, us, rfl, hop, hgo⟩ := h
  refine ⟨t, us ++ [.mark ['.'], .name name], by simp, hop, fun rest o ho => ?_⟩
  rw [List.append_assoc]
  exact hgo _ _ (settles_field ho)

theorem IsPrefix.index (h : IsPrefix ts e) (hkey : IsClosed us e') :
    IsPrefix (ts ++ .mark ['['] :: (us ++ [.mark [']']])) (.index e e') := by
  obtain ⟨t, vs, rfl, hop, hgo⟩ := h
  refine ⟨t, vs ++ .mark ['['] :: (us ++ [.mark [']']]), by simp, hop, fun rest o ho => ?_⟩
  rw [List.append_assoc, List.cons_append, List.append_assoc]
  exact hgo _ _ (settles_index (hkey _ (ends_mark (Or.inl rfl) rest)) ho)

/-- The tokens of the arguments of a call, up to the parenthesis behind them. -/
def IsArguments (ts : List Token) (es : List Expr) : Prop :=
  ∀ rest, Settles (fun n => arguments n (ts ++ .mark [')'] :: rest)) (some (es, rest))

theorem IsPrefix.call {es : List Expr} (h : IsPrefix ts e) (hes : IsArguments us es) :
    IsPrefix (ts ++ .mark ['('] :: (us ++ [.mark [')']])) (.call e es) := by
  obtain ⟨t, vs, rfl, hop, hgo⟩ := h
  refine ⟨t, vs ++ .mark ['('] :: (us ++ [.mark [')']]), by simp, hop, fun rest o ho => ?_⟩
  rw [List.append_assoc, List.cons_append, List.append_assoc]
  exact hgo _ _ (settles_call (hes rest) ho)

theorem IsPrefix.methodCall {es : List Expr} (h : IsPrefix ts e) (name : List Char)
    (hes : IsArguments us es) :
    IsPrefix (ts ++ .mark [':'] :: .name name :: .mark ['('] :: (us ++ [.mark [')']]))
      (.methodCall e name es) := by
  obtain ⟨t, vs, rfl, hop, hgo⟩ := h
  refine ⟨t, vs ++ .mark [':'] :: .name name :: .mark ['('] :: (us ++ [.mark [')']]), by simp, hop,
    fun rest o ho => ?_⟩
  rw [List.append_assoc]
  simp only [List.cons_append, List.append_assoc]
  exact hgo _ _ (settles_method (hes rest) ho)

/-! ## Operators -/

theorem BinaryOp.left_pos (op : BinaryOp) : 0 < op.left := by cases op <;> decide

/-- An operator between two operands. -/
theorem isClosed_binary {t : Token} {op : BinaryOp} {bound bound' : ℕ} (hop : binaryOp t = some op)
    (h : IsOperand bound ts e) (hbound : op.left ≤ bound) (h' : IsOperand bound' us e') :
    IsClosed (ts ++ t :: us) (.binary op e e') := by
  intro rest hrest
  have hstops : Stops bound (t :: (us ++ rest)) := by
    intro u hu op' hop'
    obtain rfl := Option.some.inj hu
    rw [hop] at hop'
    exact Option.some.inj hop' ▸ hbound
  rw [List.append_assoc, List.cons_append]
  refine h 0 _ _ (noSuffix_of_binaryOp hop _) hstops (settles_step hop op.left_pos ?_
    (settles_stop (hrest.stops 0)))
  exact h' _ _ _ hrest.suffix (hrest.stops bound') (settles_stop (hrest.stops _))

/-- The sign in front of a power is read last. -/
theorem isClosed_neg_pow {bound : ℕ} (h : IsOperand tightest ts e) (h' : IsOperand bound us e') :
    IsClosed (.mark ['-'] :: (ts ++ .mark ['^'] :: us)) (.unary .neg (.binary .pow e e')) := by
  intro rest hrest
  have hpow : binaryOp (.mark ['^']) = some .pow := rfl
  rw [List.cons_append, List.append_assoc, List.cons_append]
  refine settles_unary rfl (h unaryPriority _ _ (noSuffix_of_binaryOp hpow _)
    (stops_tightest _) (settles_step hpow (by decide) ?_ (settles_stop (hrest.stops _))))
    (settles_stop (hrest.stops 0))
  exact h' _ _ _ hrest.suffix (hrest.stops bound) (settles_stop (hrest.stops _))

/-! ## Lists -/

/-- Token lists with commas between them. -/
def commas (l : List (List Token)) : List Token := List.intercalate [.mark [',']] l

theorem commas_singleton (ts : List Token) : commas [ts] = ts := by
  simp [commas, List.intercalate]

theorem commas_cons_cons (us : List Token) (l : List (List Token)) :
    commas (ts :: us :: l) = ts ++ .mark [','] :: commas (us :: l) := by
  simp [commas, List.intercalate, List.intersperse]

/-- Texts between which a comma and a blank are printed. -/
def commaText (texts : List (List Char)) : List Char := List.intercalate [',', ' '] texts

theorem commaText_singleton (text : List Char) : commaText [text] = text := by
  simp [commaText, List.intercalate]

theorem commaText_cons_cons (text text' : List Char) (l : List (List Char)) :
    commaText (text :: text' :: l) = text ++ ',' :: ' ' :: commaText (text' :: l) := by
  simp [commaText, List.intercalate, List.intersperse]

theorem prints_commas {bad : Char → Bool} (hbad : bad ',' = false) {texts : List (List Char)}
    {l : List (List Token)} (h : List.Forall₂ (Prints bad) texts l) :
    Prints bad (commaText texts) (commas l) := by
  induction h with
  | nil => exact fun _ _ _ hus => hus
  | @cons text ts texts l hts hl ih =>
    cases hl with
    | nil =>
      rwa [commaText_singleton, commas_singleton]
    | @cons text' us texts l hus hl =>
      intro rest vs hrest hvs
      rw [commaText_cons_cons, commas_cons_cons, List.append_assoc, List.append_assoc]
      refine hts _ _ (by simp [hbad]) ?_
      simp only [List.cons_append]
      exact lexes_mark (by decide) (by simp [joins]) (.blank rfl (ih rest vs hrest hvs))

theorem settles_commas {l : List (List Token)} {es : List Expr}
    (h : List.Forall₂ IsClosed l es) (hne : l ≠ []) {rest : List Token} (hrest : Ends rest)
    (hcomma : behindMark ',' rest = none) :
    Settles (fun n => expressions n (commas l ++ rest)) (some (es, rest)) := by
  induction h with
  | nil => exact absurd rfl hne
  | @cons ts e l es hts hl ih =>
    cases hl with
    | nil =>
      rw [commas_singleton]
      exact settles_expressions_last (hts rest hrest) hcomma
    | @cons us e' l es hus hl =>
      rw [commas_cons_cons, List.append_assoc, List.cons_append]
      exact settles_expressions_cons (hts _ (ends_mark (Or.inr (Or.inr rfl)) _))
        (ih (List.cons_ne_nil _ _))

/-- A token with which an expression may begin. -/
def begins (t : Token) : Bool :=
  (unaryOp t).isSome || (literal t).isSome ||
    match t with
    | .name _ => true
    | .mark text => text == ['(']
    | _ => false

theorem operand_none {t : Token} (h : begins t = false) (n : ℕ) (ts : List Token) :
    operand n t ts = none := by
  simp only [begins, Bool.or_eq_false_iff, Option.isSome_eq_false_iff, Option.isNone_iff_eq_none]
    at h
  obtain ⟨⟨-, hliteral⟩, hother⟩ := h
  cases n with
  | zero => rw [operand]
  | succ n =>
    unfold operand
    rw [hliteral]
    dsimp only
    split
    · cases hother
    · cases hother
    · rfl

theorem IsClosed.begins (h : IsClosed ts e) : ∃ t us, ts = t :: us ∧ begins t = true := by
  have hread := h [] ends_nil
  rw [List.append_nil] at hread
  cases ts with
  | nil => cases hread.unique ((settles_const none).succ fun m => by rw [expr])
  | cons t ts =>
    refine ⟨t, ts, rfl, ?_⟩
    by_contra hbegins
    rw [Bool.not_eq_true] at hbegins
    have hop : unaryOp t = none := by
      simp only [LuaSyntax.begins, Bool.or_eq_false_iff, Option.isSome_eq_false_iff,
        Option.isNone_iff_eq_none] at hbegins
      exact hbegins.1.1
    have hnone : Settles (fun n => operand n t ts) none :=
      ⟨0, fun n _ => operand_none hbegins n ts⟩
    cases hread.unique (settles_operand_none hop hnone)

/-- An expression begins with no closing parenthesis. -/
theorem IsClosed.behindMark (h : IsClosed ts e) (rest : List Token) :
    behindMark ')' (ts ++ rest) = none := by
  obtain ⟨t, us, rfl, ht⟩ := h.begins
  unfold LuaSyntax.behindMark
  rw [List.cons_append]
  split
  · rename_i d vs heq
    obtain ⟨rfl, -⟩ := List.cons.inj heq
    apply if_neg
    rintro rfl
    cases ht
  · rfl

theorem isArguments_commas {l : List (List Token)} {es : List Expr}
    (h : List.Forall₂ IsClosed l es) : IsArguments (commas l) es := by
  intro rest
  cases h with
  | nil => exact settles_noArguments
  | @cons ts e l es hts hl =>
    have hfirst : behindMark ')' (commas (ts :: l) ++ .mark [')'] :: rest) = none := by
      cases l with
      | nil =>
        rw [commas_singleton]
        exact hts.behindMark _
      | cons us l =>
        rw [commas_cons_cons, List.append_assoc]
        exact hts.behindMark _
    exact settles_arguments hfirst (settles_commas (.cons hts hl) (List.cons_ne_nil _ _)
      (ends_mark (Or.inr (Or.inl rfl)) rest) rfl)

/-! ## Blocked lists -/

/-- The parser leaves a suffix. -/
def LeavesSuffix {α : Type} (o : Option (α × List Token)) : Prop :=
  ∀ found ∈ o, ∃ t ∈ found.2.head?, goesOn t = true

theorem leavesSuffix_none {α : Type} : LeavesSuffix (α := α) none := by
  intro found hfound
  cases hfound

/-- Tokens of which no list of expressions makes an end. -/
structure IsBlocked (ts : List Token) : Prop where
  first : ∀ rest, behindMark ')' (ts ++ rest) = none
  leaves : ∀ limit rest, ∃ o, Settles (fun n => expr n limit (ts ++ rest)) o ∧ LeavesSuffix o

/-- The tokens of an expression that is read whole in front of a suffix. -/
def IsLiteral (ts : List Token) (e : Expr) : Prop :=
  ∀ limit t rest, goesOn t = true →
    Settles (fun n => expr n limit (ts ++ t :: rest)) (some (e, t :: rest))

theorem behindMark_goesOn {t : Token} (h : goesOn t = true) {c : Char} (hc : c = ')' ∨ c = ',')
    (rest : List Token) : LuaSyntax.behindMark c (t :: rest) = none := by
  unfold LuaSyntax.behindMark
  split
  · rename_i d vs heq
    obtain ⟨rfl, -⟩ := List.cons.inj heq
    apply if_neg
    rintro rfl
    rcases hc with rfl | rfl <;> cases h
  · rfl

theorem stops_goesOn {t : Token} (h : goesOn t = true) (limit : ℕ) (rest : List Token) :
    Stops limit (t :: rest) := by
  intro u hu op hop
  obtain rfl := Option.some.inj hu
  rw [noSuffix_of_binaryOp hop rest t rfl] at h
  cases h

theorem isLiteral_literal {t : Token} (h : literal t = some e) : IsLiteral [t] e :=
  fun limit _ rest hu => settles_operand (unaryOp_of_literal h) (settles_literal h)
    (settles_stop (stops_goesOn hu limit rest))

/-- An operator in front of a literal. -/
theorem IsLiteral.unary (h : IsLiteral ts e) {t : Token} {op : UnaryOp} (hop : unaryOp t = some op) :
    IsLiteral (t :: ts) (.unary op e) := fun limit _ rest hu =>
  settles_unary hop (h unaryPriority _ rest hu) (settles_stop (stops_goesOn hu limit rest))

/-- A suffix behind a literal blocks it. -/
theorem IsLiteral.blocked (h : IsLiteral ts e) {t : Token} (ht : goesOn t = true)
    (us : List Token) (hfirst : ∀ rest, behindMark ')' (ts ++ rest) = none) :
    IsBlocked (ts ++ t :: us) := by
  refine ⟨fun rest => ?_, fun limit rest => ⟨some (e, t :: (us ++ rest)), ?_, ?_⟩⟩
  · rw [List.append_assoc]
    exact hfirst _
  · rw [List.append_assoc]
    exact h limit t _ ht
  · intro found hfound
    obtain rfl := Option.some.inj hfound
    exact ⟨t, rfl, ht⟩

theorem IsBlocked.append (h : IsBlocked ts) (us : List Token) : IsBlocked (ts ++ us) := by
  refine ⟨fun rest => ?_, fun limit rest => ?_⟩
  · rw [List.append_assoc]
    exact h.first _
  · rw [List.append_assoc]
    exact h.leaves limit _

/-- A sign in front of something blocked. -/
theorem IsBlocked.neg (h : IsBlocked ts) : IsBlocked (.mark ['-'] :: ts) := by
  refine ⟨fun rest => rfl, fun limit rest => ?_⟩
  obtain ⟨o, hread, hleaves⟩ := h.leaves unaryPriority rest
  cases o with
  | none => exact ⟨none, settles_unary_none rfl hread, leavesSuffix_none⟩
  | some found =>
    obtain ⟨e, behind⟩ := found
    obtain ⟨t, ht, hgo⟩ := hleaves (e, behind) rfl
    cases behind with
    | nil => cases ht
    | cons u vs =>
      obtain rfl := Option.some.inj ht
      refine ⟨some (.unary .neg e, u :: vs), settles_unary rfl hread
        (settles_stop (stops_goesOn hgo limit vs)), ?_⟩
      intro found hfound
      obtain rfl := Option.some.inj hfound
      exact ⟨u, rfl, hgo⟩

/-- A list that ends in something blocked. -/
theorem IsBlocked.expressions (h : IsBlocked us) {l : List (List Token)} {es : List Expr}
    (hl : List.Forall₂ IsClosed l es) (rest : List Token) :
    ∃ o, Settles (fun n => expressions n (commas (l ++ [us]) ++ rest)) o ∧ LeavesSuffix o := by
  induction hl with
  | nil =>
    rw [List.nil_append, commas_singleton]
    obtain ⟨o, hread, hleaves⟩ := h.leaves 0 rest
    cases o with
    | none => exact ⟨none, hread.bind_none.succ fun m => expressions_succ m _, leavesSuffix_none⟩
    | some found =>
      obtain ⟨e, behind⟩ := found
      obtain ⟨t, ht, hgo⟩ := hleaves (e, behind) rfl
      refine ⟨some ([e], behind), settles_expressions_last hread ?_, ?_⟩
      · cases behind with
        | nil => cases ht
        | cons u vs =>
          obtain rfl := Option.some.inj ht
          exact behindMark_goesOn hgo (Or.inr rfl) vs
      · intro found hfound
        obtain rfl := Option.some.inj hfound
        exact ⟨t, ht, hgo⟩
  | @cons ts e l es hts hl ih =>
    obtain ⟨o, hread, hleaves⟩ := ih
    have htokens : commas (ts :: l ++ [us]) ++ rest =
        ts ++ .mark [','] :: (commas (l ++ [us]) ++ rest) := by
      cases l with
      | nil => simp [commas_cons_cons]
      | cons vs l => simp [commas_cons_cons]
    rw [htokens]
    have hfirst := hts _ (ends_mark (Or.inr (Or.inr rfl)) (commas (l ++ [us]) ++ rest))
    cases o with
    | none =>
      refine ⟨none, (hfirst.bind ?_).succ fun m => expressions_succ m _, leavesSuffix_none⟩
      exact hread.bind_none
    | some found =>
      obtain ⟨es', behind⟩ := found
      refine ⟨some (e :: es', behind), settles_expressions_cons hfirst hread, ?_⟩
      intro found hfound
      obtain rfl := Option.some.inj hfound
      exact hleaves (es', behind) rfl

theorem settles_arguments_none {o : Option (List Expr × List Token)}
    (h : behindMark ')' ts = none) (hes : Settles (fun n => expressions n ts) o)
    (hleaves : LeavesSuffix o) : Settles (fun n => arguments n ts) none := by
  cases o with
  | none => exact hes.bind_none.succ fun m => by rw [arguments, h]
  | some found =>
    obtain ⟨es, behind⟩ := found
    obtain ⟨t, ht, hgo⟩ := hleaves (es, behind) rfl
    have hnone : behindMark ')' behind = none := by
      cases behind with
      | nil => cases ht
      | cons u vs =>
        obtain rfl := Option.some.inj ht
        exact behindMark_goesOn hgo (Or.inl rfl) vs
    refine (hes.bind (o := none) ?_).succ fun m => by rw [arguments, h]
    dsimp only
    rw [hnone]
    exact settles_const none

/-- A call with a blocked argument is not read. -/
theorem IsPrefix.blocked_call (h : IsPrefix ts e) {l : List (List Token)} {es : List Expr}
    (hl : List.Forall₂ IsClosed l es) (hus : IsBlocked us) :
    IsBlocked (ts ++ .mark ['('] :: (commas (l ++ [us]) ++ [.mark [')']])) := by
  have hfirst := fun rest => h.closed.behindMark rest
  obtain ⟨t, vs, rfl, hop, hgo⟩ := h
  refine ⟨fun rest => ?_, fun limit rest => ⟨none, ?_, leavesSuffix_none⟩⟩
  · rw [List.append_assoc]
    exact hfirst _
  obtain ⟨o, hread, hleaves⟩ := hus.expressions hl (.mark [')'] :: rest)
  have hbegin : behindMark ')' (commas (l ++ [us]) ++ .mark [')'] :: rest) = none := by
    cases hl with
    | nil =>
      rw [List.nil_append, commas_singleton]
      exact hus.first _
    | @cons ts e l es hts hl =>
      cases l with
      | nil =>
        rw [List.singleton_append, commas_cons_cons, List.append_assoc]
        exact hts.behindMark _
      | cons ws l =>
        rw [List.cons_append, List.cons_append, commas_cons_cons, List.append_assoc]
        exact hts.behindMark _
  rw [List.cons_append, List.cons_append, List.append_assoc, List.cons_append, List.append_assoc]
  exact settles_operand_none hop (hgo _ _ (settles_call_none
    (settles_arguments_none hbegin hread hleaves)))

end LuaSyntax
