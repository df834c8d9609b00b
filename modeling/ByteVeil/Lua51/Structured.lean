import ByteVeil.Lua51.Steps

/-!
# The state machine of the structured output

1. The printed program: a loop over one guarded body for each instruction.
2. Every body ends in `break`, which leaves the loop and not the guard.
3. The program takes the machine's transitions exactly when the first instruction ends the run.
-/

namespace ByteVeil.Lua51.Structured

/-! ## The printed program -/

/-- The conditions of the printed tests. -/
inductive Condition
  | equal (b c : ℕ)
  | less (b c : ℕ)
  | lessEqual (b c : ℕ)
  | truth (r : ℕ)
  | isNil (r : ℕ)
  | atMost (r s : ℕ)
  deriving DecidableEq

/-- The statements of a guarded body; `branch` is `if condition == expected then pc = yes else
pc = no end`. -/
inductive Stmt
  | setPc (pc : ℤ)
  | branch (condition : Condition) (expected : Bool) (yes no : ℤ)
  | breakLoop
  deriving DecidableEq

/-- `if __pc == pc then body end`. -/
structure Guarded where
  pc : ℕ
  body : List Stmt

/-- The transition that is printed for an instruction. -/
def transition (p : Proto) (i : Instr) : Stmt :=
  let next : ℤ := i.pc + 1
  let skipped : ℤ := i.pc + 2
  match i.op with
  | .EQ => .branch (.equal i.b i.c) (i.a == 0) skipped next
  | .LT => .branch (.less i.b i.c) (i.a == 0) skipped next
  | .LE => .branch (.lessEqual i.b i.c) (i.a == 0) skipped next
  | .TEST => .branch (.truth i.a) (i.a == 0) skipped next
  | .TESTSET => .branch (.truth i.b) (i.a == 0) skipped next
  | .TFORLOOP => .branch (.isNil (i.a + 1)) true skipped next
  | op =>
    if op = .LOADBOOL ∧ i.c ≠ 0 then .setPc skipped
    else if 0 ≤ i.target then
      if op = .FORLOOP then .branch (.atMost i.a (i.a + 1)) true i.target next else .setPc i.target
    else if op = .RETURN ∨ op = .TAILCALL then .setPc (-1)
    else if next < p.size then .setPc next
    else .setPc (-1)

/-- The body of the loop that `structuredProto` prints for one prototype. -/
def structuredProto (p : Proto) : List Guarded :=
  p.code.map fun i => ⟨i.pc, [transition p i, .breakLoop]⟩

/-! ## Running it -/

/-- The variable of the program and the pcs whose bodies were entered. -/
structure Run where
  pc : ℤ
  visited : List ℕ

/-- A value for each condition at each visit. -/
abbrev Holds := ℕ → Condition → Bool

variable (holds : Holds)

/-- The statements of a body; the flag says that the loop was left. -/
def execBody : List Stmt → Run → Run × Bool
  | [], r => (r, false)
  | .setPc pc :: rest, r => execBody rest { r with pc := pc }
  | .branch condition expected yes no :: rest, r =>
    execBody rest
      { r with pc := if holds r.visited.length condition = expected then yes else no }
  | .breakLoop :: _, r => (r, true)

/-- One round of the loop. -/
def execRound : List Guarded → Run → Run × Bool
  | [], r => (r, false)
  | guarded :: rest, r =>
    if r.pc = guarded.pc then
      match execBody holds guarded.body { r with visited := r.visited ++ [guarded.pc] } with
      | (r, true) => (r, true)
      | (r, false) => execRound rest r
    else execRound rest r

/-- At most `n` rounds of `while __pc >= 0 do`. -/
def execLoop (loop : List Guarded) : ℕ → Run → Run
  | 0, r => r
  | n + 1, r =>
    if r.pc < 0 then r
    else
      match execRound holds loop r with
      | (r, true) => r
      | (r, false) => execLoop loop n r

/-- The pcs that the printed program visits in at most `n` rounds. -/
def visits (p : Proto) (n : ℕ) : List ℕ := (execLoop holds (structuredProto p) n ⟨0, []⟩).visited

/-- The pcs that the virtual machine executes in at most `n` steps from `pc` on; the outcome of a test
is given for each step. -/
def executes (p : Proto) (outcome : ℕ → Bool) : ℕ → ℕ → ℤ → List ℕ
  | 0, _, _ => []
  | n + 1, step, pc =>
    if 0 ≤ pc ∧ pc < p.size then
      pc.toNat :: match (p.instr pc.toNat).next (outcome step) with
        | none => []
        | some target => executes p outcome n (step + 1) target
    else []

/-- The printed program visits the pcs that the virtual machine executes. -/
def SameVisits (p : Proto) (holds : Holds) (outcome : ℕ → Bool) : Prop :=
  ∀ k pc : ℕ, (∃ n, (visits holds p n)[k]? = some pc) ↔ ∃ n, (executes p outcome n 0 0)[k]? = some pc

/-- The first instruction ends the function, or is the last one and passes control behind it. -/
def EndsAtOnce (p : Proto) (outcome : Bool) : Prop :=
  p.size = 0 ∨ match (p.instr 0).op with
    | .RETURN | .TAILCALL => True
    | .JMP | .FORPREP | .EQ | .LT | .LE | .TEST | .TESTSET | .TFORLOOP => False
    | .FORLOOP => outcome = false ∧ p.size = 1
    | .LOADBOOL => (p.instr 0).c = 0 ∧ p.size = 1
    | .SETLIST => p.size = if (p.instr 0).c = 0 then 2 else 1
    | .CLOSURE => p.size = (p.instr 0).captures.length + 1
    | _ => p.size = 1

/-! ## The first body leaves the loop -/

variable {p : Proto} {holds : Holds} {outcome : ℕ → Bool}

theorem execBody_break (holds : Holds) (s : Stmt) (hs : s ≠ .breakLoop) (r : Run) :
    ∃ pc, execBody holds [s, .breakLoop] r = (⟨pc, r.visited⟩, true) := by
  cases s with
  | setPc pc => exact ⟨pc, rfl⟩
  | branch condition expected yes no => exact ⟨_, rfl⟩
  | breakLoop => exact absurd rfl hs

theorem transition_ne_break (p : Proto) (i : Instr) : transition p i ≠ .breakLoop := by
  unfold transition
  dsimp only
  split
  case h_7 => split_ifs <;> exact Stmt.noConfusion
  all_goals exact Stmt.noConfusion

/-- Whatever the code, the program enters one body and leaves its loop. -/
theorem visits_succ (hp : Accepted p) (hsize : 0 < p.size) (n : ℕ) :
    visits holds p (n + 1) = [0] := by
  obtain ⟨i, code, hcode⟩ : ∃ i code, p.code = i :: code :=
    List.exists_cons_of_length_pos hsize
  have hi : i.pc = 0 := by
    have := hp.pc_eq hsize
    unfold Proto.instr at this
    rwa [hcode] at this
  obtain ⟨pc, hbody⟩ := execBody_break holds (transition p i) (transition_ne_break p i)
    ⟨0, [] ++ [0]⟩
  unfold visits structuredProto
  rw [hcode, List.map_cons, execLoop, if_neg (by decide), execRound, if_pos (by rw [hi]; rfl)]
  simp only [hi, hbody]
  rfl

theorem visits_nil (hsize : p.size = 0) (n : ℕ) : visits holds p n = [] := by
  have hcode : p.code = [] := List.length_eq_zero_iff.1 hsize
  unfold visits structuredProto
  rw [hcode, List.map_nil]
  induction n with
  | zero => rfl
  | succ n ih =>
    rw [execLoop, if_neg (by decide)]
    exact ih

/-! ## The first step of the machine -/

theorem executes_nil (hsize : p.size = 0) (n : ℕ) : executes p outcome n 0 0 = [] := by
  cases n with
  | zero => rfl
  | succ n => rw [executes, if_neg (by rw [hsize]; decide)]

theorem executes_succ (hsize : 0 < p.size) (n : ℕ) : executes p outcome (n + 1) 0 0 =
    0 :: match (p.instr 0).next (outcome 0) with
      | none => []
      | some target => executes p outcome n 1 target := by
  rw [executes, if_pos ⟨le_rfl, by exact_mod_cast hsize⟩]
  rfl

theorem executes_outside {target : ℤ} (h : ¬(0 ≤ target ∧ target < p.size)) (n step : ℕ) :
    executes p outcome n step target = [] := by
  cases n with
  | zero => rfl
  | succ n => rw [executes, if_neg h]

/-- Control stays in the code after the first instruction, unless it ends at once. -/
theorem endsAtOnce_iff (hp : Accepted p) (hsize : 0 < p.size) (b : Bool) : EndsAtOnce p b ↔
    ∀ target, (p.instr 0).next b = some target → ¬(0 ≤ target ∧ target < p.size) := by
  have hentry := hp.entry hsize
  have hpc := hp.pc_eq hsize
  have htarget := fun h => hp.target hentry h
  have hclosed := hp.target_eq hentry
  unfold EndsAtOnce Instr.next
  unfold checksTarget isTest at htarget
  unfold targetOf at hclosed
  rw [or_iff_right (by omega), hpc]
  cases hop : (p.instr 0).op <;> simp only [hop] at htarget ⊢
  case RETURN | TAILCALL => simp
  case JMP | FORPREP =>
    have := htarget (by simp)
    simp only [Option.some.injEq, forall_eq', false_iff, not_not]
    exact ⟨this.1.1, this.2⟩
  case EQ | LT | LE | TEST | TESTSET | TFORLOOP =>
    have := (htarget (by simp)).2
    simp only [hclosed, hop] at this
    simp only [Option.some.injEq, forall_eq', false_iff]
    split_ifs <;> omega
  case FORLOOP =>
    have := htarget (by simp)
    simp only [Option.some.injEq, forall_eq']
    cases b
    · simp
      omega
    · simpa using ⟨this.1.1, this.2⟩
  case LOADBOOL =>
    simp only [Option.some.injEq, forall_eq']
    by_cases hc : (p.instr 0).c = 0
    · rw [if_neg (by simp [hc])]
      simp only [hc, true_and]
      omega
    · have := (htarget (by simp [hc])).2
      rw [if_pos hc]
      simp only [hclosed, hop, if_pos hc] at this
      omega
  case SETLIST =>
    simp only [Option.some.injEq, forall_eq']
    by_cases hc : (p.instr 0).c = 0
    · have : 1 < p.size := hp.arranged.extra.extra_lt 0 hsize ⟨hop, hc⟩
      rw [if_pos hc, if_pos hc]
      omega
    · rw [if_neg hc, if_neg hc]
      omega
  case CLOSURE =>
    simp only [Option.some.injEq, forall_eq']
    by_cases hnone : (p.instr 0).captures.length = 0
    · omega
    · have := (hp.bound hentry (Nat.pos_of_ne_zero hnone) (Nat.zero_add _).ge).1
      omega
  all_goals
    simp only [Option.some.injEq, forall_eq']
    omega

/-! ## The whole run -/

/-- The structured output of a prototype takes the machine's transitions exactly when the run ends
with the first instruction. -/
theorem sameVisits_iff (hp : Accepted p) : SameVisits p holds outcome ↔ EndsAtOnce p (outcome 0) := by
  by_cases hsize : p.size = 0
  · refine iff_of_true (fun k pc => ?_) (Or.inl hsize)
    simp only [visits_nil hsize, executes_nil hsize]
  have hpos := Nat.pos_of_ne_zero hsize
  rw [endsAtOnce_iff hp hpos]
  constructor
  · intro hsame target htarget hinside
    -- the second pc of the machine is never visited
    have hsecond : (executes p outcome 2 0 0)[1]? = some target.toNat := by
      rw [executes_succ hpos, htarget]
      simp only [executes, if_pos hinside]
      rfl
    obtain ⟨n, hn⟩ := (hsame 1 target.toNat).2 ⟨2, hsecond⟩
    cases n with
    | zero => exact absurd hn (by simp [visits, execLoop])
    | succ n => exact absurd hn (by simp [visits_succ hp hpos])
  · intro hends k pc
    have hexecutes (n : ℕ) : executes p outcome (n + 1) 0 0 = [0] := by
      rw [executes_succ hpos]
      cases hnext : (p.instr 0).next (outcome 0) with
      | none => rfl
      | some target => simp only [executes_outside (hends target hnext)]
    constructor
    · rintro ⟨n, hn⟩
      cases n with
      | zero => exact absurd hn (by simp [visits, execLoop])
      | succ n => exact ⟨1, by rwa [hexecutes, ← visits_succ hp hpos n]⟩
    · rintro ⟨n, hn⟩
      cases n with
      | zero => exact absurd hn (by simp [executes])
      | succ n => exact ⟨1, by rwa [visits_succ hp hpos, ← hexecutes n]⟩

/-- `RETURN`. -/
def returnOnly : Proto := mainOf (chunkHeader ++ functionBytes 0 0 0 2 [30 + 8388608] [] [])

theorem accepted_returnOnly : Accepted returnOnly := accepted_mainOf (by decide +kernel)

theorem sameVisits_iff_returnOnly : SameVisits returnOnly (fun _ _ => true) (fun _ => true) := by
  have hop : (returnOnly.instr 0).op = .RETURN := by decide +kernel
  refine (sameVisits_iff accepted_returnOnly).2 (Or.inr ?_)
  rw [hop]
  trivial

/-- `LOADNIL R0`, `RETURN`. -/
def nilFirst : Proto := mainOf (chunkHeader ++ functionBytes 0 0 0 2 [3, 30 + 8388608] [] [])

theorem accepted_nilFirst : Accepted nilFirst := accepted_mainOf (by decide +kernel)

/-- The machine goes on with the second instruction; the printed program has left its loop. -/
theorem nilFirst_stops : Accepted nilFirst ∧ executes nilFirst (fun _ => true) 2 0 0 = [0, 1] ∧
    visits (fun _ _ => true) nilFirst 2 = [0] ∧
    ¬ SameVisits nilFirst (fun _ _ => true) (fun _ => true) := by
  have hexecutes : executes nilFirst (fun _ => true) 2 0 0 = [0, 1] := by decide +kernel
  refine ⟨accepted_nilFirst, hexecutes, by decide +kernel, fun hsame => ?_⟩
  obtain ⟨n, hn⟩ := (hsame 1 1).2 ⟨2, by rw [hexecutes]; rfl⟩
  cases n with
  | zero => exact absurd hn (by simp [visits, execLoop])
  | succ n =>
    rw [visits_succ accepted_nilFirst (by decide +kernel)] at hn
    exact absurd hn (by simp)

end ByteVeil.Lua51.Structured
