import ByteVeil.Lua51.Closed
import ByteVeil.Lua51.Numbering
import ByteVeil.Lua51.Texts

/-!
# Captured names

The names that nested functions use for the variables they capture.

1. A generated name tells what it stands for and the number of its function.
2. The functions that are being emitted around a place, and the variable that each captured name is
   meant to denote.
3. Every captured name denotes its variable, exactly when no variable of the main function that is
   captured under its debug name meets the same name on the way.
-/

namespace ByteVeil.Lua51

open Naming

/-! ## Generated names -/

/-- What a generated name stands for. -/
inductive Tag
  | register | cell | parameter | dispatcher | condition | loopBreak
  deriving DecidableEq

/-- How a generated name begins. -/
def Tag.word : Tag → List Char
  | register => []
  | cell => ['u', 'p', 'c', 'e', 'l', 'l', '_']
  | parameter => ['c', 'a', 'p', 't', 'u', 'r', 'e', '_']
  | dispatcher => ['p', 'c', '_']
  | condition => ['c', 'o', 'n', 'd', 'i', 't', 'i', 'o', 'n', '_']
  | loopBreak => ['l', 'o', 'o', 'p', 'b', 'r', 'e', 'a', 'k', '_']

/-- A name with the number of its function. -/
def taggedName (tag : Tag) (id : ℕ) (rest : List Char) : List Char :=
  byteveil (tag.word ++ 'f' :: decimal id ++ rest)

/-- The names of the registers of a function as the flags avoid them. -/
def localNames (p : Proto) (context : RenderContext) : List (List Char) :=
  (List.range p.maxstack).flatMap fun r =>
    renderedLocal p r 0 context :: p.code.map fun i => renderedLocal p r i.pc context

/-- The identifiers among the upvalue names of the debug table. -/
def upvalueNames (p : Proto) : List (List Char) :=
  (p.upvalues.filter validIdentifier).map characters

/-- `dispatcherPcName`. -/
def dispatcherPcName (p : Proto) (context : RenderContext) : List Char :=
  avoid (debugNames p ++ localNames p context) '_' (taggedName .dispatcher p.id [])

/-- The name of a flag. -/
def flagName (tag : Tag) (p : Proto) (pc : ℕ) (context : RenderContext) : List Char :=
  avoid (debugNames p ++ upvalueNames p ++ localNames p context) '_'
    (taggedName tag p.id (['_', 'p', 'c'] ++ decimal pc))

/-- `conditionChainFlagName`. -/
def conditionChainFlagName : Proto → ℕ → RenderContext → List Char := flagName .condition

/-- `loopBreakFlagName`. -/
def loopBreakFlagName : Proto → ℕ → RenderContext → List Char := flagName .loopBreak

/-- The names that `closureCaptureParameterName` avoids. -/
def namesOf (child : Proto) (context : RenderContext) : List (List Char) :=
  let registers := List.range child.maxstack
  debugNames child ++ registers.map (fun r => renderedRegisterName child r 0 context) ++
    (registers.filter fun r => managedCapturedLocal child r).map (capturedCellName child)

/-- `closureCaptureParameterName`. -/
def closureCaptureParameterName (child : Proto) (slot : ℕ) (context : RenderContext) : List Char :=
  avoid (namesOf child context) '_' (taggedName .parameter child.id (['_', 'u'] ++ decimal slot))

/-! ## The forms of the names -/

/-- The name is generated for the function with the number. -/
def HasForm (tag : Tag) (id : ℕ) (name : List Char) : Prop :=
  ∃ rest, (∀ c ∈ rest.head?, c.isDigit = false) ∧ name = taggedName tag id rest

theorem decimal_isDigit {n : ℕ} {c : Char} (h : c ∈ decimal n) : c.isDigit = true :=
  Nat.isDigit_of_mem_toDigits (by decide) (by decide) h

/-- A number in front of something else. -/
theorem decimal_append_inj {m n : ℕ} {xs ys : List Char} (hx : ∀ c ∈ xs.head?, c.isDigit = false)
    (hy : ∀ c ∈ ys.head?, c.isDigit = false) (h : decimal m ++ xs = decimal n ++ ys) :
    m = n ∧ xs = ys := by
  have htake : ∀ (k : ℕ) {zs : List Char}, (∀ c ∈ zs.head?, c.isDigit = false) →
      (decimal k ++ zs).takeWhile Char.isDigit = decimal k := by
    intro k zs hz
    rw [List.takeWhile_append_of_pos fun c hc => decimal_isDigit hc]
    cases zs with
    | nil => simp
    | cons c zs => simp [hz c rfl]
  have heq : decimal m = decimal n := by rw [← htake m hx, ← htake n hy, h]
  rw [heq] at h
  exact ⟨decimal_injective heq, List.append_cancel_left h⟩

/-- The form tells what the name stands for, and in which function. -/
theorem HasForm.unique {tag tag' : Tag} {id id' : ℕ} {name : List Char} (h : HasForm tag id name)
    (h' : HasForm tag' id' name) : tag = tag' ∧ id = id' := by
  obtain ⟨rest, hrest, rfl⟩ := h
  obtain ⟨rest', hrest', heq⟩ := h'
  have heq := List.append_cancel_left heq
  have htag : tag = tag' := by
    cases tag <;> cases tag' <;> first | rfl | simp [Tag.word] at heq
  subst htag
  rw [List.append_assoc, List.append_assoc] at heq
  have hnumber := (List.cons.inj (List.append_cancel_left heq)).2
  exact ⟨rfl, (decimal_append_inj hrest hrest' hnumber).1⟩

theorem regName_not_form {tag : Tag} {id r : ℕ} : ¬HasForm tag id (regName r) := by
  rintro ⟨rest, -, heq⟩
  cases tag <;> simp [regName, taggedName, byteveil] at heq

theorem HasForm.ne {tag tag' : Tag} {id id' : ℕ} {name name' : List Char} (h : HasForm tag id name)
    (h' : HasForm tag' id' name') (hne : tag ≠ tag' ∨ id ≠ id') : name ≠ name' := by
  rintro rfl
  obtain ⟨htag, hid⟩ := h.unique h'
  exact hne.elim (fun hn => hn htag) fun hn => hn hid

/-- Marks keep the form. -/
theorem hasForm_avoid (tag : Tag) (id : ℕ) {rest : List Char}
    (h : ∀ c ∈ rest.head?, c.isDigit = false) (taken : List (List Char)) :
    HasForm tag id (avoid taken '_' (taggedName tag id rest)) := by
  obtain ⟨k, hk⟩ := avoid_eq taken '_' (taggedName tag id rest)
  refine ⟨rest ++ List.replicate k '_', ?_, ?_⟩
  · cases rest with
    | nil =>
      cases k with
      | zero => simp
      | succ k => simp [List.replicate_succ]
    | cons c rest => exact h
  · rw [hk]
    simp [taggedName, byteveil]

theorem hasForm_qualifiedName (p : Proto) (r : ℕ) : HasForm .register p.id (qualifiedName p r) := by
  refine ⟨['_', 'r'] ++ decimal r, by simp, ?_⟩
  simp [taggedName, qualifiedName, Tag.word, byteveil]

theorem hasForm_capturedCellName (p : Proto) (r : ℕ) :
    HasForm .cell p.id (capturedCellName p r) := by
  have hstem : capturedCellName p r =
      avoid (debugNames p) '_' (taggedName .cell p.id (['_', 'r'] ++ decimal r)) := by
    simp [capturedCellName, taggedName, Tag.word]
  rw [hstem]
  exact hasForm_avoid _ _ (by simp) _

theorem hasForm_dispatcherPcName (p : Proto) (context : RenderContext) :
    HasForm .dispatcher p.id (dispatcherPcName p context) :=
  hasForm_avoid _ _ (by simp) _

theorem hasForm_flagName (tag : Tag) (p : Proto) (pc : ℕ) (context : RenderContext) :
    HasForm tag p.id (flagName tag p pc context) :=
  hasForm_avoid _ _ (by simp) _

theorem hasForm_parameterName (child : Proto) (slot : ℕ) (context : RenderContext) :
    HasForm .parameter child.id (closureCaptureParameterName child slot context) :=
  hasForm_avoid _ _ (by simp) _

/-! ## Functions that are being emitted -/

/-- A function that is being emitted around a place: its context, the parameters of the function
around it that passes cells to it, what it captures, and what is declared inside its body around the
place: the dispatcher's variable, flags by their pc, and loop variables by their register and pc. -/
structure Frame where
  proto : Proto
  context : RenderContext
  wrapper : List (List Char) := []
  captures : List CaptureInfo := []
  dispatcher : Bool := false
  conditions : List ℕ := []
  breaks : List ℕ := []
  loops : List (ℕ × ℕ) := []

/-- `upvalue`. -/
def upvalue (p : Proto) (index : ℕ) : List Char :=
  let name := p.upvalues.getD index []
  if index < p.upvalues.length ∧ validIdentifier name then characters name
  else ['_', '_', 'u', 'p', 'v', 'a', 'l', 'u', 'e', '_'] ++ decimal index

/-- An entry of a context. -/
def textAt (texts : List String) (index : ℕ) : List Char := (texts.getD index "").toList

/-- `renderedUpvalue`. -/
def renderedUpvalue (p : Proto) (index : ℕ) (context : RenderContext) : List Char :=
  if textAt context.capturedUpvalues index ≠ [] then textAt context.capturedUpvalues index
  else upvalue p index

/-- `closureCaptureCellSource`; empty when no cell is passed. -/
def closureCaptureCellSource (p : Proto) (capture : CaptureInfo) (parent : RenderContext) :
    List Char :=
  if capture.fromUpvalue then textAt parent.capturedUpvalueCells capture.sourceIndex
  else if managedCapturedLocal p capture.sourceIndex then capturedCellName p capture.sourceIndex
  else []

/-- `captureCellParameters`; empty where no cell is passed. -/
def captureCellParameters (p : Proto) (closure : Instr) (child : Proto) (parent : RenderContext) :
    List (List Char) :=
  closure.captures.zipIdx.map fun capture =>
    if closureCaptureCellSource p capture.1 parent = [] then []
    else closureCaptureParameterName child capture.2 parent

/-- `closureContext`. -/
def closureContext (p : Proto) (closure : Instr) (parent : RenderContext)
    (parameters : List (List Char)) : RenderContext where
  capturedUpvalues := closure.captures.zipIdx.map fun capture => String.ofList <|
    let parameter := parameters.getD capture.2 []
    if parameter ≠ [] then content parameter
    else if capture.1.fromUpvalue then renderedUpvalue p capture.1.sourceIndex parent
    else renderedLocal p capture.1.sourceIndex capture.1.bindingPc parent
  capturedUpvalueCells := closure.captures.zipIdx.map fun capture =>
    String.ofList (parameters.getD capture.2 [])

/-- The functions that are being emitted, the innermost first. Each may use a dispatcher. -/
inductive Nest (root : Proto) : List Frame → Prop
  | main {f : Frame} (stateMachine : Bool) : f.proto = root →
      f.context = { stateMachine := stateMachine } → f.wrapper = [] → f.captures = [] →
      Nest root [f]
  | closure {f g : Frame} {fs : List Frame} {pc : ℕ} (stateMachine : Bool) : Nest root (g :: fs) →
      IsExecutable g.proto pc → (g.proto.instr pc).op = .CLOSURE →
      f.proto = g.proto.children.getD (g.proto.instr pc).bx default →
      f.captures = (g.proto.instr pc).captures →
      f.wrapper = captureCellParameters g.proto (g.proto.instr pc) f.proto g.context →
      f.context = { closureContext g.proto (g.proto.instr pc) g.context f.wrapper with
        stateMachine := stateMachine } →
      Nest root (f :: g :: fs)

/-! ## What names denote -/

/-- A variable of a function: a register as named at a pc, a cell, or the parameter for a cell. -/
inductive Variable
  | register (r pc : ℕ)
  | cell (r : ℕ)
  | parameter (slot : ℕ)
  deriving DecidableEq

/-- The text that reads a variable of the given name: a cell is read at its only index. -/
def Variable.text : Variable → List Char → List Char
  | register _ _, name => name
  | _, name => content name

/-- The name of a variable. -/
def Frame.nameOf (f : Frame) : Variable → List Char
  | .register r pc => renderedRegisterName f.proto r pc f.context
  | .cell r => capturedCellName f.proto r
  | .parameter slot => f.wrapper.getD slot []

/-- The variables that a function's body declares around the place: the dispatcher's and the flags. -/
def Frame.marks (f : Frame) : List (List Char) :=
  (if f.dispatcher then [dispatcherPcName f.proto f.context] else []) ++
    f.conditions.map (fun pc => conditionChainFlagName f.proto pc f.context) ++
    f.breaks.map fun pc => loopBreakFlagName f.proto pc f.context

/-- The names of the loop variables, other than that of `r`. -/
def Frame.loopNames (f : Frame) (r : Option ℕ) : List (List Char) :=
  (f.loops.filter fun loop => some loop.1 != r).map fun loop =>
    renderedRegisterName f.proto loop.1 loop.2 f.context

/-- The parameters, the registers and the cells of a function. -/
def Frame.locals (f : Frame) : List (List Char) :=
  let registers := List.range f.proto.maxstack
  (registers.filter fun r => decide (r < f.proto.params) || !managedCapturedLocal f.proto r).map
      (fun r => renderedRegisterName f.proto r 0 f.context) ++
    (registers.filter fun r => managedCapturedLocal f.proto r).map (capturedCellName f.proto)

/-- All names that a nested function declares around the place. -/
def Frame.declared (f : Frame) : List (List Char) :=
  f.wrapper.filter (fun name => !name.isEmpty) ++ f.locals ++ f.marks ++ f.loopNames none

/-- The names that are declared between a variable and what is nested in its function. -/
def Frame.inside (f : Frame) : Variable → List (List Char)
  | .register r _ => f.marks ++ f.loopNames (some r)
  | .cell _ => f.marks ++ f.loopNames none
  | .parameter slot => (f.wrapper.eraseIdx slot).filter (fun name => !name.isEmpty) ++ f.locals ++
      f.marks ++ f.loopNames none

/-- The name denotes the variable `x` of the `n`th function outwards: no function between them, and
nothing inside that function, declares it again. -/
structure Denotes (frames : List Frame) (name : List Char) (n : ℕ) (x : Variable) : Prop where
  name_eq : ∃ f, frames[n]? = some f ∧ name = f.nameOf x ∧ name ∉ f.inside x
  between : ∀ m < n, ∀ g, frames[m]? = some g → name ∉ g.declared

/-- The variable that an upvalue of the innermost function is meant to denote, and how many functions
outwards it is declared; the main function's own upvalues have none. -/
def origin : List Frame → ℕ → Option (ℕ × Variable)
  | f :: g :: fs, slot =>
    if f.wrapper.getD slot [] ≠ [] then some (0, .parameter slot)
    else
      match f.captures[slot]? with
      | none => none
      | some capture =>
        if capture.fromUpvalue then
          (origin (g :: fs) capture.sourceIndex).map fun found => (found.1 + 1, found.2)
        else some (1, .register capture.sourceIndex capture.bindingPc)
  | _, _ => none

/-- The variable whose content is passed for a captured cell. -/
def cellOrigin (capture : CaptureInfo) : Variable :=
  if capture.fromUpvalue then .parameter capture.sourceIndex else .cell capture.sourceIndex

/-- The names that the innermost function uses for what it captures denote the captured variables,
and so do the names of the cells that it gets. -/
structure Hygienic (f g : Frame) (fs : List Frame) : Prop where
  cell : ∀ slot, f.wrapper.getD slot [] ≠ [] → ∃ capture, f.captures[slot]? = some capture ∧
    Denotes (g :: fs) (closureCaptureCellSource g.proto capture g.context) 0 (cellOrigin capture)
  upvalue : ∀ slot n x, origin (f :: g :: fs) slot = some (n, x) → ∃ name,
    Denotes (f :: g :: fs) name n x ∧ textAt f.context.capturedUpvalues slot = x.text name

/-- Where the main function's registers are named by its debug table, a captured name meets no name
that a function on the way declares, and no other register's loop around the nested function has it. -/
structure MainNamesApart (frames : List Frame) : Prop where
  between : ∀ slot n r pc, origin frames slot = some (n, .register r pc) → ∀ f, frames[n]? = some f →
    f.proto.id = 0 → f.context.stateMachine = false → ∀ name, DebugName f.proto r pc name →
    ∀ m < n, ∀ g, frames[m]? = some g → name ∉ g.declared
  loops : ∀ slot n r pc, origin frames slot = some (n, .register r pc) → ∀ f, frames[n]? = some f →
    f.proto.id = 0 → f.context.stateMachine = false → ∀ loop ∈ f.loops, loop.1 ≠ r →
    localReg f.proto loop.1 loop.2 ≠ localReg f.proto r pc

/-! ## The functions around a place -/

theorem mem_tree_self (p : Proto) : p ∈ p.tree := by
  rw [Proto.tree_eq]
  exact List.mem_cons_self

/-- The tree of a prototype is closed under nesting. -/
theorem mem_tree_of_child {root q c : Proto} (hq : q ∈ root.tree) (hc : c ∈ q.children) :
    c ∈ root.tree := by
  induction hn : sizeOf root using Nat.strong_induction_on generalizing root with
  | _ n ih =>
    rw [Proto.tree_eq, List.mem_cons, Proto.mem_trees] at hq ⊢
    right
    rcases hq with rfl | ⟨child, hchild, hq⟩
    · exact ⟨c, hc, mem_tree_self c⟩
    · refine ⟨child, hchild, ih (sizeOf child) ?_ hq rfl⟩
      have hlt := List.sizeOf_lt_of_mem hchild
      cases root
      simp only [Proto.mk.sizeOf_spec] at hn
      dsimp only at hlt
      omega

section Nest

variable {data : List UInt8} {root : Proto} {frames fs : List Frame} {f g : Frame}

/-- How a function hangs on the one around it. -/
structure Inside (f g : Frame) : Prop where
  child : f.proto ∈ g.proto.children
  nups : f.captures.length = f.proto.nups
  closure : ∃ i : Instr, i.captures = f.captures ∧
    f.wrapper = captureCellParameters g.proto i f.proto g.context ∧
    f.context.capturedUpvalues = (closureContext g.proto i g.context f.wrapper).capturedUpvalues ∧
    f.context.capturedUpvalueCells =
      (closureContext g.proto i g.context f.wrapper).capturedUpvalueCells

theorem Nest.inside (h : Nest root (f :: g :: fs)) (hg : Accepted g.proto) : Inside f g := by
  cases h with
  | @closure _ _ _ pc _ _ hpc hop hproto hcaptures hwrapper hcontext =>
    obtain ⟨hbx, hlength⟩ := hg.captures_length hpc hop
    refine ⟨?_, ?_, _, hcaptures.symm, hwrapper, ?_, ?_⟩
    · rw [hproto, List.getD_eq_getElem _ _ hbx]
      exact List.getElem_mem hbx
    · rw [hcaptures, hlength, hproto]
    · rw [hcontext]
    · rw [hcontext]

theorem Nest.outer (h : Nest root (f :: g :: fs)) : Nest root (g :: fs) := by
  cases h with
  | closure _ hrest => exact hrest

theorem Nest.mem_tree (hparse : parse data = .ok root) (h : Nest root frames) :
    ∀ f ∈ frames, f.proto ∈ root.tree := by
  induction frames with
  | nil => exact fun f hf => absurd hf List.not_mem_nil
  | cons f rest ih =>
    cases rest with
    | nil =>
      cases h with
      | main _ hproto =>
        intro e he
        rw [List.mem_singleton.1 he, hproto]
        exact mem_tree_self root
    | cons g fs =>
      have hrest := ih h.outer
      have hg := hrest g List.mem_cons_self
      intro e he
      rcases List.mem_cons.1 he with rfl | he
      · exact mem_tree_of_child hg (h.inside ⟨data, root, hparse, hg⟩).child
      · exact hrest e he

theorem Nest.accepted (hparse : parse data = .ok root) (h : Nest root frames) {f : Frame}
    (hf : f ∈ frames) : Accepted f.proto :=
  ⟨data, root, hparse, h.mem_tree hparse f hf⟩

/-- Functions further in have greater numbers. -/
theorem Nest.id_lt (hparse : parse data = .ok root) (h : Nest root (f :: fs)) :
    ∀ g ∈ fs, g.proto.id < f.proto.id := by
  induction fs generalizing f with
  | nil => exact fun g hg => absurd hg List.not_mem_nil
  | cons g fs ih =>
    have hg := h.accepted hparse (List.mem_cons_of_mem f List.mem_cons_self)
    have hlt : g.proto.id < f.proto.id :=
      parse_numbered hparse g.proto
        (h.mem_tree hparse g (List.mem_cons_of_mem f List.mem_cons_self)) _ (h.inside hg).child
    intro e he
    rcases List.mem_cons.1 he with rfl | he
    · exact hlt
    · exact (ih h.outer e he).trans hlt

end Nest

/-! ## Names of nested functions -/

section Names

variable {f g : Frame} {r pc : ℕ}

/-- Outside the main function a register's name has its function's number, or is short in a function
without upvalues. -/
theorem renderedRegisterName_form {p : Proto} {context : RenderContext} (hid : p.id ≠ 0)
    (r pc : ℕ) :
    HasForm .register p.id (renderedRegisterName p r pc context) ∨
      (p.nups = 0 ∧ renderedRegisterName p r pc context = regName r) := by
  unfold renderedRegisterName
  by_cases hnups : p.nups = 0
  · right
    cases context.stateMachine <;> simp [hnups, hid]
  · left
    simpa [hnups, hid] using hasForm_qualifiedName p r

/-- The dispatcher's variable and the flags are no names of the debug table. -/
theorem mem_marks {name : List Char} (h : name ∈ f.marks) : name ∉ debugNames f.proto ∧
    ∃ tag, tag ≠ .register ∧ tag ≠ .cell ∧ tag ≠ .parameter ∧ HasForm tag f.proto.id name := by
  have hflag : ∀ tag pc, flagName tag f.proto pc f.context ∉ debugNames f.proto := fun tag pc hmem =>
    avoid_not_mem _ _ _ (List.mem_append_left _ (List.mem_append_left _ hmem))
  unfold Frame.marks at h
  rcases List.mem_append.1 h with h | h
  · rcases List.mem_append.1 h with h | h
    · split_ifs at h
      · rw [List.mem_singleton.1 h]
        exact ⟨fun hmem => avoid_not_mem _ _ _ (List.mem_append_left _ hmem), .dispatcher,
          by decide, by decide, by decide, hasForm_dispatcherPcName _ _⟩
      · exact absurd h List.not_mem_nil
    · obtain ⟨pc, -, rfl⟩ := List.mem_map.1 h
      exact ⟨hflag _ _, .condition, by decide, by decide, by decide, hasForm_flagName _ _ _ _⟩
  · obtain ⟨pc, -, rfl⟩ := List.mem_map.1 h
    exact ⟨hflag _ _, .loopBreak, by decide, by decide, by decide, hasForm_flagName _ _ _ _⟩

theorem mem_locals {name : List Char} (h : name ∈ f.locals) :
    (∃ r, name = renderedRegisterName f.proto r 0 f.context) ∨ HasForm .cell f.proto.id name := by
  unfold Frame.locals at h
  rcases List.mem_append.1 h with h | h
  · obtain ⟨r, -, rfl⟩ := List.mem_map.1 h
    exact Or.inl ⟨r, rfl⟩
  · obtain ⟨r, -, rfl⟩ := List.mem_map.1 h
    exact Or.inr (hasForm_capturedCellName _ _)

theorem mem_loopNames {name : List Char} {r : Option ℕ} (h : name ∈ f.loopNames r) :
    ∃ loop ∈ f.loops, some loop.1 ≠ r ∧
      name = renderedRegisterName f.proto loop.1 loop.2 f.context := by
  obtain ⟨loop, hloop, rfl⟩ := List.mem_map.1 h
  obtain ⟨hmem, hne⟩ := List.mem_filter.1 hloop
  exact ⟨loop, hmem, by simpa using hne, rfl⟩

/-- The texts of a list with numbered entries. -/
theorem textAt_zipIdx {captures : List CaptureInfo} {F : CaptureInfo × ℕ → List Char} {slot : ℕ}
    {capture : CaptureInfo} (h : captures[slot]? = some capture) :
    textAt (captures.zipIdx.map fun c => String.ofList (F c)) slot = F (capture, slot) := by
  unfold textAt
  rw [List.getD_eq_getElem?_getD, List.getElem?_map, List.getElem?_zipIdx, h]
  simp

theorem Inside.wrapper_length (h : Inside f g) : f.wrapper.length = f.captures.length := by
  obtain ⟨i, hi, hwrapper, -⟩ := h.closure
  rw [hwrapper, ← hi, captureCellParameters, List.length_map, List.length_zipIdx]

theorem Inside.captured (h : Inside f g) {slot : ℕ} (hslot : f.wrapper.getD slot [] ≠ []) :
    ∃ capture, f.captures[slot]? = some capture := by
  have hlt : slot < f.captures.length := by
    rw [← h.wrapper_length]
    by_contra hge
    exact hslot (List.getD_eq_default _ _ (by omega))
  exact ⟨_, List.getElem?_eq_getElem hlt⟩

/-- The parameters of the function that passes the cells. -/
theorem Inside.wrapper_eq (h : Inside f g) {slot : ℕ} {capture : CaptureInfo}
    (hcapture : f.captures[slot]? = some capture) : f.wrapper.getD slot [] =
      if closureCaptureCellSource g.proto capture g.context = [] then []
      else closureCaptureParameterName f.proto slot g.context := by
  obtain ⟨i, hi, hwrapper, -⟩ := h.closure
  rw [hwrapper, captureCellParameters, hi, List.getD_eq_getElem?_getD, List.getElem?_map,
    List.getElem?_zipIdx, hcapture]
  simp

/-- What a nested function uses for an upvalue. -/
theorem Inside.upvalue_eq (h : Inside f g) {slot : ℕ} {capture : CaptureInfo}
    (hcapture : f.captures[slot]? = some capture) : textAt f.context.capturedUpvalues slot =
      if f.wrapper.getD slot [] ≠ [] then content (f.wrapper.getD slot [])
      else if capture.fromUpvalue then renderedUpvalue g.proto capture.sourceIndex g.context
      else renderedLocal g.proto capture.sourceIndex capture.bindingPc g.context := by
  obtain ⟨i, hi, -, hupvalues, -⟩ := h.closure
  rw [hupvalues]
  unfold closureContext
  rw [hi]
  exact textAt_zipIdx hcapture

theorem Inside.cell_eq (h : Inside f g) (slot : ℕ) :
    textAt f.context.capturedUpvalueCells slot = f.wrapper.getD slot [] := by
  obtain ⟨i, hi, -, -, hcells⟩ := h.closure
  rw [hcells]
  unfold closureContext
  rw [hi]
  cases hcapture : f.captures[slot]? with
  | some capture => exact textAt_zipIdx hcapture
  | none =>
    have hge := List.getElem?_eq_none_iff.1 hcapture
    rw [List.getD_eq_default _ _ (by rw [h.wrapper_length]; exact hge)]
    unfold textAt
    rw [List.getD_eq_default _ _ (by simpa using hge)]
    rfl

theorem hasForm_ne_nil {tag : Tag} {id : ℕ} {name : List Char} (h : HasForm tag id name) :
    name ≠ [] := by
  rintro rfl
  obtain ⟨rest, -, heq⟩ := h
  simp [taggedName, byteveil] at heq

theorem Inside.parameter_eq (h : Inside f g) {slot : ℕ} (hslot : f.wrapper.getD slot [] ≠ []) :
    f.wrapper.getD slot [] = closureCaptureParameterName f.proto slot g.context := by
  obtain ⟨capture, hcapture⟩ := h.captured hslot
  rw [h.wrapper_eq hcapture] at hslot ⊢
  split_ifs at hslot ⊢ with hsource
  · exact absurd rfl hslot
  · rfl

/-- A parameter for a cell has the number of the function that gets it. -/
theorem Inside.parameter_form (h : Inside f g) {slot : ℕ} (hslot : f.wrapper.getD slot [] ≠ []) :
    HasForm .parameter f.proto.id (f.wrapper.getD slot []) := by
  rw [h.parameter_eq hslot]
  exact hasForm_parameterName _ _ _

/-- The parameters for different cells have different names. -/
theorem parameterName_injective {child : Proto} {context : RenderContext} {slot slot' : ℕ}
    (h : closureCaptureParameterName child slot context =
      closureCaptureParameterName child slot' context) : slot = slot' := by
  have hdigit : ∀ k, ∀ c ∈ (List.replicate k '_').head?, c.isDigit = false := by
    intro k c hc
    rw [List.eq_of_mem_replicate (List.mem_of_mem_head? hc)]
    rfl
  unfold closureCaptureParameterName at h
  obtain ⟨k, hk⟩ := avoid_eq (namesOf child context) '_'
    (taggedName .parameter child.id (['_', 'u'] ++ decimal slot))
  obtain ⟨k', hk'⟩ := avoid_eq (namesOf child context) '_'
    (taggedName .parameter child.id (['_', 'u'] ++ decimal slot'))
  rw [hk, hk'] at h
  unfold taggedName byteveil at h
  simp only [List.append_assoc] at h
  have h₁ := List.append_cancel_left (List.append_cancel_left h)
  simp only [List.cons_append] at h₁
  have h₂ := List.append_cancel_left (List.cons.inj h₁).2
  simp only [List.nil_append, List.cons.injEq, true_and] at h₂
  exact (decimal_append_inj (hdigit k) (hdigit k') h₂).1

/-- The forms of a register's name. -/
theorem registerName_cases (p : Proto) (r pc : ℕ) (context : RenderContext) :
    HasForm .register p.id (renderedRegisterName p r pc context) ∨
      renderedRegisterName p r pc context = regName r ∨
      (p.id = 0 ∧ context.stateMachine = false ∧
        DebugName p r pc (renderedRegisterName p r pc context)) := by
  by_cases hid : p.id = 0
  · cases hmachine : context.stateMachine with
    | true =>
      by_cases hnups : p.nups = 0
      · right; left
        simp [renderedRegisterName, hmachine, hnups]
      · left
        simpa [renderedRegisterName, hmachine, hnups] using hasForm_qualifiedName p r
    | false =>
      have hname : renderedRegisterName p r pc context = localReg p r pc := by
        simp [renderedRegisterName, hmachine, hid]
      rw [hname]
      by_cases hdebug : ∃ name, DebugName p r pc name
      · obtain ⟨name, hdebug⟩ := hdebug
        right; right
        rw [localReg_of_debugName hdebug]
        exact ⟨hid, rfl, hdebug⟩
      · right; left
        exact localReg_of_not (not_exists.1 hdebug)
  · rcases renderedRegisterName_form hid r pc with h | ⟨-, h⟩
    · exact Or.inl h
    · exact Or.inr (Or.inl h)

theorem DebugName.mem_debugNames {p : Proto} {name : List Char} (h : DebugName p r pc name) :
    name ∈ debugNames p := by
  obtain ⟨entry, ⟨tail, htail, hgreatest⟩, hvalid, rfl⟩ := h
  obtain ⟨before, after, rfl, -⟩ := hgreatest.split
  obtain ⟨front, -, -, heq, -⟩ := htail.split
  have hentry : entry ∈ entriesOf p r := by
    rw [heq]
    exact List.mem_append_right _ (List.mem_append_right _ List.mem_cons_self)
  exact List.mem_map.2 ⟨entry, List.mem_filter.2 ⟨(List.mem_filter.1 hentry).1, hvalid⟩, rfl⟩

theorem renderedRegisterName_injective {p : Proto} {context : RenderContext} {r r' pc pc' : ℕ}
    (h : p.id ≠ 0 ∨ context.stateMachine = true)
    (heq : renderedRegisterName p r pc context = renderedRegisterName p r' pc' context) : r = r' := by
  unfold renderedRegisterName at heq
  split_ifs at heq with h₁ h₂ h₃
  · exact regName_injective heq
  · exact qualifiedName_injective p heq
  · exact absurd h (by simp [h₂, h₃])
  · exact regName_injective heq
  · exact qualifiedName_injective p heq

/-- A cell's name is declared again by nothing inside its function. -/
theorem cell_not_inside (f : Frame) (r : ℕ) : capturedCellName f.proto r ∉ f.inside (.cell r) := by
  have hcell := hasForm_capturedCellName f.proto r
  intro hmem
  rcases List.mem_append.1 hmem with hmem | hmem
  · obtain ⟨-, tag, -, htag, -, hform⟩ := mem_marks hmem
    exact htag (hform.unique hcell).1
  · obtain ⟨loop, -, -, heq⟩ := mem_loopNames hmem
    rw [heq] at hcell
    rcases registerName_cases f.proto loop.1 loop.2 f.context with h | h | ⟨-, -, h⟩
    · cases (h.unique hcell).1
    · rw [h] at hcell
      exact regName_not_form hcell
    · rw [← heq] at h
      exact avoid_not_mem _ _ _ h.mem_debugNames

/-- A register's name is declared again by no dispatcher and no flag of its function. -/
theorem register_not_marks (f : Frame) (r pc : ℕ) :
    renderedRegisterName f.proto r pc f.context ∉ f.marks := by
  intro hmem
  obtain ⟨hdebug, tag, htag, -, -, hform⟩ := mem_marks hmem
  rcases registerName_cases f.proto r pc f.context with h | h | ⟨-, -, h⟩
  · exact htag (hform.unique h).1
  · rw [h] at hform
    exact regName_not_form hform
  · exact hdebug h.mem_debugNames

/-- What a nested function with upvalues declares has its number. -/
theorem Inside.declared_form (h : Inside f g) (hid : f.proto.id ≠ 0) (hnups : f.proto.nups ≠ 0)
    {name : List Char} (hname : name ∈ f.declared) : ∃ tag, HasForm tag f.proto.id name := by
  have hregister : ∀ r pc, HasForm .register f.proto.id (renderedRegisterName f.proto r pc f.context) := by
    intro r pc
    rcases renderedRegisterName_form hid r pc with h | ⟨h, -⟩
    · exact h
    · exact absurd h hnups
  unfold Frame.declared at hname
  rcases List.mem_append.1 hname with hname | hname
  · rcases List.mem_append.1 hname with hname | hname
    · rcases List.mem_append.1 hname with hname | hname
      · obtain ⟨hmem, hne⟩ := List.mem_filter.1 hname
        obtain ⟨slot, hslot, rfl⟩ := List.mem_iff_getElem.1 hmem
        have hget : f.wrapper.getD slot [] = f.wrapper[slot] := List.getD_eq_getElem _ _ hslot
        rw [← hget] at hne ⊢
        exact ⟨.parameter, h.parameter_form (by simpa using hne)⟩
      · rcases mem_locals hname with ⟨r, rfl⟩ | hcell
        · exact ⟨_, hregister r 0⟩
        · exact ⟨_, hcell⟩
    · obtain ⟨-, tag, -, -, -, hform⟩ := mem_marks hname
      exact ⟨tag, hform⟩
  · obtain ⟨loop, -, -, rfl⟩ := mem_loopNames hname
    exact ⟨_, hregister _ _⟩

/-- The parameter for a cell is declared again by nothing inside its function. -/
theorem Inside.parameter_not_inside (h : Inside f g) (hid : f.proto.id ≠ 0) {slot : ℕ}
    (hslot : f.wrapper.getD slot [] ≠ []) : f.wrapper.getD slot [] ∉ f.inside (.parameter slot) := by
  have hform := h.parameter_form hslot
  have hregister : ∀ r pc, f.wrapper.getD slot [] ≠ renderedRegisterName f.proto r pc f.context := by
    intro r pc heq
    rcases renderedRegisterName_form hid r pc with h | ⟨-, h⟩
    · rw [← heq] at h
      cases (h.unique hform).1
    · rw [heq, h] at hform
      exact regName_not_form hform
  intro hmem
  rcases List.mem_append.1 hmem with hmem | hmem
  · rcases List.mem_append.1 hmem with hmem | hmem
    · rcases List.mem_append.1 hmem with hmem | hmem
      · obtain ⟨hmem, -⟩ := List.mem_filter.1 hmem
        obtain ⟨slot', hne, hget⟩ := List.mem_eraseIdx_iff_getElem?.1 hmem
        have heq : f.wrapper.getD slot' [] = f.wrapper.getD slot [] := by
          rw [List.getD_eq_getElem?_getD, hget]
          rfl
        have hslot' : f.wrapper.getD slot' [] ≠ [] := heq ▸ hslot
        rw [h.parameter_eq hslot, h.parameter_eq hslot'] at heq
        exact hne (parameterName_injective heq)
      · rcases mem_locals hmem with ⟨r, heq⟩ | hcell
        · exact hregister r 0 heq
        · cases (hcell.unique hform).1
    · obtain ⟨-, tag, -, -, htag, hmark⟩ := mem_marks hmem
      exact htag (hmark.unique hform).1
  · obtain ⟨loop, -, -, heq⟩ := mem_loopNames hmem
    exact hregister _ _ heq

end Names

/-! ## Captured names -/

section Captured

variable {data : List UInt8} {root : Proto} {frames fs : List Frame} {f g : Frame}

/-- What an origin stands for. -/
structure Found (frames : List Frame) (slot n : ℕ) (x : Variable) (f e : Frame) : Prop where
  frame : frames[n]? = some e
  text : textAt f.context.capturedUpvalues slot = x.text (e.nameOf x)
  nonempty : e.nameOf x ≠ []
  kind : (∃ r pc, x = .register r pc) ∨
    ∃ s d, x = .parameter s ∧ e.wrapper.getD s [] ≠ [] ∧ Inside e d ∧ e.proto.id ≠ 0
  captures : ∀ m < n, ∀ d, frames[m]? = some d → d.proto.nups ≠ 0 ∧ d.proto.id ≠ 0 ∧
    e.proto.id ≠ d.proto.id ∧ ∃ d', Inside d d'

theorem registerName_ne_nil (p : Proto) (r pc : ℕ) (context : RenderContext) :
    renderedRegisterName p r pc context ≠ [] := by
  rcases registerName_cases p r pc context with h | h | ⟨-, -, entry, -, hvalid, h⟩
  · exact hasForm_ne_nil h
  · rw [h]
    exact List.cons_ne_nil _ _
  · rw [h]
    intro hnil
    rw [List.map_eq_nil_iff.1 hnil] at hvalid
    cases hvalid

theorem Variable.text_ne_nil {x : Variable} {name : List Char} (h : name ≠ []) : x.text name ≠ [] := by
  cases x with
  | register r pc => exact h
  | cell r => simp [Variable.text, content]
  | parameter slot => simp [Variable.text, content]

/-- The text of a captured upvalue is the text of the variable it is meant to denote. -/
theorem origin_found (hparse : parse data = .ok root) (h : Nest root (f :: g :: fs)) {slot n : ℕ}
    {x : Variable} (horigin : origin (f :: g :: fs) slot = some (n, x)) :
    ∃ e, Found (f :: g :: fs) slot n x f e := by
  induction hlen : fs.length using Nat.strong_induction_on generalizing f g fs slot n with
  | _ k ih =>
  have hinside := h.inside (h.accepted hparse (List.mem_cons_of_mem f List.mem_cons_self))
  have hlt := h.id_lt hparse
  unfold origin at horigin
  by_cases hslot : f.wrapper.getD slot [] ≠ []
  · rw [if_pos hslot] at horigin
    obtain ⟨rfl, rfl⟩ := Prod.mk.inj (Option.some.inj horigin)
    obtain ⟨capture, hcapture⟩ := hinside.captured hslot
    refine ⟨f, ⟨rfl, ?_, hslot, Or.inr ⟨slot, g, rfl, hslot, hinside, ?_⟩,
      fun m hm => absurd hm (Nat.not_lt_zero m)⟩⟩
    swap
    · have := hlt g List.mem_cons_self
      omega
    rw [hinside.upvalue_eq hcapture, if_pos hslot]
    rfl
  rw [if_neg hslot] at horigin
  cases hcapture : f.captures[slot]? with
  | none => simp [hcapture] at horigin
  | some capture =>
    rw [hcapture] at horigin
    dsimp only at horigin
    have htext := hinside.upvalue_eq hcapture
    rw [if_neg hslot] at htext
    have hsource := hinside.wrapper_eq hcapture
    rw [not_not.1 hslot] at hsource
    have hnups : f.proto.nups ≠ 0 := by
      have := (List.getElem?_eq_some_iff.1 hcapture).1
      have := hinside.nups
      omega
    have hid : f.proto.id ≠ 0 := by
      have := hlt g List.mem_cons_self
      omega
    by_cases hupvalue : capture.fromUpvalue = true
    · rw [if_pos hupvalue] at horigin htext
      obtain ⟨⟨n', x'⟩, hfound, heq⟩ := Option.map_eq_some_iff.1 horigin
      obtain ⟨rfl, rfl⟩ := Prod.mk.inj heq
      cases fs with
      | nil => cases hfound
      | cons g' fs =>
        obtain ⟨e, he⟩ := ih fs.length (by rw [← hlen]; exact Nat.lt_succ_self _) h.outer hfound rfl
        have hmem : e ∈ g :: g' :: fs := List.mem_of_getElem? he.frame
        have hne : textAt g.context.capturedUpvalues capture.sourceIndex ≠ [] := by
          rw [he.text]
          exact Variable.text_ne_nil he.nonempty
        refine ⟨e, ⟨he.frame, ?_, he.nonempty, he.kind, ?_⟩⟩
        · rw [htext, renderedUpvalue, if_pos hne, he.text]
        · intro m hm d hd
          cases m with
          | zero =>
            obtain rfl := Option.some.inj hd
            exact ⟨hnups, hid, (hlt e hmem).ne, g, hinside⟩
          | succ m => exact he.captures m (by omega) d hd
    · rw [if_neg hupvalue] at horigin htext
      obtain ⟨rfl, rfl⟩ := Prod.mk.inj (Option.some.inj horigin)
      have hunmanaged : managedCapturedLocal g.proto capture.sourceIndex = false := by
        rw [← Bool.not_eq_true]
        intro hmanaged
        unfold closureCaptureCellSource at hsource
        rw [if_neg hupvalue, if_pos hmanaged,
          if_neg (hasForm_ne_nil (hasForm_capturedCellName _ _))] at hsource
        exact hasForm_ne_nil (hasForm_parameterName _ _ _) hsource.symm
      refine ⟨g, ⟨rfl, ?_, registerName_ne_nil _ _ _ _, Or.inl ⟨_, _, rfl⟩, ?_⟩⟩
      · rw [htext]
        unfold renderedLocal
        rw [hunmanaged]
        rfl
      · intro m hm d hd
        obtain rfl : m = 0 := by omega
        obtain rfl := Option.some.inj hd
        exact ⟨hnups, hid, (hlt g List.mem_cons_self).ne, g, hinside⟩

/-- The cells that a function passes are denoted by their names. -/
theorem cell_denotes (hparse : parse data = .ok root) (h : Nest root (f :: g :: fs)) {slot : ℕ}
    (hslot : f.wrapper.getD slot [] ≠ []) : ∃ capture, f.captures[slot]? = some capture ∧
    Denotes (g :: fs) (closureCaptureCellSource g.proto capture g.context) 0 (cellOrigin capture) := by
  have hinside := h.inside (h.accepted hparse (List.mem_cons_of_mem f List.mem_cons_self))
  obtain ⟨capture, hcapture⟩ := hinside.captured hslot
  have hsource : closureCaptureCellSource g.proto capture g.context ≠ [] := by
    intro hnil
    rw [hinside.wrapper_eq hcapture, if_pos hnil] at hslot
    exact hslot rfl
  refine ⟨capture, hcapture, ⟨g, rfl, ?_⟩, fun m hm => absurd hm (Nat.not_lt_zero m)⟩
  unfold closureCaptureCellSource at hsource ⊢
  unfold cellOrigin
  by_cases hupvalue : capture.fromUpvalue = true
  · simp only [if_pos hupvalue] at hsource ⊢
    cases fs with
    | nil =>
      -- the main function gets no cell
      cases h.outer with
      | main _ _ hcontext =>
        rw [hcontext] at hsource
        exact absurd rfl hsource
    | cons g' fs =>
      have hinside' := h.outer.inside (h.outer.accepted hparse
        (List.mem_cons_of_mem g List.mem_cons_self))
      rw [hinside'.cell_eq] at hsource ⊢
      refine ⟨rfl, hinside'.parameter_not_inside ?_ hsource⟩
      have := h.outer.id_lt hparse g' List.mem_cons_self
      omega
  · simp only [if_neg hupvalue] at hsource ⊢
    split_ifs at hsource ⊢ with hmanaged
    · exact ⟨rfl, cell_not_inside g _⟩
    · exact absurd rfl hsource

/-- Every name that a nested function uses for what it captures denotes the captured variable,
exactly when the variables of the main function that are captured under a name of its debug table
are named apart from what is declared on the way. -/
theorem hygienic_iff (hparse : parse data = .ok root) (h : Nest root (f :: g :: fs)) :
    Hygienic f g fs ↔ MainNamesApart (f :: g :: fs) := by
  have hname : ∀ {e : Frame} {r pc}, e.proto.id = 0 → e.context.stateMachine = false →
      e.nameOf (.register r pc) = localReg e.proto r pc := by
    intro e r pc hid hmachine
    simp [Frame.nameOf, renderedRegisterName, hid, hmachine]
  constructor
  · intro hclean
    refine ⟨?_, ?_⟩
    · intro slot n r pc horigin e he hid hmachine name hdebug m hm d hd
      obtain ⟨name', ⟨⟨e', he', rfl, -⟩, hbetween⟩, -⟩ := hclean.upvalue slot n _ horigin
      obtain rfl := Option.some.inj (he.symm.trans he')
      rw [← localReg_of_debugName hdebug, ← hname hid hmachine]
      exact hbetween m hm d hd
    · intro slot n r pc horigin e he hid hmachine loop hloop hne heq
      obtain ⟨name', ⟨⟨e', he', rfl, hinside⟩, -⟩, -⟩ := hclean.upvalue slot n _ horigin
      obtain rfl := Option.some.inj (he.symm.trans he')
      refine hinside (List.mem_append_right _ (List.mem_map.2 ⟨loop, List.mem_filter.2 ⟨hloop, ?_⟩, ?_⟩))
      · simpa using hne
      · rw [hname hid hmachine, ← heq]
        exact hname hid hmachine
  · intro hapart
    refine ⟨fun slot hslot => cell_denotes hparse h hslot, fun slot n x horigin => ?_⟩
    obtain ⟨e, he⟩ := origin_found hparse h horigin
    refine ⟨e.nameOf x, ⟨⟨e, he.frame, rfl, ?_⟩, ?_⟩, he.text⟩
    · rcases he.kind with ⟨r, pc, rfl⟩ | ⟨s, d, rfl, hs, hinside, hid⟩
      · intro hmem
        rcases List.mem_append.1 hmem with hmem | hmem
        · exact register_not_marks e r pc hmem
        · obtain ⟨loop, hloop, hne, heq⟩ := mem_loopNames hmem
          have hne : loop.1 ≠ r := fun heq => hne (congrArg some heq)
          by_cases hmain : e.proto.id ≠ 0 ∨ e.context.stateMachine = true
          · exact hne (renderedRegisterName_injective hmain heq).symm
          · push Not at hmain
            obtain ⟨hid, hmachine⟩ := hmain
            have hmachine := Bool.eq_false_iff.2 hmachine
            rw [hname hid hmachine] at heq
            refine hapart.loops slot n r pc horigin e he.frame hid hmachine loop hloop hne ?_
            rw [heq]
            exact (hname hid hmachine).symm
      · exact hinside.parameter_not_inside hid hs
    · intro m hm d hd hmem
      obtain ⟨hnups, hid, hne, d', hinside⟩ := he.captures m hm d hd
      obtain ⟨tag, hform⟩ := hinside.declared_form hid hnups hmem
      rcases he.kind with ⟨r, pc, rfl⟩ | ⟨s, d'', rfl, hs, hinside', -⟩
      · rcases registerName_cases e.proto r pc e.context with hreg | hreg | ⟨hid, hmachine, hdebug⟩
        · exact hne (hreg.unique hform).2
        · rw [Frame.nameOf, hreg] at hform
          exact regName_not_form hform
        · exact hapart.between slot n r pc horigin e he.frame hid hmachine _ hdebug m hm d hd hmem
      · exact hne ((hinside'.parameter_form hs).unique hform).2

end Captured

/-! ## A name that is taken -/

/-- The function that the `CLOSURE` at `pc` creates. -/
def Frame.nested (g : Frame) (pc : ℕ) : Frame :=
  let i := g.proto.instr pc
  let child := g.proto.children.getD i.bx default
  let wrapper := captureCellParameters g.proto i child g.context
  { proto := child
    context := closureContext g.proto i g.context wrapper
    wrapper := wrapper
    captures := i.captures }

theorem nest_nested (root : Proto) {pc : ℕ} (hpc : IsExecutable root pc)
    (hop : (root.instr pc).op = .CLOSURE) :
    Nest root [Frame.nested { proto := root, context := {} } pc, { proto := root, context := {} }] :=
  .closure false (.main false rfl rfl rfl rfl) hpc hop rfl rfl rfl rfl

/-- `LOADK 0 0`, `CLOSURE 1 0`, which captures register 0, `RETURN 0 1`; the closure returns its
upvalue. The debug table may name register 0. -/
def capturing (locals : List (List UInt8)) : List UInt8 :=
  chunkHeader ++ namedFunctionBytes 0 0 0 2 [1, 36 + 64, 0, 30 + 8388608] [[1, 1]]
    [functionBytes 1 0 0 2 [4, 30 + 2 * 8388608] [] []] locals

/-- Without a debug table. -/
@[irreducible] def capturingUnnamed : Proto := mainOf (capturing [])

/-- With the name `__byteveil_f1_r0`, which the nested function gives its own register 0. -/
@[irreducible] def capturingNamed : Proto :=
  mainOf (capturing [entryBytes
    [95, 95, 98, 121, 116, 101, 118, 101, 105, 108, 95, 102, 49, 95, 114, 48] 1 4])

/-- The captured register keeps its name. -/
theorem capturingUnnamed_hygienic :
    Hygienic (Frame.nested { proto := capturingUnnamed, context := {} } 1)
      { proto := capturingUnnamed, context := {} } [] := by
  have hparse : parse (capturing []) = .ok capturingUnnamed := by
    unfold capturingUnnamed
    exact parse_mainOf (by decide +kernel)
  have hnames : ∀ e ∈ [Frame.nested { proto := capturingUnnamed, context := {} } 1,
      { proto := capturingUnnamed, context := {} }], debugNames e.proto = [] ∧ e.loops = [] := by
    intro e he
    rcases List.mem_cons.1 he with rfl | he
    · exact ⟨by decide +kernel, rfl⟩
    · rw [List.mem_singleton.1 he]
      exact ⟨by decide +kernel, rfl⟩
  refine (hygienic_iff hparse (nest_nested _ (by decide +kernel) (by decide +kernel))).2 ⟨?_, ?_⟩
  · intro slot n r pc _ e he _ _ name hdebug
    have hmem := hdebug.mem_debugNames
    rw [(hnames e (List.mem_of_getElem? he)).1] at hmem
    exact absurd hmem List.not_mem_nil
  · intro slot n r pc _ e he _ _ loop hloop
    rw [(hnames e (List.mem_of_getElem? he)).2] at hloop
    exact absurd hloop List.not_mem_nil

/-- The captured register is hidden by the register of the function that captures it. -/
theorem capturingNamed_hidden : (∃ data, parse data = .ok capturingNamed) ∧
    Nest capturingNamed [Frame.nested { proto := capturingNamed, context := {} } 1,
      { proto := capturingNamed, context := {} }] ∧
    ¬Hygienic (Frame.nested { proto := capturingNamed, context := {} } 1)
      { proto := capturingNamed, context := {} } [] := by
  have hparse : ∃ data, parse data = .ok capturingNamed := by
    unfold capturingNamed
    exact ⟨_, parse_mainOf (by decide +kernel)⟩
  refine ⟨hparse, nest_nested _ (by decide +kernel) (by decide +kernel), fun hclean => ?_⟩
  have horigin : origin [Frame.nested { proto := capturingNamed, context := {} } 1,
      { proto := capturingNamed, context := {} }] 0 = some (1, .register 0 2) := by
    decide +kernel
  obtain ⟨name, ⟨⟨e, he, rfl, -⟩, hbetween⟩, -⟩ := hclean.upvalue 0 1 _ horigin
  obtain rfl := Option.some.inj he
  exact hbetween 0 Nat.one_pos _ rfl (by decide +kernel)

end ByteVeil.Lua51
