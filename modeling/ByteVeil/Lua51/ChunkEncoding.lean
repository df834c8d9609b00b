import ByteVeil.Fallible.Replays
import ByteVeil.Lua51.ChunkBounds

/-!
# Chunks from prototypes

A prototype as a chunk, in both byte orders and with both widths of string lengths. Whatever `parse`
reads from some chunk, it reads again from the chunk that is written from the result, in every
format.
-/

namespace ByteVeil.Lua51

open Fallible

/-! ## Writing -/

/-- The byte order of a chunk, and whether string lengths have eight bytes. -/
structure ChunkFormat where
  little : Bool
  wide : Bool
  deriving DecidableEq

/-- `n` bytes of a number, the least significant first. -/
def lowBytes : ℕ → ℕ → List UInt8
  | 0, _ => []
  | n + 1, v => .ofNat v :: lowBytes n (v / 256)

/-- The bits of a floating-point number. -/
def Double.bits (d : Double) : ℕ := (if d.negative then 9223372036854775808 else 0) + d.magnitude

namespace ChunkFormat

variable (f : ChunkFormat)

/-- The width of a string length. -/
def sizeT : ℕ := if f.wide then 8 else 4

/-- A number of `n` bytes. -/
def number (n v : ℕ) : List UInt8 := if f.little then lowBytes n v else (lowBytes n v).reverse

/-- A signed number of 32 bits. -/
def signed (z : ℤ) : List UInt8 := f.number 4 (z % 4294967296).toNat

/-- A string; its length counts a final zero byte, and the empty string has the length zero. -/
def string (s : List UInt8) : List UInt8 :=
  if s = [] then f.number f.sizeT 0 else f.number f.sizeT (s.length + 1) ++ (s ++ f.number 1 0)

/-- A constant behind its tag. -/
def constant : Constant → List UInt8
  | .nil => f.number 1 0
  | .boolean b => f.number 1 1 ++ f.number 1 b.toNat
  | .number d => f.number 1 3 ++ f.number 8 d.bits
  | .string s => f.number 1 4 ++ f.string s

/-- A list behind the number of its elements. -/
def counted {α : Type} (text : α → List UInt8) (as : List α) : List UInt8 :=
  f.number 4 as.length ++ as.flatMap text

/-- The word of an instruction. -/
def instr (i : Instr) : List UInt8 := f.number 4 i.raw

/-- A local variable. -/
def localInfo (l : LocalInfo) : List UInt8 := f.string l.name ++ (f.signed l.start ++ f.signed l.stop)

/-- The part of a prototype before its children. -/
def prologue (p : Proto) : List UInt8 :=
  f.string p.source ++ (f.signed p.linedefined ++ (f.signed p.lastline ++ (f.number 1 p.nups ++
    (f.number 1 p.params ++ (f.number 1 p.vararg ++ (f.number 1 p.maxstack ++
      (f.counted f.instr p.code ++ f.counted f.constant p.constants)))))))

/-- The part of a prototype after its children. -/
def epilogue (p : Proto) : List UInt8 :=
  f.counted f.signed p.lines ++ (f.counted f.localInfo p.locals ++ f.counted f.string p.upvalues)

mutual

/-- A prototype. -/
def proto : Proto → List UInt8
  | ⟨id, parent, source, linedefined, lastline, nups, params, vararg, maxstack, code, constants,
      children, lines, locals, upvalues, capturedRegisters, managedCapturedRegisters⟩ =>
    let p : Proto :=
      ⟨id, parent, source, linedefined, lastline, nups, params, vararg, maxstack, code, constants,
        children, lines, locals, upvalues, capturedRegisters, managedCapturedRegisters⟩
    f.prologue p ++ (f.number 4 children.length ++ (protos children ++ f.epilogue p))

/-- Prototypes one behind the other. -/
def protos : List Proto → List UInt8
  | [] => []
  | p :: ps => proto p ++ protos ps

end

/-- The header of a chunk. -/
def header : List UInt8 :=
  [0x1b, 0x4c, 0x75, 0x61, 0x51, 0, if f.little then 1 else 0, 4, .ofNat f.sizeT, 4, 8, 0]

/-- A chunk with the main function `p`. -/
def chunk (p : Proto) : List UInt8 := f.header ++ f.proto p

theorem proto_eq (p : Proto) :
    f.proto p = f.prologue p ++ (f.number 4 p.children.length ++
      (p.children.flatMap f.proto ++ f.epilogue p)) := by
  have hprotos : ∀ ps, f.protos ps = ps.flatMap f.proto := by
    intro ps
    induction ps with
    | nil => rw [protos, List.flatMap_nil]
    | cons p ps ih => rw [protos, ih, List.flatMap_cons]
  cases p
  rw [proto, hprotos]

end ChunkFormat

/-! ## Numbers -/

theorem length_lowBytes (n v : ℕ) : (lowBytes n v).length = n := by
  induction n generalizing v with
  | zero => rfl
  | succ n ih => rw [lowBytes, List.length_cons, ih]

theorem bigValue_lowBytes {n v : ℕ} (h : v < 256 ^ n) :
    ChunkReader.bigValue (lowBytes n v).reverse = v := by
  induction n generalizing v with
  | zero =>
    obtain rfl : v = 0 := by simpa using h
    rfl
  | succ n ih =>
    have hdiv : v / 256 < 256 ^ n := by
      rw [pow_succ] at h
      omega
    have hbyte : (UInt8.ofNat v).toNat = v % 256 := UInt8.toNat_ofNat'
    rw [lowBytes, List.reverse_cons, ChunkReader.bigValue_append, ih hdiv, hbyte]
    omega

theorem signed32_mod {n : ℕ} (h : n < 4294967296) : (signed32 n % 4294967296).toNat = n := by
  unfold signed32
  split_ifs <;> omega

theorem bits_ofBits {n : ℕ} (h : n < 18446744073709551616) : (Double.ofBits n).bits = n := by
  unfold Double.ofBits Double.bits
  simp only [decide_eq_true_eq]
  split_ifs <;> omega

/-! ## Strings -/

/-- A string behind its length. -/
def stringBody (n : ℕ) : Read (List UInt8) := do
  if n = 0 then return []
  failIf (67108864 < n) "invalid Lua 5.1 string length"
  let s ← bytes (n - 1)
  let _ ← u8
  return s

theorem luaString_eq :
    luaString = get >>= fun r => (if r.sizeT = 4 then u32 else u64) >>= stringBody := by
  show (get >>= fun r => if r.sizeT = 4 then u32 >>= stringBody else u64 >>= stringBody) = _
  refine congrArg (get >>= ·) (funext fun r => ?_)
  split_ifs
  · rfl
  · rfl

theorem failIf_holds (bad : Prop) [Decidable bad] (error : String) :
    Yields (failIf bad error) fun _ => ¬bad := by
  unfold failIf
  split_ifs with hbad
  · intro r a r' h
    simp [throw, throwThe, MonadExceptOf.throw, StateT.lift, bind, Except.bind] at h
  · exact yields_pure hbad

theorem failIf_pass {bad : Prop} [Decidable bad] {error : String} (h : ¬bad) (r : Reader) :
    failIf bad error r = .ok ((), r) := by
  unfold failIf
  rw [if_neg h]
  rfl

/-- A string is shorter than 64 MiB. -/
theorem luaString_length : Yields luaString fun s => s.length < 67108864 := by
  rw [luaString_eq]
  refine Yields.skip fun r => Yields.skip fun n => ?_
  unfold stringBody
  split_ifs with hn
  · exact yields_pure (by decide)
  refine (failIf_holds _ _).bind fun _ hle => ?_
  refine Yields.bind (Q := fun s => s.length < 67108864) ?_ fun s hs => ?_
  · intro t s t' h
    rw [ChunkReader.bytes_run] at h
    split_ifs at h
    obtain ⟨rfl, -⟩ := Prod.mk.inj (Except.ok.inj h)
    rw [List.length_take]
    omega
  · exact Yields.skip fun _ => yields_pure hs

namespace ChunkFormat

variable (f : ChunkFormat)

theorem length_number (n v : ℕ) : (f.number n v).length = n := by
  unfold number
  split_ifs
  · exact length_lowBytes n v
  · rw [List.length_reverse, length_lowBytes]

/-! ## Reading again -/

/-- `t` reads the text `v` in this format, with the totals of `r`. -/
structure Reads (r t : Reader) (v : List UInt8) : Prop where
  rest : t.rest = v
  little : t.little = f.little
  sizeT : t.sizeT = f.sizeT
  totals : t.totals = r.totals

variable {f}

theorem Reads.pass {r t : Reader} {w v : List UInt8} (h : f.Reads r t (w ++ v)) :
    f.Reads r { t with rest := t.rest.drop w.length } v := by
  refine { h with rest := ?_ }
  show t.rest.drop w.length = v
  rw [h.rest, List.drop_left]

/-- A reader with the same totals can stand for the first one. -/
theorem Reads.of_totals {r s t : Reader} {v : List UInt8} (h : f.Reads r t v)
    (hs : s.totals = r.totals) : f.Reads s t v :=
  { h with totals := h.totals.trans hs.symm }

theorem Reads.bytes {r t : Reader} {w v : List UInt8} (h : f.Reads r t (w ++ v)) :
    ∃ t', Lua51.bytes w.length t = .ok (w, t') ∧ f.Reads r t' v := by
  refine ⟨_, ?_, h.pass⟩
  have hlong : ¬t.rest.length < w.length := by
    rw [h.rest, List.length_append]
    omega
  rw [ChunkReader.bytes_run, if_neg hlong, h.rest, List.take_left]

theorem Reads.unsigned {r t : Reader} {n m : ℕ} {v : List UInt8} (h : f.Reads r t (f.number n m ++ v))
    (hm : m < 256 ^ n) : ∃ t', Lua51.unsigned n t = .ok (m, t') ∧ f.Reads r t' v := by
  have hlength := f.length_number n m
  have hlong : ¬t.rest.length < n := by
    rw [h.rest, List.length_append, hlength]
    omega
  have htake : t.rest.take n = f.number n m := by
    rw [h.rest]
    exact List.take_left' hlength
  have hpass := h.pass
  rw [hlength] at hpass
  refine ⟨_, ?_, hpass⟩
  rw [ChunkReader.unsigned_run, if_neg hlong, htake, h.little]
  congr 2
  unfold number
  cases f.little with
  | true => exact bigValue_lowBytes hm
  | false => exact bigValue_lowBytes hm

/-- The length of a string. -/
theorem Reads.stringLength {r t : Reader} {n : ℕ} {v : List UInt8}
    (h : f.Reads r t (f.number f.sizeT n ++ v)) (hn : n < 4294967296) :
    ∃ t', (if t.sizeT = 4 then u32 else u64) t = .ok (n, t') ∧ f.Reads r t' v := by
  have hsizeT := h.sizeT
  unfold ChunkFormat.sizeT at h hsizeT
  cases hwide : f.wide with
  | true =>
    rw [hwide, if_pos rfl] at h hsizeT
    rw [hsizeT, if_neg (by decide)]
    exact h.unsigned (by omega)
  | false =>
    rw [hwide, if_neg Bool.false_ne_true] at h hsizeT
    rw [hsizeT, if_pos rfl]
    exact h.unsigned (by omega)

theorem Reads.luaString {r t : Reader} {s v : List UInt8} (h : f.Reads r t (f.string s ++ v))
    (hs : s.length < 67108864) : ∃ t', Lua51.luaString t = .ok (s, t') ∧ f.Reads r t' v := by
  rw [luaString_eq]
  unfold ChunkFormat.string at h
  by_cases hnil : s = []
  · rw [if_pos hnil] at h
    obtain ⟨t', hlength, ht'⟩ := h.stringLength (by decide)
    refine ⟨t', read_bind_ok.2 ⟨t, t, rfl, read_bind_ok.2 ⟨0, t', hlength, ?_⟩⟩, ht'⟩
    rw [hnil]
    rfl
  · rw [if_neg hnil, List.append_assoc, List.append_assoc] at h
    obtain ⟨t₁, hlength, h₁⟩ := h.stringLength (by omega)
    obtain ⟨t₂, hbytes, h₂⟩ := h₁.bytes
    obtain ⟨t₃, hzero, h₃⟩ := h₂.unsigned (n := 1) (m := 0) (by decide)
    refine ⟨t₃, read_bind_ok.2 ⟨t, t, rfl, read_bind_ok.2 ⟨s.length + 1, t₁, hlength, ?_⟩⟩, h₃⟩
    unfold stringBody
    rw [if_neg (Nat.succ_ne_zero s.length)]
    refine read_bind_ok.2 ⟨(), t₁, ?_, read_bind_ok.2 ⟨s, t₂, hbytes, ?_⟩⟩
    · exact failIf_pass (by omega) t₁
    · exact read_bind_ok.2 ⟨0, t₃, hzero, rfl⟩

/-! ## Parts of a prototype -/

/-- The text of the part is read again with the same result. -/
abbrev Rereads (f : ChunkFormat) {α : Type} (x : Read α) (T : α → List UInt8 → Prop) : Prop :=
  Replays f.Reads x T

theorem rereads_failIf (bad : Prop) [Decidable bad] (error : String) :
    f.Rereads (failIf bad error) fun _ w => ¬bad ∧ w = [] := by
  unfold failIf
  split_ifs with hbad
  · exact replays_throw error
  · exact replays_pure ⟨hbad, rfl⟩

theorem rereads_unsigned (n : ℕ) :
    f.Rereads (unsigned n) fun m w => m < 256 ^ n ∧ w = f.number n m := by
  intro r m r' h
  have htotals : r'.totals = r.totals := moves_unsigned blind_free n _ _ _ h
  have hm : m < 256 ^ n := by
    rw [ChunkReader.unsigned_run] at h
    by_cases hlong : r.rest.length < n
    · rw [if_pos hlong] at h
      cases h
    rw [if_neg hlong] at h
    obtain ⟨rfl, -⟩ := Prod.mk.inj (Except.ok.inj h)
    refine (ChunkReader.bigValue_lt _).trans_le (Nat.pow_le_pow_right (by decide) ?_)
    rw [apply_ite List.length, List.length_reverse, ite_self, List.length_take]
    exact Nat.min_le_left n _
  refine ⟨f.number n m, ⟨hm, rfl⟩, fun t v ht => ?_⟩
  obtain ⟨t', hrun, ht'⟩ := ht.unsigned hm
  exact ⟨t', hrun, ht'.of_totals htotals⟩

theorem rereads_i32 : f.Rereads i32 fun z w => w = f.signed z := by
  refine (rereads_unsigned 4).bind fun n w hn => replays_pure ?_
  unfold signed
  rw [signed32_mod (by omega), hn.2, List.append_nil]

theorem rereads_luaString : f.Rereads luaString fun s w => w = f.string s := by
  intro r s r' h
  have htotals : r'.totals = r.totals := moves_luaString blind_free _ _ _ h
  refine ⟨f.string s, rfl, fun t v ht => ?_⟩
  obtain ⟨t', hrun, ht'⟩ := ht.luaString (luaString_length r s r' h)
  exact ⟨t', hrun, ht'.of_totals htotals⟩

/-- Every byte except zero stands for `true`. -/
theorem rereads_boolean : f.Rereads (do return Constant.boolean ((← u8) != 0)) fun c w =>
    ∃ b, c = .boolean b ∧ w = f.number 1 b.toNat := by
  intro r c r' h
  obtain ⟨n, s, hn, hret⟩ := read_bind_ok.1 h
  obtain ⟨rfl, rfl⟩ := Prod.mk.inj (Except.ok.inj hret)
  have htotals : s.totals = r.totals := moves_unsigned blind_free 1 _ _ _ hn
  refine ⟨f.number 1 (n != 0).toNat, ⟨n != 0, rfl, rfl⟩, fun t v ht => ?_⟩
  have hlt : (n != 0).toNat < 256 ^ 1 := (Bool.toNat_le _).trans_lt (by decide)
  obtain ⟨t', hrun, ht'⟩ := ht.unsigned hlt
  refine ⟨t', read_bind_ok.2 ⟨_, t', hrun, ?_⟩, ht'.of_totals htotals⟩
  have hsame : ((n != 0).toNat != 0) = (n != 0) := by cases n != 0 <;> rfl
  rw [hsame]
  rfl

theorem rereads_constant : f.Rereads Lua51.constant fun c w => w = f.constant c := by
  refine (rereads_unsigned 1).bind fun tag w htag => ?_
  obtain ⟨-, rfl⟩ := htag
  split
  · exact replays_pure (List.append_nil _)
  · refine rereads_boolean.mono fun c w hc => ?_
    obtain ⟨b, rfl, rfl⟩ := hc
    rfl
  · refine (rereads_unsigned 8).bind fun bits w hbits => replays_pure ?_
    rw [constant, bits_ofBits (by omega), hbits.2, List.append_nil]
  · refine rereads_luaString.bind fun s w hs => replays_pure ?_
    rw [constant, hs, List.append_nil]
  · exact replays_throw _

/-- A list behind the number of its elements, which a budget is charged for. -/
theorem rereads_counted {α : Type} {item : Read α} {text : α → List UInt8}
    (hitem : f.Rereads item fun a w => w = text a) (total : Reader → ℕ)
    (take : ℕ → Reader → Reader) (charge : ℕ → Charge) (error : String)
    (htotal : ∀ r t, t.totals = r.totals → total t = total r)
    (htake : ∀ n r, (take n r).totals = r.totals + charge n)
    (hkeep : ∀ n r, (take n r).rest = r.rest ∧ (take n r).little = r.little ∧
      (take n r).sizeT = r.sizeT) :
    f.Rereads (u32 >>= fun n => get >>= fun r => failIf (1000000 < total r + n) error >>= fun _ =>
      set (take n r) >>= fun _ => many n item) fun as w => w = f.counted text as := by
  refine (rereads_unsigned 4).bind fun n w hn => ?_
  refine replays_update (fun _ _ _ h => failIf_state h) (fun r t v ht => ⟨fun h => ?_, ?_, rfl⟩)
    fun _ => ?_
  · have hle := failIf_holds _ _ _ _ _ h
    exact failIf_pass (htotal r t ht.totals ▸ hle) t
  · obtain ⟨hsame, hlittle, hsizeT⟩ := hkeep n t
    refine ⟨hsame.trans ht.rest, hlittle.trans ht.little, hsizeT.trans ht.sizeT, ?_⟩
    rw [htake, htake, ht.totals]
  · refine (hitem.replicate n).mono fun as u has => ?_
    obtain ⟨rfl, rfl⟩ := has
    rw [hn.2, counted]

/-- The instructions keep their words. -/
theorem decodeCode_raw {rawCode : List ℕ} {code : List Instr} (h : decodeCode rawCode = .ok code) :
    code.map Instr.raw = rawCode := by
  unfold decodeCode at h
  obtain ⟨⟨code', flag⟩, hs, hret⟩ := except_bind_ok.1 h
  obtain rfl := pure_ok.1 hret
  have htake := foldlM_range_invariant
    (P := fun n (s : List Instr × Bool) => s.1.map Instr.raw = (List.range n).map (rawCode.getD · 0))
    ?_ rawCode.length rfl hs
  · rw [htake]
    refine List.ext_getElem (by simp) fun k hk hk' => ?_
    rw [List.getElem_map, List.getElem_range, List.getD_eq_getElem _ _ hk']
  · rintro n ⟨code, extra⟩ ⟨code', extra'⟩ hn hstep
    unfold decodeStep at hstep
    dsimp only at hstep hn
    split_ifs at hstep
    · obtain ⟨rfl, rfl⟩ := Prod.mk.inj (pure_ok.1 hstep)
      rw [List.map_append, hn, List.range_succ, List.map_append]
      rfl
    · obtain ⟨rfl, rfl⟩ := Prod.mk.inj (pure_ok.1 hstep)
      rw [List.map_append, hn, List.range_succ, List.map_append]
      rfl

theorem counted_instr (code : List Instr) :
    f.counted f.instr code = f.counted (f.number 4) (code.map Instr.raw) := by
  unfold counted
  rw [List.length_map, List.flatMap_map]
  rfl

theorem rereads_readCode : f.Rereads readCode fun code w => w = f.counted f.instr code := by
  have hwords := rereads_counted (f := f) ((rereads_unsigned 4).mono fun _ _ h => h.2)
    (·.totalInstructions) (fun n r => { r with totalInstructions := r.totalInstructions + n })
    (fun n => (n, 0, 0, 0)) "Lua instruction limit exceeded"
    (fun _ _ h => congrArg (·.1) h) (fun _ _ => rfl) fun _ _ => ⟨rfl, rfl, rfl⟩
  have hcode := hwords.bind (T := fun code w => w = f.counted f.instr code)
    (f := fun rawCode => liftM (decodeCode rawCode)) fun rawCode w hw =>
      replays_lift fun code hcode => by
        rw [hw, List.append_nil, counted_instr, decodeCode_raw hcode]
  simp only [bind_assoc] at hcode
  exact hcode

theorem rereads_readConstants : f.Rereads readConstants fun cs w => w = f.counted f.constant cs :=
  rereads_counted rereads_constant _ _ (fun n => (0, n, 0, 0)) _ (fun _ _ h => congrArg (·.2.1) h)
    (fun _ _ => rfl) fun _ _ => ⟨rfl, rfl, rfl⟩

theorem rereads_debugList {α : Type} {item : Read α} {text : α → List UInt8}
    (hitem : f.Rereads item fun a w => w = text a) (error : String) :
    f.Rereads (debugList error item) fun as w => w = f.counted text as :=
  rereads_counted hitem _ _ (fun n => (0, 0, n, 0)) error (fun _ _ h => congrArg (·.2.2.1) h)
    (fun _ _ => rfl) fun _ _ => ⟨rfl, rfl, rfl⟩

/-! ## Prototypes -/

theorem rereads_readPrologue (levels : ℕ) (parent : ℤ) :
    f.Rereads (readPrologue levels parent) fun p w => w = f.prologue p := by
  unfold readPrologue
  refine (rereads_failIf _ _).bind fun _ w₀ h₀ => ?_
  obtain ⟨-, rfl⟩ := h₀
  refine replays_update (fun _ _ _ h => failIf_state h) (fun r t v ht => ?_) fun r => ?_
  · have heq : t.totalPrototypes = r.totalPrototypes := congrArg (·.2.2.2) ht.totals
    refine ⟨fun h => ?_, ?_, ?_⟩
    · have hle := failIf_holds _ _ _ _ _ h
      exact failIf_pass (heq ▸ hle) t
    · refine ⟨ht.rest, ht.little, ht.sizeT, ?_⟩
      have hinstructions : t.totalInstructions = r.totalInstructions := congrArg (·.1) ht.totals
      have hconstants : t.totalConstants = r.totalConstants := congrArg (·.2.1) ht.totals
      have hentries : t.totalDebugEntries = r.totalDebugEntries := congrArg (·.2.2.1) ht.totals
      unfold Reader.totals
      rw [hinstructions, hconstants, hentries, heq]
    · rw [heq]
  refine rereads_luaString.bind fun source w₁ h₁ => ?_
  refine rereads_i32.bind fun linedefined w₂ h₂ => ?_
  refine rereads_i32.bind fun lastline w₃ h₃ => ?_
  refine (rereads_unsigned 1).bind fun nups w₄ h₄ => ?_
  refine (rereads_unsigned 1).bind fun params w₅ h₅ => ?_
  refine (rereads_unsigned 1).bind fun vararg w₆ h₆ => ?_
  refine (rereads_unsigned 1).bind fun maxstack w₇ h₇ => ?_
  refine (rereads_failIf _ _).bind fun _ w₈ h₈ => ?_
  refine rereads_readCode.bind fun code w₉ h₉ => ?_
  refine rereads_readConstants.bind fun constants w h => replays_pure ?_
  rw [h₁, h₂, h₃, h₄.2, h₅.2, h₆.2, h₇.2, h₈.2, h₉, h, List.append_nil, List.nil_append,
    List.nil_append]
  rfl

theorem rereads_localInfo :
    f.Rereads (do return { name := ← luaString, start := signed32 (← u32), stop := signed32 (← u32) })
      fun l w => w = f.localInfo l := by
  refine rereads_luaString.bind fun name w hname => ?_
  refine (rereads_unsigned 4).bind fun start u hstart => ?_
  refine (rereads_unsigned 4).bind fun stop v hstop => replays_pure ?_
  unfold localInfo signed
  rw [signed32_mod (by omega), signed32_mod (by omega), hname, hstart.2, hstop.2, List.append_nil]

theorem rereads_readEpilogue (p : Proto) :
    f.Rereads (readEpilogue p) fun q w => (∃ lines locals upvalues,
      q = { p with lines := lines, locals := locals, upvalues := upvalues }) ∧ w = f.epilogue q := by
  refine (rereads_debugList rereads_i32 _).bind fun lines w hlines => ?_
  refine (rereads_debugList rereads_localInfo _).bind fun locals u hlocals => ?_
  refine (rereads_debugList rereads_luaString _).bind fun upvalues v hupvalues => replays_pure ?_
  refine ⟨⟨lines, locals, upvalues, rfl⟩, ?_⟩
  rw [hlines, hlocals, hupvalues, List.append_nil]
  rfl

/-- The association pass changes nothing that is written. -/
theorem finishProto_text {p q : Proto} (h : finishProto p = .ok q) : f.proto q = f.proto p := by
  unfold finishProto at h
  obtain ⟨p', hp', h⟩ := except_bind_ok.1 h
  obtain ⟨⟨⟩, -, h⟩ := except_bind_ok.1 h
  obtain rfl := pure_ok.1 h
  unfold associateClosureCaptures at hp'
  obtain ⟨s, hs, hret⟩ := except_bind_ok.1 hp'
  obtain rfl := pure_ok.1 hret
  have hraw : s.code.map Instr.raw = p.code.map Instr.raw := by
    have hbase := congrArg (List.map Instr.raw) (associateFrom_base hs)
    rwa [List.map_map, List.map_map] at hbase
  rw [proto_eq, proto_eq]
  unfold prologue
  rw [counted_instr, counted_instr, hraw]
  rfl

theorem rereads_parseProto (levels : ℕ) (parent : ℤ) :
    f.Rereads (parseProto levels parent) fun p w => w = f.proto p := by
  induction levels generalizing parent with
  | zero =>
    unfold parseProto
    refine Replays.bind (P := fun _ _ => False) ?_ fun _ _ h => h.elim
    unfold readPrologue
    refine (rereads_failIf _ _).bind fun _ _ h => absurd rfl h.1
  | succ levels ih =>
    unfold parseProto
    refine (rereads_readPrologue _ _).bind fun p w₁ h₁ => ?_
    refine (rereads_unsigned 4).bind fun np w₂ h₂ => ?_
    refine (rereads_failIf _ _).bind fun _ w₃ h₃ => ?_
    refine ((ih p.id).replicate np).bind fun children w₄ h₄ => ?_
    refine (rereads_readEpilogue _).bind fun q w₅ h₅ => replays_lift fun q' hq' => ?_
    obtain ⟨⟨lines, locals, upvalues, rfl⟩, h₅⟩ := h₅
    rw [finishProto_text hq', proto_eq, h₁, h₂.2, h₃.2, ← h₄.1, h₄.2, h₅, List.append_nil,
      List.nil_append]
    rfl

/-! ## Chunks -/

theorem header_run (f : ChunkFormat) (v : List UInt8) :
    Lua51.header { rest := f.header ++ v } =
      .ok ((), { rest := v, little := f.little, sizeT := f.sizeT }) := by
  obtain ⟨little, wide⟩ := f
  cases little <;> cases wide <;> rfl

/-- A chunk is accepted when the main function ends it. -/
theorem parse_ok {data : List UInt8} {root : Proto} :
    parse data = .ok root ↔ ∃ r r', Lua51.header { rest := data } = .ok ((), r) ∧
      parseProto 129 (-1) r = .ok (root, r') ∧ r'.rest = [] := by
  unfold parse
  rw [except_bind_ok]
  constructor
  · rintro ⟨⟨p, r'⟩, hrun, hret⟩
    obtain ⟨_, r, hheader, hproto⟩ := read_bind_ok.1 hrun
    dsimp only at hret
    split_ifs at hret with hrest
    · simp [throw, throwThe, MonadExceptOf.throw, bind, Except.bind] at hret
    · obtain rfl := pure_ok.1 hret
      exact ⟨r, r', hheader, hproto, not_not.1 hrest⟩
  · rintro ⟨r, r', hheader, hproto, hrest⟩
    refine ⟨(root, r'), read_bind_ok.2 ⟨(), r, hheader, hproto⟩, ?_⟩
    dsimp only
    rw [if_neg (not_not.2 hrest)]
    rfl

/-- What `parse` reads from a chunk it reads again from the chunk that is written from the result, in
both byte orders and with both widths of string lengths. -/
theorem parse_chunk {data : List UInt8} {root : Proto} (h : parse data = .ok root) (f : ChunkFormat) :
    parse (f.chunk root) = .ok root := by
  obtain ⟨r, r', hheader, hproto, hrest⟩ := parse_ok.1 h
  obtain ⟨w, rfl, hagain⟩ := rereads_parseProto (f := f) 129 (-1) r root r' hproto
  have htotals : r.totals = 0 := moves_header _ _ _ hheader
  have hreads : f.Reads r { rest := f.proto root ++ [], little := f.little, sizeT := f.sizeT }
      (f.proto root ++ []) := ⟨rfl, rfl, rfl, htotals.symm⟩
  obtain ⟨t', hrun, ht'⟩ := hagain _ [] hreads
  rw [List.append_nil] at hrun
  exact parse_ok.2 ⟨_, t', header_run f (f.proto root), hrun, ht'.rest⟩

end ChunkFormat

/-- A function with a nested one, which captures a register; the byte of its boolean is not canonical. -/
def capturingChunk : List UInt8 :=
  chunkHeader ++ functionBytes 0 0 2 2 [36 + 64, 0, 30 + 8388608] [[1, 7]]
    [functionBytes 1 0 0 2 [4, 30 + 2 * 8388608] [] []]

theorem capturingChunk_again :
    parse (ChunkFormat.chunk ⟨false, true⟩ (mainOf capturingChunk)) = .ok (mainOf capturingChunk) :=
  ChunkFormat.parse_chunk (parse_mainOf (by decide +kernel)) ⟨false, true⟩

end ByteVeil.Lua51
