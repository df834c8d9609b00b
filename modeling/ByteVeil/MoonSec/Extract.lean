import ByteVeil.MoonSec.Agreement

/-!
# Extracting a payload

`extract` tries every literal of a source with every key and keeps the payload with the best score;
`inspectVirtualIR` decodes it once more from the texts of its layout and its tags.
-/

namespace ByteVeil.MoonSec

/-- `Payload`. -/
structure Payload where
  bytes : List UInt8
  sourceOffset : ℕ
  key : ℕ
  prototypeLayout : String
  constantTags : String
  functions : ℕ
  instructions : ℕ
  constants : ℕ
  checksum : String

/-- `checksum`. -/
def checksum (bytes : List UInt8) : String :=
  let value : UInt64 := bytes.foldl (fun value byte => (value ^^^ byte.toUInt64) * 1099511628211)
    14695981039346656037
  let digits := Nat.toDigits 16 value.toNat
  "fnv1a64:" ++ String.ofList (List.replicate (16 - digits.length) '0' ++ digits)

/-- `probe`, and what `extract` adds to its outcome. -/
def probe (bytes : List UInt8) (sourceOffset key : ℕ) : Option Payload :=
  (bestCandidate bytes).map fun best =>
    { bytes := bytes, sourceOffset := sourceOffset, key := key
      prototypeLayout := layoutName best.layout, constantTags := tagName best.tags
      functions := best.metrics.functions, instructions := best.metrics.instructions
      constants := best.metrics.constants, checksum := checksum bytes }

/-- The score of a payload. -/
def Payload.score (p : Payload) : ℕ :=
  min p.instructions 1000000 + min p.functions 100000 * 3 + min p.constants 100000

/-- One round of `extract`. -/
def tryLiteral (best : Option Payload) (attempt : Literal × ℕ) : Option Payload :=
  match probe (decodeAlphabetPayload attempt.1.value attempt.2) attempt.1.offset attempt.2 with
  | none => best
  | some candidate =>
    match best with
    | none => some candidate
    | some other =>
      if other.score < candidate.score ∨
          (candidate.score = other.score ∧ candidate.sourceOffset < other.sourceOffset) then
        some candidate
      else best

/-- The literals and keys in the order of the loops of `extract`. -/
def literalAttempts (source : List UInt8) : List (Literal × ℕ) :=
  ((stringsInSource source).filter fun literal => alphabetCandidate literal.value).flatMap
    fun literal => (List.range 256).map fun key => (literal, key)

/-- `extract`. -/
def extract (source : List UInt8) : Except String Payload :=
  if hasMoonSecMarker source then
    match (literalAttempts source).foldl tryLiteral none with
    | some payload => .ok payload
    | none =>
      .error "no alphabet-encoded MoonSec V3 serialized prototype passed structural validation"
  else .error "MoonSec V3 marker is not visible"

/-- The answers of `inspectVirtualIR`. -/
inductive VirtualIR
  | notRecovered (recognized : Bool) (reason : String)
  | internalDecodeError
  | extracted (payload : Payload) (root : VirtualFunction)

/-- `inspectVirtualIR`. -/
def inspectVirtualIR (source : List UInt8) : VirtualIR :=
  match extract source with
  | .error reason => .notRecovered (hasMoonSecMarker source) reason
  | .ok payload =>
    match decodeLayout payload.prototypeLayout, decodeTags payload.constantTags with
    | some layout, some tags =>
      match VirtualTreeReader.parse payload.bytes layout tags with
      | some root => .extracted payload root
      | none => .internalDecodeError
    | _, _ => .internalDecodeError

/-! ## The texts -/

theorem getlines_append {part : List Char} (hpart : ',' ∉ part) (line rest : List Char) :
    getlines line (part ++ rest) = getlines (line ++ part) rest := by
  induction part generalizing line with
  | nil => rw [List.nil_append, List.append_nil]
  | cons c part ih =>
    rw [List.mem_cons, not_or] at hpart
    rw [List.cons_append, getlines, if_neg (Ne.symm hpart.1), ih hpart.2, List.append_assoc]
    rfl

/-- Lines that are joined with commas are read back. -/
theorem getlines_intercalate {parts : List (List Char)} (hcomma : ∀ part ∈ parts, ',' ∉ part)
    (hne : ∀ part ∈ parts, part ≠ []) : getlines [] ([','].intercalate parts) = parts := by
  induction parts with
  | nil => rfl
  | cons part parts ih =>
    obtain ⟨hpart, hcomma⟩ := List.forall_mem_cons.1 hcomma
    obtain ⟨hpartne, hne⟩ := List.forall_mem_cons.1 hne
    cases parts with
    | nil =>
      have hsingle := getlines_append hpart [] []
      rw [List.append_nil] at hsingle
      rw [List.intercalate_singleton, hsingle, List.nil_append, getlines, if_neg hpartne]
    | cons other parts =>
      rw [List.intercalate_cons_cons, List.append_assoc, getlines_append hpart, List.nil_append,
        List.singleton_append, getlines, if_pos rfl, ih hcomma hne]

theorem Step.name_spec (step : Step) : ',' ∉ step.name.toList ∧ step.name.toList ≠ [] ∧
    stepOf step.name.toList = some step := by
  cases step <;> decide

/-- A layout is read back from its name. -/
theorem decodeLayout_layoutName {layout : List Step} (hlength : layout.length = 4) :
    decodeLayout (layoutName layout) = some layout := by
  have hlines : getlines [] (layoutName layout).toList = layout.map fun step => step.name.toList := by
    unfold layoutName
    rw [String.toList_intercalate, List.map_map]
    refine getlines_intercalate ?_ ?_
    · exact List.forall_mem_map.2 fun step _ => step.name_spec.1
    · exact List.forall_mem_map.2 fun step _ => step.name_spec.2.1
  have hmap : ∀ l : List Step, (l.map fun step => step.name.toList).mapM stepOf = some l := by
    intro l
    induction l with
    | nil => rfl
    | cons step l ih =>
      rw [List.map_cons, List.mapM_cons, step.name_spec.2.2, ih]
      rfl
  unfold decodeLayout
  rw [hlines, hmap, Option.bind_eq_bind, Option.bind_some, if_pos hlength]

theorem tagText_spec (kind : ConstantKind) {n : ℕ} (hn : n < 4) :
    ',' ∉ (tagText (kind, n)).toList ∧ (tagText (kind, n)).toList ≠ [] ∧
      ∀ tags, decodeTag tags (tagText (kind, n)).toList = some (tags.set n kind) := by
  match n, hn with
  | 0, _ => cases kind <;> exact ⟨by decide, by decide, fun _ => rfl⟩
  | 1, _ => cases kind <;> exact ⟨by decide, by decide, fun _ => rfl⟩
  | 2, _ => cases kind <;> exact ⟨by decide, by decide, fun _ => rfl⟩
  | 3, _ => cases kind <;> exact ⟨by decide, by decide, fun _ => rfl⟩

/-- A tag table is read back from its name. -/
theorem decodeTags_tagName {tags : List ConstantKind} (hlength : tags.length = 4) :
    decodeTags (tagName tags) = some tags := by
  obtain ⟨k₀, k₁, k₂, k₃, rfl⟩ := List.length_eq_four.1 hlength
  have hspec : ∀ tag ∈ [(k₀, 0), (k₁, 1), (k₂, 2), (k₃, 3)], ',' ∉ (tagText tag).toList ∧
      (tagText tag).toList ≠ [] ∧
      ∀ tags, decodeTag tags (tagText tag).toList = some (tags.set tag.2 tag.1) := by
    simp only [List.forall_mem_cons]
    exact ⟨tagText_spec k₀ (by decide), tagText_spec k₁ (by decide), tagText_spec k₂ (by decide),
      tagText_spec k₃ (by decide), fun _ h => by cases h⟩
  have hlines : getlines [] (tagName [k₀, k₁, k₂, k₃]).toList =
      [(k₀, 0), (k₁, 1), (k₂, 2), (k₃, 3)].map fun tag => (tagText tag).toList := by
    unfold tagName
    rw [String.toList_intercalate, List.map_map]
    refine getlines_intercalate ?_ ?_
    · exact List.forall_mem_map.2 fun tag htag => (hspec tag htag).1
    · exact List.forall_mem_map.2 fun tag htag => (hspec tag htag).2.1
  have hset : ∀ (l : List (ConstantKind × ℕ)) (tags : List ConstantKind),
      (∀ tag ∈ l, ∀ tags, decodeTag tags (tagText tag).toList = some (tags.set tag.2 tag.1)) →
      (l.map fun tag => (tagText tag).toList).foldlM decodeTag tags =
        some (l.foldl (fun tags tag => tags.set tag.2 tag.1) tags) := by
    intro l
    induction l with
    | nil => exact fun _ _ => rfl
    | cons tag l ih =>
      intro tags hl
      obtain ⟨htag, hl⟩ := List.forall_mem_cons.1 hl
      rw [List.map_cons, List.foldlM_cons, htag]
      exact ih _ hl
  unfold decodeTags
  rw [hlines, hset _ _ fun tag htag => (hspec tag htag).2.2]
  rfl

/-! ## What is extracted -/

/-- A fold that keeps its value or takes a new one with the property ends with the property. -/
theorem foldl_of_step {α β : Type} {step : Option β → α → Option β} {P : β → Prop} {l : List α}
    (hstep : ∀ best, ∀ a ∈ l, ∀ c, step best a = some c → best = some c ∨ P c) {start : Option β}
    (hstart : ∀ c, start = some c → P c) {c : β} (h : l.foldl step start = some c) : P c := by
  induction l generalizing start with
  | nil => exact hstart c h
  | cons a l ih =>
    refine ih (fun best a' ha' => hstep best a' (List.mem_cons_of_mem _ ha')) (fun c hc => ?_) h
    rcases hstep start a List.mem_cons_self c hc with hkept | hnew
    · exact hstart c hkept
    · exact hnew

theorem bestCandidate_parse {bytes : List UInt8} {best : Candidate}
    (h : bestCandidate bytes = some best) : (best.layout, best.tags) ∈ attempts ∧
      SerializedReader.parse bytes best.layout best.tags = some best.metrics := by
  refine foldl_of_step (P := fun c : Candidate => (c.layout, c.tags) ∈ attempts ∧
    SerializedReader.parse bytes c.layout c.tags = some c.metrics) ?_ (fun _ h => by cases h) h
  intro best attempt hattempt c hc
  unfold tryCandidate at hc
  cases hparse : SerializedReader.parse bytes attempt.1 attempt.2 with
  | none =>
    rw [hparse] at hc
    exact .inl hc
  | some metrics =>
    rw [hparse] at hc
    have hnew : ∀ c, some (⟨scoreOf metrics, metrics, attempt.1, attempt.2⟩ : Candidate) = some c →
        (c.layout, c.tags) ∈ attempts ∧
          SerializedReader.parse bytes c.layout c.tags = some c.metrics := by
      rintro c heq
      obtain rfl := Option.some.inj heq
      exact ⟨hattempt, hparse⟩
    cases best with
    | none => exact .inr (hnew c hc)
    | some other =>
      dsimp only at hc
      split_ifs at hc
      · exact .inr (hnew c hc)
      · exact .inl hc

/-- A payload carries the names of the best layout and the best tags for its bytes. -/
def Payload.Probed (p : Payload) : Prop := ∃ best, bestCandidate p.bytes = some best ∧
  p.prototypeLayout = layoutName best.layout ∧ p.constantTags = tagName best.tags

theorem probe_probed {bytes : List UInt8} {sourceOffset key : ℕ} {p : Payload}
    (h : probe bytes sourceOffset key = some p) : p.Probed := by
  obtain ⟨best, hbest, rfl⟩ := Option.map_eq_some_iff.1 h
  exact ⟨best, hbest, rfl, rfl⟩

theorem extract_probed {source : List UInt8} {p : Payload} (h : extract source = .ok p) :
    p.Probed := by
  unfold extract at h
  split_ifs at h
  cases hfold : (literalAttempts source).foldl tryLiteral none with
  | none =>
    rw [hfold] at h
    cases h
  | some payload =>
    rw [hfold] at h
    obtain rfl := Except.ok.inj h
    refine foldl_of_step ?_ (fun _ h => by cases h) hfold
    intro best attempt _ c hc
    unfold tryLiteral at hc
    cases hprobe : probe (decodeAlphabetPayload attempt.1.value attempt.2) attempt.1.offset
        attempt.2 with
    | none =>
      rw [hprobe] at hc
      exact .inl hc
    | some candidate =>
      rw [hprobe] at hc
      have hnew : ∀ c, some candidate = some c → c.Probed := by
        rintro c heq
        obtain rfl := Option.some.inj heq
        exact probe_probed hprobe
      cases best with
      | none => exact .inr (hnew c hc)
      | some other =>
        dsimp only at hc
        split_ifs at hc
        · exact .inr (hnew c hc)
        · exact .inl hc

/-- A fold that never loses its value keeps what one round finds. -/
theorem foldl_isSome {α β : Type} {step : Option β → α → Option β} {l : List α} {a : α}
    (hmem : a ∈ l) (hkeep : ∀ best b, best.isSome = true → (step best b).isSome = true)
    (hhit : ∀ best, (step best a).isSome = true) (start : Option β) :
    (l.foldl step start).isSome = true := by
  have hstay : ∀ (l : List α) (start : Option β), start.isSome = true →
      (l.foldl step start).isSome = true := by
    intro l
    induction l with
    | nil => exact fun _ h => h
    | cons b l ih => exact fun start h => ih _ (hkeep start b h)
  obtain ⟨before, after, rfl⟩ := List.append_of_mem hmem
  rw [List.foldl_append, List.foldl_cons]
  exact hstay after _ (hhit _)

/-- `probe` succeeds when one of its attempts does. -/
theorem bestCandidate_isSome {bytes : List UInt8} {attempt : List Step × List ConstantKind}
    (hmem : attempt ∈ attempts)
    (hparse : (SerializedReader.parse bytes attempt.1 attempt.2).isSome = true) :
    (bestCandidate bytes).isSome = true := by
  refine foldl_isSome hmem (fun best b hbest => ?_) (fun best => ?_) none
  · obtain ⟨other, rfl⟩ := Option.isSome_iff_exists.1 hbest
    unfold tryCandidate
    cases SerializedReader.parse bytes b.1 b.2 with
    | none => rfl
    | some metrics =>
      dsimp only
      split_ifs <;> rfl
  · obtain ⟨metrics, hmetrics⟩ := Option.isSome_iff_exists.1 hparse
    unfold tryCandidate
    rw [hmetrics]
    cases best with
    | none => rfl
    | some other =>
      dsimp only
      split_ifs <;> rfl

/-- `extract` succeeds when a literal of a marked source decodes with some key. -/
theorem extract_isOk {source : List UInt8} (hmarker : hasMoonSecMarker source = true)
    {attempt : Literal × ℕ} (hmem : attempt ∈ literalAttempts source)
    (hbest : (bestCandidate (decodeAlphabetPayload attempt.1.value attempt.2)).isSome = true) :
    ∃ p, extract source = .ok p := by
  have hsome : ((literalAttempts source).foldl tryLiteral none).isSome = true := by
    refine foldl_isSome hmem (fun best b hbest => ?_) (fun best => ?_) none
    · obtain ⟨other, rfl⟩ := Option.isSome_iff_exists.1 hbest
      unfold tryLiteral
      cases probe (decodeAlphabetPayload b.1.value b.2) b.1.offset b.2 with
      | none => rfl
      | some candidate =>
        dsimp only
        split_ifs <;> rfl
    · obtain ⟨c, hc⟩ := Option.isSome_iff_exists.1 hbest
      unfold tryLiteral probe
      rw [hc, Option.map_some]
      cases best with
      | none => rfl
      | some other =>
        dsimp only
        split_ifs <;> rfl
  obtain ⟨p, hp⟩ := Option.isSome_iff_exists.1 hsome
  unfold extract
  rw [if_pos hmarker, hp]
  exact ⟨p, rfl⟩

theorem layouts_spec : ∀ layout ∈ layouts, layout.Perm steps ∧ layout.length = 4 := by decide

theorem tagTables_spec : ∀ tags ∈ tagTables, tags.length = 4 := by decide

/-- The texts of an extracted payload lead back to the candidate that won, and its bytes decode. -/
theorem extract_decodes {source : List UInt8} {p : Payload} (h : extract source = .ok p) :
    ∃ best root, bestCandidate p.bytes = some best ∧
      decodeLayout p.prototypeLayout = some best.layout ∧
      decodeTags p.constantTags = some best.tags ∧
      VirtualTreeReader.parse p.bytes best.layout best.tags = some root := by
  obtain ⟨best, hbest, hlayout, htags⟩ := extract_probed h
  obtain ⟨hattempt, hparse⟩ := bestCandidate_parse hbest
  obtain ⟨layout, hlayout', tags, htags', heq⟩ : ∃ layout ∈ layouts, ∃ tags ∈ tagTables,
      (layout, tags) = (best.layout, best.tags) := by
    unfold attempts at hattempt
    simp only [List.mem_flatMap, List.mem_map] at hattempt
    exact hattempt
  obtain ⟨rfl, rfl⟩ := Prod.mk.inj heq
  obtain ⟨hperm, hlength⟩ := layouts_spec _ hlayout'
  rcases parse_agreement p.bytes hperm best.tags with ⟨hnone, -⟩ | ⟨_, root, -, hroot, -, -⟩
  · rw [hnone] at hparse
    cases hparse
  · refine ⟨best, root, hbest, ?_, ?_, hroot⟩
    · rw [hlayout, decodeLayout_layoutName hlength]
    · rw [htags, decodeTags_tagName (tagTables_spec _ htags')]

/-! ## The two parsers -/

/-- The two parsers accept the same payloads with the same counts, and what is extracted decodes. -/
theorem parsers_agree :
    (∀ data order tags, order.Perm steps →
      ((SerializedReader.parse data order tags).isSome = true ↔
        ∃ root, VirtualTreeReader.parse data order tags = some root ∧ root.kept ≠ 0) ∧
      ∀ metrics root, SerializedReader.parse data order tags = some metrics →
        VirtualTreeReader.parse data order tags = some root →
        Agreement data order tags metrics root) ∧
    ∀ source payload, extract source = .ok payload →
      (∃ best, bestCandidate payload.bytes = some best ∧
        decodeLayout payload.prototypeLayout = some best.layout ∧
        decodeTags payload.constantTags = some best.tags) ∧
      ∃ root, inspectVirtualIR source = .extracted payload root := by
  refine ⟨fun data order tags horder => ?_, fun source payload h => ?_⟩
  · rcases parse_agreement data horder tags with
      ⟨hnone, hkept⟩ | ⟨metrics, root, hmetrics, hroot, hkept, hagree⟩
    · rw [hnone]
      refine ⟨⟨fun h => (by cases h), ?_⟩, fun _ _ h => by cases h⟩
      rintro ⟨root, hroot, hne⟩
      exact absurd (hkept root hroot) hne
    · rw [hmetrics, hroot]
      refine ⟨⟨fun _ => ⟨root, rfl, hkept⟩, fun _ => rfl⟩, fun metrics' root' hm hr => ?_⟩
      obtain rfl := Option.some.inj hm
      obtain rfl := Option.some.inj hr
      exact hagree
  · obtain ⟨best, root, hbest, hlayout, htags, hroot⟩ := extract_decodes h
    refine ⟨⟨best, hbest, hlayout, htags⟩, root, ?_⟩
    unfold inspectVirtualIR
    rw [h]
    dsimp only
    rw [hlayout, htags]
    dsimp only
    rw [hroot]

/-- A function without constants and children and with one instruction. -/
def smallPayload : List UInt8 :=
  [0, 0, 0, 0, 1, 0, 0, 0, 0, 5, 0, 1, 0, 2, 0, 3, 0, 0, 0, 0, 0, 0]

/-- A tag table. -/
def smallTags : List ConstantKind := [.boolean, .number, .string, .unknown]

/-- The payload under the hexadecimal alphabet. -/
def smallLiteral : Literal :=
  ⟨ascii "0123456789abcdef00000000010000000005000100020003000000000000", 13⟩

/-- A source that holds the payload. -/
def smallSource : List UInt8 :=
  ascii "--MoonSec V3\n'0123456789abcdef00000000010000000005000100020003000000000000'"

theorem smallPayload_parse :
    (SerializedReader.parse smallPayload steps smallTags).isSome = true := by decide +kernel

theorem smallSource_extracts : ∃ payload, extract smallSource = .ok payload := by
  have hmem : (steps, smallTags) ∈ attempts := by decide +kernel
  have hdecode : decodeAlphabetPayload smallLiteral.value 0 = smallPayload := by decide +kernel
  have hstrings : stringsInSource smallSource = [smallLiteral] := by decide +kernel
  have hattempt : (smallLiteral, 0) ∈ literalAttempts smallSource := by
    unfold literalAttempts
    rw [hstrings]
    exact List.mem_flatMap.2 ⟨smallLiteral, by decide +kernel,
      List.mem_map.2 ⟨0, by decide, rfl⟩⟩
  refine extract_isOk (by decide +kernel) hattempt ?_
  rw [hdecode]
  exact bestCandidate_isSome hmem smallPayload_parse

/-- Both readers accept the payload, and the source that holds it is decoded. -/
theorem smallPayload_agrees :
    (∃ metrics root, SerializedReader.parse smallPayload steps smallTags = some metrics ∧
      VirtualTreeReader.parse smallPayload steps smallTags = some root ∧
      Agreement smallPayload steps smallTags metrics root) ∧
    ∃ payload root, inspectVirtualIR smallSource = .extracted payload root := by
  obtain ⟨hiff, hagree⟩ := parsers_agree.1 smallPayload steps smallTags (List.Perm.refl _)
  obtain ⟨metrics, hmetrics⟩ := Option.isSome_iff_exists.1 smallPayload_parse
  obtain ⟨root, hroot, -⟩ := hiff.1 smallPayload_parse
  obtain ⟨payload, hpayload⟩ := smallSource_extracts
  obtain ⟨-, root', hroot'⟩ := parsers_agree.2 smallSource payload hpayload
  exact ⟨⟨metrics, root, hmetrics, hroot, hagree metrics root hmetrics hroot⟩, payload, root', hroot'⟩

end ByteVeil.MoonSec
