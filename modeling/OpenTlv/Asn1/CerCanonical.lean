import OpenTlv.Asn1.Canonical
import OpenTlv.Asn1.CerString
import OpenTlv.Asn1.CerRoundTrip

/-!
# One encoding for each string

A constructed string that the strict reader accepts is a run of full segments and a final one.
`Segmented` is what the segment accumulator has established. The logical contents, written again,
give the same octets, with one exception: a bit string whose final segment holds the octet of
unused bits and no bits at all.
-/

namespace OpenTlv

section Accumulator

variable {number : Nat} {segments : List Bytes} {state state' : SegmentState}

/-- What the accumulator of a string has seen. -/
structure Segmented (number : Nat) (segments : List Bytes) (state : SegmentState) : Prop where
  kind : state.number = number
  info : state.info = cerTypeInfo number
  strict : state.strict = true
  total : state.totalOctets = (segments.map List.length).sum
  pending : state.pending.map Segment.value = segments.getLast?
  sizes : ∀ value ∈ segments, 1 ≤ value.length ∧ value.length ≤ cerMaxSegmentOctets
  full : ∀ value ∈ segments.dropLast, value.length = cerMaxSegmentOctets ∧
    ((cerTypeInfo number).form = .bitString → value.headD 0 = 0)
  characters : (cerTypeInfo number).form = .characters → (cerTypeInfo number).isUtf8 = false →
    ∀ value ∈ segments,
      validateCharacterSegment number (cerTypeInfo number).codeUnitWidth value = .ok ()
  utf8 : (cerTypeInfo number).form = .characters → (cerTypeInfo number).isUtf8 = true →
    utf8StreamUpdate {} segments.flatten = some state.utf8

/-- No segment has been seen at the start. -/
theorem segmented_init (number : Nat) :
    Segmented number [] (SegmentState.init number (cerTypeInfo number) true) where
  kind := rfl
  info := rfl
  strict := rfl
  total := rfl
  pending := rfl
  sizes := by simp
  full := by simp
  characters := by simp
  utf8 := by simp [utf8StreamUpdate, SegmentState.init]

/-- Streaming goes on over what follows. -/
theorem utf8_stream_append (start : Utf8Stream) (first second : Bytes) :
    utf8StreamUpdate start (first ++ second) =
      utf8StreamUpdate start first >>= fun middle => utf8StreamUpdate middle second := by
  rw [utf8StreamUpdate, List.foldlM_append]
  rfl

/-- The check of the previous segment, now that another one follows. -/
theorem check_pending_full (h : Segmented number segments state)
    (hcheck : state.checkPending = .ok ()) :
    ∀ value ∈ segments, value.length = cerMaxSegmentOctets ∧
      ((cerTypeInfo number).form = .bitString → value.headD 0 = 0) := by
  intro value hvalue
  have hpending := h.pending
  unfold SegmentState.checkPending at hcheck
  split at hcheck
  · rename_i hnone
    rw [hnone, Option.map_none, eq_comm, List.getLast?_eq_none_iff] at hpending
    rw [hpending] at hvalue
    cases hvalue
  · rename_i segment hsome
    rw [hsome, Option.map_some] at hpending
    obtain ⟨front, hfront⟩ := List.getLast?_eq_some_iff.mp hpending.symm
    obtain ⟨hlength, hcheck⟩ := guard_ok.mp hcheck
    obtain ⟨hbits, hcheck⟩ := guard_ok.mp hcheck
    rw [hfront, List.mem_append, List.mem_singleton] at hvalue
    rcases hvalue with hbefore | rfl
    · refine h.full value ?_
      rw [hfront, List.dropLast_concat]
      exact hbefore
    · refine ⟨not_not.mp hlength, fun hform => ?_⟩
      rw [h.strict, h.info, hform] at hbits
      simpa using hbits

/-- What an accepted segment satisfies, by the form of its type. -/
theorem check_content_ok (h : Segmented number segments state) {value : Bytes}
    {utf8 : Utf8Stream} (hcheck : state.checkContent value = .ok utf8) :
    ((cerTypeInfo number).form = .characters → (cerTypeInfo number).isUtf8 = false →
      validateCharacterSegment number (cerTypeInfo number).codeUnitWidth value = .ok ()) ∧
    ((cerTypeInfo number).form = .characters → (cerTypeInfo number).isUtf8 = true →
      utf8StreamUpdate state.utf8 value = some utf8) := by
  unfold SegmentState.checkContent at hcheck
  rw [h.strict, h.info, h.kind] at hcheck
  constructor
  · intro hform hplain
    rw [hform, hplain] at hcheck
    simp only [decide_true, Bool.and_self, if_true, Bool.false_eq_true, if_false] at hcheck
    split at hcheck
    · cases hcheck
    · assumption
  · intro hform hutf8
    rw [hform, hutf8] at hcheck
    simp only [decide_true, Bool.and_self, if_true] at hcheck
    split at hcheck
    · cases hcheck
    · rename_i hupdate
      cases hcheck
      exact hupdate

/-- One more segment. -/
theorem segmented_add (h : Segmented number segments state) {tag value : Bytes} {offset : Nat}
    (hadd : state.add tag value offset = .ok state') :
    tagMatchesPrimitive tag number = true ∧ Segmented number (segments ++ [value]) state' := by
  unfold SegmentState.add at hadd
  split at hadd
  · cases hadd
  · rename_i hpending
    have hfull := check_pending_full h hpending
    split at hadd
    · cases hadd
    · rename_i htag
      split at hadd
      · cases hadd
      · rename_i hsize
        split at hadd
        · cases hadd
        · rename_i utf8 hcontent
          obtain ⟨hplain, hutf8⟩ := check_content_ok h hcontent
          cases hadd
          rw [h.kind] at htag
          refine ⟨by simpa using htag, ?_⟩
          refine ⟨h.kind, h.info, h.strict, ?_, ?_, ?_, ?_, ?_, ?_⟩
          · simp [h.total]
          · simp
          · intro other hother
            rw [List.mem_append, List.mem_singleton] at hother
            rcases hother with hbefore | rfl
            · exact h.sizes other hbefore
            · omega
          · rw [List.dropLast_concat]
            exact hfull
          · intro hform hkind other hother
            rw [List.mem_append, List.mem_singleton] at hother
            rcases hother with hbefore | rfl
            · exact h.characters hform hkind other hbefore
            · exact hplain hform hkind
          · intro hform hkind
            rw [List.flatten_append, utf8_stream_append, h.utf8 hform hkind]
            simpa using hutf8 hform hkind

end Accumulator

section Octets

/-- The octets of a count, as the writer stores them. -/
def lengthBytes (length : Nat) : Bytes :=
  match berWriteLength length none with
  | .error _ => []
  | .ok (_, size) =>
    match berWriteLength length (some size) with
    | .error _ => []
    | .ok (bytes, _) => bytes

/-- The octets of a segment. -/
def segmentBytes (tag value : Bytes) : Bytes :=
  tag ++ lengthBytes value.length ++ value

/-- A minimal length that was read is the one written. -/
theorem length_bytes_of_read {data : Bytes} {length used : Nat}
    (h : asn1ReadMinimalLength data = ⟨.ok length, used⟩) : lengthBytes length = data.take used := by
  rw [lengthBytes, minimal_length_canonical h none (by simp)]
  dsimp only
  rw [minimal_length_canonical h (some used) (by simp)]
  rfl

/-- Every count has a form. -/
theorem ber_write_length_sized {length : Nat} (h : length ≤ sizeMax) :
    ∃ size, berWriteLength length none = .ok ([], size) := by
  have hvalid : lengthValidate berLength = .ok () := rfl
  have hvalue : ¬ berLength.policy.any (fun policy => length > policy.maxValue) = true := by
    simp only [berLength, asn1Length, Option.any_some, decide_eq_true_eq]
    omega
  have hmaximum : BitField.maximum berLength.payloadMask = 127 := by decide +kernel
  have hmost := octet_count_le h
  rw [berWriteLength, variableLengthWrite, hvalid]
  dsimp only
  rw [if_neg hvalue, longFormCount, hmaximum]
  split
  · rename_i status herror
    split at herror
    · rw [if_neg (by omega), if_neg] at herror
      · cases herror
      · simp only [berLength, asn1Length, Option.any_some, Bool.or_eq_true, decide_eq_true_eq,
          one_ne_zero, false_or]
        omega
    · cases herror
  · exact ⟨_, rfl⟩

/-- The written length reads back and is the writer's. -/
theorem length_bytes_spec {length : Nat} (h : length ≤ sizeMax) :
    (∀ rest, asn1ReadMinimalLength (lengthBytes length ++ rest) =
      ⟨.ok length, (lengthBytes length).length⟩) ∧
    berWriteLength length none = .ok ([], (lengthBytes length).length) ∧
    berWriteLength length (some (lengthBytes length).length) =
      .ok (lengthBytes length, (lengthBytes length).length) := by
  obtain ⟨size, hsize⟩ := ber_write_length_sized h
  obtain ⟨bytes, rfl, hstored, hread⟩ := asn1_length_law _ _ _ h hsize
  have hbytes : lengthBytes length = bytes := by
    rw [lengthBytes, hsize]
    dsimp only
    rw [hstored]
  rw [hbytes]
  exact ⟨hread, hsize, hstored⟩

/-- The string types have small numbers. -/
theorem string_number_le {number : Nat} (h : (cerTypeInfo number).form ≠ .primitiveOnly) :
    number ≤ 30 := by
  unfold cerTypeInfo at h
  split at h
  all_goals first | omega | exact absurd rfl h

/-- Their primitive tags are written and read. -/
theorem string_tag_written {number : Nat} (h : (cerTypeInfo number).form ≠ .primitiveOnly) :
    asn1WriteIdentifier [UInt8.ofNat number] none = .ok ([], 1) := by
  have hle := string_number_le h
  interval_cases number
  all_goals first | rfl | exact absurd rfl h

/-- The octet of a universal type in primitive form. -/
theorem primitive_octet (n : Fin 256) (hclass : UInt8.ofNat n &&& 0xC0 = 0)
    (hform : UInt8.ofNat n &&& 0x20 = 0) :
    UInt8.ofNat n = UInt8.ofNat (UInt8.ofNat n &&& 0x1F).toNat := by
  revert n
  decide +kernel

/-- The octet of a universal type in constructed form. -/
theorem constructed_octet (n : Fin 256) (hclass : UInt8.ofNat n &&& 0xC0 = 0)
    (hform : UInt8.ofNat n &&& 0x20 ≠ 0) :
    UInt8.ofNat n = UInt8.ofNat (UInt8.ofNat n &&& 0x1F).toNat ||| 0x20 := by
  revert n
  decide +kernel

theorem tag_matches_primitive_eq {tag : Bytes} {number : Nat}
    (h : tagMatchesPrimitive tag number = true) : tag = [UInt8.ofNat number] := by
  unfold tagMatchesPrimitive at h
  split at h
  · rename_i octet
    simp only [Bool.and_eq_true, decide_eq_true_eq] at h
    obtain ⟨⟨hclass, hform⟩, rfl⟩ := h
    obtain ⟨n, rfl⟩ := octet_of_fin octet
    exact congrArg (fun x => [x]) (primitive_octet n hclass hform)
  · cases h

/-- A constructed tag with a segment state is the one octet of its type. -/
theorem cer_segments_some {tag : Bytes} {strict : Bool} {state : SegmentState}
    (h : cerSegments tag strict = some state) (hconstructed : asn1IsConstructed tag = true) :
    ∃ number, cerUniversalNumber tag = some number ∧
      (cerTypeInfo number).form ≠ .primitiveOnly ∧
      state = SegmentState.init number (cerTypeInfo number) strict ∧
      tag = [UInt8.ofNat number ||| 0x20] := by
  unfold cerSegments at h
  split at h
  · cases h
  · rename_i number hnumber
    split at h
    · rename_i hform
      cases h
      simp only [Bool.and_eq_true, decide_eq_true_eq] at hform
      obtain ⟨octet, rfl, hclass, rfl⟩ := segmentable_tag hnumber hform.2
      refine ⟨_, hnumber, hform.2, rfl, ?_⟩
      have hbit : octet &&& 0x20 ≠ 0 := by
        intro hzero
        simp [asn1IsConstructed, constructedBitPredicate, asn1ConstructedBit, hzero] at hconstructed
      obtain ⟨n, rfl⟩ := octet_of_fin octet
      exact congrArg (fun x => [x]) (constructed_octet n hclass hbit)
    · cases h

end Octets

section Run

variable {data : Bytes} {limits : CerLimits}

/-- The front of the input is an open string with some segments. -/
structure OpenString (data : Bytes) (number : Nat) (segments : List Bytes) (pos : Nat)
    (state : SegmentState) : Prop where
  form : (cerTypeInfo number).form ≠ .primitiveOnly
  inside : pos ≤ data.length
  octets : data.take pos = [UInt8.ofNat number ||| 0x20, berIndefinite] ++
    (segments.map (segmentBytes [UInt8.ofNat number])).flatten
  segmented : Segmented number segments state

/-- The front of the input is a whole string. -/
structure ClosedString (data : Bytes) (number : Nat) (segments : List Bytes)
    (element : ReadElement) (consumed : Nat) (state : SegmentState) : Prop where
  form : (cerTypeInfo number).form ≠ .primitiveOnly
  octets : data.take consumed = [UInt8.ofNat number ||| 0x20, berIndefinite] ++
    (segments.map (segmentBytes [UInt8.ofNat number])).flatten ++ [0, 0]
  inside : consumed ≤ data.length
  tag : element.tag = [UInt8.ofNat number ||| 0x20]
  value : element.value = (segments.map (segmentBytes [UInt8.ofNat number])).flatten
  segmented : Segmented number segments state
  finished : ∃ offset, state.finish offset = .ok ()

/-- Where the strict reader of one element stands. -/
inductive StringPhase (data : Bytes) (s : CerRun Unit) : Prop
  | start (h : s = { count := 0, context := () })
  | string (number : Nat) (segments : List Bytes) (state : SegmentState) (hended : s.ended = none)
      (hlevels : s.levels = [⟨[UInt8.ofNat number ||| 0x20], 0, 1, 2, some state⟩])
      (hstring : OpenString data number segments s.pos state)
  | other (tag : Bytes) (hended : s.ended = none)
      (houter : (s.levels.map CerLevel.tag).getLast? = some tag)
      (htag : cerSegments tag true = none)
  | plain (element : ReadElement) (consumed : Nat)
      (hended : s.ended = some (some (element, consumed)))
      (htag : asn1IsConstructed element.tag = false ∨ cerSegments element.tag true = none)
  | done (number : Nat) (segments : List Bytes) (state : SegmentState) (element : ReadElement)
      (consumed : Nat) (hended : s.ended = some (some (element, consumed)))
      (hstring : ClosedString data number segments element consumed state)

variable {s s' : CerRun Unit} {element : ReadElement} {consumed : Nat}

theorem take_one_drop {pos : Nat} {octet : UInt8} (h : data[pos]? = some octet) :
    (data.drop pos).take 1 = [octet] := by
  obtain ⟨hpos, rfl⟩ := List.getElem?_eq_some_iff.mp h
  rw [List.drop_eq_getElem_cons hpos]
  rfl

/-- A primitive element inside another one. -/
theorem read_inner_value {strict : Bool} {tag value : Bytes} {lengthOffset valueOffset : Nat}
    (hlevels : s.levels ≠ [])
    (h : cerValue (readJob data limits strict) s tag value lengthOffset valueOffset = .ok s') :
    ∃ accepted,
      cerAccept (readJob data limits strict) s tag value lengthOffset valueOffset = .ok accepted ∧
      s' = { accepted with pos := valueOffset + value.length, count := s.count + 1 } := by
  obtain ⟨accepted, haccept, -⟩ := cer_value_ok h
  refine ⟨accepted, haccept, ?_⟩
  rw [cerValue, haccept] at h
  dsimp only at h
  rw [List.isEmpty_eq_false_iff.mpr hlevels, Bool.and_false, if_neg (by decide)] at h
  exact (Except.ok.inj h).symm

/-- The first element starts. -/
theorem phase_start (hdata : data ≠ []) (h : s = { count := 0, context := () })
    (hmove : CerMove (readJob data limits true) s s') : StringPhase data s' := by
  subst h
  cases hmove with
  | finish hpos => exact absurd (List.length_eq_zero_iff.mp hpos.symm) hdata
  | close level rest _ _ _ hlevels => cases hlevels
  | descend tag tagSize _ _ htag hsize hlength hconstructed =>
    obtain ⟨hlow, hhigh, hspan⟩ := asn1_read_identifier_within htag
    cases hsegments : cerSegments tag.bytes true with
    | none => exact .other tag.bytes rfl rfl hsegments
    | some state =>
      obtain ⟨number, hnumber, hform, rfl, hoctet⟩ := cer_segments_some hsegments hconstructed
      have hwidth : tagSize = 1 := by
        have htaken := congrArg List.length hoctet
        rw [hspan, List.length_take, List.length_singleton] at htaken
        omega
      subst hwidth
      have hfirst : data.take 1 = [UInt8.ofNat number ||| 0x20] := by
        rw [hspan, hsize] at hoctet
        exact hoctet
      have hsecond : (data.drop 1).take 1 = [berIndefinite] := take_one_drop hlength
      refine .string number [] _ rfl ?_ ⟨hform, ?_, ?_, segmented_init number⟩
      · show [CerLevel.mk tag.bytes 0 (0 + 1) (0 + 1 + 1) (cerSegments tag.bytes true)] = _
        rw [hsegments, hoctet]
      · exact (List.getElem?_eq_some_iff.mp hlength).1
      · show data.take (1 + 1) = _
        rw [List.take_add, hfirst, hsecond]
        rfl
  | value tag tagSize length lengthSize _ _ htag _ _ hprimitive _ _ _ hvalue =>
    unfold cerValue at hvalue
    split at hvalue
    · cases hvalue
    · cases hvalue
      exact .plain _ _ rfl (.inl hprimitive)

/-- An element inside another that is no string. -/
theorem phase_other {tag : Bytes} (hended : s.ended = none)
    (houter : (s.levels.map CerLevel.tag).getLast? = some tag)
    (htag : cerSegments tag true = none)
    (hmove : CerMove (readJob data limits true) s s') : StringPhase data s' := by
  cases hmove with
  | finish _ hlevels =>
    rw [hlevels] at houter
    cases houter
  | close level rest _ _ _ hlevels _ hcomplete =>
    rw [hlevels] at houter
    unfold cerComplete at hcomplete
    dsimp only [readJob, cerReport] at hcomplete
    rw [hended] at hcomplete
    cases rest with
    | nil =>
      cases hcomplete
      obtain rfl : level.tag = tag := Option.some.inj houter
      exact .plain _ _ rfl (.inr htag)
    | cons next rest =>
      cases hcomplete
      refine .other tag rfl ?_ htag
      rwa [List.map_cons, List.map_cons, List.getLast?_cons_cons] at houter
  | descend inner tagSize =>
    refine .other tag hended ?_ htag
    cases hlevels : s.levels with
    | nil =>
      rw [hlevels] at houter
      cases houter
    | cons level rest =>
      rw [hlevels] at houter
      exact houter
  | value inner tagSize length lengthSize _ _ _ _ _ _ _ _ _ hvalue =>
    have hlevels : s.levels ≠ [] := by
      intro hnil
      rw [hnil] at houter
      cases houter
    obtain ⟨accepted, haccept, rfl⟩ := read_inner_value hlevels hvalue
    rcases cer_accept_ok haccept with ⟨-, rfl, -⟩ | ⟨_, next, -, -, rfl⟩
    · exact .other tag hended houter htag
    · obtain ⟨htags, hsame⟩ := set_parent_tags s next
      exact .other tag (hsame.trans hended) (htags ▸ houter) htag

/-- A segment of a string follows the ones before it. -/
theorem open_string_add {number pos tagSize length lengthSize offset : Nat}
    {segments : List Bytes} {state state' : SegmentState} {tag : Span}
    (h : OpenString data number segments pos state)
    (htag : (asn1ReadIdentifier (data.drop pos)).outcome = .ok tag)
    (hsize : (asn1ReadIdentifier (data.drop pos)).consumed = tagSize)
    (hlength : (asn1ReadMinimalLength (data.drop (pos + tagSize))).outcome = .ok length)
    (hlengthSize : (asn1ReadMinimalLength (data.drop (pos + tagSize))).consumed = lengthSize)
    (hinside : length ≤ data.length - (pos + tagSize + lengthSize))
    (hadd : state.add tag.bytes ((data.drop (pos + tagSize + lengthSize)).take length) offset =
      .ok state') :
    OpenString data number
      (segments ++ [(data.drop (pos + tagSize + lengthSize)).take length])
      (pos + tagSize + lengthSize +
        ((data.drop (pos + tagSize + lengthSize)).take length).length) state' := by
  obtain ⟨hmatches, hsegmented⟩ := segmented_add h.segmented hadd
  obtain ⟨-, hhigh, hspan⟩ := asn1_read_identifier_within htag
  obtain ⟨-, hhighLength⟩ := asn1_read_minimal_length_within hlength
  rw [List.length_drop] at hhigh hhighLength
  have hvalue : ((data.drop (pos + tagSize + lengthSize)).take length).length = length := by
    rw [List.length_take, List.length_drop, Nat.min_eq_left hinside]
  have hoctet : (data.drop pos).take tagSize = [UInt8.ofNat number] := by
    rw [← tag_matches_primitive_eq hmatches, hspan, hsize]
  have hcount : (data.drop (pos + tagSize)).take lengthSize = lengthBytes length := by
    refine (length_bytes_of_read ?_).symm
    rw [← hlength, ← hlengthSize]
  have hfront := h.inside
  refine ⟨h.form, by omega, ?_, hsegmented⟩
  rw [hvalue, List.take_add, List.take_add, List.take_add, h.octets, hoctet, hcount,
    List.map_append, List.flatten_append, List.map_singleton, List.flatten_singleton, segmentBytes,
    hvalue]
  simp only [List.append_assoc]

/-- The next octets of a string: a segment, or the end of contents. -/
theorem phase_string {number : Nat} {segments : List Bytes} {state : SegmentState}
    (hended : s.ended = none)
    (hlevels : s.levels = [⟨[UInt8.ofNat number ||| 0x20], 0, 1, 2, some state⟩])
    (hstring : OpenString data number segments s.pos state)
    (hmove : CerMove (readJob data limits true) s s') : StringPhase data s' := by
  cases hmove with
  | finish _ hempty =>
    rw [hlevels] at hempty
    cases hempty
  | close level rest hpos hfirst hsecond hopen hcheck hcomplete =>
    rw [hlevels] at hopen
    cases hopen
    have hend : (data.drop s.pos).take 2 = [0, 0] := by
      have hzero : (data.drop s.pos).take 1 = [0] := take_one_drop hfirst
      have hagain : (data.drop (s.pos + 1)).take 1 = [0] := take_one_drop hsecond
      have htwo : (data.drop s.pos).take (1 + 1) = [0] ++ [0] := by
        rw [List.take_add, hzero, List.drop_drop, hagain]
      exact htwo
    have hvalue : (data.take s.pos).drop 2 =
        (segments.map (segmentBytes [UInt8.ofNat number])).flatten := by
      rw [hstring.octets]
      rfl
    have hfinish : state.finish (0 + 1) = .ok () := by
      unfold cerCloseCheck at hcheck
      obtain ⟨-, hcheck⟩ := guard_ok.mp hcheck
      dsimp only [readJob] at hcheck
      cases hstate : state.finish (0 + 1) with
      | error failed =>
        rw [hstate] at hcheck
        cases hcheck
      | ok _ => rfl
    unfold cerComplete at hcomplete
    dsimp only [readJob, cerReport] at hcomplete
    rw [hended] at hcomplete
    cases hcomplete
    refine .done number segments state _ _ rfl ⟨hstring.form, ?_, hpos, rfl, hvalue,
      hstring.segmented, _, hfinish⟩
    rw [List.take_add, hstring.octets, hend]
  | descend inner tagSize _ _ _ _ _ _ hparent =>
    rw [CerRun.parentSegments, hlevels] at hparent
    cases hparent
  | value inner tagSize length lengthSize _ _ htag hsize _ _ hlength hlengthSize hinside hvalue =>
    obtain ⟨accepted, haccept, rfl⟩ := read_inner_value (by rw [hlevels]; simp) hvalue
    rcases cer_accept_ok haccept with ⟨hparent, -, -⟩ | ⟨found, next, hparent, hadd, rfl⟩
    · rw [CerRun.parentSegments, hlevels] at hparent
      cases hparent
    · rw [CerRun.parentSegments, hlevels] at hparent
      cases hparent
      refine .string number _ next ?_ ?_
        (open_string_add hstring htag hsize hlength hlengthSize hinside hadd)
      · rw [← hended]
        exact (set_parent_tags s next).2
      · show (s.setParent next).levels = _
        rw [CerRun.setParent, hlevels]

/-- What the strict reader accepted as a string. -/
theorem read_string (hread : cerReadStrict data limits = .ok (element, consumed))
    (hconstructed : asn1IsConstructed element.tag = true)
    (hsegments : cerSegments element.tag true ≠ none) :
    ∃ number segments state, ClosedString data number segments element consumed state := by
  unfold cerReadStrict cerReadImpl at hread
  obtain ⟨-, hread⟩ := guard_ok.mp hread
  split at hread
  · cases hread
  · split at hread
    · cases hread
    · rename_i hdata
      have hnonempty : data ≠ [] := fun hnil => hdata (by rw [hnil]; rfl)
      cases hrun : cerTraverse (readJob data limits true) { count := 0, context := () } with
      | error stop =>
        rw [readJob] at hrun
        rw [hrun] at hread
        cases hread
      | ok last =>
        have hkeep : ∀ x x' : CerRun Unit, StringPhase data x → x.ended.isSome = false →
            cerStep (readJob data limits true) x = .ok x' → StringPhase data x' := by
          intro x x' hx hlive hstep
          have hmove := cer_step_cases hstep
          cases hx with
          | start h => exact phase_start hnonempty h hmove
          | string number segments state hended hlevels hstring =>
            exact phase_string hended hlevels hstring hmove
          | other tag hended houter htag => exact phase_other hended houter htag hmove
          | plain element consumed hended =>
            rw [hended] at hlive
            cases hlive
          | done number segments state element consumed hended =>
            rw [hended] at hlive
            cases hlive
        obtain ⟨hphase, hhalted⟩ := drive_ok_invariant hkeep (.start rfl) hrun
        rw [readJob] at hrun
        rw [hrun] at hread
        replace hread : (last.ended.getD none).getD (⟨[], []⟩, 0) = (element, consumed) :=
          Except.ok.inj hread
        cases hphase with
        | start h =>
          rw [h] at hhalted
          cases hhalted
        | string number segments state hended =>
          rw [hended] at hhalted
          cases hhalted
        | other tag hended =>
          rw [hended] at hhalted
          cases hhalted
        | plain found used hended htag =>
          rw [hended] at hread
          cases hread
          rcases htag with hprimitive | hnone
          · rw [hprimitive] at hconstructed
            cases hconstructed
          · exact absurd hnone hsegments
        | done number segments state found used hended hstring =>
          rw [hended] at hread
          cases hread
          exact ⟨number, segments, state, hstring⟩

end Run

section Contents

variable {number : Nat}

/-- The segments are found again in the value of the string. -/
theorem string_segments_eq (hform : (cerTypeInfo number).form ≠ .primitiveOnly)
    (segments : List Bytes) (hsizes : ∀ value ∈ segments, value.length ≤ cerMaxSegmentOctets)
    {fuel : Nat} (hfuel : segments.length ≤ fuel) :
    stringSegments fuel (segments.map (segmentBytes [UInt8.ofNat number])).flatten =
      some segments := by
  induction segments generalizing fuel with
  | nil => cases fuel <;> rfl
  | cons value rest ih =>
    obtain ⟨fuel, rfl⟩ : ∃ k, fuel = k + 1 := ⟨fuel - 1, by simp at hfuel; omega⟩
    rw [List.forall_mem_cons] at hsizes
    have hle : value.length ≤ sizeMax := by
      have hmost := hsizes.1
      have hmax : cerMaxSegmentOctets ≤ sizeMax := by decide
      omega
    have htag := (asn1_identifier_law _ _ _ (string_tag_written hform)).2.2.2
    have hlength := (length_bytes_spec hle).1
    have hrest := ih hsizes.2 (show rest.length ≤ fuel by simpa using hfuel)
    set octet := UInt8.ofNat number with hoctet
    set tail := (rest.map (segmentBytes [octet])).flatten with htail
    set field := lengthBytes value.length with hfield
    have hdata : ((value :: rest).map (segmentBytes [octet])).flatten =
        octet :: (field ++ (value ++ tail)) := by
      simp [segmentBytes, htail, hfield]
    have htagRead : cerFields.readTag (octet :: (field ++ (value ++ tail))) =
        ⟨.ok ⟨[octet], some 0⟩, 1⟩ := htag (field ++ (value ++ tail))
    have hlengthRead : cerFields.readLength
        ((octet :: (field ++ (value ++ tail))).drop 1) = ⟨.ok value.length, field.length⟩ :=
      hlength (value ++ tail)
    have hheader : (octet :: (field ++ (value ++ tail))).drop (1 + field.length) =
        value ++ tail := by
      rw [Nat.add_comm, List.drop_succ_cons, List.drop_left]
    have hbehind : (octet :: (field ++ (value ++ tail))).drop
        (1 + field.length + value.length) = tail := by
      rw [← List.drop_drop, hheader, List.drop_left]
    rw [hdata, stringSegments, htagRead]
    dsimp only
    rw [hlengthRead]
    dsimp only
    rw [hheader, hbehind, hrest, List.take_left]
    rfl

/-- A rule that a string obeys when its parts do. -/
def Joins (valid : Bytes → Bool) : Prop :=
  valid [] = true ∧ ∀ first second, valid first = true → valid second = true →
    valid (first ++ second) = true

/-- Valid segments join to a valid value. -/
theorem Joins.flatten {valid : Bytes → Bool} (h : Joins valid) {segments : List Bytes}
    (hsegments : ∀ value ∈ segments, valid value = true) : valid segments.flatten = true := by
  induction segments with
  | nil => exact h.1
  | cons value rest ih =>
    rw [List.forall_mem_cons] at hsegments
    rw [List.flatten_cons]
    exact h.2 value _ hsegments.1 (ih hsegments.2)

theorem joins_all (accepts : UInt8 → Bool) : Joins fun value => value.all accepts := by
  refine ⟨rfl, fun first second hfirst hsecond => ?_⟩
  dsimp only at hfirst hsecond ⊢
  rw [List.all_append, hfirst, hsecond, Bool.and_self]

theorem joins_universal_string : Joins validateUniversalString := by
  refine ⟨rfl, fun first second hfirst hsecond => ?_⟩
  fun_induction validateUniversalString first with
  | case1 => exact hsecond
  | case2 a b c d rest codepoint ih =>
    rw [Bool.and_eq_true] at hfirst
    simp only [List.cons_append, validateUniversalString, Bool.and_eq_true]
    exact ⟨hfirst.1, ih hfirst.2⟩
  | case3 => cases hfirst

theorem joins_bmp_string : Joins validateBmpString := by
  refine ⟨rfl, fun first second hfirst hsecond => ?_⟩
  fun_induction validateBmpString first with
  | case1 => exact hsecond
  | case2 a b rest codepoint ih =>
    rw [Bool.and_eq_true] at hfirst
    simp only [List.cons_append, validateBmpString, Bool.and_eq_true]
    exact ⟨hfirst.1, ih hfirst.2⟩
  | case3 => cases hfirst

theorem value_status_ok {valid : Bool} (h : valueStatus valid = .ok ()) : valid = true := by
  cases valid with
  | true => rfl
  | false => cases h

/-- The rule for the segments of a character string is the one for the whole, and it joins. -/
theorem character_rule (hform : (cerTypeInfo number).form = .characters)
    (hplain : (cerTypeInfo number).isUtf8 = false) :
    ∃ valid, universalValidator number = some valid ∧ Joins valid ∧
      ∀ value, validateCharacterSegment number (cerTypeInfo number).codeUnitWidth value = .ok () →
        valid value = true := by
  have hle : number ≤ 30 := string_number_le (by rw [hform]; decide)
  have hany : Joins fun _ => true := ⟨rfl, fun _ _ _ _ => rfl⟩
  interval_cases number
  all_goals first
    | exact absurd hform (by decide)
    | exact absurd hplain (by decide)
    | exact ⟨_, rfl, hany, fun _ _ => rfl⟩
    | exact ⟨_, rfl, joins_all _, fun _ h => value_status_ok h⟩
    | exact ⟨_, rfl, joins_universal_string, fun _ h =>
      ((Bool.and_eq_true _ _).mp (value_status_ok h)).2⟩
    | exact ⟨_, rfl, joins_bmp_string, fun _ h =>
      ((Bool.and_eq_true _ _).mp (value_status_ok h)).2⟩

variable {segments : List Bytes} {state : SegmentState}

/-- What a finished string satisfies: long enough, its last segment valid. -/
theorem finish_ok (h : Segmented number segments state) {offset : Nat}
    (hfinish : state.finish offset = .ok ()) :
    cerMaxSegmentOctets < (segments.map List.length).sum ∧
      (∃ front last, segments = front ++ [last] ∧
        ((cerTypeInfo number).form = .bitString → validateBitString last = true)) ∧
      ((cerTypeInfo number).form = .characters → (cerTypeInfo number).isUtf8 = true →
        state.utf8.need = 0) := by
  have hpending := h.pending
  unfold SegmentState.finish at hfinish
  split at hfinish
  · cases hfinish
  · rename_i segment hsome
    rw [hsome, Option.map_some] at hpending
    obtain ⟨front, hfront⟩ := List.getLast?_eq_some_iff.mp hpending.symm
    split at hfinish
    · cases hfinish
    · rename_i htotal
      rw [h.total] at htotal
      rw [h.strict, h.info, if_pos rfl] at hfinish
      refine ⟨by omega, ⟨front, segment.value, hfront, ?_⟩, ?_⟩
      · intro hform
        rw [if_pos hform] at hfinish
        split at hfinish
        · assumption
        · cases hfinish
      · intro hform hutf8
        rw [hform, hutf8, if_neg (by decide), if_pos (by decide)] at hfinish
        split at hfinish
        · assumption
        · cases hfinish

/-- More bits in front keep a bit string with at least one octet of bits valid. -/
theorem validate_bit_string_prepend {unused first : UInt8} {rest : Bytes}
    (h : validateBitString (unused :: first :: rest) = true) (front : Bytes) :
    validateBitString (unused :: (front ++ first :: rest)) = true := by
  cases front with
  | nil => exact h
  | cons octet front =>
    have hlast : (octet :: (front ++ first :: rest)).getLastD 0 = (first :: rest).getLastD 0 := by
      rw [List.getLastD_eq_getLast?, List.getLastD_eq_getLast?, ← List.cons_append,
        List.getLast?_append]
      simp [List.getLast?_cons]
    rw [validateBitString] at h
    rw [List.cons_append, validateBitString, hlast]
    exact h

/-- The contents of an accepted string obey the rule of its type. -/
theorem contents_valid (h : Segmented number segments state) {offset : Nat}
    (hfinish : state.finish offset = .ok ())
    (hform : (cerTypeInfo number).form ≠ .primitiveOnly)
    (hbits : (cerTypeInfo number).form = .bitString → 2 ≤ (segments.getLastD []).length) :
    validateUniversalValue number (stringContents (cerTypeInfo number).form segments) =
      .ok () := by
  obtain ⟨-, ⟨front, last, rfl, hlast⟩, hneed⟩ := finish_ok h hfinish
  have hle := string_number_le hform
  cases hkind : (cerTypeInfo number).form with
  | primitiveOnly => exact absurd hkind hform
  | octets =>
    obtain rfl : number = 4 := by
      interval_cases number
      all_goals first | rfl | cases hkind
    rfl
  | bitString =>
    obtain rfl : number = 3 := by
      interval_cases number
      all_goals first | rfl | cases hkind
    have hsize := hbits hkind
    have hvalid := hlast hkind
    rw [List.getLastD_concat] at hsize
    match last, hsize, hvalid with
    | unused :: first :: rest, _, hvalid =>
      have hcontents : stringContents .bitString (front ++ [unused :: first :: rest]) =
          unused :: ((front.map (·.drop 1)).flatten ++ first :: rest) := by
        simp [stringContents]
      have hwhole := validate_bit_string_prepend hvalid (front.map (·.drop 1)).flatten
      rw [hcontents]
      show (if validateBitString _ = true then Except.ok () else _) = _
      rw [if_pos hwhole]
  | characters =>
    cases hutf8 : (cerTypeInfo number).isUtf8 with
    | false =>
      obtain ⟨valid, hvalidator, hjoins, hrule⟩ := character_rule hkind hutf8
      have hwhole := hjoins.flatten fun value hvalue =>
        hrule value (h.characters hkind hutf8 value hvalue)
      rw [validateUniversalValue, hvalidator, stringContents, if_neg (by decide)]
      dsimp only
      rw [if_pos hwhole]
    | true =>
      obtain rfl : number = 12 := by
        interval_cases number
        all_goals first | rfl | cases hutf8
      have hwhole : utf8Validate (front ++ [last]).flatten = true := by
        rw [utf8Validate, h.utf8 hkind hutf8]
        exact decide_eq_true (hneed hkind hutf8)
      show (if utf8Validate (front ++ [last]).flatten = true then Except.ok () else _) = _
      rw [if_pos hwhole]

end Contents

section Writer

variable {tag lead : Bytes} {chunk : Nat}

/-- A stored segment is its tag, length and value. -/
theorem store_segment_eq {value : Bytes} (h : value.length ≤ sizeMax) :
    storeSegment tag value value.length (lengthBytes value.length).length =
      .ok (segmentBytes tag value) := by
  have hwrite : cerFields.writeLength value.length (some (lengthBytes value.length).length) =
      .ok (lengthBytes value.length, (lengthBytes value.length).length) :=
    (length_bytes_spec h).2.2
  rw [storeSegment, hwrite]
  rfl

/-- The loop of the writer stores full segments as they were. -/
theorem store_segments_eq (front : List Bytes)
    (hfull : ∀ value ∈ front, value.length = cerMaxSegmentOctets ∧
      value = lead ++ value.drop lead.length)
    (hchunk : lead.length + chunk = cerMaxSegmentOctets) (rest : Bytes) :
    storeSegments tag lead chunk (lengthBytes cerMaxSegmentOctets).length front.length
        ((front.map (·.drop lead.length)).flatten ++ rest) =
      .ok ((front.map (segmentBytes tag)).flatten, rest) := by
  induction front with
  | nil => rfl
  | cons value front ih =>
    rw [List.forall_mem_cons] at hfull
    obtain ⟨⟨hlength, hlead⟩, hmore⟩ := hfull
    have hbody : (value.drop lead.length).length = chunk := by
      rw [List.length_drop]
      omega
    have hsource : ((value :: front).map (·.drop lead.length)).flatten ++ rest =
        value.drop lead.length ++ ((front.map (·.drop lead.length)).flatten ++ rest) := by
      simp
    have hstored : storeSegment tag value cerMaxSegmentOctets
        (lengthBytes cerMaxSegmentOctets).length = .ok (segmentBytes tag value) := by
      rw [← hlength]
      refine store_segment_eq ?_
      rw [hlength]
      decide
    rw [hsource, List.length_cons, storeSegments, ← hbody, List.take_left, ← hlead, hstored,
      List.drop_left, hbody]
    show (storeSegments tag lead chunk _ front.length _ >>= _) = _
    rw [ih hmore]
    rfl

/-- Full segments followed by one that is not empty. -/
theorem segment_layout_eq {count octets : Nat} (hlow : 1 ≤ octets) (hhigh : octets ≤ chunk) :
    segmentLayout (count * chunk + octets) chunk = (count, octets) := by
  have hcount : (count * chunk + octets - 1) / chunk = count := by
    rw [show count * chunk + octets - 1 = (octets - 1) + chunk * count by
      rw [Nat.mul_comm]; omega, Nat.add_mul_div_left _ _ (by omega),
      Nat.div_eq_of_lt (by omega), Nat.zero_add]
  rw [segmentLayout, hcount, Nat.add_sub_cancel_left]

/-- The source octets of a full segment. -/
def chunkOctets (isBit : Bool) : Nat :=
  if isBit then cerMaxSegmentOctets - 1 else cerMaxSegmentOctets

/-- The contents octets of the final segment. -/
def finalOctets (isBit : Bool) (octets : Nat) : Nat :=
  if isBit then octets + 1 else octets

/-- The octets of a string of full segments and a final one. -/
def segmentedSize (count final : Nat) : Nat :=
  1 + 1 + count * (1 + (lengthBytes cerMaxSegmentOctets).length + cerMaxSegmentOctets) + 2 +
    (1 + (lengthBytes final).length + final)

/-- The sizes that the writer computes. -/
theorem segment_sizes_eq {isBit : Bool} {contentLength count octets : Nat}
    (hsource : (if isBit then contentLength - 1 else contentLength) =
      count * chunkOctets isBit + octets) (hlow : 1 ≤ octets) (hhigh : octets ≤ chunkOctets isBit)
    (hfits : segmentedSize count (finalOctets isBit octets) ≤ sizeMax) :
    segmentSizes 1 contentLength isBit =
      .ok ⟨chunkOctets isBit, (lengthBytes cerMaxSegmentOctets).length, count, octets,
        finalOctets isBit octets, (lengthBytes (finalOctets isBit octets)).length,
        segmentedSize count (finalOctets isBit octets)⟩ := by
  unfold segmentedSize at hfits
  have hfull : cerFields.writeLength cerMaxSegmentOctets none =
      .ok ([], (lengthBytes cerMaxSegmentOctets).length) :=
    (@length_bytes_spec cerMaxSegmentOctets (by decide)).2.1
  have hfinal : cerFields.writeLength (finalOctets isBit octets) none =
      .ok ([], (lengthBytes (finalOctets isBit octets)).length) :=
    (length_bytes_spec (by omega)).2.1
  have hlayout : segmentLayout (if isBit then contentLength - 1 else contentLength)
      (if isBit then cerMaxSegmentOctets - 1 else cerMaxSegmentOctets) = (count, octets) := by
    rw [hsource]
    exact segment_layout_eq hlow hhigh
  have hcount : ¬ count > (sizeMax - 1 - 1 - 2) /
      (1 + (lengthBytes cerMaxSegmentOctets).length + cerMaxSegmentOctets) := by
    rw [gt_iff_lt, Nat.not_lt, Nat.le_div_iff_mul_le (by omega)]
    omega
  have htotal : ¬ 1 + (lengthBytes (finalOctets isBit octets)).length +
      finalOctets isBit octets > sizeMax - (1 + 1 +
        count * (1 + (lengthBytes cerMaxSegmentOctets).length + cerMaxSegmentOctets) + 2) := by
    omega
  have hcontents : (if isBit then octets + 1 else octets) = finalOctets isBit octets := rfl
  rw [segmentSizes, hfull]
  dsimp only
  rw [hlayout]
  dsimp only
  rw [hcontents, hfinal]
  dsimp only
  rw [if_neg hcount, if_neg htotal]
  rfl

end Writer

section Rewrite

variable {data : Bytes} {number : Nat} {segments front : List Bytes} {last : Bytes}
  {state : SegmentState}

/-- The octet in front of the source octets of a full segment. -/
def leadOctets (isBit : Bool) : Bytes :=
  if isBit then [0] else []

theorem lead_chunk (isBit : Bool) :
    (leadOctets isBit).length + chunkOctets isBit = cerMaxSegmentOctets := by
  cases isBit <;> rfl

/-- A full segment is the lead and its source octets. -/
theorem full_segment (h : Segmented number (front ++ [last]) state) :
    ∀ value ∈ front, value.length = cerMaxSegmentOctets ∧
      value = leadOctets ((cerTypeInfo number).form = .bitString) ++
        value.drop (leadOctets ((cerTypeInfo number).form = .bitString)).length := by
  intro value hvalue
  obtain ⟨hlength, hhead⟩ := h.full value (by rw [List.dropLast_concat]; exact hvalue)
  refine ⟨hlength, ?_⟩
  by_cases hbit : (cerTypeInfo number).form = .bitString
  · have hzero := hhead hbit
    cases value with
    | nil => simp [cerMaxSegmentOctets] at hlength
    | cons octet rest =>
      rw [List.headD_cons] at hzero
      simp [hbit, leadOctets, hzero]
  · simp [hbit, leadOctets]

/-- The source octets of a string. -/
theorem string_source (hlast : last ≠ []) (isBit : Bool) {form : CerForm}
    (hform : isBit = decide (form = .bitString)) :
    (if isBit then (stringContents form (front ++ [last])).drop 1
      else stringContents form (front ++ [last])) =
      (front.map (·.drop (leadOctets isBit).length)).flatten ++
        last.drop (leadOctets isBit).length := by
  obtain ⟨octet, rest, rfl⟩ := List.exists_cons_of_ne_nil hlast
  by_cases hbit : form = .bitString
  · simp [hform, hbit, stringContents, leadOctets]
  · simp [hform, hbit, stringContents, leadOctets]

/-- The primitive tag of a string type. -/
theorem string_tag_number (h : (cerTypeInfo number).form ≠ .primitiveOnly) :
    asn1IsUniversal [UInt8.ofNat number] = true ∧
      asn1IsConstructed [UInt8.ofNat number] = false ∧
      cerUniversalNumber [UInt8.ofNat number] = some number := by
  have hle := string_number_le h
  interval_cases number
  all_goals first | exact ⟨rfl, rfl, rfl⟩ | exact absurd rfl h

theorem segments_length (tag : Bytes) (h : ∀ value ∈ front, value.length = cerMaxSegmentOctets) :
    ((front.map (segmentBytes tag)).flatten).length =
      front.length *
        (tag.length + (lengthBytes cerMaxSegmentOctets).length + cerMaxSegmentOctets) := by
  induction front with
  | nil => simp
  | cons value front ih =>
    rw [List.forall_mem_cons] at h
    rw [List.map_cons, List.flatten_cons, List.length_append, ih h.2, segmentBytes,
      List.length_append, List.length_append, h.1, List.length_cons, Nat.succ_mul]
    omega

theorem bodies_length {lead chunk : Nat} (hchunk : lead + chunk = cerMaxSegmentOctets)
    (h : ∀ value ∈ front, value.length = cerMaxSegmentOctets) :
    ((front.map (·.drop lead)).flatten).length = front.length * chunk := by
  induction front with
  | nil => simp
  | cons value front ih =>
    rw [List.forall_mem_cons] at h
    rw [List.map_cons, List.flatten_cons, List.length_append, ih h.2, List.length_drop, h.1,
      List.length_cons, Nat.succ_mul]
    omega

/-- The extent of a string that was read. -/
theorem closed_string_size {element : ReadElement} {consumed : Nat}
    (h : ClosedString data number (front ++ [last]) element consumed state) :
    consumed = segmentedSize front.length last.length := by
  have hfull := fun value hvalue => (full_segment h.segmented value hvalue).1
  have hlength := congrArg List.length h.octets
  rw [List.length_take, Nat.min_eq_left h.inside, List.length_append, List.length_append,
    List.map_append, List.flatten_append, List.length_append, segments_length _ hfull] at hlength
  rw [hlength, segmentedSize]
  simp [segmentBytes]
  omega

/-- The limits leave room for contents, elements and octets. -/
structure CerLimits.Admits (limits : CerLimits) (contents elements octets : Nat) : Prop where
  depth : limits.maxDepth ≤ cerMaxDepth
  contents : contents ≤ limits.maxValueSize
  elements : elements ≤ limits.maxElements
  octets : octets ≤ limits.maxInputSize

variable {string : Element} {limits : CerLimits} {element : ReadElement} {consumed : Nat}

/-- The writer comes to the choice between one element and segments. -/
theorem write_string_choice (hform : (cerTypeInfo number).form ≠ .primitiveOnly)
    (htag : string.tag = [UInt8.ofNat number]) {contents elements octets : Nat}
    (hadmits : limits.Admits contents (elements + 1) octets)
    (hvalid : validateUniversalValue number string.value = .ok ())
    (destination : Option Bytes) :
    cerWriteSegmentedString string limits destination =
      if string.value.length ≤ cerMaxSegmentOctets then
        if string.value.length > limits.maxValueSize then cerFail .limit 1
        else cerWriteFramed string 1 limits destination
      else
        writeSegments string 1 limits ((cerTypeInfo number).form = .bitString) destination := by
  obtain ⟨huniversal, hprimitive, hnumber⟩ := string_tag_number hform
  have hwrite : cerFields.writeTag string.tag none = .ok ([], 1) := by
    rw [htag]
    exact string_tag_written hform
  have helements : limits.maxElements ≠ 0 := by
    have := hadmits.elements
    omega
  have hargument : ¬ (asn1IsUniversal string.tag = false ∨ asn1IsConstructed string.tag = true) := by
    rw [htag, huniversal, hprimitive]
    decide
  rw [cerWriteSegmentedString, if_neg (Nat.not_lt.mpr hadmits.depth), if_neg helements,
    if_neg hargument, hwrite]
  dsimp only
  rw [htag, hnumber]
  dsimp only
  rw [if_neg hform, hvalid]

/-- The octets of a constructed string written again. -/
theorem segmented_bytes_eq (h : Segmented number (front ++ [last]) state)
    (hlast : last ≠ []) {octets : Nat}
    (hoctets : octets + (leadOctets ((cerTypeInfo number).form = .bitString)).length =
      last.length) {total : Nat} :
    segmentedBytes [UInt8.ofNat number]
        (stringContents (cerTypeInfo number).form (front ++ [last]))
        ((cerTypeInfo number).form = .bitString)
        ⟨chunkOctets ((cerTypeInfo number).form = .bitString),
          (lengthBytes cerMaxSegmentOctets).length, front.length, octets, last.length,
          (lengthBytes last.length).length, total⟩ =
      .ok ([UInt8.ofNat number ||| 0x20, berIndefinite] ++
        ((front ++ [last]).map (segmentBytes [UInt8.ofNat number])).flatten ++ [0, 0]) := by
  have hfull := full_segment h
  have hsize := h.sizes last (by simp)
  have hmax : last.length ≤ sizeMax := hsize.2.trans (by decide)
  set isBit := decide ((cerTypeInfo number).form = .bitString) with hisBit
  have hsource := @string_source front last hlast isBit _ hisBit
  have hstored := @store_segments_eq [UInt8.ofNat number] (leadOctets isBit) (chunkOctets isBit)
    front hfull (lead_chunk isBit) (last.drop (leadOctets isBit).length)
  have htake : (last.drop (leadOctets isBit).length).take octets =
      last.drop (leadOctets isBit).length := by
    apply List.take_of_length_le
    rw [List.length_drop]
    omega
  have hfinal : (if isBit then
      (stringContents (cerTypeInfo number).form (front ++ [last])).take 1 else []) ++
        last.drop (leadOctets isBit).length = last := by
    obtain ⟨octet, rest, rfl⟩ := List.exists_cons_of_ne_nil hlast
    by_cases hbit : (cerTypeInfo number).form = .bitString
    · simp [hisBit, hbit, stringContents, leadOctets]
    · simp [hisBit, hbit, leadOctets]
  have hlead : (if isBit then [0] else []) = leadOctets isBit := rfl
  rw [segmentedBytes]
  dsimp only
  rw [hsource, hlead, hstored]
  show (do
    let final ← storeSegment _ ((if isBit then _ else []) ++ (List.drop _ last).take octets) _ _
    return _) = _
  rw [htake, hfinal, store_segment_eq hmax]
  simp [constructedTag, asn1ConstructedBit, pure, Except.pure, bind, Except.bind]

theorem final_octets_eq (isBit : Bool) (octets : Nat) :
    finalOctets isBit octets = octets + (leadOctets isBit).length := by
  cases isBit <;> rfl

/-- The final segment has source octets. -/
theorem lead_lt_last (h : Segmented number (front ++ [last]) state)
    (hbits : (cerTypeInfo number).form = .bitString →
      2 ≤ ((front ++ [last]).getLastD []).length) :
    (leadOctets ((cerTypeInfo number).form = .bitString)).length < last.length := by
  have hsize := h.sizes last (by simp)
  by_cases hbit : (cerTypeInfo number).form = .bitString
  · have hmore := hbits hbit
    rw [List.getLastD_concat] at hmore
    simp only [hbit, leadOctets, decide_true, if_true, List.length_singleton]
    omega
  · simp only [hbit, leadOctets, decide_false, Bool.false_eq_true, if_false, List.length_nil]
    omega

/-- The logical contents leave out the leads of the full segments. -/
theorem contents_length {isBit : Bool} {form : CerForm}
    (hfull : ∀ value ∈ front, value.length = cerMaxSegmentOctets) (hlast : last ≠ [])
    (hform : isBit = decide (form = .bitString)) :
    (stringContents form (front ++ [last])).length =
      front.length * chunkOctets isBit + last.length := by
  have hbodies := bodies_length (lead_chunk isBit) hfull
  have hpositive := List.length_pos_iff.mpr hlast
  by_cases hbit : form = .bitString
  · obtain rfl : isBit = true := by rw [hform, hbit]; rfl
    simp only [leadOctets, if_true, List.length_singleton] at hbodies
    rw [hbit, stringContents, if_pos rfl, List.map_append, List.flatten_append, List.length_append,
      List.length_append, hbodies, List.getLastD_concat, List.length_take]
    simp only [List.map_singleton, List.flatten_singleton, List.length_drop]
    omega
  · obtain rfl : isBit = false := by rw [hform]; exact decide_eq_false hbit
    simp only [leadOctets, Bool.false_eq_true, if_false, List.length_nil, List.drop_zero,
      List.map_id'] at hbodies
    rw [stringContents, if_neg hbit, List.flatten_append, List.length_append, hbodies,
      List.flatten_singleton]

/-- The octets behind the lead of the contents. -/
theorem source_length {isBit : Bool} {contents count : Nat}
    (hcontents : contents = count * chunkOctets isBit + last.length)
    (hlead : (leadOctets isBit).length < last.length) :
    (if isBit then contents - 1 else contents) =
      count * chunkOctets isBit + (last.length - (leadOctets isBit).length) := by
  cases isBit with
  | false =>
    simp only [leadOctets, Bool.false_eq_true, if_false, List.length_nil] at hlead ⊢
    omega
  | true =>
    simp only [leadOctets, if_true, List.length_singleton] at hlead ⊢
    omega

/-- A constructed string has contents for more than one segment. -/
theorem long_contents {isBit : Bool} {contents : Nat}
    (hfull : ∀ value ∈ front, value.length = cerMaxSegmentOctets) (hlast : last ≠ [])
    (htotal : cerMaxSegmentOctets < ((front ++ [last]).map List.length).sum)
    (hsize : last.length ≤ cerMaxSegmentOctets)
    (hlead : (leadOctets isBit).length < last.length)
    (hcontents : contents = front.length * chunkOctets isBit + last.length) :
    ¬ contents ≤ cerMaxSegmentOctets := by
  have hsum := @contents_length front last false .octets hfull hlast rfl
  rw [stringContents, if_neg (by decide), List.length_flatten] at hsum
  rw [hsum] at htotal
  cases isBit with
  | false => omega
  | true =>
    simp only [leadOctets, if_true, List.length_singleton] at hlead
    simp only [chunkOctets, cerMaxSegmentOctets, if_true, Bool.false_eq_true, if_false] at *
    omega

/-- A string that was read is written again as it was. -/
theorem string_rewritten (hdata : data.length ≤ sizeMax)
    (h : ClosedString data number segments element consumed state)
    (hbits : (cerTypeInfo number).form = .bitString → 2 ≤ (segments.getLastD []).length)
    (htag : string.tag = [UInt8.ofNat number])
    (hvalue : string.value = stringContents (cerTypeInfo number).form segments)
    (hadmits : limits.Admits string.value.length (segments.length + 1) consumed) {buffer : Bytes}
    (hbuffer : consumed ≤ buffer.length) :
    ∃ stored, cerWriteSegmentedString string limits (some buffer) = .ok (some stored, consumed) ∧
      stored.take consumed = data.take consumed := by
  obtain ⟨offset, hfinish⟩ := h.finished
  have hvalid := contents_valid h.segmented hfinish h.form hbits
  rw [← hvalue] at hvalid
  obtain ⟨htotal, ⟨front, last, rfl, -⟩, -⟩ := finish_ok h.segmented hfinish
  have hconsumed := closed_string_size h
  have hinside := h.inside
  have hfull := full_segment h.segmented
  have hsize := h.segmented.sizes last (by simp)
  have hlast : last ≠ [] := List.length_pos_iff.mp hsize.1
  have hlead := lead_lt_last h.segmented hbits
  have hbytes := @segmented_bytes_eq number front last state h.segmented hlast
    (last.length - (leadOctets ((cerTypeInfo number).form = .bitString)).length) (by omega)
    consumed
  have hchoice := write_string_choice h.form htag hadmits hvalid (some buffer)
  rw [← hvalue, ← htag] at hbytes
  set isBit := decide ((cerTypeInfo number).form = .bitString) with hisBit
  have hchunk := lead_chunk isBit
  have hplain : ∀ value ∈ front, value.length = cerMaxSegmentOctets :=
    fun value hvalue => (hfull value hvalue).1
  have hcontents := contents_length hplain hlast hisBit
  rw [← hvalue] at hcontents
  have hfinal : finalOctets isBit (last.length - (leadOctets isBit).length) = last.length := by
    rw [final_octets_eq]
    omega
  have hlong : ¬ string.value.length ≤ cerMaxSegmentOctets :=
    long_contents hplain hlast htotal hsize.2 hlead hcontents
  have hsizes : segmentSizes 1 string.value.length isBit =
      .ok ⟨chunkOctets isBit, (lengthBytes cerMaxSegmentOctets).length, front.length,
        last.length - (leadOctets isBit).length, last.length, (lengthBytes last.length).length,
        consumed⟩ := by
    have heq := @segment_sizes_eq isBit string.value.length front.length
      (last.length - (leadOctets isBit).length) (source_length hcontents hlead) (by omega)
      (by omega) (by rw [hfinal, ← hconsumed]; omega)
    rw [hfinal, ← hconsumed] at heq
    exact heq
  have helements := hadmits.elements
  rw [List.length_append, List.length_singleton] at helements
  rw [if_neg hlong, writeSegments, if_neg (Nat.not_lt.mpr hadmits.contents), hsizes] at hchoice
  dsimp only at hchoice
  rw [if_neg (Nat.not_lt.mpr hadmits.octets), if_neg (by omega), if_neg (Nat.not_lt.mpr hbuffer),
    hbytes] at hchoice
  refine ⟨_, hchoice, ?_⟩
  rw [htag, ← h.octets]
  have hstored := @Octets.take_store buffer [] (data.take consumed) 0 rfl rfl
  rw [List.length_take, Nat.min_eq_left hinside, Nat.zero_add, List.nil_append] at hstored
  exact hstored

/-- How a string is written. -/
theorem write_string_cases (hform : (cerTypeInfo number).form ≠ .primitiveOnly)
    (htag : string.tag = [UInt8.ofNat number]) {destination : Option Bytes} {written : Written}
    (h : cerWriteSegmentedString string limits destination = .ok written) :
    (string.value.length ≤ cerMaxSegmentOctets ∧
      cerWriteFramed string 1 limits destination = .ok written) ∨
    cerMaxSegmentOctets < string.value.length ∧
      writeSegments string 1 limits ((cerTypeInfo number).form = .bitString) destination =
        .ok written := by
  obtain ⟨-, -, hnumber⟩ := string_tag_number hform
  have hwrite : cerFields.writeTag string.tag none = .ok ([], 1) := by
    rw [htag]
    exact string_tag_written hform
  unfold cerWriteSegmentedString at h
  split at h
  · cases h
  · split at h
    · cases h
    · split at h
      · cases h
      · rw [hwrite, htag, hnumber] at h
        dsimp only at h
        rw [if_neg hform] at h
        split at h
        · cases h
        · split at h
          · rename_i hshort
            split at h
            · cases h
            · exact .inl ⟨hshort, h⟩
          · rename_i hlong
            exact .inr ⟨Nat.not_le.mp hlong, h⟩

/-- The segments occupy the size computed before writing. -/
theorem write_segments_size {isBit : Bool} {sizes : SegmentSizes} {buffer stored : Bytes}
    {written : Nat} (hsizes : segmentSizes 1 string.value.length isBit = .ok sizes)
    (h : writeSegments string 1 limits isBit (some buffer) = .ok (some stored, written)) :
    written = sizes.total := by
  unfold writeSegments at h
  rw [hsizes] at h
  dsimp only at h
  obtain ⟨-, h⟩ := guard_ok.mp h
  split at h
  · cases h
  · split at h
    · cases h
    · split at h
      · cases h
      · cases hbytes : segmentedBytes string.tag string.value isBit sizes with
        | error stop =>
          rw [hbytes] at h
          cases h
        | ok bytes =>
          rw [hbytes] at h
          cases h
          rfl

/-- A bit string whose final segment has no bits is written with one segment less. -/
theorem string_not_rewritten (hdata : data.length ≤ sizeMax)
    (h : ClosedString data number segments element consumed state)
    (hform : (cerTypeInfo number).form = .bitString) (hshort : (segments.getLastD []).length < 2)
    (htag : string.tag = [UInt8.ofNat number])
    (hvalue : string.value = stringContents (cerTypeInfo number).form segments)
    {buffer stored : Bytes} {written : Nat}
    (hwrite : cerWriteSegmentedString string limits (some buffer) = .ok (some stored, written)) :
    stored.take written ≠ data.take consumed := by
  obtain ⟨offset, hfinish⟩ := h.finished
  obtain ⟨htotal, ⟨front, last, rfl, -⟩, -⟩ := finish_ok h.segmented hfinish
  have hconsumed := closed_string_size h
  have hinside := h.inside
  have hsize := h.segmented.sizes last (by simp)
  rw [List.getLastD_concat] at hshort
  have hone : last.length = 1 := by omega
  have hlast : last ≠ [] := List.length_pos_iff.mp hsize.1
  have hplain : ∀ value ∈ front, value.length = cerMaxSegmentOctets :=
    fun value hvalue => (full_segment h.segmented value hvalue).1
  have hcontents := @contents_length front last true (cerTypeInfo number).form hplain hlast
    (by rw [hform]; rfl)
  have hsum := @contents_length front last false .octets hplain hlast rfl
  rw [stringContents, if_neg (by decide), List.length_flatten] at hsum
  have hsome : 1 ≤ front.length := by
    rw [hsum, hone] at htotal
    by_contra hnone
    obtain hzero : front.length = 0 := by omega
    rw [hzero] at htotal
    simp [cerMaxSegmentOctets] at htotal
  rw [← hvalue] at hcontents
  intro hequal
  rcases write_string_cases h.form htag hwrite with ⟨-, hframed⟩ | ⟨hlong, hsegments⟩
  · -- one primitive element, whose first octet differs
    obtain ⟨hencode, -⟩ := cer_write_framed_ok hframed
    have hprimitive : asn1IsConstructed string.tag = false := by
      rw [htag]
      exact (string_tag_number h.form).2.1
    obtain ⟨lengthField, -, htake, -⟩ := cer_encode_primitive hprimitive hencode
    rw [hequal, h.octets, htag] at htake
    have hhead := congrArg List.head? htake
    have hle := string_number_le h.form
    simp only [List.cons_append, List.head?_cons, Option.some.injEq] at hhead
    interval_cases number
    all_goals exact absurd hhead (by decide)
  · -- the bits fill one segment less
    have hless : segmentedSize (front.length - 1) cerMaxSegmentOctets <
        segmentedSize front.length last.length := by
      obtain ⟨count, hcount⟩ : ∃ count, front.length = count + 1 := ⟨front.length - 1, by omega⟩
      rw [hcount, hone, segmentedSize, segmentedSize, Nat.add_sub_cancel, Nat.succ_mul]
      omega
    have hfinal : finalOctets true (cerMaxSegmentOctets - 1) = cerMaxSegmentOctets := by decide
    have hsizes := @segment_sizes_eq true string.value.length (front.length - 1)
      (cerMaxSegmentOctets - 1)
      (by
        rw [hcontents, hone, if_pos rfl, Nat.add_sub_cancel]
        simp only [chunkOctets, if_true, cerMaxSegmentOctets]
        omega)
      (by decide) (by decide)
      (by rw [hfinal]; omega)
    rw [hfinal] at hsizes
    have hbit : decide ((cerTypeInfo number).form = .bitString) = true := decide_eq_true hform
    rw [hbit] at hsegments
    have hwritten := write_segments_size hsizes hsegments
    dsimp only at hwritten
    have hlength := congrArg List.length hequal
    rw [List.length_take, List.length_take] at hlength
    omega

theorem segments_count_le (octet : UInt8) (segments : List Bytes) :
    segments.length ≤ ((segments.map (segmentBytes [octet])).flatten).length := by
  induction segments with
  | nil => simp
  | cons value rest ih =>
    rw [List.map_cons, List.flatten_cons, List.length_append, segmentBytes, List.length_append,
      List.length_append, List.length_singleton, List.length_cons]
    omega

/-- The joined contents are no longer than the segments. -/
theorem contents_length_le (form : CerForm) (tag : Bytes) (segments : List Bytes) :
    (stringContents form segments).length ≤
      1 + ((segments.map (segmentBytes tag)).flatten).length := by
  have hbodies : ∀ count, ((segments.map (·.drop count)).flatten).length ≤
      ((segments.map (segmentBytes tag)).flatten).length := by
    intro count
    induction segments with
    | nil => simp
    | cons value rest ih =>
      rw [List.map_cons, List.flatten_cons, List.length_append, List.map_cons,
        List.flatten_cons, List.length_append, segmentBytes, List.length_append,
        List.length_append, List.length_drop]
      omega
  unfold stringContents
  split
  · have hone := hbodies 1
    rw [List.length_append, List.length_take]
    omega
  · have hzero := hbodies 0
    simp only [List.drop_zero, List.map_id'] at hzero
    omega

/-- The primitive form of the tag of a string. -/
theorem primitive_string_tag (h : (cerTypeInfo number).form ≠ .primitiveOnly) :
    primitiveTag [UInt8.ofNat number ||| 0x20] = [UInt8.ofNat number] ∧
      cerUniversalNumber [UInt8.ofNat number ||| 0x20] = some number := by
  have hle := string_number_le h
  interval_cases number
  all_goals first | exact ⟨rfl, rfl⟩ | exact absurd rfl h

/-- A constructed string that the strict reader accepts is what the writer makes of its logical
contents, exactly when it is no bit string that ends with a segment without bits. -/
theorem cer_string_canonical (hdata : data.length ≤ sizeMax) {limits : CerLimits}
    (hread : cerReadStrict data limits = .ok (element, consumed))
    (hconstructed : asn1IsConstructed element.tag = true)
    (hnumber : cerUniversalNumber element.tag = some number)
    (hform : (cerTypeInfo number).form ≠ .primitiveOnly) :
    ∃ segments, stringSegments element.value.length element.value = some segments ∧
      (stringContents (cerTypeInfo number).form segments).length ≤ sizeMax ∧
      ∀ (string : Element) (admitting : CerLimits) (buffer : Bytes),
        string.tag = primitiveTag element.tag →
        string.value = stringContents (cerTypeInfo number).form segments →
        admitting.Admits string.value.length (segments.length + 1) consumed →
        consumed ≤ buffer.length →
        ((∃ stored written,
          cerWriteSegmentedString string admitting (some buffer) = .ok (some stored, written) ∧
            stored.take written = data.take consumed) ↔
          ((cerTypeInfo number).form = .bitString → 2 ≤ (segments.getLastD []).length)) := by
  have hsome : cerSegments element.tag true ≠ none := by
    have hfree : asn1NumberMustConstruct number = false := by
      have hle := string_number_le hform
      interval_cases number
      all_goals first | rfl | exact absurd rfl hform
    simp [cerSegments, hnumber, hfree, hform]
  obtain ⟨found, segments, state, hstring⟩ := read_string hread hconstructed hsome
  obtain ⟨hprimitive, hsame⟩ := primitive_string_tag hstring.form
  obtain rfl : found = number := by
    rw [hstring.tag, hsame] at hnumber
    exact Option.some.inj hnumber
  have hsizes := hstring.segmented.sizes
  refine ⟨segments, ?_, ?_, ?_⟩
  · rw [hstring.value]
    refine string_segments_eq hform segments (fun value hvalue => (hsizes value hvalue).2) ?_
    exact segments_count_le _ _
  · have hvalueLength := congrArg List.length hstring.octets
    rw [List.length_take, Nat.min_eq_left hstring.inside, List.length_append,
      List.length_append, List.length_cons, List.length_cons] at hvalueLength
    have hcontents := contents_length_le (cerTypeInfo found).form [UInt8.ofNat found] segments
    have hinside := hstring.inside
    omega
  · intro string admitting buffer htag hvalue hadmits hbuffer
    rw [hstring.tag, hprimitive] at htag
    constructor
    · rintro ⟨stored, written, hwrite, hequal⟩ hbit
      by_contra hshort
      exact string_not_rewritten hdata hstring hbit (Nat.not_le.mp hshort) htag hvalue hwrite hequal
    · intro hbits
      obtain ⟨stored, hwrite, hequal⟩ :=
        string_rewritten hdata hstring hbits htag hvalue hadmits hbuffer
      exact ⟨stored, consumed, hwrite, hequal⟩

/-- The value of a string of zeros with a full segment and a final one of one octet. -/
def zeroSegments (octet : UInt8) : Bytes :=
  [octet, 0x82, 0x03, 0xE8] ++ List.replicate 1000 0 ++ [octet, 0x01, 0x00]

/-- A constructed string of zeros. -/
def zeroString (octet : UInt8) : Bytes :=
  [octet ||| 0x20, 0x80] ++ zeroSegments octet ++ [0, 0]

theorem zero_octets_read :
    cerReadStrict (zeroString 0x04) cerDefaultLimits =
      .ok (⟨[0x24], zeroSegments 0x04⟩, 1011) := by
  decide +kernel

theorem zero_bits_read :
    cerReadStrict (zeroString 0x03) cerDefaultLimits =
      .ok (⟨[0x23], zeroSegments 0x03⟩, 1011) := by
  decide +kernel

/-- An octet string of 1001 zeros is written again. -/
theorem cer_string_canonical_octets :
    ∃ segments, stringSegments (zeroSegments 0x04).length (zeroSegments 0x04) = some segments ∧
      (stringContents .octets segments).length ≤ sizeMax ∧
      ∀ (string : Element) (admitting : CerLimits) (buffer : Bytes),
        string.tag = [0x04] → string.value = stringContents .octets segments →
        admitting.Admits string.value.length (segments.length + 1) 1011 →
        1011 ≤ buffer.length →
        ((∃ stored written,
          cerWriteSegmentedString string admitting (some buffer) = .ok (some stored, written) ∧
            stored.take written = (zeroString 0x04).take 1011) ↔
          (CerForm.octets = .bitString → 2 ≤ (segments.getLastD []).length)) := by
  obtain ⟨segments, hsegments, hlength, hwrites⟩ := @cer_string_canonical (zeroString 0x04) 4
    ⟨[0x24], zeroSegments 0x04⟩ 1011 (by decide +kernel) cerDefaultLimits zero_octets_read rfl rfl
    (by decide)
  refine ⟨segments, hsegments, hlength, ?_⟩
  intro string admitting buffer htag hvalue hadmits hbuffer
  exact hwrites string admitting buffer htag hvalue hadmits hbuffer

/-- The logical contents of the bit string of zeros: no unused bits, and 999 octets of bits. -/
def zeroBits : Element :=
  ⟨[0x03], List.replicate 1000 0, by decide, by decide +kernel⟩

/-- A bit string with a final segment without bits is accepted, and not what its contents are
written as. -/
theorem cer_bit_string_rewritten :
    cerReadStrict (zeroString 0x03) cerDefaultLimits =
        .ok (⟨[0x23], zeroSegments 0x03⟩, 1011) ∧
      stringSegments (zeroSegments 0x03).length (zeroSegments 0x03) =
        some [List.replicate 1000 0, [0]] ∧
      zeroBits.tag = primitiveTag [0x23] ∧
      zeroBits.value = stringContents .bitString [List.replicate 1000 0, [0]] ∧
      cerDefaultLimits.Admits zeroBits.value.length 3 1011 ∧
      ¬ ∃ stored written, cerWriteSegmentedString zeroBits cerDefaultLimits
          (some (List.replicate 1011 0)) = .ok (some stored, written) ∧
        stored.take written = (zeroString 0x03).take 1011 := by
  have hsegments : stringSegments (zeroSegments 0x03).length (zeroSegments 0x03) =
      some [List.replicate 1000 0, [0]] := by
    decide +kernel
  have hcontents : zeroBits.value = stringContents .bitString [List.replicate 1000 0, [0]] := by
    decide +kernel
  refine ⟨zero_bits_read, hsegments, rfl, hcontents, ?_, ?_⟩
  · refine ⟨?_, ?_, ?_, ?_⟩ <;> decide +kernel
  · rintro ⟨stored, written, hwrite, hequal⟩
    obtain ⟨number, segments, state, hstring⟩ := read_string zero_bits_read rfl (by decide)
    obtain rfl : number = 3 := by
      have hle := string_number_le hstring.form
      have htag := hstring.tag
      interval_cases number
      all_goals first | rfl | exact absurd htag (by decide)
    have hfound : stringSegments (zeroSegments 0x03).length (zeroSegments 0x03) =
        some segments := by
      have hvalue : zeroSegments 0x03 = _ := hstring.value
      rw [hvalue]
      exact string_segments_eq hstring.form segments
        (fun value hvalue => (hstring.segmented.sizes value hvalue).2) (segments_count_le _ _)
    obtain rfl : segments = [List.replicate 1000 0, [0]] :=
      Option.some.inj (hfound.symm.trans hsegments)
    have hdata : (zeroString 0x03).length ≤ sizeMax := by decide +kernel
    exact string_not_rewritten hdata hstring rfl (by decide) rfl hcontents hwrite hequal

end Rewrite

end OpenTlv
