import OpenTlv.Writer.Preorder

/-!
# What a measurement stages

Over a writable composition the events of a forest are staged as its recursive encoding, or the
measurement reports what the workspace lacks. An element of a composition is encoded to the same
octets in every destination that has room for them, so a measurement that is repeated with more
storage goes the same way further.
-/

namespace OpenTlv

/-- The formats of `compose.c`, with fields that keep their laws. -/
inductive Composed (format : Format) : Prop where
  | fields {f : FieldComposition} (htags : TagLaw f.readTag f.writeTag)
      (hlengths : LengthLaw f.readLength f.writeLength)
      (hmeasure : format.measure = some (fieldsMeasure f))
      (hencode : format.encode = some (fieldsEncode f))
  | tagged {f : TaggedFieldsComposition} (htags : TagLaw f.fields.readTag f.fields.writeTag)
      (hlengths : LengthLaw f.fields.readLength f.fields.writeLength)
      (hmeasure : format.measure = some (taggedFieldsMeasure f))
      (hencode : format.encode = some (taggedFieldsEncode f))

/-- A format encodes what it measured, to the same octets in every destination with room. -/
def Format.Exact (format : Format) : Prop :=
  ∀ element sizes, formatMeasure format element = .ok sizes → sizes.total ≤ sizeMax →
    ∃ bytes : Bytes, bytes.length = sizes.total ∧
      ∀ destination : Bytes, sizes.total ≤ destination.length → ∃ stored,
        formatEncode format element destination = .ok (stored, sizes.total) ∧
          stored.take sizes.total = bytes

section Compositions

/-- Measured fields are encoded at the measured size. -/
theorem fields_encode_exact {f : FieldComposition} (htags : TagLaw f.readTag f.writeTag)
    (hlengths : LengthLaw f.readLength f.writeLength) {element : Element} {sizes : Encoding}
    (h : fieldsMeasure f element = .ok sizes) :
    ∃ bytes : Bytes, bytes.length = sizes.total ∧
      ∀ destination : Bytes, sizes.total ≤ destination.length → ∃ stored,
        fieldsEncode f element destination = .ok (stored, sizes.total) ∧
          stored.take sizes.total = bytes := by
  unfold fieldsMeasure at h
  cases hsizes : fieldSizes f element with
  | error failed =>
    rw [hsizes] at h
    cases h
  | ok result =>
    obtain ⟨t, l, count⟩ := result
    obtain ⟨hwidth, hcount, storedLength, hquery⟩ := field_sizes_eq_ok hsizes
    obtain ⟨storedTag, htag⟩ := tag_width_eq_ok hwidth
    obtain ⟨-, rfl, hwriteTag, -⟩ := htags _ _ _ htag
    obtain ⟨lengthBytes, rfl, hwriteLength, -⟩ :=
      hlengths _ _ _ (element_count_le hcount) hquery
    rw [hsizes] at h
    dsimp only at h
    cases hheader : sizeAdd element.tag.length lengthBytes.length with
    | error status =>
      rw [hheader] at h
      cases h
    | ok header =>
      rw [hheader] at h
      dsimp only at h
      cases htotal : sizeAdd header element.value.length with
      | error status =>
        rw [htotal] at h
        cases h
      | ok total =>
        rw [htotal] at h
        cases h
        obtain ⟨rfl, -⟩ := size_add_eq_ok hheader
        obtain ⟨rfl, -⟩ := size_add_eq_ok htotal
        have hnative : sizeToNative element.value.length = .ok element.value.length :=
          if_neg (Nat.not_lt.mpr element.value_le)
        refine ⟨headerBytes f element.tag lengthBytes ++ element.value, by simp,
          fun destination hroom => ?_⟩
        dsimp only at hroom
        refine ⟨_, ?_, take_stores f destination element.tag lengthBytes element.value hroom⟩
        unfold fieldsEncode
        simp only [hsizes, hnative, hwriteTag _ (Nat.le_refl _), hwriteLength,
          callback_result_ok, ne_eq, not_true_eq_false, if_false]
        rw [if_neg (by omega)]

theorem tagged_fields_encode_exact {f : TaggedFieldsComposition}
    (htags : TagLaw f.fields.readTag f.fields.writeTag)
    (hlengths : LengthLaw f.fields.readLength f.fields.writeLength) {element : Element}
    {sizes : Encoding} (h : taggedFieldsMeasure f element = .ok sizes) :
    ∃ bytes : Bytes, bytes.length = sizes.total ∧
      ∀ destination : Bytes, sizes.total ≤ destination.length → ∃ stored,
        taggedFieldsEncode f element destination = .ok (stored, sizes.total) ∧
          stored.take sizes.total = bytes := by
  have hmeasured := h
  unfold taggedFieldsMeasure at h
  cases hwidth : tagWidth f.fields element.tag with
  | error failed =>
    rw [hwidth] at h
    cases h
  | ok width =>
    rw [hwidth] at h
    dsimp only at h
    by_cases hplain : taggedFieldsTagOnly f element.tag = false
    · rw [if_pos hplain] at h
      obtain ⟨bytes, hlength, hall⟩ := fields_encode_exact htags hlengths h
      refine ⟨bytes, hlength, fun destination hroom => ?_⟩
      obtain ⟨stored, hstored, htake⟩ := hall destination hroom
      refine ⟨stored, ?_, htake⟩
      unfold taggedFieldsEncode
      rw [hmeasured]
      dsimp only
      rw [if_pos hplain, hstored]
    · rw [if_neg hplain] at h
      split at h
      · cases h
      · cases h
        obtain ⟨storedTag, htag⟩ := tag_width_eq_ok hwidth
        obtain ⟨-, rfl, hwriteTag, -⟩ := htags _ _ _ htag
        refine ⟨element.tag, rfl, fun destination hroom => ?_⟩
        dsimp only at hroom
        refine ⟨Octets.store destination 0 element.tag, ?_, ?_⟩
        · unfold taggedFieldsEncode
          rw [hmeasured]
          dsimp only
          rw [if_neg hplain, if_neg (by omega), hwriteTag _ hroom]
        · have htake := @Octets.take_store destination [] element.tag 0 rfl rfl
          rw [Nat.zero_add] at htake
          exact htake

/-- Compositions are exact. -/
theorem Composed.exact {format : Format} (h : Composed format) : format.Exact := by
  intro element sizes hmeasured htotal
  obtain ⟨measure, hmeasure, hcall⟩ := format_measure_eq_ok hmeasured
  cases h with
  | fields htags hlengths hfields hencode =>
    rw [hfields] at hmeasure
    cases hmeasure
    obtain ⟨bytes, hlength, hall⟩ := fields_encode_exact htags hlengths hcall
    refine ⟨bytes, hlength, fun destination hroom => ?_⟩
    obtain ⟨stored, hstored, htake⟩ := hall destination hroom
    exact ⟨stored, format_encode_of_call hmeasured hencode htotal hroom hstored, htake⟩
  | tagged htags hlengths hfields hencode =>
    rw [hfields] at hmeasure
    cases hmeasure
    obtain ⟨bytes, hlength, hall⟩ := tagged_fields_encode_exact htags hlengths hcall
    refine ⟨bytes, hlength, fun destination hroom => ?_⟩
    obtain ⟨stored, hstored, htake⟩ := hall destination hroom
    exact ⟨stored, format_encode_of_call hmeasured hencode htotal hroom hstored, htake⟩

end Compositions

/-! ## The recursive encoding -/

/-- What an element is encoded to. -/
def elementEncoding (format : Format) (element : Element) : Except Status Bytes :=
  match elementEncodedSize format element with
  | .error status => .error status
  | .ok total =>
    match formatEncode format element (List.replicate total 0) with
    | .error (status, _) => .error status
    | .ok (stored, used) => .ok (stored.take used)

/-- What an element around a value is encoded to. -/
def groupEncoding (format : Format) (tag value : Bytes) : Except Status Bytes :=
  if h : tag.length ≤ sizeMax ∧ value.length ≤ sizeMax then
    elementEncoding format ⟨tag, value, tag_extent h, value_extent h⟩
  else .error .overflow

/-- Why a writer does not take a node. -/
def PresentedNode.refused (format : Format) (constructed : Bool) (node : PresentedNode) :
    Option Status :=
  if node.element.tag.length ≠ 0 ∧ node.tagPresent = false then some .nullArg
  else if format.constructs node.element.tag = constructed then none
  else some .invalidTag

/-- The recursive encoding of a forest: a branch encodes what its children are encoded to. -/
def Forest.encoding (format : Format) : Forest PresentedNode → Except Status Bytes
  | .nil => .ok []
  | .leaf node rest =>
    match node.refused format false with
    | some status => .error status
    | none => do
        let bytes ← elementEncoding format node.element
        let others ← rest.encoding format
        .ok (bytes ++ others)
  | .branch node kids _ rest =>
    match node.refused format true with
    | some status => .error status
    | none => do
        let value ← kids.encoding format
        let bytes ← groupEncoding format node.element.tag value
        let others ← rest.encoding format
        .ok (bytes ++ others)

/-- The frames that a forest needs: its branches inside of each other. -/
def Forest.nesting {α : Type} : Forest α → Nat
  | .nil => 0
  | .leaf _ rest => rest.nesting
  | .branch _ kids _ rest => max (kids.nesting + 1) rest.nesting

theorem element_encoded_size_ok {format : Format} {element : Element} {total : Nat}
    (h : elementEncodedSize format element = .ok total) :
    ∃ sizes, formatMeasure format element = .ok sizes ∧ sizes.total = total ∧
      sizes.total ≤ sizeMax := by
  unfold elementEncodedSize at h
  cases hmeasure : formatMeasure format element with
  | error failed =>
    rw [hmeasure] at h
    cases h
  | ok sizes =>
    rw [hmeasure] at h
    dsimp only at h
    unfold sizeToNative at h
    split at h
    · cases h
    next hnative =>
      cases h
      exact ⟨sizes, rfl, rfl, by omega⟩

/-- An exact format encodes an element to as many octets as it measures, wherever there is room. -/
theorem Format.Exact.element {format : Format} (h : format.Exact) {element : Element} {total : Nat}
    (htotal : elementEncodedSize format element = .ok total) :
    ∃ bytes : Bytes, bytes.length = total ∧ elementEncoding format element = .ok bytes ∧
      ∀ destination : Bytes, total ≤ destination.length → ∃ stored,
        formatEncode format element destination = .ok (stored, total) ∧
          stored.take total = bytes := by
  obtain ⟨sizes, hmeasure, rfl, hnative⟩ := element_encoded_size_ok htotal
  obtain ⟨bytes, hlength, hall⟩ := h element sizes hmeasure hnative
  refine ⟨bytes, hlength, ?_, hall⟩
  obtain ⟨stored, hstored, htake⟩ := hall (List.replicate sizes.total 0)
    (le_of_eq List.length_replicate.symm)
  unfold elementEncoding
  rw [htotal]
  dsimp only
  rw [hstored, ← htake]

/-- An encoding holds the value and at least one octet besides. -/
theorem element_size_value {format : Format} {element : Element} {total : Nat}
    (h : elementEncodedSize format element = .ok total) :
    element.value.length ≤ total ∧ 0 < total := by
  obtain ⟨sizes, hmeasure, rfl, -⟩ := element_encoded_size_ok h
  have hvalid : encodingValid sizes element = true := by
    unfold formatMeasure at hmeasure
    split at hmeasure
    · split at hmeasure
      · split at hmeasure
        next hvalid =>
          cases hmeasure
          exact hvalid
        · cases hmeasure
      · cases hmeasure
    · cases hmeasure
  unfold encodingValid at hvalid
  split at hvalid
  · cases hvalid
  next header hheader =>
    split at hvalid
    · cases hvalid
    next total htotal =>
      simp only [Bool.and_eq_true, decide_eq_true_eq] at hvalid
      have hfirst := (size_add_eq_ok hheader).1
      have hsecond := (size_add_eq_ok htotal).1
      omega

/-! ## One event -/

section Steps

variable {encoder : Encoder} {s : Measuring} {frames : List WriterFrame} {count : Nat}
  {bytes : Bytes} {limits : TreeLimits} {dataSize scratchSize : Nat}

/-- A measurement has staged some octets, with some elements open. -/
structure Measuring.Staged (s : Measuring) (limits : TreeLimits) (dataSize scratchSize : Nat)
    (frames : List WriterFrame) (count : Nat) (bytes : Bytes) : Prop where
  data : s.writer.output.buf.length = dataSize
  scratch : s.writer.scratch.length = scratchSize
  capacity : s.writer.capacity = limits.capacity
  maxDepth : s.writer.maxDepth = limits.maxDepth
  maxElements : s.writer.maxElements = limits.maxElements
  pos : s.writer.output.pos = bytes.length
  room : bytes.length ≤ dataSize
  output : s.writer.output.buf.take bytes.length = bytes
  frames : s.writer.frames = frames
  count : s.writer.count = count
  tags : s.writer.tags = none
  requiredData : s.requiredData = 0
  requiredScratch : s.requiredScratch = 0

/-- A measurement stopped for lack of storage: each requirement is beyond its capacity. -/
structure Measuring.Short (s : Measuring) (limits : TreeLimits) (dataSize scratchSize : Nat) :
    Prop where
  data : s.writer.output.buf.length = dataSize
  scratch : s.writer.scratch.length = scratchSize
  capacity : s.writer.capacity = limits.capacity
  requiredData : s.requiredData = 0 ∨ dataSize < s.requiredData ∧ s.requiredData ≤ sizeMax
  requiredScratch :
    s.requiredScratch = 0 ∨ scratchSize < s.requiredScratch ∧ s.requiredScratch ≤ dataSize
  lacks : ¬ (s.requiredData = 0 ∧ s.requiredScratch = 0)

/-- How `measure_storage` ends. -/
inductive StorageCase (format : Format) (element : Element) (start : Nat) (closing : Bool)
    (s : Measuring) (limits : TreeLimits) : Except Status Unit × Measuring → Prop where
  | refused {status : Status} (hsize : elementEncodedSize format element = .error status) :
      StorageCase format element start closing s limits (.error status, s)
  | overflow {total : Nat} (hsize : elementEncodedSize format element = .ok total)
      (hlarge : sizeMax < start + total) :
      StorageCase format element start closing s limits (.error .overflow, s)
  | fits {total : Nat} (hsize : elementEncodedSize format element = .ok total)
      (hsmall : start + total ≤ sizeMax) (hdata : start + total ≤ s.writer.output.buf.length)
      (hscratch : closing = true → s.writer.output.pos - start ≤ s.writer.scratch.length) :
      StorageCase format element start closing s limits (.ok (), s)
  | short {after : Measuring} (hshort : after.Short limits s.writer.output.buf.length
      s.writer.scratch.length) :
      StorageCase format element start closing s limits (.error .bufferTooShort, after)

/-- What the storage of one element needs, case by case. -/
theorem storage_spec (h : s.Staged limits dataSize scratchSize frames count bytes)
    (element : Element) (start : Nat) (closing : Bool) :
    StorageCase encoder.format element start closing s limits
      ((measureStorage encoder element start closing).exec s) := by
  unfold measureStorage
  cases hsize : elementEncodedSize encoder.format element with
  | error status => exact .refused hsize
  | ok total =>
    have hpos := h.pos
    have hroom := h.room
    have hdata := h.data
    simp only [InPlace.exec_bind, InPlace.exec_lift, InPlace.exec_get, InPlace.exec_modify,
      InPlace.exec_ite, InPlace.exec_pure, InPlace.exec_throw]
    by_cases hlarge : total > sizeMax - start
    · rw [if_pos hlarge]
      exact .overflow hsize (by omega)
    rw [if_neg hlarge]
    have hpositive := (element_size_value hsize).2
    by_cases hdata : start + total > s.writer.output.buf.length
    · rw [if_pos hdata]
      by_cases hscratch : closing = true ∧
          s.writer.output.pos - start > s.writer.scratch.length
      · rw [if_pos hscratch, if_pos (by omega)]
        exact .short ⟨rfl, rfl, h.capacity, .inr ⟨hdata, by dsimp only; omega⟩,
          .inr ⟨hscratch.2, by dsimp only; omega⟩, by dsimp only; omega⟩
      · rw [if_neg hscratch, if_pos (by omega)]
        exact .short ⟨rfl, rfl, h.capacity, .inr ⟨hdata, by dsimp only; omega⟩,
          .inl h.requiredScratch, by dsimp only; omega⟩
    · rw [if_neg hdata]
      by_cases hscratch : closing = true ∧
          s.writer.output.pos - start > s.writer.scratch.length
      · rw [if_pos hscratch, if_pos (by omega)]
        exact .short ⟨rfl, rfl, h.capacity, .inl h.requiredData,
          .inr ⟨hscratch.2, by dsimp only; omega⟩, by dsimp only; omega⟩
      · rw [if_neg hscratch, if_neg (not_not.mpr ⟨h.requiredData, h.requiredScratch⟩)]
        exact .fits hsize (by omega) (by omega) fun hclosing => by
          rw [not_and] at hscratch
          have := hscratch hclosing
          omega

theorem encoder_encode_of_format {element : Element} {destination stored : Bytes} {used : Nat}
    (h : formatEncode encoder.format element destination = .ok (stored, used)) :
    encoder.encode element destination = (.ok used, stored) := by
  obtain ⟨encode, sizes, hencode, hmeasure, rfl, hroom, hcall⟩ := format_encode_eq_ok h
  have hnative : sizeToNative sizes.total = .ok sizes.total := by
    unfold formatEncode at h
    rw [hmeasure] at h
    dsimp only at h
    cases hnative : sizeToNative sizes.total with
    | error status =>
      rw [hnative] at h
      cases h
    | ok total => rw [size_to_native_eq_ok hnative]
  unfold Encoder.encode
  rw [hmeasure]
  dsimp only
  rw [hnative]
  dsimp only
  rw [if_neg (by omega), hencode]
  dsimp only
  rw [hcall]
  dsimp only
  rw [if_neg (not_not.mpr rfl)]

/-- Where there is room, an element is stored behind the cursor. -/
theorem write_exact (hexact : encoder.format.Exact) {writer : Writer} {element : Element}
    {total : Nat} (htotal : elementEncodedSize encoder.format element = .ok total)
    (hroom : writer.pos + total ≤ writer.buf.length) :
    ∃ added buf, elementEncoding encoder.format element = .ok added ∧ added.length = total ∧
      (writerWriteElement encoder element).exec writer = (.ok (), ⟨buf, writer.pos + total⟩) ∧
      buf.length = writer.buf.length ∧
      buf.take (writer.pos + total) = writer.buf.take writer.pos ++ added := by
  obtain ⟨added, hlength, hencoding, hall⟩ := hexact.element htotal
  obtain ⟨stored, hstored, htake⟩ := hall (writer.buf.drop writer.pos)
    (by rw [List.length_drop]; omega)
  have hencode := encoder_encode_of_format hstored
  have hextent := encoder_encode_length encoder element (writer.buf.drop writer.pos)
  rw [hencode, List.length_drop] at hextent
  dsimp only at hextent
  have hbelow : (writer.buf.take writer.pos).length = writer.pos := by
    rw [List.length_take]
    omega
  refine ⟨added, writer.buf.take writer.pos ++ stored, hencoding, hlength, ?_, ?_, ?_⟩
  · unfold writerWriteElement
    simp only [InPlace.exec_bind, InPlace.exec_get, InPlace.exec_modify, InPlace.exec_ite,
      InPlace.exec_throw]
    rw [if_neg (by omega), hencode]
    rfl
  · rw [List.length_append, hbelow]
    omega
  · rw [List.take_append, hbelow, Nat.add_sub_cancel_left, htake,
      List.take_of_length_le (by omega)]

/-- How a part of a measurement ends: the octets of its encoding are staged, or the storage is
short, or it fails as the encoding does. It may also fail where the encoding is too large. -/
inductive MeasureCase (limits : TreeLimits) (dataSize scratchSize : Nat)
    (frames : List WriterFrame) (count : Nat) (before : Bytes)
    (encoding : Except Status Bytes) : Except Status Unit × Measuring → Prop where
  | staged {after : Measuring} {added : Bytes} (hencoding : encoding = .ok added)
      (hstaged : after.Staged limits dataSize scratchSize frames count (before ++ added)) :
      MeasureCase limits dataSize scratchSize frames count before encoding (.ok (), after)
  | short {after : Measuring} (hshort : after.Short limits dataSize scratchSize) :
      MeasureCase limits dataSize scratchSize frames count before encoding
        (.error .bufferTooShort, after)
  | failed {after : Measuring} {status : Status}
      (hdata : after.requiredData = 0) (hscratch : after.requiredScratch = 0)
      (hstatus : encoding = .error status ∨ status = .overflow ∧
        ∀ added, encoding = .ok added → sizeMax < before.length + added.length) :
      MeasureCase limits dataSize scratchSize frames count before encoding (.error status, after)

theorem on_writer_exec {α : Type} (op : InPlace Status TreeWriter α) (s : Measuring) :
    (onWriter op).exec s =
      ((op.exec s.writer).1, { s with writer := (op.exec s.writer).2 }) :=
  rfl

theorem on_output_exec {α : Type} (op : InPlace Status Writer α) (writer : TreeWriter) :
    (onOutput op).exec writer =
      ((op.exec writer.output).1, { writer with output := (op.exec writer.output).2 }) :=
  rfl

/-- A leaf is measured. -/
theorem element_step (hexact : encoder.format.Exact)
    (h : s.Staged limits dataSize scratchSize frames count bytes)
    (hdepth : frames.length ≤ limits.maxDepth) (hcount : count < limits.maxElements)
    (node : PresentedNode) :
    MeasureCase limits dataSize scratchSize frames (count + 1) bytes
      (match node.refused encoder.format false with
        | some status => .error status
        | none => elementEncoding encoder.format node.element)
      ((measureEvent encoder
        { kind := .element, element := node.element, tagPresent := node.tagPresent
          depth := frames.length }).exec s) := by
  have hlimit : ¬ (s.writer.frames.length > s.writer.maxDepth ∨
      s.writer.count ≥ s.writer.maxElements) := by
    rw [h.frames, h.maxDepth, h.count, h.maxElements]
    omega
  have hexpected : ¬ (false = true ∨ ¬ (if TreeEventKind.element = TreeEventKind.ending then
      s.writer.frames.length ≠ 0 ∧ frames.length = s.writer.frames.length - 1
    else frames.length = s.writer.frames.length)) := by
    rw [h.frames]
    simp
  unfold measureEvent
  rw [InPlace.exec_bind, InPlace.exec_get]
  dsimp only
  -- the depth is the one expected, so only the limits can refuse
  rw [if_neg hexpected]
  rw [if_neg hlimit]
  unfold PresentedNode.refused
  by_cases hnull : node.element.tag.length ≠ 0 ∧ node.tagPresent = false
  · rw [if_pos hnull, if_pos hnull]
    exact .failed h.requiredData h.requiredScratch (.inl rfl)
  rw [if_neg hnull, if_neg hnull]
  by_cases hconstructs : encoder.format.constructs node.element.tag = true
  · rw [if_pos hconstructs, if_neg (by rw [hconstructs]; decide)]
    exact .failed h.requiredData h.requiredScratch (.inl rfl)
  rw [if_neg hconstructs, if_pos (Bool.eq_false_of_not_eq_true hconstructs)]
  dsimp only
  rw [InPlace.exec_bind]
  have hstorage := @storage_spec encoder s frames count bytes limits dataSize scratchSize h
    node.element s.writer.output.pos false
  cases hran : (measureStorage encoder node.element s.writer.output.pos false).exec s with
  | mk result after =>
    rw [hran] at hstorage
    -- the sizes decide first, then the room that is left
    cases hstorage with
    | refused hsize =>
      refine .failed h.requiredData h.requiredScratch (.inl ?_)
      unfold elementEncoding
      rw [hsize]
    | short hshort =>
      rw [h.data, h.scratch] at hshort
      exact .short hshort
    | overflow hsize hlarge =>
      refine .failed h.requiredData h.requiredScratch (.inr ⟨rfl, fun added hadded => ?_⟩)
      obtain ⟨made, hlength, hmade, -⟩ := hexact.element hsize
      rw [hmade] at hadded
      cases hadded
      rw [← h.pos]
      omega
    | @fits total hsize hsmall hdata hscratch =>
      obtain ⟨added, buf, hadded, hlength, hwrite, hextent, htake⟩ :=
        write_exact hexact hsize hdata
      have hevent : (onWriter (treeWriterWriteEvent encoder
          { kind := .element, element := node.element, tagPresent := node.tagPresent
            depth := frames.length })).exec s =
          (.ok (), { s with writer := { s.writer with
            output := ⟨buf, s.writer.output.pos + total⟩, count := s.writer.count + 1 } }) := by
        rw [on_writer_exec]
        unfold treeWriterWriteEvent
        rw [InPlace.exec_bind, InPlace.exec_get]
        dsimp only
        rw [if_neg hexpected, if_neg hnull, if_neg hconstructs]
        unfold treeWriterWriteElement
        rw [InPlace.exec_bind, InPlace.exec_get]
        dsimp only
        rw [if_neg hlimit, InPlace.exec_bind, on_output_exec, hwrite]
        rfl
      dsimp only
      rw [hevent]
      refine .staged hadded ⟨hextent.trans h.data, h.scratch, h.capacity, h.maxDepth,
        h.maxElements, ?_, ?_, ?_, h.frames, ?_, h.tags, h.requiredData, h.requiredScratch⟩
      · show s.writer.output.pos + total = _
        rw [List.length_append, h.pos, hlength]
      · rw [List.length_append, hlength, ← h.pos, ← h.data]
        exact hdata
      · show buf.take _ = _
        rw [List.length_append, hlength, ← h.pos, htake, h.pos, h.output]
      · show s.writer.count + 1 = count + 1
        rw [h.count]

/-- The frame of a branch whose tag is borrowed from the source. -/
def PresentedNode.frame (node : PresentedNode) (start : Nat) : WriterFrame :=
  ⟨.borrowed ⟨node.element.tag, node.tagPresent⟩, start⟩

/-- A branch is opened, or refused. -/
theorem begin_step (h : s.Staged limits dataSize scratchSize frames count bytes)
    (hdepth : frames.length ≤ limits.maxDepth) (hcapacity : frames.length < limits.capacity)
    (hcount : count < limits.maxElements) (node : PresentedNode) :
    let ran := (measureEvent encoder
      { kind := .begin, element := node.element, tagPresent := node.tagPresent
        depth := frames.length }).exec s
    (∃ status, node.refused encoder.format true = some status ∧ ran = (.error status, s)) ∨
      ∃ after, node.refused encoder.format true = none ∧ ran = (.ok (), after) ∧
        after.Staged limits dataSize scratchSize (node.frame bytes.length :: frames) (count + 1)
          bytes := by
  have hlimit : ¬ (s.writer.frames.length > s.writer.maxDepth ∨
      s.writer.count ≥ s.writer.maxElements) := by
    rw [h.frames, h.maxDepth, h.count, h.maxElements]
    omega
  have hexpected : ¬ (false = true ∨ ¬ (if TreeEventKind.begin = TreeEventKind.ending then
      s.writer.frames.length ≠ 0 ∧ frames.length = s.writer.frames.length - 1
    else frames.length = s.writer.frames.length)) := by
    rw [h.frames]
    simp
  have hroom : ¬ s.writer.frames.length ≥ s.writer.capacity := by
    rw [h.frames, h.capacity]
    omega
  have hran : (measureEvent encoder
      { kind := .begin, element := node.element, tagPresent := node.tagPresent
        depth := frames.length }).exec s =
      (((treeWriterBegin encoder ⟨node.element.tag, node.tagPresent⟩).exec s.writer).1,
        { s with writer :=
          ((treeWriterBegin encoder ⟨node.element.tag, node.tagPresent⟩).exec s.writer).2 }) := by
    unfold measureEvent
    rw [InPlace.exec_bind, InPlace.exec_get]
    dsimp only
    rw [if_neg hexpected, on_writer_exec]
    unfold treeWriterWriteEvent
    rw [InPlace.exec_bind, InPlace.exec_get]
    dsimp only
    rw [if_neg hexpected]
  intro ran
  show (∃ status, _ ∧ (measureEvent encoder _).exec s = _) ∨
    ∃ after, _ ∧ (measureEvent encoder _).exec s = _ ∧ _
  rw [hran]
  unfold treeWriterBegin PresentedNode.refused
  rw [InPlace.exec_bind, InPlace.exec_get]
  dsimp only
  by_cases hnull : node.element.tag.length ≠ 0 ∧ node.tagPresent = false
  · rw [if_pos hnull, if_pos hnull]
    exact .inl ⟨.nullArg, rfl, rfl⟩
  rw [if_neg hnull, if_neg hnull, if_neg hlimit, if_neg hroom]
  by_cases hconstructs : encoder.format.constructs node.element.tag = true
  · rw [if_pos hconstructs, if_neg (by rw [hconstructs]; decide)]
    have hhold : (treeWriterHold ⟨node.element.tag, node.tagPresent⟩).exec s.writer =
        (.ok (.borrowed ⟨node.element.tag, node.tagPresent⟩), s.writer) := by
      unfold treeWriterHold
      rw [InPlace.exec_bind, InPlace.exec_get]
      dsimp only
      rw [h.tags]
      rfl
    rw [InPlace.exec_bind, hhold]
    refine .inr ⟨_, rfl, rfl, h.data, h.scratch, h.capacity, h.maxDepth, h.maxElements, h.pos,
      h.room, h.output, ?_, ?_, h.tags, h.requiredData, h.requiredScratch⟩
    · show WriterFrame.mk _ s.writer.output.pos :: s.writer.frames = _
      rw [h.pos, h.frames]
      rfl
    · show s.writer.count + 1 = count + 1
      rw [h.count]
  · rw [if_neg hconstructs, if_pos (Bool.eq_false_of_not_eq_true hconstructs)]
    exact .inl ⟨.invalidTag, rfl, rfl⟩

/-- A branch is closed in the writer. -/
theorem end_exact (hexact : encoder.format.Exact) {below value : Bytes} {node : PresentedNode}
    (h : s.Staged limits dataSize scratchSize (node.frame below.length :: frames) count
      (below ++ value))
    (hsizes : node.element.tag.length ≤ sizeMax ∧ value.length ≤ sizeMax) {total : Nat}
    (htotal : elementEncodedSize encoder.format
      ⟨node.element.tag, value, hsizes.1, hsizes.2⟩ = .ok total)
    (hdata : below.length + total ≤ dataSize) (hscratch : value.length ≤ scratchSize) :
    ∃ added after, elementEncoding encoder.format
        ⟨node.element.tag, value, hsizes.1, hsizes.2⟩ = .ok added ∧
      (onWriter (treeWriterEnd encoder)).exec s = (.ok (), after) ∧
      after.Staged limits dataSize scratchSize frames count (below ++ added) := by
  have hpos : s.writer.output.pos = below.length + value.length := by
    rw [h.pos, List.length_append]
  have htaken : s.writer.output.buf.take (below.length + value.length) = below ++ value := by
    rw [← List.length_append]
    exact h.output
  have hbelow : s.writer.output.buf.take below.length = below := by
    rw [← Nat.min_eq_left (Nat.le_add_right below.length value.length), ← List.take_take, htaken,
      List.take_left]
  have haccumulated : (s.writer.output.buf.drop below.length).take
      (s.writer.output.pos - below.length) = value := by
    rw [← List.drop_take, hpos, htaken, List.drop_left]
  have hkept : (Octets.store s.writer.scratch 0 value).take
      (s.writer.output.pos - below.length) = value := by
    have htake := @Octets.take_store s.writer.scratch [] value 0 rfl rfl
    rw [show s.writer.output.pos - below.length = 0 + value.length by omega]
    exact htake
  obtain ⟨added, buf, hadded, hlength, hwrite, hextent, htake⟩ :=
    @write_exact encoder hexact { s.writer.output with pos := below.length }
      ⟨node.element.tag, value, hsizes.1, hsizes.2⟩ total htotal (by rw [h.data]; exact hdata)
  dsimp only at hwrite hextent htake
  refine ⟨added, { s with writer := { s.writer with
    scratch := Octets.store s.writer.scratch 0 value
    output := ⟨buf, below.length + total⟩, frames := frames } }, hadded, ?_, ?_⟩
  · have hparent : (treeWriterParent encoder node.element.tag value).exec
        { s.writer.output with pos := below.length } = (.ok (), ⟨buf, below.length + total⟩) := by
      unfold treeWriterParent
      rw [dif_pos hsizes]
      exact hwrite
    have hroom : ¬ s.writer.output.pos - below.length > s.writer.scratch.length := by
      rw [h.scratch]
      omega
    rw [on_writer_exec]
    unfold treeWriterEnd
    rw [InPlace.exec_bind, InPlace.exec_get]
    dsimp only
    rw [h.frames]
    dsimp only [PresentedNode.frame]
    rw [if_neg hroom, InPlace.exec_bind, InPlace.exec_modify]
    dsimp only
    rw [InPlace.exec_bind, InPlace.exec_get]
    dsimp only
    rw [haccumulated, hkept]
    dsimp only [HeldTag.octets]
    rw [hparent]
    simp only [InPlace.exec_bind, InPlace.exec_modify]
    rw [h.tags]
    rfl
  · refine ⟨hextent.trans h.data, ?_, h.capacity, h.maxDepth, h.maxElements, ?_, ?_, ?_, rfl,
      h.count, h.tags, h.requiredData, h.requiredScratch⟩
    · show (Octets.store s.writer.scratch 0 value).length = scratchSize
      rw [Octets.store_length (by rw [h.scratch]; omega), h.scratch]
    · show below.length + total = _
      rw [List.length_append, hlength]
    · rw [List.length_append, hlength]
      exact hdata
    · show buf.take _ = _
      rw [List.length_append, hlength, htake, hbelow]

/-- A branch is closed over the octets that its children were staged as. -/
theorem close_step (hexact : encoder.format.Exact) {below value : Bytes} {node : PresentedNode}
    (h : s.Staged limits dataSize scratchSize (node.frame below.length :: frames) count
      (below ++ value)) (close : PresentedNode) :
    MeasureCase limits dataSize scratchSize frames count below
      (groupEncoding encoder.format node.element.tag value)
      ((measureEvent encoder
        { kind := .ending, element := close.element, tagPresent := close.tagPresent
          depth := frames.length }).exec s) := by
  have hpos : s.writer.output.pos = below.length + value.length := by
    rw [h.pos, List.length_append]
  have haccumulated : (s.writer.output.buf.drop below.length).take
      (s.writer.output.pos - below.length) = value := by
    rw [← List.drop_take, h.pos, h.output, List.drop_left]
  have hexpected : ¬ (false = true ∨ ¬ (if TreeEventKind.ending = TreeEventKind.ending then
      s.writer.frames.length ≠ 0 ∧ frames.length = s.writer.frames.length - 1
    else frames.length = s.writer.frames.length)) := by
    rw [h.frames]
    simp
  unfold measureEvent
  rw [InPlace.exec_bind, InPlace.exec_get]
  dsimp only
  rw [if_neg hexpected]
  unfold measureClose
  rw [InPlace.exec_bind, InPlace.exec_get]
  dsimp only
  rw [h.frames]
  dsimp only [PresentedNode.frame, HeldTag.octets]
  simp only [haccumulated]
  unfold groupEncoding
  by_cases hsizes : node.element.tag.length ≤ sizeMax ∧ value.length ≤ sizeMax
  · rw [dif_pos hsizes, dif_pos hsizes, InPlace.exec_bind]
    have hstorage := @storage_spec encoder s _ count _ limits dataSize scratchSize h
      ⟨node.element.tag, value, hsizes.1, hsizes.2⟩ below.length true
    cases hran : (measureStorage encoder ⟨node.element.tag, value, hsizes.1, hsizes.2⟩
        below.length true).exec s with
    | mk result after =>
      rw [hran] at hstorage
      cases hstorage with
      | refused hsize =>
        refine .failed h.requiredData h.requiredScratch (.inl ?_)
        unfold elementEncoding
        rw [hsize]
      | short hshort =>
        rw [h.data, h.scratch] at hshort
        exact .short hshort
      | overflow hsize hlarge =>
        refine .failed h.requiredData h.requiredScratch (.inr ⟨rfl, fun added hadded => ?_⟩)
        obtain ⟨made, hlength, hmade, -⟩ := hexact.element hsize
        rw [hmade] at hadded
        cases hadded
        omega
      | fits hsize hsmall hdata hscratch =>
        have hvalue := hscratch rfl
        rw [h.scratch] at hvalue
        rw [h.data] at hdata
        obtain ⟨added, last, hadded, hend, hstaged⟩ :=
          end_exact hexact h hsizes hsize hdata (by omega)
        dsimp only
        rw [hend]
        exact .staged hadded hstaged
  · rw [dif_neg hsizes, dif_neg hsizes]
    exact .failed h.requiredData h.requiredScratch (.inl rfl)

/-! ## A forest -/

/-- The events of a list are measured one after the other. -/
def measureAll (encoder : Encoder) : List WriteEvent → Measuring → Except Status Unit × Measuring
  | [], s => (.ok (), s)
  | event :: rest, s =>
    match (measureEvent encoder event).exec s with
    | (.error status, s) => (.error status, s)
    | (.ok (), s) => measureAll encoder rest s

theorem measure_all_append (events others : List WriteEvent) (s : Measuring) :
    measureAll encoder (events ++ others) s =
      match measureAll encoder events s with
      | (.error status, s) => (.error status, s)
      | (.ok (), s) => measureAll encoder others s := by
  induction events generalizing s with
  | nil => rfl
  | cons event rest ih =>
    show (match (measureEvent encoder event).exec s with
      | (Except.error status, s) => (Except.error status, s)
      | (.ok (), s) => measureAll encoder (rest ++ others) s) = _
    rw [measureAll]
    cases (measureEvent encoder event).exec s with
    | mk result after =>
      cases result with
      | error status => rfl
      | ok _ => exact ih after

theorem measure_list_eq (status : Status) (events : List WriteEvent) (s : Measuring) :
    measureList encoder status events s =
      match measureAll encoder events s with
      | (.error failure, s) => (.error failure, s)
      | (.ok (), s) => measureList encoder status [] s := by
  induction events generalizing s with
  | nil => rfl
  | cons event rest ih =>
    unfold measureAll
    rw [measureList]
    cases (measureEvent encoder event).exec s with
    | mk result after =>
      cases result with
      | error failure => rfl
      | ok _ => exact ih after

/-- Two parts of a measurement, one behind the other. -/
theorem MeasureCase.andThen {first second : Except Status Bytes} {between last : Nat}
    {events others : List WriteEvent}
    (h : MeasureCase limits dataSize scratchSize frames between bytes first
      (measureAll encoder events s))
    (hnext : ∀ after added,
      after.Staged limits dataSize scratchSize frames between (bytes ++ added) →
        MeasureCase limits dataSize scratchSize frames last (bytes ++ added) second
          (measureAll encoder others after)) :
    MeasureCase limits dataSize scratchSize frames last bytes
      (first >>= fun added => second >>= fun behind => .ok (added ++ behind))
      (measureAll encoder (events ++ others) s) := by
  rw [measure_all_append]
  cases hran : measureAll encoder events s with
  | mk result after =>
    rw [hran] at h
    cases h with
    | short hshort => exact .short hshort
    | failed hdata hscratch hstatus =>
      refine .failed hdata hscratch ?_
      rcases hstatus with rfl | ⟨rfl, hlarge⟩
      · exact .inl rfl
      · refine .inr ⟨rfl, fun whole hwhole => ?_⟩
        cases first with
        | error status => cases hwhole
        | ok added =>
          cases second with
          | error status => cases hwhole
          | ok behind =>
            cases hwhole
            have := hlarge added rfl
            rw [List.length_append]
            omega
    | @staged _ added hencoding hstaged =>
      subst hencoding
      have hrest := hnext after added hstaged
      dsimp only
      cases hlast : measureAll encoder others after with
      | mk result' after' =>
        rw [hlast] at hrest
        cases hrest with
        | short hshort => exact .short hshort
        | failed hdata hscratch hstatus =>
          refine .failed hdata hscratch ?_
          rcases hstatus with rfl | ⟨rfl, hlarge⟩
          · exact .inl rfl
          · refine .inr ⟨rfl, fun whole hwhole => ?_⟩
            cases second with
            | error status => cases hwhole
            | ok behind =>
              cases hwhole
              have := hlarge behind rfl
              rw [List.length_append] at this ⊢
              omega
        | @staged _ behind hencoding hstaged' =>
          subst hencoding
          rw [List.append_assoc] at hstaged'
          exact .staged rfl hstaged'

/-- An encoding around a value is longer than the value. -/
theorem group_encoding_length (hexact : encoder.format.Exact) {tag value added : Bytes}
    (h : groupEncoding encoder.format tag value = .ok added) : value.length ≤ added.length := by
  unfold groupEncoding at h
  split at h
  next hsizes =>
    cases hsize : elementEncodedSize encoder.format ⟨tag, value, hsizes.1, hsizes.2⟩ with
    | error status =>
      unfold elementEncoding at h
      rw [hsize] at h
      cases h
    | ok total =>
      obtain ⟨made, hlength, hmade, -⟩ := hexact.element hsize
      rw [hmade] at h
      cases h
      rw [hlength]
      exact (element_size_value hsize).1
  · cases h

/-- The encoding of one branch. -/
def branchEncoding (format : Format) (node : PresentedNode) (value : Except Status Bytes) :
    Except Status Bytes :=
  match node.refused format true with
  | some status => .error status
  | none => value >>= fun value => groupEncoding format node.element.tag value

/-- A branch is measured when its children are. -/
theorem branch_measured (hexact : encoder.format.Exact) {kids : Except Status Bytes}
    {inside : List WriteEvent} {size : Nat} {node : PresentedNode}
    (h : s.Staged limits dataSize scratchSize frames count bytes)
    (hdepth : frames.length ≤ limits.maxDepth) (hcapacity : frames.length < limits.capacity)
    (hcount : count < limits.maxElements)
    (hkids : ∀ after : Measuring, after.Staged limits dataSize scratchSize
        (node.frame bytes.length :: frames) (count + 1) bytes →
      MeasureCase limits dataSize scratchSize (node.frame bytes.length :: frames)
        (count + 1 + size) bytes kids (measureAll encoder inside after))
    (close : PresentedNode) :
    MeasureCase limits dataSize scratchSize frames (count + 1 + size) bytes
      (branchEncoding encoder.format node kids)
      (measureAll encoder
        ({ kind := .begin, element := node.element, tagPresent := node.tagPresent
           depth := frames.length } :: (inside ++
          [{ kind := .ending, element := close.element, tagPresent := close.tagPresent
             depth := frames.length }])) s) := by
  have hbegin := @begin_step encoder s frames count bytes limits dataSize scratchSize h hdepth
    hcapacity hcount node
  unfold measureAll branchEncoding
  rcases hbegin with ⟨status, hrefused, hran⟩ | ⟨after, haccepted, hran, hstaged⟩
  · rw [hran, hrefused]
    exact .failed h.requiredData h.requiredScratch (.inl rfl)
  · rw [hran, haccepted]
    dsimp only
    rw [measure_all_append]
    have hinside := hkids after hstaged
    cases hmeasured : measureAll encoder inside after with
    | mk result last =>
      rw [hmeasured] at hinside
      cases hinside with
      | short hshort => exact .short hshort
      | failed hdata hscratch hstatus =>
        refine .failed hdata hscratch ?_
        rcases hstatus with rfl | ⟨rfl, hlarge⟩
        · exact .inl rfl
        · refine .inr ⟨rfl, fun added hadded => ?_⟩
          cases kids with
          | error status => cases hadded
          | ok value =>
            have hvalue := group_encoding_length hexact hadded
            have := hlarge value rfl
            omega
      | @staged _ value hencoding hstaged' =>
        subst hencoding
        have hclose := close_step hexact hstaged' close
        dsimp only
        unfold measureAll
        show MeasureCase _ _ _ _ _ _ (groupEncoding encoder.format node.element.tag value) _
        cases hclosed : (measureEvent encoder
            { kind := .ending, element := close.element, tagPresent := close.tagPresent
              depth := frames.length }).exec last with
        | mk result final =>
          rw [hclosed] at hclose
          cases hclose with
          | short hshort => exact .short hshort
          | failed hdata hscratch hstatus => exact .failed hdata hscratch hstatus
          | staged hencoding hstaged'' => exact .staged hencoding hstaged''

/-- The events of a forest are measured to its recursive encoding, as far as the storage goes. -/
theorem forest_measured (hexact : encoder.format.Exact) (forest : Forest PresentedNode)
    (h : s.Staged limits dataSize scratchSize frames count bytes)
    (hdepth : frames.length + forest.size ≤ limits.maxDepth + 1)
    (hcapacity : forest.nesting = 0 ∨ frames.length + forest.nesting ≤ limits.capacity)
    (hcount : count + forest.size ≤ limits.maxElements) :
    MeasureCase limits dataSize scratchSize frames (count + forest.size) bytes
      (forest.encoding encoder.format) (measureAll encoder (forest.events frames.length) s) := by
  induction forest generalizing s frames count bytes with
  | nil =>
    refine .staged rfl ?_
    rw [List.append_nil]
    exact h
  | leaf node rest ih =>
    have hsize : (Forest.leaf node rest).size = rest.size + 1 := rfl
    rw [hsize] at hdepth hcount ⊢
    have hfirst := element_step hexact h (by omega) (by omega) node
    have hencoding : (Forest.leaf node rest).encoding encoder.format =
        (match node.refused encoder.format false with
          | some status => .error status
          | none => elementEncoding encoder.format node.element) >>= fun added =>
            rest.encoding encoder.format >>= fun others => .ok (added ++ others) := by
      rw [Forest.encoding]
      cases node.refused encoder.format false <;> rfl
    have hevents : (Forest.leaf node rest).events frames.length =
        [{ kind := .element, element := node.element, tagPresent := node.tagPresent
           depth := frames.length }] ++ rest.events frames.length := rfl
    rw [hencoding, hevents, show count + (rest.size + 1) = count + 1 + rest.size by omega]
    refine MeasureCase.andThen ?_ fun after added hstaged =>
      ih hstaged (by omega) hcapacity (by omega)
    unfold measureAll
    cases hran : (measureEvent encoder
        { kind := .element, element := node.element, tagPresent := node.tagPresent
          depth := frames.length }).exec s with
    | mk result after =>
      rw [hran] at hfirst
      cases result with
      | error status => exact hfirst
      | ok _ => exact hfirst
  | branch node kids close rest ihKids ihRest =>
    have hsize : (Forest.branch node kids close rest).size = kids.size + 1 + rest.size := rfl
    have hnesting : (Forest.branch node kids close rest).nesting =
        max (kids.nesting + 1) rest.nesting := rfl
    rw [hsize] at hdepth hcount ⊢
    rw [hnesting] at hcapacity
    have hencoding : (Forest.branch node kids close rest).encoding encoder.format =
        branchEncoding encoder.format node (kids.encoding encoder.format) >>= fun added =>
          rest.encoding encoder.format >>= fun others => .ok (added ++ others) := by
      rw [Forest.encoding]
      unfold branchEncoding
      cases node.refused encoder.format true with
      | some status => rfl
      | none =>
        cases kids.encoding encoder.format with
        | error status => rfl
        | ok value => rfl
    have hevents : (Forest.branch node kids close rest).events frames.length =
        ({ kind := .begin, element := node.element, tagPresent := node.tagPresent
           depth := frames.length } :: (kids.events (frames.length + 1) ++
          [{ kind := .ending, element := close.element, tagPresent := close.tagPresent
             depth := frames.length }])) ++ rest.events frames.length := by
      rw [Forest.events, List.cons_append, List.append_assoc]
      rfl
    rw [hencoding, hevents,
      show count + (kids.size + 1 + rest.size) = count + 1 + kids.size + rest.size by omega]
    refine MeasureCase.andThen ?_ fun after added hstaged =>
      ihRest hstaged (by omega) (by omega) (by omega)
    refine branch_measured hexact h (by omega) (by omega) (by omega) (fun after hstaged => ?_)
      close
    refine ihKids hstaged ?_ ?_ (by omega)
    · rw [List.length_cons]
      omega
    · rw [List.length_cons]
      omega

end Steps

/-! ## A whole measurement -/

/-- How a measurement of a forest ends. -/
inductive WorkspaceCase (encoding : Except Status Bytes) (before : WriterWorkspace) :
    Except Status Nat × WriterWorkspace → Prop where
  | staged {after : WriterWorkspace} {bytes : Bytes} (hencoding : encoding = .ok bytes)
      (hdata : after.data.take bytes.length = bytes) :
      WorkspaceCase encoding before (.ok bytes.length, after)
  | short {after : WriterWorkspace} (hframes : after.frameCapacity = before.frameCapacity)
      (hdata : after.data.length = before.data.length)
      (hscratch : after.scratch.length = before.scratch.length)
      (hrequiredData : after.requiredData = 0 ∨
        before.data.length < after.requiredData ∧ after.requiredData ≤ sizeMax)
      (hrequiredScratch : after.requiredScratch = 0 ∨
        before.scratch.length < after.requiredScratch ∧
          after.requiredScratch ≤ before.data.length)
      (hlacks : ¬ (after.requiredData = 0 ∧ after.requiredScratch = 0)) :
      WorkspaceCase encoding before (.error .bufferTooShort, after)
  | failed {after : WriterWorkspace} {status : Status}
      (hrequiredData : after.requiredData = 0) (hrequiredScratch : after.requiredScratch = 0)
      (hstatus : encoding = .error status ∨ status = .overflow ∧
        ∀ bytes, encoding = .ok bytes → sizeMax < bytes.length) :
      WorkspaceCase encoding before (.error status, after)

theorem Forest.events_length (forest : Forest PresentedNode) (depth : Nat) :
    (forest.events depth).length ≤ 2 * forest.size := by
  induction forest generalizing depth with
  | nil => exact Nat.zero_le _
  | leaf node rest ih =>
    have := ih depth
    simp only [Forest.events, Forest.size, List.length_cons]
    omega
  | branch node kids close rest ihKids ihRest =>
    have hkids := ihKids (depth + 1)
    have hrest := ihRest depth
    simp only [Forest.events, Forest.size, List.length_cons, List.length_append]
    omega

/-- A measurement of a forest with frames enough stages its encoding, or reports storage that the
workspace lacks, or fails as the encoding does. -/
theorem measure_events_cases {encoder : Encoder} (hexact : encoder.format.Exact)
    {nextEvent : σ → Except Status WriteEvent × σ} {source : σ} {forest : Forest PresentedNode}
    (hsource : Yields nextEvent source (forest.events 0) .atEnd) {workspace : WriterWorkspace}
    {maxDepth maxElements : Nat} (hdepth : forest.size ≤ maxDepth + 1)
    (helements : forest.size ≤ maxElements) (hframes : forest.nesting ≤ workspace.frameCapacity)
    (hwritable : encoder.format.measure.isSome = true ∧ encoder.format.encode.isSome = true)
    {fuel : Nat} (hfuel : 2 * forest.size < fuel) :
    ∃ ended, treeWriterMeasureEvents encoder nextEvent fuel source workspace maxDepth maxElements =
        some ended ∧
      WorkspaceCase (forest.encoding encoder.format) workspace ended := by
  have hlength := forest.events_length 0
  have hinit : treeWriterInit encoder workspace.data
      ⟨workspace.frameCapacity, maxDepth, maxElements⟩ workspace.scratch =
      .ok { output := { buf := workspace.data }
            capacity := workspace.frameCapacity
            maxDepth := maxDepth
            maxElements := maxElements
            scratch := workspace.scratch } := by
    unfold treeWriterInit
    rw [if_neg (by simp [Option.isNone_iff_eq_none, ← Option.isSome_iff_ne_none, hwritable])]
  rw [measure_events_eq hsource (by omega), hinit]
  refine ⟨_, rfl, ?_⟩
  rw [measure_list_eq]
  have hmeasured := @forest_measured encoder
    ⟨{ output := { buf := workspace.data }
       capacity := workspace.frameCapacity
       maxDepth := maxDepth
       maxElements := maxElements
       scratch := workspace.scratch }, 0, 0⟩ [] 0 []
    ⟨workspace.frameCapacity, maxDepth, maxElements⟩ workspace.data.length
    workspace.scratch.length hexact forest
    ⟨rfl, rfl, rfl, rfl, rfl, rfl, Nat.zero_le _, rfl, rfl, rfl, rfl, rfl, rfl⟩
    (by dsimp only; rw [List.length_nil]; omega) (by dsimp only; rw [List.length_nil]; omega)
    (by dsimp only; omega)
  cases hran : measureAll encoder (forest.events 0)
      ⟨{ output := { buf := workspace.data }
         capacity := workspace.frameCapacity
         maxDepth := maxDepth
         maxElements := maxElements
         scratch := workspace.scratch }, 0, 0⟩ with
  | mk result after =>
    change MeasureCase _ _ _ _ _ _ _ (measureAll encoder (forest.events 0) _) at hmeasured
    rw [hran] at hmeasured
    cases hmeasured with
    | short hshort =>
      exact .short hshort.capacity hshort.data hshort.scratch hshort.requiredData
        hshort.requiredScratch hshort.lacks
    | failed hdata hscratch hstatus =>
      refine .failed hdata hscratch ?_
      rcases hstatus with hsame | ⟨hoverflow, hlarge⟩
      · exact .inl hsame
      · refine .inr ⟨hoverflow, fun bytes hbytes => ?_⟩
        have := hlarge bytes hbytes
        rw [List.length_nil] at this
        omega
    | @staged _ bytes hencoding hstaged =>
      have hfinish : measureFinish (measureList encoder .atEnd [] after) =
          (.ok bytes.length, after.workspace) := by
        show (if after.writer.frames.length ≠ 0 then _ else _) = _
        rw [hstaged.frames, if_neg (not_not.mpr List.length_nil)]
        show (Except.ok (treeWriterSize after.writer), _) = _
        unfold treeWriterSize
        rw [hstaged.frames]
        show (Except.ok after.writer.output.pos, _) = _
        rw [hstaged.pos]
        rfl
      dsimp only
      rw [hfinish]
      exact .staged hencoding hstaged.output

end OpenTlv
