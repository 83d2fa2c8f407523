import OpenTlv.Field.Fixed

/-!
# Field composition

`formats/compose.c`: an identifier field and a count field composed into the three format
callbacks, in either order and with either meaning of the count, and the variant whose listed
tags have neither count nor value. Every failure publishes the region and offset at which the
source detects it.

`fields_round_trip` and `tagged_fields_round_trip` need only the laws of the two fields.
-/

namespace OpenTlv

/-- `tlv_element_order_t`, with the values outside the enumeration. -/
inductive ElementOrder where
  | tlv
  | ltv
  | unknown
  deriving Repr, DecidableEq

/-- `tlv_length_scope_t`, with the values outside the enumeration. -/
inductive LengthScope where
  | value
  | tagAndValue
  | unknown
  deriving Repr, DecidableEq

/-- The result of `tlv_resolve_bounds_fn`: the length field extent is also known on failure. -/
structure Resolution where
  lengthSize : Nat
  outcome : Except (Status × FormatError) (Nat × Nat)

/-- `tlv_resolve_bounds_fn`. -/
abbrev ResolveBounds := Bytes → Bytes → Resolution

/-- `tlv_field_composition_t`. -/
structure FieldComposition where
  readTag : ReadTag
  readLength : ReadLength
  resolve : Option ResolveBounds
  writeTag : WriteTag
  writeLength : WriteLength
  elementOrder : ElementOrder
  lengthScope : LengthScope

/-- `available`: a field extent clipped to the input. -/
def available (offset used size : Nat) : Range :=
  Range.at offset (if used ≤ size - offset then used else size - offset)

/-- `failure`. -/
def failure {α : Type} (detail : FormatError) (status : Status) (region : Region)
    (offset : Nat) : FormatResult α :=
  .error (status, { detail with region := region, offset := offset, hasOffset := true })

/-- The locals of `tlv_fields_decode`. -/
structure FieldsState where
  tag : Span := ⟨[], none⟩
  length : Nat := 0
  pos : Nat := 0
  tagSize : Nat := 0
  trailer : Nat := 0
  tagRange : Range := {}
  lengthRange : Range := {}

/-- `fields_failure`. -/
def fieldsFailure {α : Type} (detail : FormatError) (s : FieldsState) (status : Status)
    (region : Region) (offset : Nat) : FormatResult α :=
  failure { detail with tag := s.tagRange, length := s.lengthRange } status region offset

/-- The identifier step of `tlv_fields_decode`. -/
def tagStep (f : FieldComposition) (data : Bytes) (s : FieldsState) : FormatResult FieldsState :=
  let field := f.readTag (data.drop s.pos)
  match readResult field.outcome with
  | .error status => fieldsFailure {} s status .tag s.pos
  | .ok tag =>
    if field.consumed = 0 ∨ field.consumed > data.length - s.pos then
      fieldsFailure {} s .callback .tag s.pos
    else
      .ok { s with
        tag := ⟨tag.bytes, tag.origin.map (· + s.pos)⟩
        tagSize := field.consumed
        tagRange := Range.at s.pos field.consumed
        pos := s.pos + field.consumed }

/-- The count of `tlv_fields_decode`, from the resolver or from the count field. The failure
keeps what the resolver located. -/
def readCount (f : FieldComposition) (data : Bytes) (s : FieldsState) :
    FieldRead (Nat × Nat) × Option FormatError :=
  match f.resolve with
  | some resolve =>
    let resolution := resolve s.tag.bytes (data.drop s.pos)
    match resolution.outcome with
    | .ok result => (⟨.ok result, resolution.lengthSize⟩, none)
    | .error (status, detail) =>
      (⟨readResult (.error status), resolution.lengthSize⟩, some detail)
  | none =>
    let field := f.readLength (data.drop s.pos)
    (⟨(readResult field.outcome).map fun length => (length, 0), field.consumed⟩, none)

/-- The count step of `tlv_fields_decode`. -/
def lengthStep (f : FieldComposition) (data : Bytes) (s : FieldsState) :
    FormatResult FieldsState :=
  let (field, resolved) := readCount f data s
  let s := { s with lengthRange := available s.pos field.consumed data.length }
  match field.outcome with
  | .error status =>
    match resolved with
    | some detail =>
      if detail.hasOffset then
        fieldsFailure { required := detail.required, hasRequired := detail.hasRequired } s
          status detail.region (s.pos + detail.offset)
      else fieldsFailure {} s status .length s.pos
    | none => fieldsFailure {} s status .length s.pos
  | .ok (length, trailer) =>
    if field.consumed > data.length - s.pos then fieldsFailure {} s .callback .length s.pos
    else if f.lengthScope = .tagAndValue ∧ length = 0 then
      fieldsFailure {} s .invalidLength .length s.pos
    else .ok { s with length := length, trailer := trailer, pos := s.pos + field.consumed }

/-- The two header steps, in wire order. -/
def headerSteps (f : FieldComposition) (data : Bytes) : FormatResult FieldsState :=
  if f.elementOrder = .tlv then
    match tagStep f data {} with
    | .error failed => .error failed
    | .ok s => lengthStep f data s
  else
    match lengthStep f data {} with
    | .error failed => .error failed
    | .ok s => tagStep f data s

/-- The value bounds of `tlv_fields_decode`, once the header is read. -/
def valueStep (data : Bytes) (s : FieldsState) (length : Nat) : FormatResult Decoded :=
  if length > data.length - s.pos then
    fieldsFailure { required := length, hasRequired := true } s .truncated .value s.pos
  else if s.trailer > data.length - s.pos - length then
    fieldsFailure
      { required := s.trailer, hasRequired := true, value := Range.at s.pos length } s
      .truncated .trailer (s.pos + length)
  else
    .ok
      { tag := s.tag
        value := ⟨(data.drop s.pos).take length, some s.pos⟩
        source :=
          { size := s.pos + length + s.trailer
            header := Range.at 0 s.pos
            tag := s.tagRange
            length := s.lengthRange
            value := Range.at s.pos length
            trailer := Range.at (s.pos + length) s.trailer } }

/-- `tlv_fields_decode`. -/
def fieldsDecode (f : FieldComposition) (data : Bytes) : FormatResult Decoded :=
  match headerSteps f data with
  | .error failed => .error failed
  | .ok s =>
    if f.lengthScope = .tagAndValue then
      if s.length < s.tagSize then
        fieldsFailure {} s .invalidLength .length s.lengthRange.offset
      else valueStep data s (s.length - s.tagSize)
    else valueStep data s s.length

/-- `length_offset`. -/
def lengthOffset (f : FieldComposition) (tagSize : Nat) : Nat :=
  if f.elementOrder = .tlv then tagSize else 0

/-- The tag width query shared by the measuring functions. -/
def tagWidth (f : FieldComposition) (tag : Bytes) : FormatResult Nat :=
  match callbackResult (f.writeTag tag none) with
  | .error status => failure {} status .tag 0
  | .ok (_, tagSize) => if tagSize = 0 then failure {} .callback .tag 0 else .ok tagSize

/-- The count of an element: the value octets, and the identifier when the scope has it. -/
def elementCount (f : FieldComposition) (element : Element) (tagSize : Nat) :
    Except Status Nat :=
  if f.lengthScope = .tagAndValue then sizeAdd element.value.length tagSize
  else .ok element.value.length

/-- `field_sizes`: the widths of both fields and the count. -/
def fieldSizes (f : FieldComposition) (element : Element) : FormatResult (Nat × Nat × Nat) :=
  match tagWidth f element.tag with
  | .error failed => .error failed
  | .ok tagSize =>
    match elementCount f element tagSize with
    | .error status => failure {} status .length (lengthOffset f tagSize)
    | .ok count =>
      match callbackResult (f.writeLength count none) with
      | .error status => failure {} status .length (lengthOffset f tagSize)
      | .ok (_, lengthSize) => .ok (tagSize, lengthSize, count)

/-- `tlv_fields_measure`. -/
def fieldsMeasure (f : FieldComposition) (element : Element) : FormatResult Encoding :=
  match fieldSizes f element with
  | .error failed => .error failed
  | .ok (t, l, _) =>
    match sizeAdd t l with
    | .error status => failure {} status .length (lengthOffset f t)
    | .ok header =>
      match sizeAdd header element.value.length with
      | .error status => failure {} status .length (lengthOffset f t)
      | .ok total => .ok ⟨header, element.value.length, 0, total⟩

/-- `tlv_fields_encode`. -/
def fieldsEncode (f : FieldComposition) (element : Element) (destination : Bytes) :
    FormatResult (Bytes × Nat) :=
  match fieldSizes f element with
  | .error failed => .error failed
  | .ok (t, l, count) =>
    let tagOffset := if f.elementOrder = .tlv then 0 else l
    let lengthOffset := lengthOffset f t
    match sizeToNative element.value.length with
    | .error status => failure {} status .length lengthOffset
    | .ok v =>
      let capacity := destination.length
      if t > capacity ∨ l > capacity - t ∨ v > capacity - t - l then
        failure {} .bufferTooShort .length lengthOffset
      else
        match callbackResult (f.writeTag element.tag (some t)) with
        | .error status => failure {} status .tag tagOffset
        | .ok (tagBytes, tagUsed) =>
          if tagUsed ≠ t then failure {} .callback .tag tagOffset
          else
            match callbackResult (f.writeLength count (some l)) with
            | .error status => failure {} status .length lengthOffset
            | .ok (lengthBytes, lengthUsed) =>
              if lengthUsed ≠ l then failure {} .callback .length lengthOffset
              else
                let stored := Octets.store destination tagOffset tagBytes
                let stored := Octets.store stored lengthOffset lengthBytes
                .ok (Octets.store stored (t + l) element.value, t + l + v)

/-- `tlv_binary_composition_t`. -/
structure BinaryComposition where
  identifier : FixedIdentifier
  length : FixedLength
  elementOrder : ElementOrder
  lengthScope : LengthScope
  deriving Repr, DecidableEq

/-- `binary_fields`. -/
def binaryFields (f : BinaryComposition) : FieldComposition :=
  { readTag := fixedIdentifierRead f.identifier
    readLength := fixedLengthRead f.length
    resolve := none
    writeTag := fixedIdentifierWrite f.identifier
    writeLength := fixedLengthWrite f.length
    elementOrder := f.elementOrder
    lengthScope := f.lengthScope }

/-- The required extent that the binary decoders add to a truncated header. -/
def requireHeader (f : BinaryComposition) :
    FormatResult Decoded → FormatResult Decoded
  | .error (.truncated, detail) =>
    if detail.region = .tag then
      .error (.truncated, { detail with hasRequired := true, required := f.identifier.size })
    else if detail.region = .length then
      .error (.truncated, { detail with hasRequired := true, required := f.length.size })
    else .error (.truncated, detail)
  | result => result

/-- `tlv_binary_decode`. -/
def binaryDecode (f : BinaryComposition) (data : Bytes) : FormatResult Decoded :=
  requireHeader f (fieldsDecode (binaryFields f) data)

/-- `tlv_binary_measure`. -/
def binaryMeasure (f : BinaryComposition) : Element → FormatResult Encoding :=
  fieldsMeasure (binaryFields f)

/-- `tlv_binary_encode`. -/
def binaryEncode (f : BinaryComposition) : Element → Bytes → FormatResult (Bytes × Nat) :=
  fieldsEncode (binaryFields f)

/-- `tlv_tagged_fields_composition_t`. -/
structure TaggedFieldsComposition where
  fields : FieldComposition
  tagOnly : List Bytes

/-- `tagged_fields_tag_only`. -/
def taggedFieldsTagOnly (f : TaggedFieldsComposition) (tag : Bytes) : Bool :=
  f.tagOnly.any (· == tag)

/-- `tlv_tagged_fields_decode`. -/
def taggedFieldsDecode (f : TaggedFieldsComposition) (data : Bytes) : FormatResult Decoded :=
  let field := f.fields.readTag data
  match readResult field.outcome with
  | .error status => failure {} status .tag 0
  | .ok tag =>
    let width := field.consumed
    if width = 0 ∨ width > data.length then failure {} .callback .tag 0
    else if taggedFieldsTagOnly f tag.bytes = false then fieldsDecode f.fields data
    else
      .ok
        { tag := tag
          value := ⟨[], some width⟩
          source :=
            { size := width
              header := Range.at 0 width
              tag := Range.at 0 width
              length := {}
              value := Range.at width 0
              trailer := Range.at width 0 } }

/-- `tlv_tagged_fields_measure`. -/
def taggedFieldsMeasure (f : TaggedFieldsComposition) (element : Element) :
    FormatResult Encoding :=
  match tagWidth f.fields element.tag with
  | .error failed => .error failed
  | .ok width =>
    if taggedFieldsTagOnly f element.tag = false then fieldsMeasure f.fields element
    else if element.value.length ≠ 0 then
      failure { required := 0, hasRequired := true } .invalidLength .value width
    else .ok ⟨width, 0, 0, width⟩

/-- `tlv_tagged_fields_encode`. -/
def taggedFieldsEncode (f : TaggedFieldsComposition) (element : Element) (destination : Bytes) :
    FormatResult (Bytes × Nat) :=
  match taggedFieldsMeasure f element with
  | .error failed => .error failed
  | .ok encoding =>
    if taggedFieldsTagOnly f element.tag = false then
      fieldsEncode f.fields element destination
    else if encoding.total > destination.length then failure {} .bufferTooShort .tag 0
    else
      match f.fields.writeTag element.tag (some destination.length) with
      | .error status => failure {} status .tag 0
      | .ok (bytes, used) => .ok (Octets.store destination 0 bytes, used)

/-- `tlv_tagged_binary_composition_t`. -/
structure TaggedBinaryComposition where
  fields : BinaryComposition
  tagOnly : List Bytes
  deriving Repr, DecidableEq

/-- `tagged_binary_fields`. -/
def taggedBinaryFields (f : TaggedBinaryComposition) : TaggedFieldsComposition :=
  ⟨binaryFields f.fields, f.tagOnly⟩

/-- `tlv_tagged_binary_decode`. -/
def taggedBinaryDecode (f : TaggedBinaryComposition) (data : Bytes) : FormatResult Decoded :=
  requireHeader f.fields (taggedFieldsDecode (taggedBinaryFields f) data)

/-- `tlv_tagged_binary_measure`. -/
def taggedBinaryMeasure (f : TaggedBinaryComposition) : Element → FormatResult Encoding :=
  taggedFieldsMeasure (taggedBinaryFields f)

/-- `tlv_tagged_binary_encode`. -/
def taggedBinaryEncode (f : TaggedBinaryComposition) :
    Element → Bytes → FormatResult (Bytes × Nat) :=
  taggedFieldsEncode (taggedBinaryFields f)

/-- `tlv_tagged_binary_format_init`. -/
def taggedBinaryFormatInit (f : TaggedBinaryComposition) : Except Status Format :=
  match fixedIdentifierValidate f.fields.identifier with
  | .error status => .error status
  | .ok () =>
    match fixedLengthValidate f.fields.length with
    | .error status => .error status
    | .ok () =>
      if f.fields.elementOrder ≠ .tlv ∨ f.fields.lengthScope ≠ .value then
        .error .invalidArg
      else if f.tagOnly.any (fun tag => tag.length ≠ f.fields.identifier.size) then
        .error .invalidArg
      else
        formatInit (some (taggedBinaryDecode f)) (some (taggedBinaryMeasure f))
          (some (taggedBinaryEncode f))

section RoundTrip

variable {f : FieldComposition} {element : Element}

/-- A width is that of a tag the writer accepts. -/
theorem tag_width_eq_ok {tag : Bytes} {tagSize : Nat} (h : tagWidth f tag = .ok tagSize) :
    ∃ stored, f.writeTag tag none = .ok (stored, tagSize) := by
  unfold tagWidth at h
  cases hwrite : callbackResult (f.writeTag tag none) with
  | error status => simp [hwrite, failure] at h
  | ok result =>
    obtain ⟨stored, width⟩ := result
    simp only [hwrite] at h
    split at h
    · simp [failure] at h
    · cases h
      exact ⟨stored, callback_result_eq_ok hwrite⟩

/-- Measured fields answered both width queries. -/
theorem field_sizes_eq_ok {t l count : Nat} (h : fieldSizes f element = .ok (t, l, count)) :
    tagWidth f element.tag = .ok t ∧ elementCount f element t = .ok count ∧
      ∃ stored, f.writeLength count none = .ok (stored, l) := by
  unfold fieldSizes at h
  cases htag : tagWidth f element.tag with
  | error failed => simp [htag] at h
  | ok tagSize =>
    simp only [htag] at h
    cases hcount : elementCount f element tagSize with
    | error status => simp [hcount, failure] at h
    | ok value =>
      simp only [hcount] at h
      cases hlength : callbackResult (f.writeLength value none) with
      | error status => simp [hlength, failure] at h
      | ok result =>
        obtain ⟨stored, width⟩ := result
        simp only [hlength] at h
        cases h
        exact ⟨rfl, hcount, stored, callback_result_eq_ok hlength⟩

/-- The count stays a 64-bit size. -/
theorem element_count_le {tagSize count : Nat} (h : elementCount f element tagSize = .ok count) :
    count ≤ sizeMax := by
  unfold elementCount at h
  split at h
  · obtain ⟨rfl, hle⟩ := size_add_eq_ok h
    have := element.value_le
    omega
  · cases h
    exact element.value_le

/-- The wire form of a header in either order. -/
def headerBytes (f : FieldComposition) (tag length : Bytes) : Bytes :=
  if f.elementOrder = .tlv then tag ++ length else length ++ tag

@[simp] theorem header_bytes_length (f : FieldComposition) (tag length : Bytes) :
    (headerBytes f tag length).length = tag.length + length.length := by
  unfold headerBytes
  split <;> simp
  omega

/-- The three stores of the encoder leave the header followed by the value. -/
theorem take_stores (f : FieldComposition) (destination tag length value : Bytes)
    (h : tag.length + length.length + value.length ≤ destination.length) :
    (Octets.store
        (Octets.store
          (Octets.store destination (if f.elementOrder = .tlv then 0 else length.length) tag)
          (lengthOffset f tag.length) length)
        (tag.length + length.length) value).take
          (tag.length + length.length + value.length) = headerBytes f tag length ++ value := by
  apply Octets.take_store _ (by simp)
  unfold headerBytes lengthOffset
  split
  · have hfirst : (Octets.store destination 0 tag).take tag.length = tag := by
      simpa using @Octets.take_store destination [] tag 0 (by simp) rfl
    exact Octets.take_store hfirst rfl
  · rw [Nat.add_comm]
    exact Octets.take_store_front (by omega)

/-- A successful encode leaves the header and the value at the start of the destination. -/
theorem fields_encode_eq_ok (htags : TagLaw f.readTag f.writeTag)
    (hlengths : LengthLaw f.readLength f.writeLength) {destination stored : Bytes} {used : Nat}
    (h : fieldsEncode f element destination = .ok (stored, used)) :
    ∃ count lengthBytes,
      elementCount f element element.tag.length = .ok count ∧ element.tag ≠ [] ∧
      used = element.tag.length + lengthBytes.length + element.value.length ∧
      stored.take used = headerBytes f element.tag lengthBytes ++ element.value ∧
      (∀ rest, f.readTag (element.tag ++ rest) =
        ⟨.ok ⟨element.tag, some 0⟩, element.tag.length⟩) ∧
      ∀ rest, f.readLength (lengthBytes ++ rest) = ⟨.ok count, lengthBytes.length⟩ := by
  unfold fieldsEncode at h
  cases hsizes : fieldSizes f element with
  | error failed => simp [hsizes] at h
  | ok result =>
    obtain ⟨t, l, count⟩ := result
    obtain ⟨hwidth, hcount, storedLength, hquery⟩ := field_sizes_eq_ok hsizes
    obtain ⟨storedTag, htag⟩ := tag_width_eq_ok hwidth
    obtain ⟨hne, rfl, hwriteTag, hreadTag⟩ := htags _ _ _ htag
    obtain ⟨lengthBytes, rfl, hwriteLength, hreadLength⟩ :=
      hlengths _ _ _ (element_count_le hcount) hquery
    have hnative : sizeToNative element.value.length = .ok element.value.length := by
      have := element.value_le
      simp [sizeToNative]
      omega
    simp only [hsizes, hnative, hwriteTag _ (Nat.le_refl _), hwriteLength, callback_result_ok,
      ne_eq, not_true_eq_false, if_false] at h
    split at h
    · simp [failure] at h
    next hroom =>
      cases h
      refine ⟨count, lengthBytes, hcount, hne, rfl, ?_, hreadTag, hreadLength⟩
      exact take_stores f destination element.tag lengthBytes element.value (by omega)

/-- A successful encode keeps the extent of the destination. -/
theorem fields_encode_length (htags : TagLaw f.readTag f.writeTag)
    (hlengths : LengthLaw f.readLength f.writeLength) {destination stored : Bytes} {used : Nat}
    (h : fieldsEncode f element destination = .ok (stored, used)) :
    stored.length = destination.length := by
  unfold fieldsEncode at h
  cases hsizes : fieldSizes f element with
  | error failed => simp [hsizes] at h
  | ok result =>
    obtain ⟨t, l, count⟩ := result
    obtain ⟨hwidth, hcount, storedLength, hquery⟩ := field_sizes_eq_ok hsizes
    obtain ⟨storedTag, htag⟩ := tag_width_eq_ok hwidth
    obtain ⟨-, rfl, hwriteTag, -⟩ := htags _ _ _ htag
    obtain ⟨lengthBytes, rfl, hwriteLength, -⟩ :=
      hlengths _ _ _ (element_count_le hcount) hquery
    have hnative : sizeToNative element.value.length = .ok element.value.length := by
      have := element.value_le
      simp [sizeToNative]
      omega
    simp only [hsizes, hnative, hwriteTag _ (Nat.le_refl _), hwriteLength, callback_result_ok,
      ne_eq, not_true_eq_false, if_false] at h
    split at h
    · simp [failure] at h
    next hroom =>
      cases h
      have hfirst : (if f.elementOrder = .tlv then 0 else lengthBytes.length) +
          element.tag.length ≤ destination.length := by split <;> omega
      have hsecond : lengthOffset f element.tag.length + lengthBytes.length ≤
          destination.length := by unfold lengthOffset; split <;> omega
      rw [Octets.store_length, Octets.store_length, Octets.store_length hfirst]
      · rw [Octets.store_length hfirst]
        exact hsecond
      · rw [Octets.store_length, Octets.store_length hfirst]
        · omega
        · rw [Octets.store_length hfirst]
          exact hsecond

/-- The identifier step in front of a tag that reads back. -/
theorem tag_step_eq {data tag rest : Bytes} {s : FieldsState}
    (hdata : data.drop s.pos = tag ++ rest)
    (hne : tag ≠ []) (hread : f.readTag (tag ++ rest) = ⟨.ok ⟨tag, some 0⟩, tag.length⟩) :
    tagStep f data s =
      .ok { s with
        tag := ⟨tag, some s.pos⟩
        tagSize := tag.length
        tagRange := Range.at s.pos tag.length
        pos := s.pos + tag.length } := by
  have hlen : data.length - s.pos = tag.length + rest.length := by
    simpa using congrArg List.length hdata
  have hbounds : ¬ (tag.length = 0 ∨ tag.length > data.length - s.pos) := by
    have := List.length_pos_iff.mpr hne
    omega
  simp only [tagStep, hdata, hread, read_result_ok, if_neg hbounds, Option.map_some, Nat.zero_add]

/-- The count step in front of a count that reads back. -/
theorem length_step_eq {data bytes rest : Bytes} {count : Nat} {s : FieldsState}
    (hresolve : f.resolve = none) (hdata : data.drop s.pos = bytes ++ rest)
    (hread : f.readLength (bytes ++ rest) = ⟨.ok count, bytes.length⟩)
    (hscope : ¬ (f.lengthScope = .tagAndValue ∧ count = 0)) :
    lengthStep f data s =
      .ok { s with
        length := count
        trailer := 0
        lengthRange := Range.at s.pos bytes.length
        pos := s.pos + bytes.length } := by
  have hlen : data.length - s.pos = bytes.length + rest.length := by
    simpa using congrArg List.length hdata
  have hfits : bytes.length ≤ data.length - s.pos := by omega
  have hover : ¬ bytes.length > data.length - s.pos := by omega
  simp only [lengthStep, readCount, hresolve, hdata, hread, read_result_ok, Except.map, available,
    if_pos hfits, if_neg hover, if_neg hscope]

/-- The header is read back in either order. -/
theorem header_steps_eq {tag bytes rest : Bytes} {count : Nat} (hresolve : f.resolve = none)
    (hne : tag ≠ [])
    (hreadTag : ∀ rest, f.readTag (tag ++ rest) = ⟨.ok ⟨tag, some 0⟩, tag.length⟩)
    (hreadLength : ∀ rest, f.readLength (bytes ++ rest) = ⟨.ok count, bytes.length⟩)
    (hscope : ¬ (f.lengthScope = .tagAndValue ∧ count = 0)) :
    ∃ s, headerSteps f (headerBytes f tag bytes ++ rest) = .ok s ∧ s.length = count ∧
      s.trailer = 0 ∧ s.tagSize = tag.length ∧ s.pos = tag.length + bytes.length ∧
      s.tag.bytes = tag ∧ s.tagRange.present = true ∧ s.tagRange.size = tag.length ∧
      s.tag.origin = some s.tagRange.offset ∧ s.tagRange.valid s.pos = true ∧
      s.lengthRange.valid s.pos = true := by
  unfold headerSteps headerBytes
  split
  · have hstart : (tag ++ bytes ++ rest).drop ({} : FieldsState).pos = tag ++ (bytes ++ rest) := by
      simp
    rw [tag_step_eq hstart hne (hreadTag _)]
    dsimp only
    rw [length_step_eq hresolve (by simp) (hreadLength rest) hscope]
    exact ⟨_, rfl, by simp [Range.at, Range.valid]⟩
  · have hstart : (bytes ++ tag ++ rest).drop ({} : FieldsState).pos = bytes ++ (tag ++ rest) := by
      simp
    rw [length_step_eq hresolve hstart (hreadLength _) hscope]
    dsimp only
    rw [tag_step_eq (by simp) hne (hreadTag rest)]
    refine ⟨_, rfl, ?_⟩
    simp [Range.at, Range.valid]
    omega

/-- A decode result that `tlv_format_decode` publishes and that gives the element back from
its first `used` octets. -/
structure Reproduces (decoded : Decoded) (element : Element) (used size : Nat) : Prop where
  valid : decodedValid decoded size = true
  size_eq : decoded.source.size = used
  tag_eq : decoded.tag.bytes = element.tag
  value_eq : decoded.value.bytes = element.value

/-- A header without trailer leaves exactly the value. -/
theorem value_step_reproduces {data rest : Bytes} {s : FieldsState} {used : Nat}
    (hdata : data.drop s.pos = element.value ++ rest) (hpos : s.pos ≤ data.length)
    (htrailer : s.trailer = 0) (hused : used = s.pos + element.value.length) (hnonzero : 0 < s.pos)
    (htag : s.tag.bytes = element.tag) (hpresent : s.tagRange.present = true)
    (hsize : s.tagRange.size = element.tag.length)
    (horigin : s.tag.origin = some s.tagRange.offset) (htagRange : s.tagRange.valid s.pos = true)
    (hlengthRange : s.lengthRange.valid s.pos = true) :
    ∃ decoded, valueStep data s element.value.length = .ok decoded ∧
      Reproduces decoded element used data.length := by
  have hlen : data.length - s.pos = element.value.length + rest.length := by
    simpa using congrArg List.length hdata
  have hvalue : ¬ element.value.length > data.length - s.pos := by omega
  have hrest : ¬ s.trailer > data.length - s.pos - element.value.length := by omega
  have hwiden : ∀ range : Range, range.valid s.pos = true →
      range.valid (s.pos + element.value.length + s.trailer) = true := by
    intro range hvalid
    simp only [Range.valid, Bool.or_eq_true, Bool.not_eq_true', Bool.and_eq_true,
      decide_eq_true_eq] at hvalid ⊢
    rcases hvalid with habsent | hinside
    · exact .inl habsent
    · exact .inr ⟨by omega, by omega⟩
  unfold valueStep
  rw [if_neg hvalue, if_neg hrest]
  refine ⟨_, rfl, ?_, ?_, htag, ?_⟩
  · have hinside : s.pos + element.value.length ≤ data.length := by omega
    have hnonempty : ¬ (s.pos = 0 ∧ element.value = []) := by omega
    have htags := hwiden _ htagRange
    have hlengths := hwiden _ hlengthRange
    rw [htrailer] at htags hlengths
    simp only [decodedValid, tagBindingValid, htags, hlengths, hpresent, htag, hsize, horigin,
      hdata, htrailer]
    simp [Range.at, Range.valid, hinside, hnonempty]
  · simp [htrailer, hused]
  · simp [hdata]

/-- What the composed encoder writes, the composed decoder reads back. -/
theorem fields_round_trip (hresolve : f.resolve = none) (htags : TagLaw f.readTag f.writeTag)
    (hlengths : LengthLaw f.readLength f.writeLength) {destination stored : Bytes} {used : Nat}
    (h : fieldsEncode f element destination = .ok (stored, used)) (suffix : Bytes) :
    ∃ decoded, fieldsDecode f (stored.take used ++ suffix) = .ok decoded ∧
      Reproduces decoded element used (stored.take used ++ suffix).length := by
  obtain ⟨count, bytes, hcount, hne, hused, hstored, hreadTag, hreadLength⟩ :=
    fields_encode_eq_ok htags hlengths h
  have htagPos := List.length_pos_iff.mpr hne
  have hscope : ¬ (f.lengthScope = .tagAndValue ∧ count = 0) := by
    rintro ⟨hboth, hzero⟩
    simp only [elementCount, hboth, if_true] at hcount
    obtain ⟨hsum, -⟩ := size_add_eq_ok hcount
    omega
  rw [hstored, List.append_assoc]
  obtain ⟨s, hsteps, hlength, htrailer, htagSize, hpos, htag, hpresent, hsize, horigin, htagRange,
    hlengthRange⟩ := @header_steps_eq f element.tag bytes (element.value ++ suffix) count
      hresolve hne hreadTag hreadLength hscope
  have hdrop : (headerBytes f element.tag bytes ++ (element.value ++ suffix)).drop s.pos =
      element.value ++ suffix := List.drop_left' (by simp [hpos])
  have hvalue := value_step_reproduces hdrop (by simp [hpos]) htrailer
    (show used = s.pos + element.value.length by omega) (by omega) htag hpresent hsize horigin
    htagRange hlengthRange
  unfold fieldsDecode
  rw [hsteps]
  dsimp only
  unfold elementCount at hcount
  split at hcount
  next hboth =>
    obtain ⟨hsum, -⟩ := size_add_eq_ok hcount
    have henough : ¬ s.length < s.tagSize := by omega
    have hrest : s.length - s.tagSize = element.value.length := by omega
    rw [if_pos hboth, if_neg henough, hrest]
    exact hvalue
  next hvalueOnly =>
    have hsame : s.length = element.value.length := by
      rw [hlength]
      exact (Except.ok.inj hcount).symm
    rw [if_neg hvalueOnly, hsame]
    exact hvalue

/-- A tag without count and value is written and read back alone. -/
theorem tagged_fields_round_trip {f : TaggedFieldsComposition}
    (hresolve : f.fields.resolve = none) (horder : f.fields.elementOrder = .tlv)
    (htags : TagLaw f.fields.readTag f.fields.writeTag)
    (hlengths : LengthLaw f.fields.readLength f.fields.writeLength)
    {destination stored : Bytes} {used : Nat}
    (h : taggedFieldsEncode f element destination = .ok (stored, used)) (suffix : Bytes) :
    ∃ decoded, taggedFieldsDecode f (stored.take used ++ suffix) = .ok decoded ∧
      Reproduces decoded element used (stored.take used ++ suffix).length := by
  unfold taggedFieldsEncode at h
  cases hmeasure : taggedFieldsMeasure f element with
  | error failed => simp [hmeasure] at h
  | ok encoding =>
    simp only [hmeasure] at h
    unfold taggedFieldsMeasure at hmeasure
    cases hwidth : tagWidth f.fields element.tag with
    | error failed => simp [hwidth] at hmeasure
    | ok width =>
      simp only [hwidth] at hmeasure
      obtain ⟨storedTag, hquery⟩ := tag_width_eq_ok hwidth
      obtain ⟨hne, rfl, hwriteTag, hreadTag⟩ := htags _ _ _ hquery
      have htagPos := List.length_pos_iff.mpr hne
      -- both branches decode the tag first, so its bounds are checked once
      have hleading : ∀ rest : Bytes, ¬ (element.tag.length = 0 ∨
          element.tag.length > (element.tag ++ rest).length) := by
        intro rest
        simp only [List.length_append]
        omega
      split at h
      next hlisted =>
        obtain ⟨count, bytes, -, -, -, hstored, -, -⟩ := fields_encode_eq_ok htags hlengths h
        obtain ⟨decoded, hdecode, hreproduces⟩ :=
          fields_round_trip hresolve htags hlengths h suffix
        refine ⟨decoded, ?_, hreproduces⟩
        rw [hstored] at hdecode ⊢
        simp only [headerBytes, horder, if_true, List.append_assoc] at hdecode ⊢
        simp only [taggedFieldsDecode, hreadTag, read_result_ok, if_neg (hleading _), hlisted,
          if_true]
        exact hdecode
      next hlisted =>
        rw [if_neg hlisted] at hmeasure
        split at hmeasure
        · simp [failure] at hmeasure
        next hempty =>
          cases hmeasure
          split at h
          · simp [failure] at h
          next hroom =>
            rw [hwriteTag destination.length (by simpa using hroom)] at h
            cases h
            have hstored : (Octets.store destination 0 element.tag).take element.tag.length =
                element.tag := by
              simpa using @Octets.take_store destination [] element.tag 0 (by simp) rfl
            rw [hstored]
            simp only [taggedFieldsDecode, hreadTag, read_result_ok, if_neg (hleading _),
              if_neg hlisted]
            refine ⟨_, rfl, ?_, rfl, rfl, ?_⟩
            · simp [decodedValid, tagBindingValid, Range.at, Range.valid, hne]
            · symm
              simpa using hempty

end RoundTrip

end OpenTlv
