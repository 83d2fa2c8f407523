import OpenTlv.Formats.Compose

/-!
# Packed headers

The bit fields of `field/packed.c` and the composition of `formats/packed.c`: identifier and
count share one header integer. A decoded tag borrows the configured table of canonical
identifiers, not the input.
-/

namespace OpenTlv

/-- `tlv_packed_field_t`. -/
structure PackedField where
  storageSize : Nat
  bitOffset : Nat
  bitWidth : Nat
  byteOrder : ByteOrder
  deriving Repr, DecidableEq

/-- `packed_validate`. -/
def packedValidate (field : PackedField) : Except Status Unit :=
  if field.storageSize = 0 ∨ field.storageSize > 8 ∨ field.bitWidth = 0 ∨ field.bitWidth > 64 ∨
      field.bitOffset ≥ field.storageSize * 8 ∨
      field.bitWidth > field.storageSize * 8 - field.bitOffset then
    .error .invalidArg
  else if field.byteOrder ≠ .bigEndian ∧ field.byteOrder ≠ .littleEndian then .error .invalidArg
  else .ok ()

/-- `packed_mask` and `mask`. -/
def packedMask (width : Nat) : Nat :=
  2 ^ width - 1

/-- `tlv_packed_field_read`. -/
def packedFieldRead (field : PackedField) (data : Bytes) : Except Status Nat :=
  match packedValidate field with
  | .error status => .error status
  | .ok () =>
    if data.length < field.storageSize then .error .truncated
    else
      match readUint data field.storageSize field.byteOrder with
      | .error status => .error status
      | .ok storage => .ok ((storage >>> field.bitOffset) &&& packedMask field.bitWidth)

/-- `tlv_packed_field_write`: the storage octets after the insertion. -/
def packedFieldWrite (field : PackedField) (data : Bytes) (value : Nat) : Except Status Bytes :=
  match packedValidate field with
  | .error status => .error status
  | .ok () =>
    if data.length < field.storageSize then .error .bufferTooShort
    else if value > packedMask field.bitWidth then .error .overflow
    else
      match readUint data field.storageSize field.byteOrder with
      | .error status => .error status
      | .ok storage =>
        let kept := storage - (storage &&& (packedMask field.bitWidth <<< field.bitOffset))
        writeUint field.storageSize field.byteOrder (kept ||| (value <<< field.bitOffset))

/-- `envelope`: the header octets that a field touches. -/
def packedEnvelope (field : PackedField) : Range :=
  let first := field.bitOffset / 8
  let last := (field.bitOffset + field.bitWidth - 1) / 8
  Range.at (if field.byteOrder = .littleEndian then first else field.storageSize - last - 1)
    (last - first + 1)

/-- `tlv_packed_layout_t`. -/
structure PackedLayout where
  headerSize : Nat
  tag : PackedField
  length : PackedField
  lengthScope : LengthScope
  tagStorage : Bytes
  tagSize : Nat
  deriving Repr, DecidableEq

/-- `tlv_packed_layout_validate`. -/
def packedLayoutValidate (f : PackedLayout) : Except Status Unit :=
  if f.headerSize = 0 ∨ f.headerSize > 8 ∨ f.tag.storageSize ≠ f.headerSize ∨
      f.length.storageSize ≠ f.headerSize then .error .invalidArg
  else
    match packedValidate f.tag with
    | .error status => .error status
    | .ok () =>
      match packedValidate f.length with
      | .error status => .error status
      | .ok () =>
        if f.tag.byteOrder ≠ f.length.byteOrder ∨
            (f.tag.bitOffset < f.length.bitOffset + f.length.bitWidth ∧
              f.length.bitOffset < f.tag.bitOffset + f.tag.bitWidth) ∨
            (f.lengthScope ≠ .value ∧ f.lengthScope ≠ .tagAndValue) ∨
            f.tagSize < (f.tag.bitWidth + 7) / 8 ∨ f.tagSize > 8 then .error .invalidArg
        else if f.tag.bitWidth ≥ 64 then .error .overflow
        else if 2 ^ f.tag.bitWidth > sizeMax / f.tagSize then .error .overflow
        else if f.tagStorage.length < 2 ^ f.tag.bitWidth * f.tagSize then .error .invalidArg
        else .ok ()

/-- `packed_failure`. -/
def packedFailure {α : Type} (status : Status) (region : Region) (offset required : Nat)
    (tag length value : Range) : FormatResult α :=
  .error (status,
    { region := region, offset := offset, hasOffset := true, required := required,
      hasRequired := true, tag := tag, length := length, value := value })

/-- The count of the value octets, from the packed count. -/
def packedCount (f : PackedLayout) (count : Nat) : FormatResult Nat :=
  let tag := packedEnvelope f.tag
  if f.lengthScope = .tagAndValue then
    if count < tag.size then
      packedFailure .invalidLength .length (packedEnvelope f.length).offset f.headerSize tag
        (packedEnvelope f.length) {}
    else .ok (count - tag.size)
  else .ok count

/-- The value and the canonical tag of a packed element. -/
def packedElement (f : PackedLayout) (data : Bytes) (type count : Nat) : FormatResult Decoded :=
  let tag := packedEnvelope f.tag
  let length := packedEnvelope f.length
  let entry := (f.tagStorage.drop (type * f.tagSize)).take f.tagSize
  if count > data.length - f.headerSize then
    packedFailure .truncated .value f.headerSize count tag length
      (Range.at f.headerSize (data.length - f.headerSize))
  else if readUint entry f.tagSize .bigEndian ≠ .ok type then
    packedFailure .invalidTag .tag tag.offset count tag length (Range.at f.headerSize count)
  else
    .ok
      { tag := ⟨entry, none⟩
        value := ⟨(data.drop f.headerSize).take count, some f.headerSize⟩
        source :=
          { size := f.headerSize + count
            header := Range.at 0 f.headerSize
            tag := tag
            length := length
            value := Range.at f.headerSize count
            trailer := Range.at (f.headerSize + count) 0
            tagBinding := .format } }

/-- `tlv_packed_decode`. -/
def packedDecode (f : PackedLayout) (data : Bytes) : FormatResult Decoded := do
  match packedLayoutValidate f with
  | .error status => .error (status, {})
  | .ok () =>
    if data.length < f.headerSize then
      packedFailure .truncated .header 0 f.headerSize {} {} {}
    else
      let type := (packedFieldRead f.tag data).toOption.getD 0
      let count ← packedCount f ((packedFieldRead f.length data).toOption.getD 0)
      packedElement f data type count

/-- `field_failure`. -/
def packedFieldFailure {α : Type} (status : Status) (region : Region) (field : PackedField) :
    FormatResult α :=
  failure {} status region (packedEnvelope field).offset

/-- `tlv_packed_measure`. -/
def packedMeasure (f : PackedLayout) (element : Element) : FormatResult Encoding :=
  match packedLayoutValidate f with
  | .error status => .error (status, {})
  | .ok () =>
    if element.tag.length ≠ f.tagSize then packedFieldFailure .invalidTagSize .tag f.tag
    else if (readUint element.tag f.tagSize .bigEndian).toOption.getD 0 >
        packedMask f.tag.bitWidth then packedFieldFailure .invalidTag .tag f.tag
    else
      let overhead := if f.lengthScope = .tagAndValue then (packedEnvelope f.tag).size else 0
      let maximum := packedMask f.length.bitWidth
      if overhead > maximum ∨ element.value.length > maximum - overhead ∨
          element.value.length > sizeMax - f.headerSize then
        packedFieldFailure .invalidLength .length f.length
      else .ok ⟨f.headerSize, element.value.length, 0, f.headerSize + element.value.length⟩

/-- `tlv_packed_encode`. The validated fields make both insertions succeed, and the source
ignores their results. -/
def packedEncode (f : PackedLayout) (element : Element) (destination : Bytes) :
    FormatResult (Bytes × Nat) :=
  match packedMeasure f element with
  | .error failed => .error failed
  | .ok sizes =>
    if sizes.total > destination.length then
      packedFieldFailure .bufferTooShort .length f.length
    else
      let type := (readUint element.tag f.tagSize .bigEndian).toOption.getD 0
      let count := element.value.length +
        if f.lengthScope = .tagAndValue then (packedEnvelope f.tag).size else 0
      let header := List.replicate f.headerSize 0
      let header := (packedFieldWrite f.tag header type).toOption.getD header
      let header := (packedFieldWrite f.length header count).toOption.getD header
      .ok (Octets.store destination 0 (header ++ element.value), sizes.total)

/-- The format of a packed layout. -/
def packedFormat (f : PackedLayout) : Format :=
  { decode := some (packedDecode f)
    measure := some (packedMeasure f)
    encode := some (packedEncode f)
    isConstructed := none }

end OpenTlv
