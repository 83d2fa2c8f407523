import OpenTlv.Asn1.Cer

/-!
# Segmented strings

`tlv_cer_write_segmented_string` of `cer_validation.c`, which takes the logical contents of a
string and chooses between one primitive element and a constructed one with segments. The way
back, from the segments of a constructed string to its logical contents, is `stringContents`.
-/

namespace OpenTlv

/-- `segment_layout`: the number of full segments and the octets of the final one. -/
def segmentLayout (totalOctets chunk : Nat) : Nat × Nat :=
  ((totalOctets - 1) / chunk, totalOctets - (totalOctets - 1) / chunk * chunk)

/-- The constructed form of a tag of one octet. -/
def constructedTag : Bytes → Bytes
  | [] => []
  | first :: rest => (first ||| asn1ConstructedBit) :: rest

/-- One segment: tag, length and contents. -/
def storeSegment (tag contents : Bytes) (length lengthSize : Nat) : Except CerStop Bytes :=
  match cerFields.writeLength length (some lengthSize) with
  | .error status => cerUnlocated status
  | .ok (field, _) => .ok (tag ++ field ++ contents)

/-- The loop over the full segments: what is stored and the source octets that are left. `lead`
is the octet in front of the source octets of each segment, if there is one. -/
def storeSegments (tag lead : Bytes) (chunk lengthSize : Nat) :
    Nat → Bytes → Except CerStop (Bytes × Bytes)
  | 0, source => .ok ([], source)
  | count + 1, source => do
      let segment ← storeSegment tag (lead ++ source.take chunk) cerMaxSegmentOctets lengthSize
      let (stored, rest) ← storeSegments tag lead chunk lengthSize count (source.drop chunk)
      return (segment ++ stored, rest)

/-- The sizes that `write_segmented_string` computes for a constructed string. -/
structure SegmentSizes where
  chunk : Nat
  segmentLength : Nat
  fullSegments : Nat
  finalOctets : Nat
  finalContents : Nat
  finalLength : Nat
  total : Nat
  deriving Repr, DecidableEq

/-- The checked sizes of a constructed string. -/
def segmentSizes (tagSize contentLength : Nat) (isBit : Bool) : Except CerStop SegmentSizes :=
  match cerFields.writeLength cerMaxSegmentOctets none with
  | .error status => cerUnlocated status
  | .ok (_, segmentLength) =>
    let chunk := if isBit then cerMaxSegmentOctets - 1 else cerMaxSegmentOctets
    let sourceOctets := if isBit then contentLength - 1 else contentLength
    let (fullSegments, finalOctets) := segmentLayout sourceOctets chunk
    let finalContents := if isBit then finalOctets + 1 else finalOctets
    match cerFields.writeLength finalContents none with
    | .error status => cerUnlocated status
    | .ok (_, finalLength) =>
      let perSegment := tagSize + segmentLength + cerMaxSegmentOctets
      if fullSegments > (sizeMax - tagSize - 1 - 2) / perSegment then
        cerUnlocated .invalidLength
      else
        let total := tagSize + 1 + fullSegments * perSegment + 2
        let finalSegment := tagSize + finalLength + finalContents
        if finalSegment > sizeMax - total then cerUnlocated .invalidLength
        else
          .ok ⟨chunk, segmentLength, fullSegments, finalOctets, finalContents, finalLength,
            total + finalSegment⟩

/-- The octets of a constructed string. -/
def segmentedBytes (tag content : Bytes) (isBit : Bool) (sizes : SegmentSizes) :
    Except CerStop Bytes := do
  let source := if isBit then content.drop 1 else content
  let (full, rest) ← storeSegments tag (if isBit then [0] else []) sizes.chunk
    sizes.segmentLength sizes.fullSegments source
  let final ← storeSegment tag
    ((if isBit then content.take 1 else []) ++ rest.take sizes.finalOctets) sizes.finalContents
    sizes.finalLength
  return constructedTag tag ++ [berIndefinite] ++ full ++ final ++ [0, 0]

/-- The constructed form of `write_segmented_string`. -/
def writeSegments (element : Element) (tagSize : Nat) (limits : CerLimits) (isBit : Bool)
    (destination : Option Bytes) : Except CerStop Written :=
  if element.value.length > limits.maxValueSize then cerFail .limit tagSize
  else
    match segmentSizes tagSize element.value.length isBit with
    | .error stop => .error stop
    | .ok sizes =>
      if sizes.total > limits.maxInputSize then cerUnlocated .limit
      else if sizes.fullSegments + 2 > limits.maxElements then cerUnlocated .limit
      else
        match destination with
        | none => .ok (none, sizes.total)
        | some buffer =>
          if buffer.length < sizes.total then cerUnlocated .bufferTooShort
          else do
            let stored ← segmentedBytes element.tag element.value isBit sizes
            return (some (Octets.store buffer 0 stored), sizes.total)

/-- `tlv_cer_write_segmented_string`. The element holds the tag and the logical contents. -/
def cerWriteSegmentedString (element : Element) (limits : CerLimits)
    (destination : Option Bytes) : Except CerStop Written :=
  if limits.maxDepth > cerMaxDepth then cerUnlocated .unsupported
  else if limits.maxElements = 0 then cerUnlocated .limit
  else if asn1IsUniversal element.tag = false ∨ asn1IsConstructed element.tag = true then
    cerUnlocated .invalidArg
  else
    match cerFields.writeTag element.tag none with
    | .error status => cerUnlocated status
    | .ok (_, tagSize) =>
      match cerUniversalNumber element.tag with
      | none => cerUnlocated .invalidArg
      | some number =>
        let info := cerTypeInfo number
        if info.form = .primitiveOnly then cerUnlocated .invalidArg
        else
          match validateUniversalValue number element.value with
          | .error status => cerFail status tagSize
          | .ok () =>
            if element.value.length ≤ cerMaxSegmentOctets then
              if element.value.length > limits.maxValueSize then cerFail .limit tagSize
              else cerWriteFramed element tagSize limits destination
            else writeSegments element tagSize limits (info.form = .bitString) destination

/-- The primitive form of a tag. -/
def primitiveTag : Bytes → Bytes
  | [] => []
  | first :: rest => (first &&& ~~~asn1ConstructedBit) :: rest

/-- The contents of the segments that the value of a constructed string consists of. -/
def stringSegments : Nat → Bytes → Option (List Bytes)
  | _, [] => some []
  | 0, _ :: _ => none
  | fuel + 1, octet :: rest =>
    let data := octet :: rest
    let tag := cerFields.readTag data
    let length := cerFields.readLength (data.drop tag.consumed)
    let header := tag.consumed + length.consumed
    match tag.outcome, length.outcome with
    | .ok _, .ok count =>
      (stringSegments fuel (data.drop (header + count))).map
        ((data.drop header).take count :: ·)
    | _, _ => none

/-- The logical contents of a string from its segments. The octet of unused bits of a bit string
is the one of the final segment. -/
def stringContents (form : CerForm) (segments : List Bytes) : Bytes :=
  if form = .bitString then
    (segments.getLastD []).take 1 ++ (segments.map (·.drop 1)).flatten
  else segments.flatten

end OpenTlv
