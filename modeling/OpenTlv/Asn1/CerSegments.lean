import OpenTlv.Asn1.Values
import OpenTlv.Asn1.Framing

/-!
# String segments of CER

The classification of universal types and the segment accumulator of `cer_values_internal.c`. A
constructed string is a run of primitive segments. That a segment was not the last one is known
only when the next one arrives, so its size is checked one segment in arrears.
-/

namespace OpenTlv

/-- `TLV_CER_MAX_SEGMENT_OCTETS`. -/
def cerMaxSegmentOctets : Nat := 1000

/-- `tlv_cer_form_t`. -/
inductive CerForm where
  | primitiveOnly
  | octets
  | bitString
  | characters
  deriving Repr, DecidableEq

/-- `tlv_cer_type_info_t`. -/
structure CerTypeInfo where
  form : CerForm
  codeUnitWidth : Nat := 1
  isUtf8 : Bool := false
  deriving Repr, DecidableEq

/-- `tlv_cer_type_info`. -/
def cerTypeInfo : Nat → CerTypeInfo
  | 3 => { form := .bitString }
  | 4 => { form := .octets }
  | 12 => { form := .characters, isUtf8 := true }
  | 7 | 18 | 19 | 20 | 21 | 22 | 25 | 26 | 27 => { form := .characters }
  | 28 => { form := .characters, codeUnitWidth := 4 }
  | 30 => { form := .characters, codeUnitWidth := 2 }
  | _ => { form := .primitiveOnly }

/-- The number of a universal tag that the type rules of CER know. -/
def cerUniversalNumber (tag : Bytes) : Option Nat :=
  if asn1IsUniversal tag then
    match cerTagNumber tag with
    | .error _ => none
    | .ok number => if number ≤ 36 then some number else none
  else none

/-- `tag_matches_primitive`. -/
def tagMatchesPrimitive (tag : Bytes) (number : Nat) : Bool :=
  match tag with
  | [octet] =>
    octet &&& 0xC0 = 0 && octet &&& asn1ConstructedBit = 0 &&
      (octet &&& asn1TagNumberMask).toNat = number
  | _ => false

/-- The verdict of a content rule. -/
def valueStatus (valid : Bool) : Except Status Unit :=
  if valid then .ok () else .error .invalidValue

/-- `validate_character_segment`. -/
def validateCharacterSegment (number width : Nat) (value : Bytes) : Except Status Unit :=
  if width = 4 then valueStatus (value.length % 4 = 0 && validateUniversalString value)
  else if width = 2 then valueStatus (value.length % 2 = 0 && validateBmpString value)
  else
    match number with
    | 18 => valueStatus (validateNumericString value)
    | 19 => valueStatus (validatePrintableString value)
    | 22 => valueStatus (validateIa5String value)
    | 26 => valueStatus (validateVisibleString value)
    | 7 | 20 | 21 | 25 | 27 => .ok ()
    | _ => .error .unsupported

/-- The last segment that was added, with the offset of its tag. -/
structure Segment where
  value : Bytes
  offset : Nat
  deriving Repr, DecidableEq

/-- `tlv_cer_segment_state_t`. -/
structure SegmentState where
  number : Nat
  info : CerTypeInfo
  strict : Bool
  segmentCount : Nat := 0
  totalOctets : Nat := 0
  pending : Option Segment := none
  utf8 : Utf8Stream := {}
  deriving Repr, DecidableEq

/-- `tlv_cer_segment_state_init`. -/
def SegmentState.init (number : Nat) (info : CerTypeInfo) (strict : Bool) : SegmentState :=
  { number := number, info := info, strict := strict }

/-- The previous segment was not the last one, so it is full and without unused bits. -/
def SegmentState.checkPending (state : SegmentState) : Except (Status × Nat) Unit :=
  match state.pending with
  | none => .ok ()
  | some segment =>
    if segment.value.length ≠ cerMaxSegmentOctets then .error (.invalidLength, segment.offset)
    else if state.strict && state.info.form = .bitString && segment.value.headD 0 ≠ 0 then
      .error (.invalidValue, segment.offset)
    else .ok ()

/-- The character rules on one segment; the UTF-8 state runs across segments. -/
def SegmentState.checkContent (state : SegmentState) (value : Bytes) : Except Status Utf8Stream :=
  if state.strict && state.info.form = .characters then
    if state.info.isUtf8 then
      match utf8StreamUpdate state.utf8 value with
      | none => .error .invalidValue
      | some utf8 => .ok utf8
    else
      match validateCharacterSegment state.number state.info.codeUnitWidth value with
      | .error status => .error status
      | .ok () => .ok state.utf8
  else .ok state.utf8

/-- `tlv_cer_segment_state_add`. -/
def SegmentState.add (state : SegmentState) (tag value : Bytes) (offset : Nat) :
    Except (Status × Nat) SegmentState :=
  match state.checkPending with
  | .error failed => .error failed
  | .ok () =>
    if tagMatchesPrimitive tag state.number = false then .error (.invalidTag, offset)
    else if value.length = 0 ∨ value.length > cerMaxSegmentOctets then
      .error (.invalidLength, offset)
    else
      match state.checkContent value with
      | .error status => .error (status, offset)
      | .ok utf8 =>
        .ok { state with
          segmentCount := state.segmentCount + 1
          totalOctets := state.totalOctets + value.length
          pending := some ⟨value, offset⟩
          utf8 := utf8 }

/-- `tlv_cer_segment_state_finish`. -/
def SegmentState.finish (state : SegmentState) (elementOffset : Nat) :
    Except (Status × Nat) Unit :=
  match state.pending with
  | none => .error (.invalidLength, elementOffset)
  | some segment =>
    if state.totalOctets ≤ cerMaxSegmentOctets then .error (.invalidLength, elementOffset)
    else if state.strict then
      if state.info.form = .bitString then
        if validateBitString segment.value then .ok () else .error (.invalidValue, segment.offset)
      else if state.info.form = .characters && state.info.isUtf8 then
        if state.utf8.need = 0 then .ok () else .error (.invalidValue, segment.offset)
      else .ok ()
    else .ok ()

end OpenTlv
