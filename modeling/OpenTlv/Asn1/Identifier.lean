import OpenTlv.Formats.Configurable

/-!
# ASN.1 identifiers and lengths

The identifier and length fields that the ASN.1 encoding rules share, from `identifier.c`,
`asn1_internal.c` and `ber_internal.c`. They are the variable-width fields of
`OpenTlv.Field.Variable` under X.690 policies: BER keeps nonminimal forms, DER and CER require
the minimal ones and know which universal numbers exist.
-/

namespace OpenTlv

/-- `TLV_ASN1_CONSTRUCTED_BIT`. -/
def asn1ConstructedBit : UInt8 := 0x20

/-- `TLV_ASN1_TAG_NUMBER_MASK`. -/
def asn1TagNumberMask : UInt8 := 0x1F

/-- `TLV_ASN1_TAG_MAX_SIZE`. -/
def asn1TagMaxSize : Nat := 8

/-- `TLV_BER_LENGTH_LONG_FORM_BIT`, which alone is the indefinite length. -/
def berIndefinite : UInt8 := 0x80

/-- The X.690 identifier layout under a policy. -/
def asn1Identifier (policy : IdentifierPolicy) : VariableIdentifier :=
  { inlineMask := asn1TagNumberMask
    escape := asn1TagNumberMask
    continuationBit := 0x80
    payloadMask := 0x7F
    maxSize := asn1TagMaxSize
    policy := some policy }

/-- The X.690 length layout, with or without the minimal form. -/
def asn1Length (requireMinimal : Nat) : VariableLength :=
  { longFormBit := berIndefinite
    payloadMask := 0x7F
    byteOrder := .bigEndian
    policy := some ⟨1, 1, requireMinimal, 126, sizeMax⟩ }

/-- `ber_identifier`. -/
def berIdentifier : VariableIdentifier :=
  asn1Identifier ⟨[], 1, 0⟩

/-- `ber_length`. -/
def berLength : VariableLength :=
  asn1Length 0

/-- `tlv_ber_write_length`. -/
def berWriteLength : WriteLength :=
  variableLengthWrite berLength

/-- `tlv_ber_length_field_size`. -/
def berLengthFieldSize (data : Bytes) : Nat :=
  (variableLengthRead berLength data).consumed

/-- `tlv_asn1_is_constructed` and `tlv_asn1_tag_is_constructed`. -/
def asn1IsConstructed (tag : Bytes) : Bool :=
  constructedBitPredicate ⟨0, asn1ConstructedBit, asn1ConstructedBit⟩ tag

/-- Whether `tlv_asn1_tag_class` is the universal class. -/
def asn1IsUniversal (tag : Bytes) : Bool :=
  tag.headD 0 &&& 0xC0 = 0

/-- `tlv_asn1_number_must_construct`. -/
def asn1NumberMustConstruct (number : Nat) : Bool :=
  number = 8 || number = 11 || number = 16 || number = 17 || number = 29

/-- The number that the identifier checks look at; a longer form is beyond them. -/
def asn1CheckedNumber (tag : Bytes) : Nat :=
  match tag with
  | [first] => (first &&& asn1TagNumberMask).toNat
  | [_, second] => second.toNat
  | _ => 127

/-- The restrictions on universal identifiers that DER and CER share. -/
def asn1IdentifierAllowed (tag : Bytes) : Bool :=
  !asn1IsUniversal tag ||
    !(asn1CheckedNumber tag = 0 || asn1CheckedNumber tag = 15 ||
      (asn1NumberMustConstruct (asn1CheckedNumber tag) &&
        tag.headD 0 &&& asn1ConstructedBit = 0))

/-- A tag reader with one more check on the identifier. -/
def screenedTag (allowed : Bytes → Bool) (read : ReadTag) : ReadTag := fun data =>
  match read data with
  | ⟨.error status, consumed⟩ => ⟨.error status, if status = .truncated then consumed else 0⟩
  | ⟨.ok tag, consumed⟩ =>
    if allowed tag.bytes then ⟨.ok tag, consumed⟩ else ⟨.error .invalidTag, 0⟩

/-- `tlv_asn1_read_identifier`. -/
def asn1ReadIdentifier : ReadTag :=
  screenedTag asn1IdentifierAllowed (variableIdentifierRead (asn1Identifier ⟨[], 1, 1⟩))

/-- `tlv_asn1_write_identifier_checked`. -/
def asn1WriteIdentifierChecked (read : ReadTag) : WriteTag := fun tag capacity =>
  if tag.length = 0 ∨ tag.length > asn1TagMaxSize then .error .invalidTagSize
  else
    match read tag with
    | ⟨.error .invalidTagSize, _⟩ => .error .invalidTagSize
    | ⟨.error _, _⟩ => .error .invalidTag
    | ⟨.ok _, count⟩ => if count ≠ tag.length then .error .invalidTag else storeField tag capacity

/-- `tlv_asn1_write_identifier`. -/
def asn1WriteIdentifier : WriteTag :=
  asn1WriteIdentifierChecked asn1ReadIdentifier

/-- `tlv_asn1_read_minimal_length`. -/
def asn1ReadMinimalLength : ReadLength :=
  variableLengthRead (asn1Length 1)

/-- The loop of `tlv_asn1_tag_number_checked`, most significant digit first. -/
def asn1NumberLoop : Bytes → Nat → Except Status Nat
  | [], number => .ok number
  | octet :: rest, number =>
    if number > sizeMax >>> 7 then .error .invalidTag
    else asn1NumberLoop rest ((number <<< 7) ||| (octet &&& 0x7F).toNat)

/-- `tlv_asn1_tag_number_checked`. -/
def asn1TagNumberChecked (validate : WriteTag) (tag : Bytes) : Except Status Nat :=
  match validate tag none with
  | .error status => .error status
  | .ok _ =>
    if tag.length > 1 then asn1NumberLoop (tag.drop 1) 0
    else .ok (tag.headD 0 &&& asn1TagNumberMask).toNat

/-- `tlv_cer_tag_number`. -/
def cerTagNumber (tag : Bytes) : Except Status Nat :=
  asn1TagNumberChecked asn1WriteIdentifier tag

end OpenTlv
