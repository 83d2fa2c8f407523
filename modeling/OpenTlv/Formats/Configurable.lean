import OpenTlv.Field.Variable
import OpenTlv.Field.Escaped
import OpenTlv.Formats.Compose

/-!
# The configurable formats

The descriptors of `formats/fixed.c`, `formats/variable.c` and `formats/escaped.c`, and with
them everything a user can configure without writing a callback. `Configuration` collects the
four descriptors of the library and `Configuration.init` their initialisers. Initialising
checks exactly what the field laws need, so every format that comes out reads back what it
writes.
-/

namespace OpenTlv

/-- `tlv_constructed_bit_t`. -/
structure ConstructedBit where
  byteIndex : Nat
  mask : UInt8
  value : UInt8
  deriving Repr, DecidableEq

/-- `tlv_constructed_bit_predicate` on a present predicate. -/
def constructedBitPredicate (bit : ConstructedBit) (tag : Bytes) : Bool :=
  bit.mask != 0 && (bit.value &&& ~~~bit.mask) == 0 &&
    tag[bit.byteIndex]?.any (fun octet => octet &&& bit.mask == bit.value)

/-- The order and scope checks that the initialisers share. -/
def framingValid (order : ElementOrder) (scope : LengthScope) : Bool :=
  (order = .tlv || order = .ltv) && (scope = .value || scope = .tagAndValue)

/-- `tlv_fixed_format_init`. -/
def fixedFormatInit (config : BinaryComposition) : Except Status Format :=
  match fixedIdentifierValidate config.identifier with
  | .error status => .error status
  | .ok () =>
    match fixedLengthValidate config.length with
    | .error status => .error status
    | .ok () =>
      if framingValid config.elementOrder config.lengthScope = false then .error .invalidArg
      else
        formatInit (some (binaryDecode config)) (some (binaryMeasure config))
          (some (binaryEncode config))

/-- `tlv_variable_format_t`. -/
structure VariableFormat where
  identifier : VariableIdentifier
  length : VariableLength
  elementOrder : ElementOrder
  lengthScope : LengthScope
  constructed : Option ConstructedBit
  deriving Repr, DecidableEq

/-- `variable_fields`. -/
def variableFields (config : VariableFormat) : FieldComposition :=
  { readTag := variableIdentifierRead config.identifier
    readLength := variableLengthRead config.length
    resolve := none
    writeTag := variableIdentifierWrite config.identifier
    writeLength := variableLengthWrite config.length
    elementOrder := config.elementOrder
    lengthScope := config.lengthScope }

/-- `tlv_variable_fields_init`. -/
def variableFieldsInit (config : VariableFormat) : Except Status FieldComposition :=
  match identifierValidate config.identifier with
  | .error status => .error status
  | .ok () =>
    match lengthValidate config.length with
    | .error status => .error status
    | .ok () =>
      if framingValid config.elementOrder config.lengthScope = false then .error .invalidArg
      else if config.constructed.any
          (fun bit => bit.mask = 0 || bit.value &&& ~~~bit.mask ≠ 0) then
        .error .invalidArg
      else .ok (variableFields config)

/-- `tlv_variable_format_init`. -/
def variableFormatInit (config : VariableFormat) : Except Status Format :=
  match variableFieldsInit config with
  | .error status => .error status
  | .ok _ =>
    match formatInit (some (fieldsDecode (variableFields config)))
        (some (fieldsMeasure (variableFields config)))
        (some (fieldsEncode (variableFields config))) with
    | .error status => .error status
    | .ok format =>
      .ok { format with isConstructed := config.constructed.map constructedBitPredicate }

/-- `tlv_escaped_format_t`. -/
structure EscapedFormat where
  identifier : FixedIdentifier
  length : EscapedLength
  elementOrder : ElementOrder
  lengthScope : LengthScope
  tagOnly : List Bytes
  deriving Repr, DecidableEq

/-- `fields` of `formats/escaped.c`. -/
def escapedFields (config : EscapedFormat) : TaggedFieldsComposition :=
  { fields :=
      { readTag := fixedIdentifierRead config.identifier
        readLength := escapedLengthRead config.length
        resolve := none
        writeTag := fixedIdentifierWrite config.identifier
        writeLength := escapedLengthWrite config.length
        elementOrder := config.elementOrder
        lengthScope := config.lengthScope }
    tagOnly := config.tagOnly }

/-- `tlv_escaped_decode`. -/
def escapedDecode (config : EscapedFormat) (data : Bytes) : FormatResult Decoded :=
  if config.tagOnly.length ≠ 0 then taggedFieldsDecode (escapedFields config) data
  else fieldsDecode (escapedFields config).fields data

/-- `tlv_escaped_measure`. -/
def escapedMeasure (config : EscapedFormat) (element : Element) : FormatResult Encoding :=
  if config.tagOnly.length ≠ 0 then taggedFieldsMeasure (escapedFields config) element
  else fieldsMeasure (escapedFields config).fields element

/-- `tlv_escaped_encode`. -/
def escapedEncode (config : EscapedFormat) (element : Element) (destination : Bytes) :
    FormatResult (Bytes × Nat) :=
  if config.tagOnly.length ≠ 0 then taggedFieldsEncode (escapedFields config) element destination
  else fieldsEncode (escapedFields config).fields element destination

/-- `tlv_escaped_format_init`. -/
def escapedFormatInit (config : EscapedFormat) : Except Status Format :=
  match fixedIdentifierValidate config.identifier with
  | .error status => .error status
  | .ok () =>
    match validateLength config.length with
    | .error status => .error status
    | .ok () =>
      if framingValid config.elementOrder config.lengthScope = false ∨
          (config.tagOnly.length ≠ 0 ∧
            (config.elementOrder ≠ .tlv ∨ config.lengthScope ≠ .value)) then
        .error .invalidArg
      else if config.tagOnly.any (fun tag => tag.length ≠ config.identifier.size) then
        .error .invalidArg
      else
        formatInit (some (escapedDecode config)) (some (escapedMeasure config))
          (some (escapedEncode config))

/-- A user configuration of one of the library's formats. -/
inductive Configuration where
  | fixed (config : BinaryComposition)
  | variableWidth (config : VariableFormat)
  | escaped (config : EscapedFormat)
  | taggedBinary (config : TaggedBinaryComposition)
  deriving Repr, DecidableEq

/-- The initialiser of a configuration. -/
def Configuration.init : Configuration → Except Status Format
  | .fixed config => fixedFormatInit config
  | .variableWidth config => variableFormatInit config
  | .escaped config => escapedFormatInit config
  | .taggedBinary config => taggedBinaryFormatInit config

/-- Callbacks whose decoder gives back every element that the encoder writes. -/
def CallbacksAgree (decode : Bytes → FormatResult Decoded)
    (encode : Element → Bytes → FormatResult (Bytes × Nat)) : Prop :=
  ∀ element destination stored used suffix, encode element destination = .ok (stored, used) →
    ∃ decoded, decode (stored.take used ++ suffix) = .ok decoded ∧
      Reproduces decoded element used (stored.take used ++ suffix).length

/-- A format with all three callbacks, of which the encoder and the decoder agree. -/
def FormatAgrees (format : Format) : Prop :=
  ∃ decode encode, format.decode = some decode ∧ format.encode = some encode ∧
    CallbacksAgree decode encode

/-- A format agrees when its callbacks do. -/
theorem format_init_agrees {decode : Bytes → FormatResult Decoded}
    {measure : Element → FormatResult Encoding}
    {encode : Element → Bytes → FormatResult (Bytes × Nat)} {format : Format}
    (hagree : CallbacksAgree decode encode)
    (h : formatInit (some decode) (some measure) (some encode) = .ok format) :
    FormatAgrees format := by
  simp only [formatInit, Option.isSome_some, ne_eq, not_true_eq_false, Option.isNone_some,
    Bool.false_eq_true, and_self, or_self, if_false] at h
  cases h
  exact ⟨decode, encode, rfl, rfl, hagree⟩

/-- The added detail of the binary decoders leaves a success alone. -/
theorem require_header_ok (f : BinaryComposition) (decoded : Decoded) :
    requireHeader f (.ok decoded) = .ok decoded := rfl

theorem fixed_format_init_agrees {config : BinaryComposition} {format : Format}
    (h : fixedFormatInit config = .ok format) : FormatAgrees format := by
  unfold fixedFormatInit at h
  split at h
  · cases h
  next hidentifier =>
    split at h
    · cases h
    next hlength =>
      split at h
      · cases h
      · apply format_init_agrees _ h
        intro element destination stored used suffix hencode
        obtain ⟨decoded, hdecode, hreproduces⟩ := fields_round_trip rfl
          (fixed_identifier_law hidentifier) (fixed_length_law hlength) hencode suffix
        refine ⟨decoded, ?_, hreproduces⟩
        rw [binaryDecode, hdecode, require_header_ok]

theorem variable_format_init_agrees {config : VariableFormat} {format : Format}
    (h : variableFormatInit config = .ok format) : FormatAgrees format := by
  unfold variableFormatInit at h
  split at h
  · cases h
  next fields hfields =>
    unfold variableFieldsInit at hfields
    split at hfields
    · cases hfields
    next hidentifier =>
      split at hfields
      · cases hfields
      next hlength =>
        split at h
        · cases h
        next plain hplain =>
          cases h
          obtain ⟨decode, encode, hdecode, hencode, hagree⟩ := format_init_agrees
            (fun element destination stored used suffix hencode =>
              fields_round_trip (f := variableFields config) rfl
                (variable_identifier_law hidentifier) (variable_length_law hlength) hencode suffix)
            hplain
          exact ⟨decode, encode, hdecode, hencode, hagree⟩

theorem escaped_format_init_agrees {config : EscapedFormat} {format : Format}
    (h : escapedFormatInit config = .ok format) : FormatAgrees format := by
  unfold escapedFormatInit at h
  split at h
  · cases h
  next hidentifier =>
    split at h
    · cases h
    next hlength =>
      split at h
      · cases h
      next hframing =>
        split at h
        · cases h
        · apply format_init_agrees _ h
          intro element destination stored used suffix hencode
          have htags := fixed_identifier_law hidentifier
          have hlengths := escaped_length_law hlength
          unfold escapedEncode at hencode
          unfold escapedDecode
          split at hencode
          next hlist =>
            -- a tag-only list is accepted only together with the TLV order
            have horder : config.elementOrder = .tlv := by
              by_contra hother
              exact hframing (.inr ⟨hlist, .inl hother⟩)
            rw [if_pos hlist]
            exact tagged_fields_round_trip (f := escapedFields config) rfl horder htags hlengths
              hencode suffix
          next hlist =>
            rw [if_neg hlist]
            exact fields_round_trip rfl htags hlengths hencode suffix

theorem tagged_binary_format_init_agrees {config : TaggedBinaryComposition} {format : Format}
    (h : taggedBinaryFormatInit config = .ok format) : FormatAgrees format := by
  unfold taggedBinaryFormatInit at h
  split at h
  · cases h
  next hidentifier =>
    split at h
    · cases h
    next hlength =>
      split at h
      · cases h
      next hframing =>
        split at h
        · cases h
        · apply format_init_agrees _ h
          intro element destination stored used suffix hencode
          have horder : config.fields.elementOrder = .tlv := by
            by_contra hother
            exact hframing (.inl hother)
          obtain ⟨decoded, hdecode, hreproduces⟩ :=
            tagged_fields_round_trip (f := taggedBinaryFields config) rfl horder
              (fixed_identifier_law hidentifier) (fixed_length_law hlength) hencode suffix
          refine ⟨decoded, ?_, hreproduces⟩
          rw [taggedBinaryDecode, hdecode, require_header_ok]

/-- Every accepted configuration yields agreeing callbacks. -/
theorem configuration_init_agrees {configuration : Configuration} {format : Format}
    (h : configuration.init = .ok format) : FormatAgrees format := by
  cases configuration with
  | fixed config => exact fixed_format_init_agrees h
  | variableWidth config => exact variable_format_init_agrees h
  | escaped config => exact escaped_format_init_agrees h
  | taggedBinary config => exact tagged_binary_format_init_agrees h

/-- An element that an accepted configuration encodes is measured with the same total and is
decoded back from those octets, whatever follows them. -/
theorem configurable_round_trip {configuration : Configuration} {format : Format}
    (hinit : configuration.init = .ok format) (element : Element) (destination suffix : Bytes)
    {stored : Bytes} {used : Nat}
    (hencode : formatEncode format element destination = .ok (stored, used)) :
    (∃ sizes, formatMeasure format element = .ok sizes ∧ sizes.total = used) ∧
      ∃ decoded, formatDecode format (stored.take used ++ suffix) = .ok decoded ∧
        decoded.source.size = used ∧ decoded.tag.bytes = element.tag ∧
        decoded.value.bytes = element.value := by
  obtain ⟨decode, encode, hdecode, hcallback, hagree⟩ := configuration_init_agrees hinit
  obtain ⟨called, sizes, hcalled, hmeasure, htotal, -, hcall⟩ := format_encode_eq_ok hencode
  have hsame : called = encode := Option.some.inj (hcalled.symm.trans hcallback)
  subst hsame
  obtain ⟨decoded, hdecoded, hreproduces⟩ := hagree _ _ _ _ suffix hcall
  refine ⟨⟨sizes, hmeasure, htotal⟩, decoded, ?_, hreproduces.size_eq, hreproduces.tag_eq,
    hreproduces.value_eq⟩
  -- a valid result has a nonzero size within the input, so the input is not at its end
  have hvalid := hreproduces.valid
  have hnonempty : (stored.take used ++ suffix).length ≠ 0 := by
    intro hzero
    rw [hzero] at hvalid
    simp only [decodedValid, Bool.and_eq_true, decide_eq_true_eq] at hvalid
    omega
  exact format_decode_of_valid hdecode hnonempty hdecoded hvalid

/-- A two-octet little-endian count in front of a one-octet tag that it covers. -/
def sampleComposition : BinaryComposition :=
  ⟨⟨1⟩, ⟨2, .littleEndian⟩, .ltv, .tagAndValue⟩

/-- The element with tag `5A` and a value of two octets. -/
def sampleElement : Element :=
  ⟨[0x5A], [0x01, 0x02], by decide, by decide⟩

theorem configurable_round_trip_sample :
    ∃ format, (Configuration.fixed sampleComposition).init = .ok format ∧
      formatEncode format sampleElement [0, 0, 0, 0, 0, 0] =
        .ok ([0x03, 0x00, 0x5A, 0x01, 0x02, 0], 5) ∧
      ∃ decoded, formatDecode format [0x03, 0x00, 0x5A, 0x01, 0x02, 0xFF] = .ok decoded ∧
        decoded.source.size = 5 ∧ decoded.tag.bytes = [0x5A] ∧
        decoded.value.bytes = [0x01, 0x02] := by
  have hinit : (Configuration.fixed sampleComposition).init =
      .ok ⟨some (binaryDecode sampleComposition), some (binaryMeasure sampleComposition),
        some (binaryEncode sampleComposition), none⟩ := rfl
  have hencode : formatEncode ⟨some (binaryDecode sampleComposition),
      some (binaryMeasure sampleComposition), some (binaryEncode sampleComposition), none⟩
        sampleElement [0, 0, 0, 0, 0, 0] = .ok ([0x03, 0x00, 0x5A, 0x01, 0x02, 0], 5) := by
    rfl
  exact ⟨_, hinit, hencode,
    (configurable_round_trip hinit sampleElement [0, 0, 0, 0, 0, 0] [0xFF] hencode).2⟩

end OpenTlv
