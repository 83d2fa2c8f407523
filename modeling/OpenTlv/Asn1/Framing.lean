import OpenTlv.Asn1.Identifier
import OpenTlv.Lib.Dispatch

/-!
# The ASN.1 formats

The field compositions of `ber.c`, `der.c` and `cer.c`. The value of an indefinite element is
found by `tlv_ber_scan_contents_diag`, a loop over a stack of open scopes that looks at framing
only. An end that comes from an enclosing definite length is a hard one: missing octets there are
malformed, not truncated.
-/

namespace OpenTlv

/-- `TLV_BER_MAX_DEPTH`. -/
def berMaxDepth : Nat := 64

/-- `TLV_BER_EOC_SIZE`. -/
def berEocSize : Nat := 2

/-- The restriction of BER: universal tag zero is reserved for the end of contents. -/
def berReadTag : ReadTag := fun data =>
  if data.head? = some 0 ∨ data.head? = some asn1ConstructedBit then ⟨.error .invalidTag, 0⟩
  else variableIdentifierRead berIdentifier data

/-- `write_tag` of `ber.c`. -/
def berWriteTag : WriteTag := fun tag capacity =>
  if tag.head? = some 0 ∨ tag.head? = some asn1ConstructedBit then .error .invalidTag
  else variableIdentifierWrite berIdentifier tag capacity

/-- `read_length` of `ber.c`. -/
def berReadLength : ReadLength :=
  variableLengthRead berLength

/-- One entry of `ends`, `terminated` and `bounded`. -/
structure Scope where
  ending : Nat
  terminated : Bool
  bounded : Bool
  deriving Repr, DecidableEq

/-- The locals of `tlv_ber_scan_contents_diag`; `found` holds both outputs at the end. -/
structure Scan where
  pos : Nat
  scopes : List Scope
  found : Option (Nat × Nat) := none
  deriving Repr, DecidableEq

/-- `scan_failure`. -/
def scanFailure {α : Type} (status : Status) (offset : Nat) (region : Region) (bounded : Bool)
    (required : Option Nat) : FormatResult α :=
  let status := if status = .truncated ∧ bounded = true then .invalidLength else status
  let required := if region = .trailer ∧ status = .truncated then some berEocSize else required
  .error (status,
    { region := region, offset := offset, hasOffset := true, required := required.getD 0,
      hasRequired := required.isSome })

/-- The innermost scope ends at `pos`; the outermost one ends the scan. -/
def Scan.close (s : Scan) (outer : List Scope) (consumed : Nat) : Scan :=
  if outer = [] then { s with scopes := [], found := some (s.pos, s.pos + consumed) }
  else { s with scopes := outer, pos := s.pos + consumed }

/-- The header of an element is read: enter its contents or pass over them. -/
def scanEnter (s : Scan) (scope : Scope) (pos length : Nat) (constructed indefinite : Bool)
    (region : Region) : FormatResult Scan :=
  if constructed then
    if s.scopes.length = berMaxDepth then scanFailure .limit pos region scope.bounded none
    else
      .ok { s with
        pos := pos
        scopes := ⟨pos + length, indefinite, scope.bounded || !indefinite⟩ :: s.scopes }
  else .ok { s with pos := pos + length }

/-- The length of a nested element, whose tag ends at `pos`. -/
def scanLength (data : Bytes) (s : Scan) (scope : Scope) (tag : Bytes) (pos : Nat) :
    FormatResult Scan :=
  let constructed := asn1IsConstructed tag
  if data[pos]? = some berIndefinite then
    if constructed = false then scanFailure .invalidLength pos .length scope.bounded none
    else scanEnter s scope (pos + 1) (scope.ending - (pos + 1)) constructed true .length
  else
    let field := berReadLength ((data.take scope.ending).drop pos)
    match field.outcome with
    | .error status => scanFailure status pos .length scope.bounded none
    | .ok length =>
      let pos := pos + field.consumed
      if length > scope.ending - pos then
        scanFailure .truncated pos .value scope.bounded (some length)
      else scanEnter s scope pos length constructed false .value

/-- The identifier of a nested element. -/
def scanTag (data : Bytes) (s : Scan) (scope : Scope) : FormatResult Scan :=
  let field := berReadTag ((data.take scope.ending).drop s.pos)
  match field.outcome with
  | .error status => scanFailure status s.pos .tag scope.bounded none
  | .ok tag =>
    let pos := s.pos + field.consumed
    if pos = scope.ending then scanFailure .truncated pos .length scope.bounded none
    else scanLength data s scope tag.bytes pos

/-- One iteration of `tlv_ber_scan_contents_diag`. -/
def scanStep (data : Bytes) (s : Scan) : FormatResult Scan :=
  match s.scopes with
  | [] => .ok s
  | scope :: outer =>
    if s.pos = scope.ending then
      if scope.terminated then scanFailure .truncated s.pos .trailer scope.bounded none
      else .ok (s.close outer 0)
    else if data[s.pos]? = some 0 then
      if scope.ending - s.pos < berEocSize then
        scanFailure .truncated s.pos .trailer scope.bounded none
      else if data[s.pos + 1]? ≠ some 0 then
        scanFailure .invalidLength s.pos .trailer scope.bounded none
      else if scope.terminated = false then
        scanFailure .invalidTag s.pos .trailer scope.bounded none
      else .ok (s.close outer berEocSize)
    else scanTag data s scope

/-- `tlv_ber_scan_contents_diag`: the size of the value and the octets consumed. Every iteration
advances or closes a scope. -/
def berScanContents (data : Bytes) (indefinite : Bool) : FormatResult (Nat × Nat) := do
  let s ← drive (Status.callback, {}) (·.found.isSome) (scanStep data) (data.length + 2)
    { pos := 0, scopes := [⟨data.length, indefinite, false⟩] }
  return s.found.getD (0, 0)

/-- An error of the scan lies behind the length octet. -/
def shiftOffset (detail : FormatError) : FormatError :=
  if detail.hasOffset then { detail with offset := detail.offset + 1 } else detail

/-- The value of an indefinite element, after the length octet. -/
def resolveIndefinite (size : Nat) (data : Bytes) : Resolution :=
  match berScanContents (data.drop 1) true with
  | .error (status, detail) => ⟨size, .error (status, shiftOffset detail)⟩
  | .ok (value, _) => ⟨1, .ok (value, berEocSize)⟩

/-- A definite length as a resolution. -/
def resolveDefinite (field : FieldRead Nat) : Resolution :=
  ⟨field.consumed, match field.outcome with
    | .error status => .error (status, {})
    | .ok length => .ok (length, 0)⟩

/-- `read_value_bounds` of `ber.c`. -/
def berReadValueBounds : ResolveBounds := fun tag data =>
  if data.head? = some berIndefinite then
    if asn1IsConstructed tag = false then ⟨1, .error (.invalidLength, {})⟩
    else resolveIndefinite 1 data
  else resolveDefinite (berReadLength data)

/-- `read_value_bounds` of `cer.c`: constructed is indefinite, primitive is definite and
minimal. -/
def cerReadValueBounds : ResolveBounds := fun tag data =>
  if data = [] then ⟨berLengthFieldSize data, .error (.truncated, {})⟩
  else if data.head? = some berIndefinite then
    if asn1IsConstructed tag = false then ⟨berLengthFieldSize data, .error (.invalidLength, {})⟩
    else resolveIndefinite (berLengthFieldSize data) data
  else if asn1IsConstructed tag then ⟨berLengthFieldSize data, .error (.invalidLength, {})⟩
  else
    match asn1ReadMinimalLength data with
    | ⟨.error status, _⟩ => ⟨berLengthFieldSize data, .error (status, {})⟩
    | ⟨.ok length, used⟩ => ⟨used, .ok (length, 0)⟩

/-- The check of `der_read_tag`: an assigned universal number that need not be constructed is
primitive. -/
def derIdentifierAllowed (tag : Bytes) : Bool :=
  !(asn1IsUniversal tag && asn1CheckedNumber tag ≤ 36) ||
    asn1NumberMustConstruct (asn1CheckedNumber tag) || tag.headD 0 &&& asn1ConstructedBit = 0

/-- `der_read_tag`. -/
def derReadTag : ReadTag :=
  screenedTag derIdentifierAllowed asn1ReadIdentifier

/-- `der_write_tag`. -/
def derWriteTag : WriteTag :=
  asn1WriteIdentifierChecked derReadTag

/-- `tlv_ber_fields`. -/
def berFields : FieldComposition :=
  { readTag := berReadTag
    readLength := berReadLength
    resolve := some berReadValueBounds
    writeTag := berWriteTag
    writeLength := berWriteLength
    elementOrder := .tlv
    lengthScope := .value }

/-- `tlv_der_fields`. -/
def derFields : FieldComposition :=
  { readTag := derReadTag
    readLength := asn1ReadMinimalLength
    resolve := none
    writeTag := derWriteTag
    writeLength := berWriteLength
    elementOrder := .tlv
    lengthScope := .value }

/-- `tlv_cer_fields`. -/
def cerFields : FieldComposition :=
  { readTag := asn1ReadIdentifier
    readLength := asn1ReadMinimalLength
    resolve := some cerReadValueBounds
    writeTag := asn1WriteIdentifier
    writeLength := berWriteLength
    elementOrder := .tlv
    lengthScope := .value }

/-- `tlv_asn1_indefinite_measure`. -/
def asn1IndefiniteMeasure (f : FieldComposition) (element : Element) : FormatResult Encoding :=
  match f.writeTag element.tag none with
  | .error status => failure {} status .tag 0
  | .ok (_, tagSize) =>
    if asn1IsConstructed element.tag = false then failure {} .invalidLength .tag 0
    else
      match sizeAdd (tagSize + 1) element.value.length with
      | .error status => failure {} status .tag 0
      | .ok partialSum =>
        match sizeAdd partialSum berEocSize with
        | .error status => failure {} status .tag 0
        | .ok total => .ok ⟨tagSize + 1, element.value.length, berEocSize, total⟩

/-- `tlv_asn1_indefinite_encode`. -/
def asn1IndefiniteEncode (f : FieldComposition) (element : Element) (destination : Bytes) :
    FormatResult (Bytes × Nat) :=
  match asn1IndefiniteMeasure f element with
  | .error failed => .error failed
  | .ok sizes =>
    match sizeToNative sizes.total with
    | .error status => failure {} status .tag 0
    | .ok total =>
      if destination.length < total then failure {} .bufferTooShort .tag 0
      else
        match berScanContents element.value false with
        | .error (status, _) => failure {} status .value sizes.header
        | .ok _ =>
          .ok (Octets.store destination 0
            (element.tag ++ [berIndefinite] ++ element.value ++ [0, 0]), total)

/-- `cer_measure`. -/
def cerMeasure (element : Element) : FormatResult Encoding :=
  if element.tag.length = 0 then .error (.invalidTagSize, {})
  else if asn1IsConstructed element.tag then asn1IndefiniteMeasure cerFields element
  else fieldsMeasure cerFields element

/-- `cer_encode`. -/
def cerEncode (element : Element) (destination : Bytes) : FormatResult (Bytes × Nat) :=
  if element.tag.length = 0 then .error (.invalidTagSize, {})
  else if asn1IsConstructed element.tag then asn1IndefiniteEncode cerFields element destination
  else fieldsEncode cerFields element destination

/-- `tlv_format_ber`. -/
def formatBer : Format :=
  { decode := some (fieldsDecode berFields)
    measure := some (fieldsMeasure berFields)
    encode := some (fieldsEncode berFields)
    isConstructed := some asn1IsConstructed }

/-- `tlv_format_ber_indefinite`. -/
def formatBerIndefinite : Format :=
  { decode := some (fieldsDecode berFields)
    measure := some (asn1IndefiniteMeasure berFields)
    encode := some (asn1IndefiniteEncode berFields)
    isConstructed := some asn1IsConstructed }

/-- `tlv_ber_write_indefinite`. -/
def berWriteIndefinite (element : Element) (destination : Bytes) : FormatResult (Bytes × Nat) :=
  formatEncode formatBerIndefinite element destination

/-- `tlv_format_der`. -/
def formatDer : Format :=
  { decode := some (fieldsDecode derFields)
    measure := some (fieldsMeasure derFields)
    encode := some (fieldsEncode derFields)
    isConstructed := some asn1IsConstructed }

/-- `tlv_format_cer`. -/
def formatCer : Format :=
  { decode := some (fieldsDecode cerFields)
    measure := some cerMeasure
    encode := some cerEncode
    isConstructed := some asn1IsConstructed }

end OpenTlv
