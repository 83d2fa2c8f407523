import OpenTlv.Core.Utf8

/-!
# Canonical contents of universal types

The validators of `asn1_values_internal.c`, which DER and CER share. Each one looks at the
complete contents of one primitive element.
-/

namespace OpenTlv

/-- `tlv_asn1_validate_boolean`. -/
def validateBoolean : Bytes → Bool
  | [octet] => octet = 0x00 || octet = 0xFF
  | _ => false

/-- `tlv_asn1_validate_integer`: minimal two's complement. -/
def validateInteger : Bytes → Bool
  | [] => false
  | [_] => true
  | first :: second :: _ =>
    !((first = 0x00 && second &&& 0x80 = 0) || (first = 0xFF && second &&& 0x80 ≠ 0))

/-- `tlv_asn1_validate_bit_string`. -/
def validateBitString : Bytes → Bool
  | [] => false
  | [unused] => unused = 0
  | unused :: first :: rest =>
    unused ≤ 7 &&
      (first :: rest).getLastD 0 &&& ((1 <<< unused) - 1) = 0

/-- The loop of `tlv_asn1_validate_oid`; `fresh` says that a subidentifier starts here. -/
def oidLoop : Bool → Bytes → Bool
  | fresh, [] => fresh
  | fresh, octet :: rest =>
    if fresh && octet = 0x80 then false else oidLoop (octet &&& 0x80 = 0) rest

/-- `tlv_asn1_validate_oid`. -/
def validateOid (value : Bytes) : Bool :=
  !value.isEmpty && oidLoop true value

/-- The binary form of `tlv_asn1_validate_real`, after the first octet. -/
def realBinary (exponentOctets : Nat) (rest : Bytes) : Bool :=
  let mantissa := rest.drop exponentOctets
  rest.length > exponentOctets && validateInteger (rest.take exponentOctets) &&
    !(mantissa.length > 1 && mantissa.headD 1 = 0x00) && mantissa.getLastD 0 &&& 0x01 ≠ 0

/-- `tlv_asn1_validate_real`. -/
def validateReal : Bytes → Bool
  | [] => true
  | first :: rest =>
    if first &&& 0x80 = 0 then
      first &&& 0x40 ≠ 0 && rest.isEmpty && 0x40 ≤ first && first ≤ 0x43
    else if first &&& 0x30 ≠ 0 ∨ first &&& 0x0C ≠ 0 ∨ first &&& 0x03 = 3 then false
    else realBinary ((first &&& 0x03).toNat + 1) rest

/-- `is_digit`. -/
def isDigit (octet : UInt8) : Bool :=
  0x30 ≤ octet && octet ≤ 0x39

/-- `tlv_asn1_validate_numeric_string`. -/
def validateNumericString (value : Bytes) : Bool :=
  value.all fun octet => isDigit octet || octet = 0x20

/-- The octets of a `PrintableString`. -/
def isPrintable (octet : UInt8) : Bool :=
  (0x41 ≤ octet && octet ≤ 0x5A) || (0x61 ≤ octet && octet ≤ 0x7A) || isDigit octet ||
    octet ∈ ([0x20, 0x27, 0x28, 0x29, 0x2B, 0x2C, 0x2D, 0x2E, 0x2F, 0x3A, 0x3D, 0x3F] : Bytes)

/-- `tlv_asn1_validate_printable_string`. -/
def validatePrintableString (value : Bytes) : Bool :=
  value.all isPrintable

/-- `tlv_asn1_validate_ia5_string`. -/
def validateIa5String (value : Bytes) : Bool :=
  value.all fun octet => octet ≤ 0x7F

/-- `tlv_asn1_validate_visible_string`. -/
def validateVisibleString (value : Bytes) : Bool :=
  value.all fun octet => 0x20 ≤ octet && octet ≤ 0x7E

/-- `tlv_asn1_validate_universal_string`: code points of four octets, no surrogates. -/
def validateUniversalString : Bytes → Bool
  | [] => true
  | a :: b :: c :: d :: rest =>
    let codepoint := ((a.toNat * 256 + b.toNat) * 256 + c.toNat) * 256 + d.toNat
    !(codepoint > 0x10FFFF || (codepoint ≥ 0xD800 && codepoint ≤ 0xDFFF)) &&
      validateUniversalString rest
  | _ => false

/-- `tlv_asn1_validate_bmp_string`: code units of two octets, no surrogates. -/
def validateBmpString : Bytes → Bool
  | [] => true
  | a :: b :: rest =>
    let codepoint := a.toNat * 256 + b.toNat
    !(codepoint ≥ 0xD800 && codepoint ≤ 0xDFFF) && validateBmpString rest
  | _ => false

/-- `digit_pair` at an offset. -/
def digitPair (value : Bytes) (offset : Nat) : Nat :=
  ((value.getD offset 0).toNat - 0x30) * 10 + ((value.getD (offset + 1) 0).toNat - 0x30)

/-- The ranges of month and day at an offset. -/
def dateRange (value : Bytes) (offset : Nat) : Bool :=
  let month := digitPair value offset
  let day := digitPair value (offset + 2)
  1 ≤ month && month ≤ 12 && 1 ≤ day && day ≤ 31

/-- The ranges of hour, minute and second at an offset. -/
def clockRange (value : Bytes) (offset : Nat) : Bool :=
  digitPair value offset ≤ 23 && digitPair value (offset + 2) ≤ 59 &&
    digitPair value (offset + 4) ≤ 59

/-- `tlv_asn1_validate_utc_time`. -/
def validateUtcTime (value : Bytes) : Bool :=
  value.length = 13 && (value.take 12).all isDigit && value.getD 12 0 = 0x5A &&
    dateRange value 2 && clockRange value 6

/-- What follows the seconds of a `GeneralizedTime`. -/
def generalizedSuffix : Bytes → Bool
  | 0x2E :: rest =>
    let fraction := rest.takeWhile isDigit
    !fraction.isEmpty && fraction.getLastD 0x30 ≠ 0x30 && rest.dropWhile isDigit = [0x5A]
  | suffix => suffix = [0x5A]

/-- `tlv_asn1_validate_generalized_time`. -/
def validateGeneralizedTime (value : Bytes) : Bool :=
  value.length ≥ 15 && (value.take 14).all isDigit && dateRange value 4 && clockRange value 8 &&
    generalizedSuffix (value.drop 14)

/-- `tlv_asn1_validate_time`. -/
def validateTime (value : Bytes) : Bool :=
  !value.isEmpty && validateVisibleString value

/-- `tlv_asn1_validate_date`. -/
def validateDate (value : Bytes) : Bool :=
  value.length = 8 && value.all isDigit && dateRange value 4

/-- `tlv_asn1_validate_time_of_day`. -/
def validateTimeOfDay (value : Bytes) : Bool :=
  value.length = 6 && value.all isDigit && clockRange value 0

/-- `tlv_asn1_validate_date_time`. -/
def validateDateTime (value : Bytes) : Bool :=
  value.length = 14 && validateDate (value.take 8) && validateTimeOfDay (value.drop 8)

/-- The locals of `tlv_asn1_validate_duration`. -/
structure DurationState where
  component : Bool := false
  timePart : Bool := false
  dateRank : Nat := 0
  timeRank : Nat := 0

/-- The rank of a designator in the date part or in the time part. -/
def durationRank (timePart : Bool) (designator : UInt8) : Option Nat :=
  if timePart then
    if designator = 0x48 then some 1 else if designator = 0x4D then some 2
    else if designator = 0x53 then some 3 else none
  else
    if designator = 0x59 then some 1 else if designator = 0x4D then some 2
    else if designator = 0x44 then some 3 else none

/-- One component: digits, perhaps a fraction, and a designator. -/
def durationComponent (value : Bytes) (state : DurationState) : Option (Bytes × DurationState) :=
  let tail := value.dropWhile isDigit
  if (value.takeWhile isDigit).isEmpty then none
  else
    let fraction := tail.headD 0 = 0x2E
    let digits := (tail.drop 1).takeWhile isDigit
    if fraction ∧ digits.isEmpty then none
    else
      match if fraction then (tail.drop 1).dropWhile isDigit else tail with
      | [] => none
      | designator :: rest =>
        match durationRank state.timePart designator with
        | none => none
        | some rank =>
          if state.timePart then
            if rank ≤ state.timeRank ∨ (fraction ∧ designator ≠ 0x53) then none
            else some (rest, { state with component := true, timeRank := rank })
          else if rank ≤ state.dateRank then none
          else some (rest, { state with component := true, dateRank := rank })

/-- The loop of `tlv_asn1_validate_duration`. Every iteration takes an octet. -/
def durationLoop : Nat → Bytes → DurationState → Bool
  | _, [], state => !(state.timePart && state.timeRank = 0) && state.component
  | 0, _ :: _, _ => false
  | fuel + 1, octet :: rest, state =>
    if !state.timePart && octet = 0x54 then durationLoop fuel rest { state with timePart := true }
    else
      match durationComponent (octet :: rest) state with
      | none => false
      | some (rest, state) => durationLoop fuel rest state

/-- `tlv_asn1_validate_duration`. -/
def validateDuration (value : Bytes) : Bool :=
  !value.isEmpty && durationLoop value.length value {}

/-- `validate_iri_arcs`. -/
def validateIriArcs (value : Bytes) (absolute : Bool) : Bool :=
  !value.isEmpty && utf8Validate value && (value.headD 0 = 0x2F) = absolute &&
    value.getLastD 0x2F ≠ 0x2F && !(value.zip (value.drop 1)).any fun pair =>
      pair.1 = 0x2F && pair.2 = 0x2F

/-- The validator of a universal number, when there is one. -/
def universalValidator : Nat → Option (Bytes → Bool)
  | 1 => some validateBoolean
  | 2 | 10 => some validateInteger
  | 3 => some validateBitString
  | 4 | 7 | 20 | 21 | 25 | 27 => some fun _ => true
  | 5 => some List.isEmpty
  | 6 | 13 => some validateOid
  | 9 => some validateReal
  | 12 => some utf8Validate
  | 14 => some validateTime
  | 18 => some validateNumericString
  | 19 => some validatePrintableString
  | 22 => some validateIa5String
  | 23 => some validateUtcTime
  | 24 => some validateGeneralizedTime
  | 26 => some validateVisibleString
  | 28 => some validateUniversalString
  | 30 => some validateBmpString
  | 31 => some validateDate
  | 32 => some validateTimeOfDay
  | 33 => some validateDateTime
  | 34 => some validateDuration
  | 35 => some fun value => validateIriArcs value true
  | 36 => some fun value => validateIriArcs value false
  | _ => none

/-- `tlv_asn1_validate_universal_value`. -/
def validateUniversalValue (number : Nat) (value : Bytes) : Except Status Unit :=
  match universalValidator number with
  | none => .error .unsupported
  | some valid => if valid value then .ok () else .error .invalidValue

end OpenTlv
