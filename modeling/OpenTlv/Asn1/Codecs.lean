import OpenTlv.Codec.Integer
import OpenTlv.Asn1.Values

/-!
# Value codecs of universal types

The codecs of `asn1/asn1_codec.c` for bit strings, object identifiers, `GeneralizedTime` and the
internationalized identifiers. Each decoder asks the validator of its type first. Texts and bit
strings are borrowed spans of the input. All accesses to arrays are guarded, and the lengths of
spans add up inside of the address space.
-/

namespace OpenTlv

/-- A borrowed span: a null pointer with a length, or a pointer to octets. -/
inductive Asn1Span where
  | null (length : Nat)
  | octets (bytes : Bytes)
  deriving Repr, DecidableEq

namespace Asn1Span

def length : Asn1Span → Nat
  | null length => length
  | octets bytes => bytes.length

/-- The octets that can be read. -/
def content : Asn1Span → Bytes
  | null _ => []
  | octets bytes => bytes

def isNull : Asn1Span → Bool
  | null _ => true
  | octets _ => false

end Asn1Span

/-- A representation of `size` octets is stored when it fits. -/
def asn1Store {α : Type} (size capacity : Nat) (object : α) : CodecResult α :=
  if capacity < size then .error (.code .bufferTooShort) else .ok object

/-! ## Bit strings -/

/-- `tlv_asn1_bit_string_t`. -/
structure Asn1BitString where
  unusedBits : UInt8
  data : Asn1Span
  deriving Repr, DecidableEq

/-- `decode_bit_string`. -/
def decodeBitString (data : Bytes) (capacity : Nat) : CodecResult Asn1BitString :=
  if !validateBitString data then .error (.code .invalidValue)
  else do
    let unused ← Guarded.octet data 0
    let length := data.length - 1
    let span := if length ≠ 0 then .octets (data.drop 1) else .null length
    asn1Store 24 capacity ⟨unused, span⟩

/-- The bits that have to be clear. -/
def unusedMask (unused : UInt8) : UInt8 :=
  (1 <<< unused) - 1

/-- The checks of `encode_bit_string`. -/
def bitStringValid (input : Asn1BitString) : CodecResult Bool :=
  if input.unusedBits > 7 ∨ input.data.length = sizeMax then .ok false
  else if input.data.length = 0 then .ok (decide (input.unusedBits = 0))
  else if input.data.isNull then .ok false
  else do
    let last ← Guarded.octet input.data.content (input.data.length - 1)
    return decide (last &&& unusedMask input.unusedBits = 0)

/-- `encode_bit_string`. -/
def encodeBitString (input : Asn1BitString) (destination : Option Bytes) :
    CodecResult Encoded := do
  if !(← bitStringValid input) then .error (.code .invalidValue)
  else
    let count := input.data.length + 1
    match destination with
    | none => return (count, none)
    | some data =>
      if data.length < count then .error (.code .bufferTooShort)
      else do
        let data ← Guarded.put data 0 [input.unusedBits]
        let data ←
          if input.data.length ≠ 0 then Guarded.put data 1 input.data.content else .ok data
        return (count, some data)

/-! ## Object identifiers -/

/-- `TLV_ASN1_OID_MAX_ARCS`. -/
def oidMaxArcs : Nat := 32

/-- `tlv_asn1_oid_t`. -/
structure Asn1Oid where
  arcs : Vector UInt64 oidMaxArcs
  count : Nat
  deriving Repr, DecidableEq

/-- The inner loop of `decode_oid_subidentifiers`, on the octets that are left. -/
def readArc : Bytes → UInt64 → CodecResult (Option (UInt64 × Bytes))
  | [], _ => .error .fault
  | octet :: rest, arc =>
    if arc > (0xFFFFFFFFFFFFFFFF : UInt64) >>> 7 then .ok none
    else
      let arc := (arc <<< 7) ||| (octet &&& 0x7F).toUInt64
      if octet &&& 0x80 ≠ 0 then readArc rest arc else .ok (some (arc, rest))

/-- `decode_oid_subidentifiers`. Every turn of the outer loop reads an octet. -/
def readArcs (maxRaw : Nat) :
    Nat → Bytes → Vector UInt64 oidMaxArcs → Nat →
      CodecResult (Option (Vector UInt64 oidMaxArcs × Nat))
  | _, [], raw, n => .ok (some (raw, n))
  | 0, _ :: _, _, _ => .error .fault
  | turns + 1, octet :: rest, raw, n => do
      match ← readArc (octet :: rest) 0 with
      | none => .ok none
      | some (arc, rest) =>
        if n ≥ maxRaw then .ok none
        else do
          let raw ← Guarded.assign raw n arc
          readArcs maxRaw turns rest raw (n + 1)

/-- The loops that copy arcs from one array to another one. -/
def copyArcs (source : Vector UInt64 oidMaxArcs) :
    Nat → Nat → Nat → Vector UInt64 oidMaxArcs → CodecResult (Vector UInt64 oidMaxArcs)
  | 0, _, _, target => .ok target
  | remaining + 1, i, j, target => do
      let arc ← Guarded.item source i
      let target ← Guarded.assign target j arc
      copyArcs source remaining (i + 1) (j + 1) target

/-- The two arcs that the first subidentifier combines. -/
def splitFirstArc (first : UInt64) : UInt64 × UInt64 :=
  if first < 40 then (0, first)
  else if first < 80 then (1, first - 40)
  else (2, first - 80)

/-- The arcs of the subidentifiers of `decode_oid_like`. -/
def decodeArcs (isOid : Bool) (raw : Vector UInt64 oidMaxArcs) (n : Nat) : CodecResult Asn1Oid :=
  if isOid then do
    let first ← Guarded.item raw 0
    let arcs ← Guarded.assign (Vector.replicate oidMaxArcs 0) 0 (splitFirstArc first).1
    let arcs ← Guarded.assign arcs 1 (splitFirstArc first).2
    let arcs ← copyArcs raw (n - 1) 1 2 arcs
    return ⟨arcs, n + 1⟩
  else do
    let arcs ← copyArcs raw n 0 0 (Vector.replicate oidMaxArcs 0)
    return ⟨arcs, n⟩

/-- `decode_oid_like`. -/
def decodeOidLike (isOid : Bool) (data : Bytes) (capacity : Nat) : CodecResult Asn1Oid :=
  if !validateOid data then .error (.code .invalidValue)
  else do
    let maxRaw := if isOid then oidMaxArcs - 1 else oidMaxArcs
    match ← readArcs maxRaw data.length data (Vector.replicate oidMaxArcs 0) 0 with
    | none => .error (.code .invalidValue)
    | some (raw, n) => do
        let result ← decodeArcs isOid raw n
        asn1Store 264 capacity result

/-- The loop of `encode_oid_arc` that takes an arc apart into at most ten groups. -/
def arcGroups : Nat → UInt64 → Nat → Bytes → CodecResult (Nat × Bytes)
  | 0, _, _, _ => .error .fault
  | turns + 1, arc, n, groups => do
      let groups ← Guarded.put groups n [(arc &&& 0x7F).toUInt8]
      let arc := arc >>> 7
      if arc ≠ 0 then arcGroups turns arc (n + 1) groups else return (n + 1, groups)

/-- The loop of `encode_oid_arc` that stores `n` groups from `offset` on. -/
def storeGroups (groups : Bytes) (n offset : Nat) : Nat → Nat → Bytes → CodecResult Bytes
  | 0, _, out => .ok out
  | remaining + 1, i, out => do
      let group ← Guarded.octet groups (n - 1 - i)
      let out ← Guarded.put out (offset + i) [group ||| if i + 1 < n then 0x80 else 0x00]
      storeGroups groups n offset remaining (i + 1) out

/-- `ASN1_OID_ARC_MAX_ENCODED_BYTES`. -/
def oidArcMaxEncodedBytes : Nat := 10

/-- `encode_oid_arc` without an output. -/
def measureOidArc (arc : UInt64) : CodecResult Nat := do
  let (n, _) ← arcGroups oidArcMaxEncodedBytes arc 0 (List.replicate oidArcMaxEncodedBytes 0)
  return n

/-- `encode_oid_arc`, into an output from `offset` on. -/
def encodeOidArc (arc : UInt64) (out : Bytes) (offset : Nat) : CodecResult (Nat × Bytes) := do
  let (n, groups) ←
    arcGroups oidArcMaxEncodedBytes arc 0 (List.replicate oidArcMaxEncodedBytes 0)
  let out ← storeGroups groups n offset n 0 out
  return (n, out)

/-- The subidentifiers of `encode_oid_like`, when the arcs are valid. -/
def encodeArcs (isOid : Bool) (input : Asn1Oid) :
    CodecResult (Option (Vector UInt64 oidMaxArcs × Nat)) :=
  if isOid then
    if input.count < 2 ∨ input.count > oidMaxArcs then .ok none
    else do
      let first ← Guarded.item input.arcs 0
      let second ← Guarded.item input.arcs 1
      if first > 2 then .ok none
      else if first < 2 ∧ second ≥ 40 then .ok none
      else if first = 2 ∧ second > 0xFFFFFFFFFFFFFFFF - 80 then .ok none
      else do
        let raw ← Guarded.assign (Vector.replicate oidMaxArcs 0) 0 (first * 40 + second)
        let raw ← copyArcs input.arcs (input.count - 2) 2 1 raw
        return some (raw, input.count - 1)
  else if input.count < 1 ∨ input.count > oidMaxArcs then .ok none
  else do
    let raw ← copyArcs input.arcs input.count 0 0 (Vector.replicate oidMaxArcs 0)
    return some (raw, input.count)

/-- The loop over the sizes of the subidentifiers. -/
def measureArcs (raw : Vector UInt64 oidMaxArcs) : Nat → Nat → Nat → CodecResult Nat
  | 0, _, total => .ok total
  | remaining + 1, i, total => do
      let arc ← Guarded.item raw i
      let size ← measureOidArc arc
      measureArcs raw remaining (i + 1) (total + size)

/-- The loop that stores the subidentifiers. -/
def storeArcs (raw : Vector UInt64 oidMaxArcs) : Nat → Nat → Nat → Bytes → CodecResult Bytes
  | 0, _, _, out => .ok out
  | remaining + 1, i, offset, out => do
      let arc ← Guarded.item raw i
      let (size, out) ← encodeOidArc arc out offset
      storeArcs raw remaining (i + 1) (offset + size) out

/-- `encode_oid_like`. -/
def encodeOidLike (isOid : Bool) (input : Asn1Oid) (destination : Option Bytes) :
    CodecResult Encoded := do
  match ← encodeArcs isOid input with
  | none => .error (.code .invalidValue)
  | some (raw, n) => do
      let total ← measureArcs raw n 0 0
      match destination with
      | none => return (total, none)
      | some data =>
        if data.length < total then .error (.code .bufferTooShort)
        else do
          let data ← storeArcs raw n 0 0 data
          return (total, some data)

/-! ## GeneralizedTime -/

/-- `tlv_asn1_generalized_time_t`. -/
structure Asn1GeneralizedTime where
  year : Int
  month : UInt8
  day : UInt8
  hour : UInt8
  minute : UInt8
  second : UInt8
  fractionDigits : Asn1Span
  deriving Repr, DecidableEq

/-- `time_digit_pair`. -/
def timeDigitPair (data : Bytes) (offset : Nat) : CodecResult UInt8 := do
  let high ← Guarded.octet data offset
  let low ← Guarded.octet data (offset + 1)
  return (high - 0x30) * 10 + (low - 0x30)

/-- `time_write_digit_pair`. -/
def timeWriteDigitPair (value : UInt8) : Bytes :=
  [0x30 + value / 10, 0x30 + value % 10]

/-- The digits of a fraction. -/
def generalizedFraction (data : Bytes) : CodecResult Asn1Span :=
  if data.length > 15 then do
    let digits ← Guarded.slice data 15 (data.length - 16)
    return .octets digits
  else .ok (.null 0)

/-- `decode_generalized_time`. -/
def decodeGeneralizedTime (data : Bytes) (capacity : Nat) : CodecResult Asn1GeneralizedTime :=
  if !validateGeneralizedTime data then .error (.code .invalidValue)
  else do
    let century ← timeDigitPair data 0
    let year ← timeDigitPair data 2
    let month ← timeDigitPair data 4
    let day ← timeDigitPair data 6
    let hour ← timeDigitPair data 8
    let minute ← timeDigitPair data 10
    let second ← timeDigitPair data 12
    let fraction ← generalizedFraction data
    asn1Store 32 capacity
      ⟨century.toNat * 100 + year.toNat, month, day, hour, minute, second, fraction⟩

/-- `time_calendar_fields_valid`. -/
def timeCalendarFieldsValid (month day hour minute second : UInt8) : Bool :=
  month ≥ 1 && month ≤ 12 && day ≥ 1 && day ≤ 31 && hour ≤ 23 && minute ≤ 59 && second ≤ 59

/-- The checks of `encode_generalized_time`. -/
def generalizedTimeValid (input : Asn1GeneralizedTime) : Bool :=
  !(input.year < 0 || input.year > 9999) &&
    timeCalendarFieldsValid input.month input.day input.hour input.minute input.second &&
    (decide (input.fractionDigits.length = 0) == input.fractionDigits.isNull) &&
    input.fractionDigits.content.all isDigit &&
    !(input.fractionDigits.length ≠ 0 && input.fractionDigits.content.getLastD 0 = 0x30)

/-- The fourteen octets that `encode_generalized_time` stages. -/
def generalizedTimeDigits (input : Asn1GeneralizedTime) : Bytes :=
  timeWriteDigitPair (UInt8.ofInt (input.year / 100)) ++
    timeWriteDigitPair (UInt8.ofInt (input.year % 100)) ++
    timeWriteDigitPair input.month ++ timeWriteDigitPair input.day ++
    timeWriteDigitPair input.hour ++ timeWriteDigitPair input.minute ++
    timeWriteDigitPair input.second

/-- `encode_generalized_time`. -/
def encodeGeneralizedTime (input : Asn1GeneralizedTime) (destination : Option Bytes) :
    CodecResult Encoded :=
  if !generalizedTimeValid input then .error (.code .invalidValue)
  else
    let fraction := input.fractionDigits.length
    let total := 14 + (if fraction ≠ 0 then 1 + fraction else 0) + 1
    match destination with
    | none => .ok (total, none)
    | some data =>
      if data.length < total then .error (.code .bufferTooShort)
      else do
        let data ← Guarded.put data 0 (generalizedTimeDigits input)
        if fraction ≠ 0 then do
          let data ← Guarded.put data 14 [0x2E]
          let data ← Guarded.put data 15 input.fractionDigits.content
          let data ← Guarded.put data (15 + fraction) [0x5A]
          return (total, some data)
        else do
          let data ← Guarded.put data 14 [0x5A]
          return (total, some data)

/-! ## Internationalized identifiers -/

/-- `TLV_ASN1_IRI_MAX_ARCS`. -/
def iriMaxArcs : Nat := 32

/-- `tlv_asn1_iri_t`. -/
structure Asn1Iri where
  arcs : Vector Asn1Span iriMaxArcs
  count : Nat
  deriving Repr, DecidableEq

/-- Whether an arc ends at a position. -/
def arcEnds (data : Bytes) (pos : Nat) : CodecResult Bool :=
  if pos = data.length then .ok true
  else do
    let octet ← Guarded.octet data pos
    return decide (octet = 0x2F)

/-- The loop of `decode_iri_like` with `remaining` turns left. -/
def splitArcs (data : Bytes) : Nat → Nat → Nat → Asn1Iri → CodecResult (Option Asn1Iri)
  | 0, _, _, result => .ok (some result)
  | remaining + 1, pos, arcStart, result => do
      if ← arcEnds data pos then
        if result.count ≥ iriMaxArcs then .ok none
        else do
          let arc ← Guarded.slice data arcStart (pos - arcStart)
          let arcs ← Guarded.assign result.arcs result.count (.octets arc)
          splitArcs data remaining (pos + 1) (pos + 1) ⟨arcs, result.count + 1⟩
      else splitArcs data remaining (pos + 1) arcStart result

/-- `decode_iri_like`. -/
def decodeIriLike (absolute : Bool) (data : Bytes) (capacity : Nat) : CodecResult Asn1Iri :=
  if !validateIriArcs data absolute then .error (.code .invalidValue)
  else do
    let pos := if absolute then 1 else 0
    match ← splitArcs data (data.length + 1 - pos) pos pos
        ⟨Vector.replicate iriMaxArcs (.null 0), 0⟩ with
    | none => .error (.code .invalidValue)
    | some result => asn1Store 520 capacity result

/-- One arc of the first loop of `encode_iri_like`. -/
def iriArcValid (arc : Asn1Span) : Bool :=
  arc.length ≠ 0 && !arc.isNull && utf8Validate arc.content &&
    arc.content.all fun octet => octet ≠ 0x2F

/-- The first loop of `encode_iri_like`: the total, when the arcs are valid. -/
def measureIri (input : Asn1Iri) : Nat → Nat → Nat → CodecResult (Option Nat)
  | 0, _, total => .ok (some total)
  | remaining + 1, i, total => do
      let arc ← Guarded.item input.arcs i
      if !iriArcValid arc then .ok none
      else
        let total := total + arc.length
        measureIri input remaining (i + 1) (if i + 1 < input.count then total + 1 else total)

/-- The second loop of `encode_iri_like`. -/
def storeIri (input : Asn1Iri) : Nat → Nat → Nat → Bytes → CodecResult Bytes
  | 0, _, _, out => .ok out
  | remaining + 1, i, offset, out => do
      let arc ← Guarded.item input.arcs i
      let out ← Guarded.put out offset arc.content
      let offset := offset + arc.length
      if i + 1 < input.count then do
        let out ← Guarded.put out offset [0x2F]
        storeIri input remaining (i + 1) (offset + 1) out
      else storeIri input remaining (i + 1) offset out

/-- `encode_iri_like`. -/
def encodeIriLike (absolute : Bool) (input : Asn1Iri) (destination : Option Bytes) :
    CodecResult Encoded :=
  if input.count = 0 ∨ input.count > iriMaxArcs then .error (.code .invalidValue)
  else do
    let start := if absolute then 1 else 0
    match ← measureIri input input.count 0 start with
    | none => .error (.code .invalidValue)
    | some total =>
      match destination with
      | none => return (total, none)
      | some data =>
        if data.length < total then .error (.code .bufferTooShort)
        else do
          let data ← if absolute then Guarded.put data 0 [0x2F] else .ok data
          let data ← storeIri input input.count 0 start data
          return (total, some data)

end OpenTlv
