import OpenTlv.Codec.Codec

/-!
# LLDP value codecs

The representations and the two callbacks of `lldp/codec.c`. Every octet that the decoder reads
and every octet that the encoder stores, in its staging area `wire` or in the destination, is a
guarded access, so an access outside an extent would be a `fault`. A representation has the C
type of its codec, which is what the encoder's comparison with `sizeof` asks for.
-/

namespace OpenTlv

namespace Lldp

/-- The codec selected by the context. -/
inductive Kind where
  | chassis
  | port
  | capabilities
  | management
  | organisation
  deriving Repr, DecidableEq

/-- `tlv_lldp_id_t`. -/
structure Id where
  subtype : UInt8
  identifier : Bytes
  deriving Repr, DecidableEq

/-- `tlv_lldp_capabilities_t`. -/
structure Capabilities where
  supported : UInt16
  enabled : UInt16
  deriving Repr, DecidableEq

/-- `tlv_lldp_management_address_t`. -/
structure ManagementAddress where
  addressSubtype : UInt8
  address : Bytes
  interfaceSubtype : UInt8
  interfaceNumber : UInt32
  oid : Bytes
  deriving Repr, DecidableEq

/-- `tlv_lldp_organisation_t`. -/
structure Organisation where
  oui : UInt8 × UInt8 × UInt8
  subtype : UInt8
  payload : Bytes
  deriving Repr, DecidableEq

/-- The representation of a codec. -/
abbrev Kind.Representation : Kind → Type
  | .chassis => Id
  | .port => Id
  | .capabilities => Capabilities
  | .management => ManagementAddress
  | .organisation => Organisation

/-- `sizeof` of the representation. -/
def Kind.representationSize : Kind → Nat
  | .chassis => 24
  | .port => 24
  | .capabilities => 4
  | .management => 48
  | .organisation => 24

/-- The extent of the encoder's staging area `wire`. -/
def wireSize : Nat := 1 + 32 + 5 + 1 + 128

/-- `address_valid`. -/
def addressValid (family : UInt8) (size : Nat) : Bool :=
  family ≠ 0 && size ≠ 0 && (family ≠ 1 || size = 4) && (family ≠ 2 || size = 16)

/-- The subtype of a MAC address, which `id_valid` computes from the kind. -/
def mac (kind : Kind) : UInt8 :=
  if kind = .chassis then 4 else 3

/-- `id_valid`. -/
def idValid (kind : Kind) (subtype : UInt8) (p : Bytes) : CodecResult Bool :=
  if subtype < 1 ∨ subtype > 7 ∨ p.length < 1 then .ok false
  else if subtype = mac kind then .ok (p.length = 6)
  else if subtype = mac kind + 1 then
    if p.length < 2 then .ok false
    else do
      let family ← Guarded.octet p 0
      return addressValid family (p.length - 1)
  else .ok true

/-- `span_size`. -/
def spanSize (value : Bytes) (max : Nat) : CodecResult Nat :=
  if value.length > max then .error (.code .invalidValue) else .ok value.length

/-- `tlv_read_u16_be`. -/
def readU16Be (data : Bytes) (offset : Nat) : CodecResult UInt16 := do
  let high ← Guarded.octet data offset
  let low ← Guarded.octet data (offset + 1)
  return high.toUInt16 <<< 8 ||| low.toUInt16

/-- `tlv_write_u16_be`. -/
def writeU16Be (data : Bytes) (offset : Nat) (value : UInt16) : CodecResult Bytes := do
  let data ← Guarded.put data offset [(value >>> 8).toUInt8]
  Guarded.put data (offset + 1) [value.toUInt8]

/-- `RETURN_VALUE` of the decoder. -/
def returnValue {α : Type} (size capacity : Nat) (result : α) : CodecResult α :=
  if capacity < size then .error (.code .bufferTooShort) else .ok result

/-- The decoder of chassis and port identifiers. -/
def decodeId (kind : Kind) (data : Bytes) (capacity : Nat) : CodecResult Id :=
  if data.length < 2 then .error (.code .invalidValue)
  else do
    let subtype ← Guarded.octet data 0
    let identifier ← Guarded.slice data 1 (data.length - 1)
    let valid ← idValid kind subtype identifier
    if valid then returnValue kind.representationSize capacity ⟨subtype, identifier⟩
    else .error (.code .invalidValue)

/-- The decoder of capabilities. -/
def decodeCapabilities (data : Bytes) (capacity : Nat) : CodecResult Capabilities :=
  if data.length ≠ 4 then .error (.code .invalidValue)
  else do
    let supported ← readU16Be data 0
    let enabled ← readU16Be data 2
    if enabled &&& ~~~supported ≠ 0 then .error (.code .invalidValue)
    else returnValue (Kind.representationSize .capabilities) capacity ⟨supported, enabled⟩

/-- The decoder of management addresses. -/
def decodeManagement (data : Bytes) (capacity : Nat) : CodecResult ManagementAddress :=
  if data.length < 9 then .error (.code .invalidValue)
  else do
    let first ← Guarded.octet data 0
    -- Includes the family octet.
    let addressLength := first.toNat
    if addressLength < 2 ∨ addressLength > 32 ∨ addressLength > data.length - 7 then
      .error (.code .invalidValue)
    else do
      let addressSubtype ← Guarded.octet data 1
      let address ← Guarded.slice data 2 (addressLength - 1)
      if !addressValid addressSubtype (addressLength - 1) then .error (.code .invalidValue)
      else do
        let offset := 1 + addressLength
        let interfaceSubtype ← Guarded.octet data offset
        if interfaceSubtype < 1 ∨ interfaceSubtype > 3 then .error (.code .invalidValue)
        else do
          let b0 ← Guarded.octet data (offset + 1)
          let b1 ← Guarded.octet data (offset + 2)
          let b2 ← Guarded.octet data (offset + 3)
          let b3 ← Guarded.octet data (offset + 4)
          let interfaceNumber := b0.toUInt32 <<< 24 ||| b1.toUInt32 <<< 16 |||
            b2.toUInt32 <<< 8 ||| b3.toUInt32
          let last ← Guarded.octet data (offset + 5)
          let oidLength := last.toNat
          if oidLength > 128 ∨ oidLength ≠ data.length - offset - 6 then
            .error (.code .invalidValue)
          else do
            let oid ← Guarded.slice data (offset + 6) oidLength
            returnValue (Kind.representationSize .management) capacity
              ⟨addressSubtype, address, interfaceSubtype, interfaceNumber, oid⟩

/-- The decoder of organisationally specific strings. -/
def decodeOrganisation (data : Bytes) (capacity : Nat) : CodecResult Organisation :=
  if data.length < 4 then .error (.code .invalidValue)
  else do
    let first ← Guarded.octet data 0
    let second ← Guarded.octet data 1
    let third ← Guarded.octet data 2
    let subtype ← Guarded.octet data 3
    let payload ← Guarded.slice data 4 (data.length - 4)
    returnValue (Kind.representationSize .organisation) capacity
      ⟨(first, second, third), subtype, payload⟩

/-- `decode`. -/
def decode : (kind : Kind) → Bytes → Nat → CodecResult kind.Representation
  | .chassis => decodeId .chassis
  | .port => decodeId .port
  | .capabilities => decodeCapabilities
  | .management => decodeManagement
  | .organisation => decodeOrganisation

/-- The encoder of chassis and port identifiers, which does not stage its output. -/
def encodeId (kind : Kind) (input : Id) (destination : Option Bytes) : CodecResult Encoded := do
  let count ← spanSize input.identifier (sizeMax - 1)
  let valid ← idValid kind input.subtype input.identifier
  if !valid then .error (.code .invalidValue)
  else
    let length := 1 + count
    match destination with
    | none => .ok (length, none)
    | some data =>
      if data.length < length then .error (.code .bufferTooShort)
      else do
        let data ← Guarded.put data 0 [input.subtype]
        let data ← Guarded.put data 1 input.identifier
        return (length, some data)

/-- The encoder of organisationally specific strings, which does not stage its output. -/
def encodeOrganisation (input : Organisation) (destination : Option Bytes) :
    CodecResult Encoded := do
  let count ← spanSize input.payload (sizeMax - 4)
  let length := 4 + count
  match destination with
  | none => .ok (length, none)
  | some data =>
    if data.length < length then .error (.code .bufferTooShort)
    else do
      let data ← Guarded.put data 0 [input.oui.1, input.oui.2.1, input.oui.2.2]
      let data ← Guarded.put data 3 [input.subtype]
      let data ← if count ≠ 0 then Guarded.put data 4 input.payload else pure data
      return (length, some data)

/-- Stage capabilities in `wire`. -/
def stageCapabilities (input : Capabilities) (wire : Bytes) : CodecResult (Bytes × Nat) :=
  if input.enabled &&& ~~~input.supported ≠ 0 then .error (.code .invalidValue)
  else do
    let wire ← writeU16Be wire 0 input.supported
    let wire ← writeU16Be wire 2 input.enabled
    return (wire, 4)

/-- Stage a management address in `wire`. -/
def stageManagement (input : ManagementAddress) (wire : Bytes) : CodecResult (Bytes × Nat) := do
  let count ← spanSize input.address 31
  let oidLength ← spanSize input.oid 128
  if !addressValid input.addressSubtype count ∨ input.interfaceSubtype < 1 ∨
      input.interfaceSubtype > 3 then .error (.code .invalidValue)
  else do
    let wire ← Guarded.put wire 0 [UInt8.ofNat (count + 1)]
    let wire ← Guarded.put wire 1 [input.addressSubtype]
    let wire ← Guarded.put wire 2 input.address
    let offset := count + 2
    let wire ← Guarded.put wire offset [input.interfaceSubtype]
    let wire ← Guarded.put wire (offset + 1) [(input.interfaceNumber >>> 24).toUInt8]
    let wire ← Guarded.put wire (offset + 2) [(input.interfaceNumber >>> 16).toUInt8]
    let wire ← Guarded.put wire (offset + 3) [(input.interfaceNumber >>> 8).toUInt8]
    let wire ← Guarded.put wire (offset + 4) [input.interfaceNumber.toUInt8]
    let wire ← Guarded.put wire (offset + 5) [UInt8.ofNat oidLength]
    let wire ← if oidLength ≠ 0 then Guarded.put wire (offset + 6) input.oid else pure wire
    return (wire, offset + 6 + oidLength)

/-- The end of `encode`: copy what is staged. -/
def emitStaged (wire : Bytes) (length : Nat) (destination : Option Bytes) : CodecResult Encoded :=
  match destination with
  | none => .ok (length, none)
  | some data =>
    if data.length < length then .error (.code .bufferTooShort)
    else if length ≠ 0 then do
      let staged ← Guarded.slice wire 0 length
      let data ← Guarded.put data 0 staged
      return (length, some data)
    else .ok (length, some data)

/-- `encode`. `wire` is what the staging area holds on entry. -/
def encode (wire : Bytes) : (kind : Kind) → kind.Representation → Option Bytes →
    CodecResult Encoded
  | .chassis, input, destination => encodeId .chassis input destination
  | .port, input, destination => encodeId .port input destination
  | .capabilities, input, destination => do
      let (wire, length) ← stageCapabilities input wire
      emitStaged wire length destination
  | .management, input, destination => do
      let (wire, length) ← stageManagement input wire
      emitStaged wire length destination
  | .organisation, input, destination => encodeOrganisation input destination

end Lldp

end OpenTlv
