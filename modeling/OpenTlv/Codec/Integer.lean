import OpenTlv.Codec.Codec

/-!
# Minimal two's complement

The codec of `codec/values.c` for signed numbers of 64 bits in the fewest octets of two's
complement, most significant first, which the codec of `INTEGER` calls. The octets of a number are
staged in an array of eight.
-/

namespace OpenTlv

/-- A first octet that only repeats the sign of the second one. -/
def redundantOctet (first second : UInt8) : Bool :=
  (first = 0x00 && second &&& 0x80 = 0) || (first = 0xFF && second &&& 0x80 ≠ 0)

/-- The bits that the loop of `integer_decode_value` starts with. -/
def signFill (first : UInt8) : UInt64 :=
  if first &&& 0x80 ≠ 0 then ~~~0 else 0

/-- The loop of `integer_decode_value`. -/
def shiftOctets (bits : UInt64) (data : Bytes) : UInt64 :=
  data.foldl (fun bits octet => (bits <<< 8) ||| octet.toUInt64) bits

/-- `integer_decode_value`. -/
def Int64Minimal.integerDecodeValue (data : Bytes) : CodecResult (Option Int64) :=
  if data.length < 1 ∨ data.length > 8 then .ok none
  else do
    let first ← Guarded.octet data 0
    let bits := shiftOctets (signFill first) data
    return some (if bits ≤ 0x7FFFFFFFFFFFFFFF then bits.toInt64 else -1 - (~~~bits).toInt64)

/-- Whether an encoding has a redundant first octet. -/
def integerRedundant (data : Bytes) : CodecResult Bool :=
  if data.length > 1 then do
    let first ← Guarded.octet data 0
    let second ← Guarded.octet data 1
    return redundantOctet first second
  else .ok false

/-- `decode_integer`. -/
def Int64Minimal.decodeInteger (data : Bytes) (capacity : Nat) : CodecResult Int64 :=
  if data.length = 0 ∨ data.length > 8 then .error (.code .invalidValue)
  else do
    if ← integerRedundant data then .error (.code .invalidValue)
    else
      match ← Int64Minimal.integerDecodeValue data with
      | none => .error (.code .invalidValue)
      | some value => if capacity < 8 then .error (.code .bufferTooShort) else .ok value

/-- `integer_encode_value`. -/
def integerEncodeValue (value : Int64) : Bytes :=
  (List.range 8).map fun i => (value.toUInt64 >>> (8 * (7 - i)).toUInt64).toUInt8

/-- The loop of `integer_minimal_size` with `remaining` turns left. -/
def integerStart (full : Bytes) : Nat → Nat → CodecResult Nat
  | 0, start => .ok start
  | remaining + 1, start => do
      let first ← Guarded.octet full start
      let second ← Guarded.octet full (start + 1)
      if redundantOctet first second then integerStart full remaining (start + 1) else .ok start

/-- `integer_minimal_size`. -/
def integerMinimalSize (full : Bytes) : CodecResult Nat := do
  let start ← integerStart full 7 0
  return 8 - start

/-- `encode_integer`. -/
def encodeInteger (value : Int64) (destination : Option Bytes) : CodecResult Encoded := do
  let full := integerEncodeValue value
  let minimal ← integerMinimalSize full
  let offset := 8 - minimal
  match destination with
  | none => return (minimal, none)
  | some data =>
    if data.length < minimal then .error (.code .bufferTooShort)
    else do
      let source ← Guarded.slice full offset minimal
      let data ← Guarded.put data 0 source
      return (minimal, some data)

end OpenTlv
