import OpenTlv.Codec.Codec

/-!
# Number codecs

The unsigned number codec of `codec/number.c`: binary integers of both byte orders and packed
decimals, with a fixed width or a minimal one. The octets are computed in a staging array of nine
octets, whose accesses are guarded. Numbers are `uint64_t`, and so is the arithmetic.
-/

namespace OpenTlv

/-- `tlv_number_encoding_t`. -/
inductive NumberEncoding where
  | binaryBe
  | binaryLe
  | bcd
  deriving Repr, DecidableEq

/-- `tlv_number_codec_config_t`. -/
structure NumberConfig where
  encoding : NumberEncoding
  width : Nat := 0
  digits : Nat := 0
  deriving Repr, DecidableEq

/-- `valid_config`. -/
def NumberConfig.valid (config : NumberConfig) : Bool :=
  if config.encoding = .bcd then
    config.width ≤ 9 && config.digits ≥ 1 && config.digits ≤ 18
  else config.width ≤ 8 && config.digits = 0

/-- The loop of `decimal_limit`. -/
def decimalPower : Nat → UInt64
  | 0 => 1
  | digits + 1 => decimalPower digits * 10

/-- `decimal_limit`. -/
def decimalLimit (digits : Nat) : UInt64 :=
  decimalPower digits - 1

/-- The decoder's loop over packed decimals. -/
def bcdRead (number : UInt64) : Bytes → CodecResult UInt64
  | [] => .ok number
  | octet :: rest =>
    let high := octet.toNat >>> 4
    let low := octet.toNat &&& 15
    if high > 9 ∨ low > 9 then .error (.code .invalidValue)
    else bcdRead (number * 100 + UInt64.ofNat high * 10 + UInt64.ofNat low) rest

/-- The byte order that a binary encoding selects. -/
def NumberEncoding.order (encoding : NumberEncoding) : ByteOrder :=
  if encoding = .binaryBe then .bigEndian else .littleEndian

/-- The largest width of a representation. -/
def NumberEncoding.maximum (encoding : NumberEncoding) : Nat :=
  if encoding = .bcd then 9 else 8

/-- `sizeof(uint64_t)`. -/
def numberSize : Nat := 8

/-- `tlv_number_decode`. -/
def numberDecode (config : NumberConfig) (data : Bytes) (capacity : Nat) :
    CodecResult UInt64 :=
  if !config.valid then .error (.code .invalidArg)
  else if data.length = 0 ∨ data.length > config.encoding.maximum ∨
      (config.width ≠ 0 ∧ data.length ≠ config.width) then .error (.code .invalidValue)
  else do
    let number ←
      if config.encoding = .bcd then do
        let number ← bcdRead 0 data
        if number > decimalLimit config.digits then .error (.code .invalidValue)
        else pure number
      else
        match readUint data data.length config.encoding.order with
        | .error _ => .error (.code .invalidValue)
        | .ok number => pure (UInt64.ofNat number)
    if capacity < numberSize then .error (.code .bufferTooShort)
    else return number

/-- The number of values of one octet. -/
def NumberEncoding.radix (encoding : NumberEncoding) : Nat :=
  if encoding = .bcd then 100 else 256

theorem one_lt_radix (encoding : NumberEncoding) : 1 < encoding.radix := by
  cases encoding <;> decide

theorem NumberConfig.one_lt_radix (config : NumberConfig) : 1 < config.encoding.radix :=
  OpenTlv.one_lt_radix config.encoding

/-- The encoder's loop that counts the octets of the minimal representation. -/
def minimalWidth (radix : Nat) (hradix : 1 < radix) (remaining width : Nat) : Nat :=
  if h : remaining ≥ radix then minimalWidth radix hradix (remaining / radix) (width + 1)
  else width
termination_by remaining
decreasing_by exact Nat.div_lt_self (by omega) hradix

/-- The encoder's loop over packed decimals, from the last octet to the first. -/
def bcdWrite : Nat → UInt64 → Bytes → CodecResult Bytes
  | 0, _, bytes => .ok bytes
  | i + 1, number, bytes => do
      let pair := (number % 100).toNat
      let bytes ← Guarded.put bytes i [UInt8.ofNat (((pair / 10) <<< 4) ||| (pair % 10))]
      bcdWrite i (number / 100) bytes

/-- The part of the encoder that stages the octets. -/
def numberStage (encoding : NumberEncoding) (width : Nat) (number : UInt64) (bytes : Bytes) :
    CodecResult Bytes :=
  if encoding = .bcd then bcdWrite width number bytes
  else
    match writeUint width encoding.order number.toNat with
    | .error _ => .error (.code .invalidValue)
    | .ok octets => Guarded.put bytes 0 octets

/-- `tlv_number_encode`. -/
def numberEncode (config : NumberConfig) (number : UInt64) (destination : Option Bytes) :
    CodecResult Encoded :=
  if !config.valid then .error (.code .invalidArg)
  else if config.encoding = .bcd ∧ number > decimalLimit config.digits then
    .error (.code .invalidValue)
  else
    let minimal := minimalWidth config.encoding.radix (one_lt_radix _) number.toNat 1
    if config.width ≠ 0 ∧ minimal > config.width then .error (.code .invalidValue)
    else
      let width := if config.width ≠ 0 then config.width else minimal
      if destination.any (fun data => data.length < width) then .error (.code .bufferTooShort)
      else do
        let bytes ← numberStage config.encoding width number (List.replicate 9 0)
        match destination with
        | none => return (width, none)
        | some data => do
            let staged ← Guarded.slice bytes 0 width
            let data ← Guarded.put data 0 staged
            return (width, some data)

end OpenTlv
