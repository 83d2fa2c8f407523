import OpenTlv.Schema.Number

/-!
# EMV value codecs

The semantic codecs of `emv/emv_codec.c` with the rules of the dictionary that use them. The
octets of a value are staged in an array of 252 octets before they are copied, and Track 2 is staged
as nibbles in an array of 58; all accesses to arrays are guarded. A representation has the type that
its rule's kind selects, and an enumeration is the unsigned integer that it is stored in. A number
that is not written leaves the staging array as it was.
-/

namespace OpenTlv

/-- `emv_representation_t`. -/
inductive EmvKind where
  | account
  | afl
  | biometric
  | cryptogram
  | cvmResult
  | date
  | digits
  | numberList
  | time
  | track2
  deriving Repr, DecidableEq

/-- `emv_value_rule_t`. -/
structure EmvRule where
  schema : SchemaEntry
  kind : EmvKind
  argument : Nat
  deriving Repr, DecidableEq

/-- `tlv_emv_date_t`. -/
structure EmvDate where
  year : UInt8
  month : UInt8
  day : UInt8
  deriving Repr, DecidableEq

/-- `tlv_emv_time_t`. -/
structure EmvTime where
  hour : UInt8
  minute : UInt8
  second : UInt8
  deriving Repr, DecidableEq

/-- `tlv_emv_cryptogram_info_t`. -/
structure EmvCryptogram where
  type : UInt32
  flags : UInt8
  deriving Repr, DecidableEq

/-- `tlv_emv_cvm_result_t`. -/
structure EmvCvmResult where
  method : UInt8
  condition : UInt8
  result : UInt8
  deriving Repr, DecidableEq

/-- `tlv_emv_number_list_t`. -/
structure EmvNumberList where
  values : Vector UInt64 4
  count : Nat
  deriving Repr, DecidableEq

/-- `tlv_emv_afl_entry_t`. -/
structure EmvAflEntry where
  sfi : UInt8
  firstRecord : UInt8
  lastRecord : UInt8
  offlineAuthRecordCount : UInt8
  deriving Repr, DecidableEq

/-- `tlv_emv_afl_t`. -/
structure EmvAfl where
  entries : Vector EmvAflEntry 63
  count : Nat
  deriving Repr, DecidableEq

/-- `tlv_emv_track2_t`. -/
structure EmvTrack2 where
  pan : Vector UInt8 20
  expirationYear : UInt8
  expirationMonth : UInt8
  serviceCode : UInt16
  discretionaryData : Vector UInt8 31
  deriving Repr, DecidableEq

/-- The representation of a kind. A digit string is encoded without its terminating zero, and
decoded into a buffer with it. -/
def EmvKind.Value : EmvKind → Type
  | .account => UInt32
  | .afl => EmvAfl
  | .biometric => UInt32
  | .cryptogram => EmvCryptogram
  | .cvmResult => EmvCvmResult
  | .date => EmvDate
  | .digits => Bytes
  | .numberList => EmvNumberList
  | .time => EmvTime
  | .track2 => EmvTrack2

/-! ## Numbers and checks -/

/-- The configuration that `read_number` and `write_number` use. -/
def emvNumber (digits size : Nat) : NumberConfig :=
  ⟨if digits ≠ 0 then .bcd else .binaryBe, size, digits⟩

/-- `read_number`, on `size` octets from `offset` on. -/
def readNumber (data : Bytes) (offset size digits : Nat) : CodecResult (Option UInt64) :=
  if size > 8 then .ok none
  else do
    let part ← Guarded.slice data offset size
    match numberDecode (emvNumber digits size) part numberSize with
    | .ok number => .ok (some number)
    | .error .fault => .error .fault
    | .error (.code _) => .ok none

/-- `write_number`, on `size` octets from `offset` on: whether it succeeded, and the array. -/
def writeNumber (number : UInt64) (digits : Nat) (bytes : Bytes) (offset size : Nat) :
    CodecResult (Bool × Bytes) :=
  if size > 8 then .ok (false, bytes)
  else do
    let part ← Guarded.slice bytes offset size
    match numberEncode (emvNumber digits size) number (some part) with
    | .ok (_, some part) => do
        let bytes ← Guarded.put bytes offset part
        return (true, bytes)
    | .ok (_, none) => .ok (true, bytes)
    | .error .fault => .error .fault
    | .error (.code _) => .ok (false, bytes)

/-- The days of the months. -/
def monthDays : List Nat :=
  [31, 28, 31, 30, 31, 30, 31, 31, 30, 31, 30, 31]

/-- `valid_date`. -/
def validDate (date : EmvDate) : Bool :=
  if date.year > 99 ∨ date.month < 1 ∨ date.month > 12 then false
  else
    let limit := monthDays.getD (date.month.toNat - 1) 0
    let limit := if date.month = 2 ∧ date.year.toNat % 4 = 0 then limit + 1 else limit
    decide (date.day ≥ 1 ∧ date.day.toNat ≤ limit)

/-- The check of a time. -/
def validTime (time : EmvTime) : Bool :=
  !(time.hour > 23 || time.minute > 59 || time.second > 59)

/-- `valid_account`. -/
def validAccount (account : UInt64) : Bool :=
  account = 0 || account = 10 || account = 20 || account = 30

/-- `TLV_EMV_BIOMETRIC_PALM`. -/
def biometricPalm : UInt32 := 0x020000

/-- `valid_biometric`. -/
def validBiometric (biometric : UInt64) : Bool :=
  biometric = 0x02 || biometric = 0x04 || biometric = 0x08 || biometric = 0x10 ||
    biometric = biometricPalm.toUInt64

/-- `valid_afl_entry`. -/
def validAflEntry (sfi firstRecord lastRecord offlineAuthRecordCount : UInt8) : Bool :=
  sfi ≥ 1 && sfi ≤ 30 && firstRecord ≥ 1 && lastRecord ≥ firstRecord &&
    offlineAuthRecordCount ≤ lastRecord - firstRecord + 1

/-- `track2_nibble`. -/
def track2Nibble (data : Bytes) (i : Nat) : CodecResult Nat :=
  nibble data i

/-- `emv_strnlen` over a whole array. -/
def emvStrnlen : Bytes → Nat
  | [] => 0
  | character :: rest => if character = 0 then 0 else emvStrnlen rest + 1

/-- `strlen` of an array with a terminating zero. -/
def emvStrlen (array : Bytes) : CodecResult Nat :=
  if emvStrnlen array < array.length then .ok (emvStrnlen array) else .error .fault

/-- `EMV_STORE`. -/
def emvStore {α : Type} (size capacity : Nat) (object : α) : CodecResult α :=
  if capacity < size then .error (.code .bufferTooShort) else .ok object

/-! ## Decoding -/

/-- `decode_digits`. -/
def decodeDigits (argument : Nat) (data value : Bytes) : CodecResult Bytes :=
  if argument = 0 then digitsDecode 0 data value
  else
    match digitsDecode 0 data (List.replicate 20 0) with
    | .error .fault => .error .fault
    | .error (.code _) => .error (.code .invalidValue)
    | .ok pan => do
        let count ← emvStrlen pan
        if count = 0 ∨ count > argument then .error (.code .invalidValue)
        else if value.length ≤ count then .error (.code .bufferTooShort)
        else do
          let text ← Guarded.slice pan 0 (count + 1)
          Guarded.put value 0 text

/-- The decoder of dates. -/
def decodeDate (data : Bytes) (capacity : Nat) : CodecResult EmvDate := do
  match ← readNumber data 0 data.length 6 with
  | none => .error (.code .invalidValue)
  | some number =>
    let date : EmvDate :=
      ⟨(number / 10000).toUInt8, (number / 100 % 100).toUInt8, (number % 100).toUInt8⟩
    if !validDate date then .error (.code .invalidValue) else emvStore 3 capacity date

/-- The decoder of times. -/
def decodeTime (data : Bytes) (capacity : Nat) : CodecResult EmvTime := do
  match ← readNumber data 0 data.length 6 with
  | none => .error (.code .invalidValue)
  | some number =>
    let time : EmvTime :=
      ⟨(number / 10000).toUInt8, (number / 100 % 100).toUInt8, (number % 100).toUInt8⟩
    if !validTime time then .error (.code .invalidValue) else emvStore 3 capacity time

/-- The decoder of the enumerations: accounts and biometric types. -/
def decodeEnumeration (digits : Nat) (valid : UInt64 → Bool) (data : Bytes) (capacity : Nat) :
    CodecResult UInt32 := do
  match ← readNumber data 0 data.length digits with
  | none => .error (.code .invalidValue)
  | some number =>
    if !valid number then .error (.code .invalidValue) else emvStore 4 capacity number.toUInt32

/-- The decoder of cryptogram information. -/
def decodeCryptogram (data : Bytes) (capacity : Nat) : CodecResult EmvCryptogram := do
  let octet ← Guarded.octet data 0
  emvStore 8 capacity ⟨(octet >>> 6).toUInt32, octet &&& 0x3F⟩

/-- The decoder of CVM results. -/
def decodeCvmResult (data : Bytes) (capacity : Nat) : CodecResult EmvCvmResult := do
  let method ← Guarded.octet data 0
  let condition ← Guarded.octet data 1
  let result ← Guarded.octet data 2
  emvStore 3 capacity ⟨method, condition, result⟩

/-- The loop over the numbers of a list. -/
def readNumbers (data : Bytes) (width argument : Nat) :
    Nat → Nat → Vector UInt64 4 → CodecResult (Vector UInt64 4)
  | 0, _, values => .ok values
  | remaining + 1, i, values => do
      match ← readNumber data (i * width) width argument with
      | none => .error (.code .invalidValue)
      | some number => do
          let values ← Guarded.assign values i number
          readNumbers data width argument remaining (i + 1) values

/-- The decoder of number lists. No rule divides by zero. -/
def decodeNumberList (argument : Nat) (data : Bytes) (capacity : Nat) :
    CodecResult EmvNumberList :=
  let width := (argument + 1) / 2
  if width = 0 then .error .fault
  else
    let count := data.length / width
    if data.length % width ≠ 0 ∨ count > 4 then .error (.code .invalidValue)
    else do
      let values ← readNumbers data width argument count 0 (Vector.replicate 4 0)
      emvStore 40 capacity ⟨values, count⟩

/-- The loop over the entries of an AFL. -/
def readEntries (data : Bytes) :
    Nat → Nat → Vector EmvAflEntry 63 → CodecResult (Vector EmvAflEntry 63)
  | 0, _, entries => .ok entries
  | remaining + 1, i, entries => do
      let first ← Guarded.octet data (i * 4)
      let firstRecord ← Guarded.octet data (i * 4 + 1)
      let lastRecord ← Guarded.octet data (i * 4 + 2)
      let offline ← Guarded.octet data (i * 4 + 3)
      let sfi := first >>> 3
      if !validAflEntry sfi firstRecord lastRecord offline then .error (.code .invalidValue)
      else do
        let entries ← Guarded.assign entries i ⟨sfi, firstRecord, lastRecord, offline⟩
        readEntries data remaining (i + 1) entries

/-- The decoder of AFLs. -/
def decodeAfl (data : Bytes) (capacity : Nat) : CodecResult EmvAfl := do
  let count := data.length / 4
  let entries ← readEntries data count 0 (Vector.replicate 63 ⟨0, 0, 0, 0⟩)
  emvStore 264 capacity ⟨entries, count⟩

/-- The search for the separator of Track 2: `remaining` nibbles from `i` on. -/
def findSeparator (data : Bytes) : Nat → Nat → CodecResult (Option Nat)
  | 0, _ => .ok none
  | remaining + 1, i => do
      let digit ← track2Nibble data i
      if digit = 13 then .ok (some i)
      else if digit > 9 then .error (.code .invalidValue)
      else findSeparator data remaining (i + 1)

/-- The loops that check nibbles to be digits. -/
def checkDigits (data : Bytes) : Nat → Nat → CodecResult Unit
  | 0, _ => .ok ()
  | remaining + 1, i => do
      let digit ← track2Nibble data i
      if digit > 9 then .error (.code .invalidValue) else checkDigits data remaining (i + 1)

/-- The loops that copy digits from `base` on into an array of characters. -/
def readDigits {n : Nat} (data : Bytes) (base : Nat) :
    Nat → Nat → Vector UInt8 n → CodecResult (Vector UInt8 n)
  | 0, _, text => .ok text
  | remaining + 1, i, text => do
      let digit ← track2Nibble data (base + i)
      let text ← Guarded.assign text i (UInt8.ofNat (zeroDigit + digit))
      readDigits data base remaining (i + 1) text

/-- The fields of Track 2 behind the checks of its nibbles. -/
def readTrack2 (data : Bytes) (sep discretionary capacity : Nat) : CodecResult EmvTrack2 := do
  let pan ← readDigits data 0 sep 0 (Vector.replicate 20 0)
  let year1 ← track2Nibble data (sep + 1)
  let year2 ← track2Nibble data (sep + 2)
  let month1 ← track2Nibble data (sep + 3)
  let month2 ← track2Nibble data (sep + 4)
  let month := UInt8.ofNat (month1 * 10 + month2)
  if month < 1 ∨ month > 12 then .error (.code .invalidValue)
  else do
    let code1 ← track2Nibble data (sep + 5)
    let code2 ← track2Nibble data (sep + 6)
    let code3 ← track2Nibble data (sep + 7)
    let text ← readDigits data (sep + 8) discretionary 0 (Vector.replicate 31 0)
    emvStore 56 capacity ⟨pan, UInt8.ofNat (year1 * 10 + year2), month,
      UInt16.ofNat (code1 * 100 + code2 * 10 + code3), text⟩

/-- The decoder of Track 2. -/
def decodeTrack2 (data : Bytes) (capacity : Nat) : CodecResult EmvTrack2 :=
  if data.length = 0 then .error (.code .invalidValue)
  else do
    let last ← track2Nibble data (data.length * 2 - 1)
    let total := data.length * 2 - if last = 15 then 1 else 0
    match ← findSeparator data (min total 20) 0 with
    | none => .error (.code .invalidValue)
    | some sep =>
      if sep = 0 ∨ sep + 8 > total then .error (.code .invalidValue)
      else do
        checkDigits data 7 (sep + 1)
        let discretionary := total - (sep + 8)
        if discretionary > 30 then .error (.code .invalidValue)
        else do
          checkDigits data discretionary (sep + 8)
          readTrack2 data sep discretionary capacity

/-- The branches of `emv_value_decode`. -/
def emvDecodeAs (argument : Nat) (data buffer : Bytes) : (kind : EmvKind) → CodecResult kind.Value
  | .account => decodeEnumeration 2 validAccount data buffer.length
  | .afl => decodeAfl data buffer.length
  | .biometric => decodeEnumeration 0 validBiometric data buffer.length
  | .cryptogram => decodeCryptogram data buffer.length
  | .cvmResult => decodeCvmResult data buffer.length
  | .date => decodeDate data buffer.length
  | .digits => decodeDigits argument data buffer
  | .numberList => decodeNumberList argument data buffer.length
  | .time => decodeTime data buffer.length
  | .track2 => decodeTrack2 data buffer.length

/-- `emv_value_decode`. -/
def emvValueDecode (rule : EmvRule) (data buffer : Bytes) : CodecResult rule.kind.Value :=
  match schemaValidateLength rule.schema data.length with
  | .error status => .error (.code status)
  | .ok () => emvDecodeAs rule.argument data buffer rule.kind

/-! ## Encoding -/

/-- The staging array. -/
def emvStaging : Bytes :=
  List.replicate 252 0

/-- What is staged: the number of octets and the array. -/
abbrev Staged := CodecResult (Nat × Bytes)

/-- A date as a number. -/
def EmvDate.number (date : EmvDate) : UInt64 :=
  date.year.toUInt64 * 10000 + date.month.toUInt64 * 100 + date.day.toUInt64

/-- A time as a number. -/
def EmvTime.number (time : EmvTime) : UInt64 :=
  time.hour.toUInt64 * 10000 + time.minute.toUInt64 * 100 + time.second.toUInt64

/-- A number is staged in `count` octets, whether or not that succeeds. -/
def stageNumber (number : UInt64) (digits count : Nat) : Staged := do
  let (_, bytes) ← writeNumber number digits emvStaging 0 count
  return (count, bytes)

def stageDate (count : Nat) (date : EmvDate) : Staged :=
  if !validDate date then .error (.code .invalidValue) else stageNumber date.number 6 count

def stageTime (count : Nat) (time : EmvTime) : Staged :=
  if !validTime time then .error (.code .invalidValue) else stageNumber time.number 6 count

def stageAccount (count : Nat) (account : UInt32) : Staged :=
  if !validAccount account.toUInt64 then .error (.code .invalidValue)
  else stageNumber account.toUInt64 2 count

def stageCryptogram (count : Nat) (info : EmvCryptogram) : Staged :=
  if info.type > 3 ∨ info.flags > 0x3F then .error (.code .invalidValue)
  else do
    let bytes ← Guarded.put emvStaging 0 [(info.type <<< 6).toUInt8 ||| info.flags]
    return (count, bytes)

def stageBiometric (biometric : UInt32) : Staged :=
  if !validBiometric biometric.toUInt64 then .error (.code .invalidValue)
  else stageNumber biometric.toUInt64 0 (if biometric = biometricPalm then 3 else 1)

/-- The loop over the numbers of a list. -/
def writeNumbers (values : Vector UInt64 4) (width argument : Nat) :
    Nat → Nat → Bytes → CodecResult Bytes
  | 0, _, bytes => .ok bytes
  | remaining + 1, i, bytes => do
      let number ← Guarded.item values i
      match ← writeNumber number argument bytes (i * width) width with
      | (false, _) => .error (.code .invalidValue)
      | (true, bytes) => writeNumbers values width argument remaining (i + 1) bytes

def stageNumberList (argument : Nat) (list : EmvNumberList) : Staged :=
  let width := (argument + 1) / 2
  if list.count = 0 ∨ list.count > 4 then .error (.code .invalidValue)
  else do
    let bytes ← writeNumbers list.values width argument list.count 0 emvStaging
    return (list.count * width, bytes)

/-- The loop over the entries of an AFL. -/
def writeEntries (entries : Vector EmvAflEntry 63) : Nat → Nat → Bytes → CodecResult Bytes
  | 0, _, bytes => .ok bytes
  | remaining + 1, i, bytes => do
      let entry ← Guarded.item entries i
      if !validAflEntry entry.sfi entry.firstRecord entry.lastRecord
          entry.offlineAuthRecordCount then .error (.code .invalidValue)
      else do
        let bytes ← Guarded.put bytes (i * 4) [entry.sfi <<< 3]
        let bytes ← Guarded.put bytes (i * 4 + 1) [entry.firstRecord]
        let bytes ← Guarded.put bytes (i * 4 + 2) [entry.lastRecord]
        let bytes ← Guarded.put bytes (i * 4 + 3) [entry.offlineAuthRecordCount]
        writeEntries entries remaining (i + 1) bytes

def stageAfl (afl : EmvAfl) : Staged :=
  if afl.count = 0 ∨ afl.count > 63 then .error (.code .invalidValue)
  else do
    let bytes ← writeEntries afl.entries afl.count 0 emvStaging
    return (afl.count * 4, bytes)

def stageCvmResult (count : Nat) (result : EmvCvmResult) : Staged := do
  let bytes ← Guarded.put emvStaging 0 [result.method]
  let bytes ← Guarded.put bytes 1 [result.condition]
  let bytes ← Guarded.put bytes 2 [result.result]
  return (count, bytes)

/-- The loops that put the digits of a text behind `n` nibbles. -/
def pushDigits : Bytes → Nat → Bytes → CodecResult (Nat × Bytes)
  | [], n, nibbles => .ok (n, nibbles)
  | character :: rest, n, nibbles =>
    if character < 48 ∨ character > 57 then .error (.code .invalidValue)
    else do
      let nibbles ← Guarded.put nibbles n [character - 48]
      pushDigits rest (n + 1) nibbles

/-- Nibbles put one behind the other. -/
def pushNibbles : Bytes → Nat → Bytes → CodecResult (Nat × Bytes)
  | [], n, nibbles => .ok (n, nibbles)
  | value :: rest, n, nibbles => do
      let nibbles ← Guarded.put nibbles n [value]
      pushNibbles rest (n + 1) nibbles

/-- The loop that packs nibbles into octets. -/
def packNibbles (nibbles : Bytes) : Nat → Nat → Bytes → CodecResult Bytes
  | 0, _, bytes => .ok bytes
  | remaining + 1, i, bytes => do
      let high ← Guarded.octet nibbles (i * 2)
      let low ← Guarded.octet nibbles (i * 2 + 1)
      let bytes ← Guarded.put bytes i [high <<< 4 ||| low]
      packNibbles nibbles remaining (i + 1) bytes

/-- The nibbles between the account number and the discretionary data. -/
def EmvTrack2.fixedNibbles (track2 : EmvTrack2) : Bytes :=
  [13, track2.expirationYear / 10, track2.expirationYear % 10, track2.expirationMonth / 10,
    track2.expirationMonth % 10, (track2.serviceCode / 100).toUInt8,
    (track2.serviceCode / 10 % 10).toUInt8, (track2.serviceCode % 10).toUInt8]

def stageTrack2 (track2 : EmvTrack2) : Staged :=
  let panLength := emvStrnlen track2.pan.toList
  let discretionary := emvStrnlen track2.discretionaryData.toList
  if panLength = 0 ∨ panLength > 19 ∨ discretionary > 30 ∨ track2.expirationMonth < 1 ∨
      track2.expirationMonth > 12 ∨ track2.expirationYear > 99 ∨ track2.serviceCode > 999 then
    .error (.code .invalidValue)
  else do
    let (n, nibbles) ← pushDigits (track2.pan.toList.take panLength) 0 (List.replicate 58 0)
    let (n, nibbles) ← pushNibbles track2.fixedNibbles n nibbles
    let (n, nibbles) ←
      pushDigits (track2.discretionaryData.toList.take discretionary) n nibbles
    let (n, nibbles) ← pushNibbles (if n % 2 ≠ 0 then [15] else []) n nibbles
    let bytes ← packNibbles nibbles (n / 2) 0 emvStaging
    return (n / 2, bytes)

/-- The end of `emv_value_encode`. -/
def emvFinish (rule : EmvRule) (count : Nat) (bytes : Bytes) (destination : Option Bytes) :
    CodecResult Encoded :=
  match schemaValidateLength rule.schema count with
  | .error status => .error (.code status)
  | .ok () =>
    match destination with
    | none => .ok (count, none)
    | some data =>
      if data.length < count then .error (.code .bufferTooShort)
      else do
        let staged ← Guarded.slice bytes 0 count
        let data ← Guarded.put data 0 staged
        return (count, some data)

/-- `encode_digits`. -/
def encodeDigits (rule : EmvRule) (digits : Bytes) (destination : Option Bytes) :
    CodecResult Encoded :=
  match schemaValidateLength rule.schema (digits.length / 2 + digits.length % 2) with
  | .error status => .error (.code status)
  | .ok () =>
    if rule.argument ≠ 0 ∧ (digits.length = 0 ∨ digits.length > rule.argument) then
      .error (.code .invalidValue)
    else digitsEncode 0 digits destination

/-- The branches of `emv_value_encode` that stage octets. -/
def emvStageAs (rule : EmvRule) : (kind : EmvKind) → kind.Value → Staged
  | .account, account => stageAccount rule.schema.minLength account
  | .afl, afl => stageAfl afl
  | .biometric, biometric => stageBiometric biometric
  | .cryptogram, info => stageCryptogram rule.schema.minLength info
  | .cvmResult, result => stageCvmResult rule.schema.minLength result
  | .date, date => stageDate rule.schema.minLength date
  | .digits, _ => .error (.code .unsupported)
  | .numberList, list => stageNumberList rule.argument list
  | .time, time => stageTime rule.schema.minLength time
  | .track2, track2 => stageTrack2 track2

/-- `emv_value_encode` for a representation of a kind. -/
def emvEncodeAs (rule : EmvRule) (destination : Option Bytes) :
    (kind : EmvKind) → kind.Value → CodecResult Encoded
  | .digits, digits => encodeDigits rule digits destination
  | kind, value => do
      let (count, bytes) ← emvStageAs rule kind value
      emvFinish rule count bytes destination

/-- `emv_value_encode`. -/
def emvValueEncode (rule : EmvRule) (value : rule.kind.Value) (destination : Option Bytes) :
    CodecResult Encoded :=
  emvEncodeAs rule destination rule.kind value

/-! ## The rules of the dictionary -/

def codecTrack2EquivalentDataRule : EmvRule :=
  ⟨⟨[0x57], 0, 19, 0, some "track2_equivalent_data", 0⟩, .track2, 0⟩

def codecPanRule : EmvRule :=
  ⟨⟨[0x5A], 1, 10, 0, some "pan", 0⟩, .digits, 19⟩

def codecAflRule : EmvRule :=
  ⟨⟨[0x94], 4, 252, 0, some "afl", 4⟩, .afl, 0⟩

def codecTransactionDateRule : EmvRule :=
  ⟨⟨[0x9A], 3, 3, 0, some "transaction_date", 0⟩, .date, 0⟩

def codecApplicationExpirationDateRule : EmvRule :=
  ⟨⟨[0x5F, 0x24], 3, 3, 0, some "application_expiration_date", 0⟩, .date, 0⟩

def codecApplicationEffectiveDateRule : EmvRule :=
  ⟨⟨[0x5F, 0x25], 3, 3, 0, some "application_effective_date", 0⟩, .date, 0⟩

def codecAccountTypeRule : EmvRule :=
  ⟨⟨[0x5F, 0x57], 1, 1, 0, some "account_type", 0⟩, .account, 0⟩

def codecTrack2DiscretionaryDataRule : EmvRule :=
  ⟨⟨[0x9F, 0x20], 0, sizeMax, 0, some "track2_discretionary_data", 0⟩, .digits, 0⟩

def codecTransactionTimeRule : EmvRule :=
  ⟨⟨[0x9F, 0x21], 3, 3, 0, some "transaction_time", 0⟩, .time, 0⟩

def codecCryptogramInformationDataRule : EmvRule :=
  ⟨⟨[0x9F, 0x27], 1, 1, 0, some "cryptogram_information_data", 0⟩, .cryptogram, 0⟩

def codecCvmResultsRule : EmvRule :=
  ⟨⟨[0x9F, 0x34], 3, 3, 0, some "cvm_results", 0⟩, .cvmResult, 0⟩

def codecApplicationReferenceCurrencyRule : EmvRule :=
  ⟨⟨[0x9F, 0x3B], 2, 8, 0, some "application_reference_currency", 2⟩, .numberList, 3⟩

def codecApplicationReferenceCurrencyExponentRule : EmvRule :=
  ⟨⟨[0x9F, 0x43], 1, 4, 0, some "application_reference_currency_exponent", 0⟩, .numberList, 1⟩

def codecBiometricTypeRule : EmvRule :=
  ⟨⟨[0x81], 1, 3, 0, some "biometric_type", 0⟩, .biometric, 0⟩

def codecVerificationBiometricTypeRule : EmvRule :=
  ⟨⟨[0x81], 1, 3, 0, some "verification_biometric_type", 0⟩, .biometric, 0⟩

/-- The rules of the dictionary with a codec of this module. -/
def emvValueRules : List EmvRule :=
  [codecTrack2EquivalentDataRule, codecPanRule, codecAflRule, codecTransactionDateRule,
    codecApplicationExpirationDateRule, codecApplicationEffectiveDateRule, codecAccountTypeRule,
    codecTrack2DiscretionaryDataRule, codecTransactionTimeRule,
    codecCryptogramInformationDataRule, codecCvmResultsRule,
    codecApplicationReferenceCurrencyRule, codecApplicationReferenceCurrencyExponentRule,
    codecBiometricTypeRule, codecVerificationBiometricTypeRule]

end OpenTlv
