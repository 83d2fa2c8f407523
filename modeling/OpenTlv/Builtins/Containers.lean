import OpenTlv.Formats.Compose
import OpenTlv.Lib.Guarded
import OpenTlv.Reader.Reader

/-!
# Terminated containers

The DHCPv4 options region of `dhcp/container.c` and the Bluetooth advertising data of
`bluetooth/ad_data.c` over the generic reader, with their formats. A DHCPv4 region ends at the first
End option, advertising data at the first zero octet in the place of a length. The loops read the
octets behind a terminator directly, as guarded accesses. Every round of a loop consumes an octet,
so a loop that runs out of steps would be a `fault`.
-/

namespace OpenTlv

/-- `tlv_format_dhcpv4`. -/
def dhcpv4Options : TaggedBinaryComposition :=
  ⟨⟨⟨1⟩, ⟨1, .bigEndian⟩, .tlv, .value⟩, [[0], [255]]⟩

/-- `tlv_format_dhcpv4`. -/
def formatDhcpv4 : Format :=
  { decode := some (taggedBinaryDecode dhcpv4Options)
    measure := some (taggedBinaryMeasure dhcpv4Options)
    encode := some (taggedBinaryEncode dhcpv4Options)
    isConstructed := none }

/-- `bluetooth_ltv_config`. -/
def bluetoothLtvConfig : BinaryComposition :=
  ⟨⟨1⟩, ⟨1, .bigEndian⟩, .ltv, .tagAndValue⟩

/-- `tlv_format_bluetooth_ltv`. -/
def formatBluetoothLtv : Format :=
  { decode := some (binaryDecode bluetoothLtvConfig)
    measure := some (binaryMeasure bluetoothLtvConfig)
    encode := some (binaryEncode bluetoothLtvConfig)
    isConstructed := none }

/-- `tlv_dhcpv4_options_tail_t`. -/
inductive OptionsTail where
  | pad
  | empty
  | ignore
  deriving Repr, DecidableEq

/-- `tlv_dhcpv4_options_rules_t`. -/
structure OptionsRules where
  requireEnd : Bool
  tail : OptionsTail
  deriving Repr, DecidableEq

/-- The rules that a null pointer selects. -/
def optionsDefaultRules : OptionsRules :=
  ⟨true, .pad⟩

/-- What a validator reports: the code, and for its own failures where and what it expected. A
failure of the reader has the reader's diagnostic. -/
structure ContainerFailure where
  status : Status
  offset : Option Nat := none
  expected : Option String := none
  deriving Repr, DecidableEq

/-- A validator stops with a failure or with a fault. -/
abbrev ContainerResult := Except (Stop ContainerFailure)

/-- `failure`. -/
def containerFail {α : Type} (status : Status) (offset : Nat) (expected : String) :
    ContainerResult α :=
  .error (.code ⟨status, some offset, some expected⟩)

/-- The loop over the octets behind a terminator: `remaining` octets from `i` on. -/
def zeroTail (failure : Nat → ContainerFailure) (data : Bytes) : Nat → Nat → ContainerResult Unit
  | 0, _ => .ok ()
  | remaining + 1, i => do
      let octet ← Guarded.octet data i
      if octet ≠ 0 then .error (.code (failure i)) else zeroTail failure data remaining (i + 1)

/-- The check of the tail behind an End option. -/
def checkTail (data : Bytes) (pos : Nat) : OptionsTail → ContainerResult Unit
  | .empty =>
    if pos ≠ data.length then containerFail .schema pos "no bytes after End" else .ok ()
  | .pad =>
    zeroTail (fun i => ⟨.schema, some i, some "zero padding after End"⟩) data
      (data.length - pos) pos
  | .ignore => .ok ()

/-- The loop of `tlv_dhcpv4_options_validate` and its end. -/
def optionsLoop (data : Bytes) (rules : OptionsRules) (maxElements : Nat) :
    Nat → Nat → Reader → ContainerResult Nat
  | 0, _, _ => .error .fault
  | steps + 1, count, reader =>
    if reader.pos = reader.size then
      if rules.requireEnd then containerFail .schema data.length "DHCP End option"
      else .ok data.length
    else if count = maxElements then
      containerFail .limit reader.pos "element count within limit"
    else
      match readerNext formatDhcpv4 reader with
      | .error status => .error (.code ⟨status, none, none⟩)
      | .ok (decoded, reader) => do
          let code ← Guarded.octet decoded.tag.bytes 0
          if code = 255 then do
            checkTail data reader.pos rules.tail
            return reader.pos
          else optionsLoop data rules maxElements steps (count + 1) reader

/-- `tlv_dhcpv4_options_validate`, with the significant size. -/
def dhcpv4OptionsValidate (data : Bytes) (rules : OptionsRules) (maxElements : Nat) :
    ContainerResult Nat :=
  match readerInit formatDhcpv4 data with
  | .error status => containerFail status 0 "readable DHCP options region"
  | .ok reader => optionsLoop data rules maxElements (data.length + 1) 0 reader

/-- The loop of `tlv_bluetooth_ad_data_validate` and its end. -/
def adDataLoop (data : Bytes) : Nat → Reader → ContainerResult Nat
  | 0, _ => .error .fault
  | steps + 1, reader =>
    if reader.pos = reader.size then .ok reader.pos
    else do
      let length ← Guarded.octet data reader.pos
      if length = 0 then do
        zeroTail (fun i => ⟨.invalidValue, some i, none⟩) data (data.length - reader.pos)
          reader.pos
        return reader.pos
      else
        match readerNext formatBluetoothLtv reader with
        | .error status => .error (.code ⟨status, none, none⟩)
        | .ok (_, reader) => adDataLoop data steps reader

/-- `tlv_bluetooth_ad_data_validate`, with the significant size. -/
def bluetoothAdDataValidate (data : Bytes) : ContainerResult Nat :=
  match readerInit formatBluetoothLtv data with
  | .error status => .error (.code ⟨status, none, none⟩)
  | .ok reader => adDataLoop data (data.length + 1) reader

end OpenTlv
