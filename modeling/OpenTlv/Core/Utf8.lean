import OpenTlv.Core.Status

/-!
# UTF-8 validation

The streaming validator of `utf8_internal.c`, one octet at a time. The state holds the octets
of an unfinished code point and the number that complete it.
-/

namespace OpenTlv

/-- `tlv_utf8_stream_t`. -/
structure Utf8Stream where
  pending : Bytes := []
  need : Nat := 0
  deriving Repr, DecidableEq

/-- `utf8_stream_finish_codepoint`: range, overlong and surrogate rules of a collected code
point. -/
def utf8CodepointValid (pending : Bytes) : Bool :=
  match pending with
  | [] => false
  | first :: rest =>
    let (start, least) :=
      if first &&& 0xE0 = 0xC0 then ((first &&& 0x1F).toNat, 0x80)
      else if first &&& 0xF0 = 0xE0 then ((first &&& 0x0F).toNat, 0x800)
      else ((first &&& 0x07).toNat, 0x10000)
    let codepoint := rest.foldl (fun acc octet => (acc <<< 6) ||| (octet &&& 0x3F).toNat) start
    !(codepoint < least || codepoint > 0x10FFFF || (codepoint ≥ 0xD800 && codepoint ≤ 0xDFFF))

/-- One octet of `tlv_utf8_stream_update`. -/
def utf8Step (state : Utf8Stream) (octet : UInt8) : Option Utf8Stream :=
  if state.need = 0 then
    if octet < 0x80 then some state
    else if octet &&& 0xE0 = 0xC0 then some ⟨[octet], 2⟩
    else if octet &&& 0xF0 = 0xE0 then some ⟨[octet], 3⟩
    else if octet &&& 0xF8 = 0xF0 then some ⟨[octet], 4⟩
    else none
  else if octet &&& 0xC0 ≠ 0x80 then none
  else
    let pending := state.pending ++ [octet]
    if pending.length = state.need then
      if utf8CodepointValid pending then some {} else none
    else some { state with pending := pending }

/-- `tlv_utf8_stream_update`. -/
def utf8StreamUpdate (state : Utf8Stream) (value : Bytes) : Option Utf8Stream :=
  value.foldlM utf8Step state

/-- `tlv_utf8_validate`. -/
def utf8Validate (value : Bytes) : Bool :=
  match utf8StreamUpdate {} value with
  | none => false
  | some state => state.need = 0

end OpenTlv
