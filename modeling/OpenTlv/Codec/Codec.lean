import OpenTlv.Lib.Guarded
import OpenTlv.Core.Status

/-!
# Steps and results of value codecs

What the callbacks of `codec.h` share. A codec step is a program over bounded storage. An encoder
reports the number of octets and leaves them at the start of its destination, or it only measures
when there is no destination.
-/

namespace OpenTlv

/-- A step of a value codec. -/
abbrev CodecResult := Except (Stop Status)

/-- What an encoder leaves behind: the number of octets and the destination, when there is
one. -/
abbrev Encoded := Nat × Option Bytes

/-- What an encoder does with octets that it accepts. -/
def stored (bytes : Bytes) : Option Bytes → CodecResult Encoded
  | none => .ok (bytes.length, none)
  | some data =>
    if data.length < bytes.length then .error (.code .bufferTooShort)
    else .ok (bytes.length, some (Octets.store data 0 bytes))

theorem stored_of_le {bytes data : Bytes} (h : bytes.length ≤ data.length) :
    stored bytes (some data) = .ok (bytes.length, some (Octets.store data 0 bytes)) :=
  if_neg (by omega)

theorem stored_of_lt {bytes data : Bytes} (h : data.length < bytes.length) :
    stored bytes (some data) = .error (.code .bufferTooShort) :=
  if_pos h

/-- What a successful store wrote. -/
theorem stored_eq_ok {bytes data : Bytes} {written : Nat} {result : Option Bytes}
    (h : stored bytes (some data) = .ok (written, result)) :
    written = bytes.length ∧ bytes.length ≤ data.length ∧
      result = some (Octets.store data 0 bytes) := by
  by_cases hroom : data.length < bytes.length
  · rw [stored_of_lt hroom] at h
    cases h
  · rw [stored_of_le (by omega)] at h
    obtain ⟨rfl, rfl⟩ := Prod.mk.inj (Except.ok.inj h)
    exact ⟨rfl, by omega, rfl⟩

theorem stored_ne_fault (bytes : Bytes) (destination : Option Bytes) :
    stored bytes destination ≠ .error .fault := by
  cases destination with
  | none => exact fun h => by cases h
  | some data =>
    intro h
    by_cases hroom : data.length < bytes.length
    · rw [stored_of_lt hroom] at h
      cases h
    · rw [stored_of_le (by omega)] at h
      cases h

/-- A codec whose two sides are inverse to each other: what it encodes are the octets of the value,
which are valid and read back as the same value, and what it decodes is encoded as the same
octets. The input of a decoder has a size of the platform. -/
structure Inverse {α : Type} (same : α → α → Prop) (size : Nat) (valid : Bytes → Bool)
    (encode : α → Option Bytes → CodecResult Encoded) (decode : Bytes → Nat → CodecResult α) :
    Prop where
  encoded : ∀ value destination result, encode value destination = .ok result →
    ∃ data, (∀ destination, encode value destination = stored data destination) ∧
      valid data = true ∧ ∀ capacity, size ≤ capacity →
        ∃ decoded, decode data capacity = .ok decoded ∧ same value decoded
  decoded : ∀ (data : Bytes) capacity value, data.length ≤ sizeMax →
    decode data capacity = .ok value →
      ∀ destination, encode value destination = stored data destination

/-- A codec that loses nothing: what it encodes is read back as the same value by a decoder with
room for it, and neither side reads or stores outside of its storage. -/
structure Lossless {α : Type} (same : α → α → Prop) (room : α → Nat → Prop)
    (encode : α → Option Bytes → CodecResult Encoded) (decode : Bytes → Bytes → CodecResult α) :
    Prop where
  readsBack : ∀ value destination written result,
    encode value (some destination) = .ok (written, result) →
      ∃ data, data.length = written ∧ written ≤ destination.length ∧
        result = some (Octets.store destination 0 data) ∧
          ∀ buffer : Bytes, room value buffer.length →
            ∃ decoded, decode data buffer = .ok decoded ∧ same value decoded
  encodeStays : ∀ value destination, encode value destination ≠ .error .fault
  decodeStays : ∀ data buffer, decode data buffer ≠ .error .fault

end OpenTlv
