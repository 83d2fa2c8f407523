import OpenTlv.Core.Format

/-!
# Field callbacks and the fixed-width fields

The callback contracts of `field/encoding.h` and the fixed-width identifier and count of
`field/fixed.c`. A read reports its outcome together with the extent it inspected, which the
caller sees also on failure. A write either sizes the field, when it has no destination, or
stores into a destination of the given capacity.

`TagLaw` and `LengthLaw` are what a field owes to the composition: what it writes, it reads
back in front of any octets.
-/

namespace OpenTlv

/-- The result of a field read: the decoded value and the inspected extent. -/
structure FieldRead (α : Type) where
  outcome : Except Status α
  consumed : Nat

/-- `tlv_read_tag_fn`. -/
abbrev ReadTag := Bytes → FieldRead Span

/-- `tlv_read_length_fn`. -/
abbrev ReadLength := Bytes → FieldRead Nat

/-- `tlv_write_tag_fn`: the capacity is absent for a size query. -/
abbrev WriteTag := Bytes → Option Nat → Except Status (Bytes × Nat)

/-- `tlv_write_length_fn`. -/
abbrev WriteLength := Nat → Option Nat → Except Status (Bytes × Nat)

/-- The common tail of the write callbacks: nothing is stored for a size query, and a
destination must have room for the field. -/
def storeField (bytes : Bytes) (capacity : Option Nat) : Except Status (Bytes × Nat) :=
  match capacity with
  | none => .ok ([], bytes.length)
  | some room =>
    if room < bytes.length then .error .bufferTooShort else .ok (bytes, bytes.length)

/-- An identifier field writes only what it reads back. -/
def TagLaw (read : ReadTag) (write : WriteTag) : Prop :=
  ∀ tag stored width, write tag none = .ok (stored, width) →
    tag ≠ [] ∧ width = tag.length ∧
      (∀ room, width ≤ room → write tag (some room) = .ok (tag, width)) ∧
      ∀ rest, read (tag ++ rest) = ⟨.ok ⟨tag, some 0⟩, width⟩

/-- A count field writes a 64-bit count only in a form that it reads back. -/
def LengthLaw (read : ReadLength) (write : WriteLength) : Prop :=
  ∀ length stored width, length ≤ sizeMax → write length none = .ok (stored, width) →
    ∃ bytes : Bytes, bytes.length = width ∧ write length (some width) = .ok (bytes, width) ∧
      ∀ rest, read (bytes ++ rest) = ⟨.ok length, width⟩

/-- `tlv_fixed_identifier_t`. -/
structure FixedIdentifier where
  size : Nat
  deriving Repr, DecidableEq

/-- `tlv_fixed_length_t`. -/
structure FixedLength where
  size : Nat
  byteOrder : ByteOrder
  deriving Repr, DecidableEq

/-- `fixed_identifier_validate`. -/
def fixedIdentifierValidate (config : FixedIdentifier) : Except Status Unit :=
  if config.size ≠ 0 then .ok () else .error .invalidArg

/-- `fixed_length_validate`. -/
def fixedLengthValidate (config : FixedLength) : Except Status Unit :=
  if config.size = 0 ∨ config.size > 8 then .error .invalidArg
  else if config.byteOrder ≠ .bigEndian ∧ config.byteOrder ≠ .littleEndian then
    .error .invalidArg
  else .ok ()

/-- `tlv_fixed_identifier_read`. -/
def fixedIdentifierRead (config : FixedIdentifier) : ReadTag := fun data =>
  match fixedIdentifierValidate config with
  | .error status => ⟨.error status, 0⟩
  | .ok () =>
    if data.length < config.size then ⟨.error .truncated, data.length⟩
    else ⟨.ok ⟨data.take config.size, some 0⟩, config.size⟩

/-- `tlv_fixed_identifier_write`. -/
def fixedIdentifierWrite (config : FixedIdentifier) : WriteTag := fun tag capacity =>
  match fixedIdentifierValidate config with
  | .error status => .error status
  | .ok () =>
    if tag.length ≠ config.size then .error .invalidTagSize
    else storeField tag capacity

/-- `tlv_fixed_length_read`. -/
def fixedLengthRead (config : FixedLength) : ReadLength := fun data =>
  match fixedLengthValidate config with
  | .error status => ⟨.error status, 0⟩
  | .ok () =>
    if data.length < config.size then ⟨.error .truncated, data.length⟩
    else ⟨readUint data config.size config.byteOrder, config.size⟩

/-- `tlv_fixed_length_write`. -/
def fixedLengthWrite (config : FixedLength) : WriteLength := fun length capacity =>
  match fixedLengthValidate config with
  | .error status => .error status
  | .ok () =>
    if config.size < 8 ∧ length ≥ 1 <<< (8 * config.size) then .error .invalidLength
    else
      match capacity with
      | none => .ok ([], config.size)
      | some room =>
        if room < config.size then .error .bufferTooShort
        else
          match writeUint config.size config.byteOrder length with
          | .error status => .error status
          | .ok bytes => .ok (bytes, config.size)

/-- What a valid configuration of lengths satisfies. -/
theorem fixed_length_validate_eq_ok {config : FixedLength}
    (h : fixedLengthValidate config = .ok ()) :
    1 ≤ config.size ∧ config.size ≤ 8 ∧ config.byteOrder ≠ .unknown := by
  unfold fixedLengthValidate at h
  obtain ⟨hsize, h⟩ := guard_ok.mp h
  obtain ⟨horder, h⟩ := guard_ok.mp h
  refine ⟨by omega, by omega, ?_⟩
  intro hunknown
  exact horder (by simp [hunknown])

/-- The octets of a count that fits the width. -/
theorem write_uint_of_fits {width length : Nat} {order : ByteOrder}
    (hlow : 1 ≤ width) (hhigh : width ≤ 8) (horder : order ≠ .unknown)
    (hfits : length < 256 ^ width) :
    writeUint width order length =
      .ok (order.significant (Octets.digits width length).reverse) := by
  have hshift : length >>> (width * 8) = 0 := by
    rw [Nat.shiftRight_eq_div_pow, Nat.mul_comm, Nat.pow_mul]
    exact Nat.div_eq_of_lt hfits
  simp [writeUint, horder, hshift, show ¬ (width = 0 ∨ width > 8) by omega]

/-- A validated fixed identifier obeys the identifier law. -/
theorem fixed_identifier_law {config : FixedIdentifier}
    (h : fixedIdentifierValidate config = .ok ()) :
    TagLaw (fixedIdentifierRead config) (fixedIdentifierWrite config) := by
  have hsize : config.size ≠ 0 := by
    intro hzero
    simp [fixedIdentifierValidate, hzero] at h
  intro tag stored width hwrite
  simp only [fixedIdentifierWrite, h] at hwrite
  obtain ⟨hlen, hwrite⟩ := guard_ok.mp hwrite
  simp only [ne_eq, not_not] at hlen
  simp only [storeField] at hwrite
  cases hwrite
  refine ⟨?_, rfl, ?_, ?_⟩
  · intro hnil
    exact hsize (by simpa [hnil] using hlen.symm)
  · intro room hroom
    simp [fixedIdentifierWrite, h, hlen, storeField, Nat.not_lt.mpr (hlen ▸ hroom)]
  · intro rest
    have htake : (tag ++ rest).take config.size = tag := List.take_left' hlen
    have hroom : ¬ (tag ++ rest).length < config.size := by simp; omega
    simp only [fixedIdentifierRead, h, hroom, if_false, htake, hlen]

/-- A 64-bit count accepted by the range check fits the width. -/
theorem fixed_length_fits {size length : Nat} (hhigh : size ≤ 8) (hlength : length ≤ sizeMax)
    (h : ¬ (size < 8 ∧ length ≥ 1 <<< (8 * size))) : length < 256 ^ size := by
  have hpow : (1 <<< (8 * size) : Nat) = 256 ^ size := by
    rw [Nat.shiftLeft_eq, Nat.one_mul, Nat.pow_mul]
  rcases Nat.lt_or_eq_of_le hhigh with hlt | rfl
  · rw [← hpow]
    by_contra hcontra
    exact h ⟨hlt, by omega⟩
  · unfold sizeMax at hlength
    omega

/-- A validated fixed count obeys the count law. -/
theorem fixed_length_law {config : FixedLength} (h : fixedLengthValidate config = .ok ()) :
    LengthLaw (fixedLengthRead config) (fixedLengthWrite config) := by
  obtain ⟨hlow, hhigh, horder⟩ := fixed_length_validate_eq_ok h
  intro length stored width hlength hwrite
  simp only [fixedLengthWrite, h] at hwrite
  obtain ⟨hrange, hwrite⟩ := guard_ok.mp hwrite
  cases hwrite
  have hfits := fixed_length_fits hhigh hlength hrange
  have hbytes := write_uint_of_fits hlow hhigh horder hfits
  refine ⟨config.byteOrder.significant (Octets.digits config.size length).reverse,
    by simp, ?_, ?_⟩
  · simp only [fixedLengthWrite, h, hrange, if_false, Nat.lt_irrefl, hbytes]
  · intro rest
    have hread := read_uint_write_uint hbytes hfits rest
    simp [fixedLengthRead, h, hread]

end OpenTlv
