import OpenTlv.Field.Minimal
import OpenTlv.Formats.Stability
import OpenTlv.Lib.BitRange

/-!
# Packed headers read back

A packed field is a range of the bits of its storage, so a write replaces that range and keeps
every other bit of the buffer. The two fields of a layout are disjoint: the header that the
encoder writes one after the other holds both, and the decoder finds the element again.
-/

namespace OpenTlv

section Field

variable {field : PackedField} {data octets : Bytes} {value : Nat}

/-- The integer in the storage of a field. -/
def PackedField.storage (field : PackedField) (data : Bytes) : Nat :=
  Octets.fold (field.byteOrder.significant (data.take field.storageSize))

/-- The place of a bit of an octet in the storage. -/
def PackedField.place (field : PackedField) (index bit : Nat) : Nat :=
  8 * (if field.byteOrder = .littleEndian then index else field.storageSize - 1 - index) + bit

/-- What a field owes that passes `packed_validate`. -/
structure PackedField.Valid (field : PackedField) : Prop where
  size_pos : 1 ≤ field.storageSize
  size_le : field.storageSize ≤ 8
  width_pos : 1 ≤ field.bitWidth
  inside : field.bitOffset + field.bitWidth ≤ 8 * field.storageSize
  order : field.byteOrder = .bigEndian ∨ field.byteOrder = .littleEndian

/-- The check of a packed field decides its validity. -/
theorem packed_validate_iff : packedValidate field = .ok () ↔ field.Valid := by
  unfold packedValidate
  constructor
  · intro h
    obtain ⟨hbounds, h⟩ := guard_ok.mp h
    split at h
    · cases h
    next horder => exact ⟨by omega, by omega, by omega, by omega, by tauto⟩
  · rintro ⟨hpositive, hsize, hwidth, hinside, horder⟩
    rw [if_neg (by omega), if_neg (by tauto)]

theorem PackedField.Valid.known (h : field.Valid) : field.byteOrder ≠ .unknown := by
  intro hunknown
  rcases h.order with horder | horder <;> rw [horder] at hunknown <;> cases hunknown

theorem storage_lt (hlength : field.storageSize ≤ data.length) :
    field.storage data < 2 ^ (8 * field.storageSize) := by
  have hfits := Octets.fold_lt (field.byteOrder.significant (data.take field.storageSize))
  rw [significant_length, List.length_take, Nat.min_eq_left hlength] at hfits
  rw [Nat.pow_mul]
  exact hfits

theorem read_uint_storage (h : field.Valid) :
    readUint data field.storageSize field.byteOrder = .ok (field.storage data) := by
  have hpositive := h.size_pos
  have hsize := h.size_le
  unfold readUint
  rw [if_neg (by omega), if_neg h.known]
  rfl

/-- A valid field reads its range of bits. -/
theorem packed_field_read_eq (h : field.Valid) (hlength : field.storageSize ≤ data.length) :
    packedFieldRead field data =
      .ok (BitRange.extract (field.storage data) field.bitOffset field.bitWidth) := by
  unfold packedFieldRead
  rw [packed_validate_iff.mpr h]
  dsimp only
  rw [if_neg (by omega), read_uint_storage h]
  rfl

/-- The storage of octets in front of others. -/
theorem storage_append (hlength : octets.length = field.storageSize) (rest : Bytes) :
    field.storage (octets ++ rest) = field.storage octets := by
  unfold PackedField.storage
  rw [List.take_left' hlength, List.take_of_length_le (by omega)]

/-- A value that fits is written: the range of bits is replaced. -/
theorem packed_field_write_eq (h : field.Valid) (hlength : field.storageSize ≤ data.length)
    (hvalue : value < 2 ^ field.bitWidth) :
    ∃ octets, packedFieldWrite field data value = .ok octets ∧
      octets.length = field.storageSize ∧
      field.storage octets =
        BitRange.insert (field.storage data) field.bitOffset field.bitWidth value := by
  obtain ⟨after, hafter⟩ : ∃ after, after =
      BitRange.insert (field.storage data) field.bitOffset field.bitWidth value := ⟨_, rfl⟩
  have hfits : after < 256 ^ field.storageSize := by
    have hbits := BitRange.insert_lt (storage_lt hlength) hvalue h.inside
    rw [← hafter, Nat.pow_mul] at hbits
    exact hbits
  have hwritten := write_uint_of_fits h.size_pos h.size_le h.known hfits
  refine ⟨field.byteOrder.significant (Octets.digits field.storageSize after).reverse,
    ?_, ?_, ?_⟩
  · unfold packedFieldWrite packedMask
    rw [packed_validate_iff.mpr h]
    dsimp only
    rw [if_neg (by omega), if_neg (by omega), read_uint_storage h]
    rw [hafter] at hwritten ⊢
    exact hwritten
  · rw [significant_length, List.length_reverse, Octets.digits_length]
  · have hread := read_uint_write_uint hwritten hfits []
    rw [List.append_nil, read_uint_storage h] at hread
    rw [← hafter]
    exact Except.ok.inj hread

/-- A bit of the storage is the bit of an octet. -/
theorem storage_bit (h : field.Valid) (hlength : field.storageSize ≤ data.length)
    {index bit : Nat} (hindex : index < field.storageSize) (hbit : bit < 8) :
    (field.storage data).testBit (field.place index bit) =
      (data.getD index 0).toNat.testBit bit := by
  have htake : (data.take field.storageSize).length = field.storageSize := by
    rw [List.length_take, Nat.min_eq_left hlength]
  have hoctet : (data.take field.storageSize).getD index 0 = data.getD index 0 := by
    rw [List.getD_eq_getElem?_getD, List.getD_eq_getElem?_getD, List.getElem?_take_of_lt hindex]
  unfold PackedField.storage PackedField.place ByteOrder.significant
  rcases h.order with horder | horder
  · rw [horder, if_pos rfl, if_neg (by decide), ← hoctet]
    have hfold := @BitRange.test_bit_fold (data.take field.storageSize) index bit (by omega) hbit
    rw [htake] at hfold
    exact hfold
  · have hmirror : field.storageSize - 1 - (field.storageSize - 1 - index) = index := by omega
    have hfold := @BitRange.test_bit_fold (data.take field.storageSize).reverse
      (field.storageSize - 1 - index) bit (by rw [List.length_reverse]; omega) hbit
    rw [List.length_reverse, htake, List.getD_eq_getElem?_getD,
      List.getElem?_reverse (by omega), htake, hmirror, ← List.getD_eq_getElem?_getD] at hfold
    rw [horder, if_neg (by decide), if_pos rfl, ← hoctet]
    exact hfold

/-- A write reads back, and keeps every bit of the buffer outside of the field. -/
theorem packed_field_round_trip (h : field.Valid) (hlength : field.storageSize ≤ data.length)
    (hvalue : value < 2 ^ field.bitWidth) :
    ∃ octets, packedFieldWrite field data value = .ok octets ∧
      packedFieldRead field (Octets.store data 0 octets) = .ok value ∧
      (Octets.store data 0 octets).length = data.length ∧
      ∀ index bit, bit < 8 →
        (field.storageSize ≤ index ∨ field.place index bit < field.bitOffset ∨
          field.bitOffset + field.bitWidth ≤ field.place index bit) →
        ((Octets.store data 0 octets).getD index 0).toNat.testBit bit =
          (data.getD index 0).toNat.testBit bit := by
  obtain ⟨octets, hwrite, hsize, hstorage⟩ := packed_field_write_eq h hlength hvalue
  have hbuffer : Octets.store data 0 octets = octets ++ data.drop field.storageSize := by
    unfold Octets.store
    rw [List.take_zero, List.nil_append, Nat.zero_add, hsize]
  have hextent : (octets ++ data.drop field.storageSize).length = data.length := by
    rw [List.length_append, List.length_drop]
    omega
  refine ⟨octets, hwrite, ?_, by rw [hbuffer, hextent], fun index bit hbit houtside => ?_⟩
  · rw [hbuffer, packed_field_read_eq h (by rw [hextent]; exact hlength),
      storage_append hsize, hstorage, BitRange.extract_insert _ _ hvalue]
  · rw [hbuffer]
    by_cases hindex : index < field.storageSize
    · rw [← storage_bit h hlength hindex hbit,
        ← storage_bit h (by rw [hextent]; exact hlength) hindex hbit, storage_append hsize,
        hstorage, BitRange.test_bit_insert _ _ _ hvalue, if_neg (by omega)]
    · rw [List.getD_eq_getElem?_getD, List.getElem?_append_right (by omega), List.getElem?_drop,
        ← List.getD_eq_getElem?_getD]
      congr 3
      omega

end Field

section Layout

variable {f : PackedLayout} {element : Element} {destination stored : Bytes} {used : Nat}

/-- What a layout owes that passes `tlv_packed_layout_validate`. -/
structure PackedLayout.Valid (f : PackedLayout) : Prop where
  tag : f.tag.Valid
  length : f.length.Valid
  tag_size : f.tag.storageSize = f.headerSize
  length_size : f.length.storageSize = f.headerSize
  order : f.tag.byteOrder = f.length.byteOrder
  apart : f.length.bitOffset + f.length.bitWidth ≤ f.tag.bitOffset ∨
    f.tag.bitOffset + f.tag.bitWidth ≤ f.length.bitOffset
  tag_pos : 1 ≤ f.tagSize
  tag_le : f.tagSize ≤ 8
  entries : 2 ^ f.tag.bitWidth * f.tagSize ≤ f.tagStorage.length

/-- A checked layout is valid. -/
theorem packed_layout_valid (h : packedLayoutValidate f = .ok ()) : f.Valid := by
  obtain ⟨htagSize, hlengthSize⟩ := packed_layout_validate_eq_ok h
  unfold packedLayoutValidate at h
  obtain ⟨-, h⟩ := guard_ok.mp h
  cases htag : packedValidate f.tag with
  | error status =>
    rw [htag] at h
    cases h
  | ok _ =>
    rw [htag] at h
    cases hlength : packedValidate f.length with
    | error status =>
      rw [hlength] at h
      cases h
    | ok _ =>
      rw [hlength] at h
      dsimp only at h
      obtain ⟨hlayout, h⟩ := guard_ok.mp h
      obtain ⟨-, h⟩ := guard_ok.mp h
      split at h
      · cases h
      · split at h
        · cases h
        next hentries =>
          have htagValid := packed_validate_iff.mp htag
          have hwidth := htagValid.width_pos
          exact ⟨htagValid, packed_validate_iff.mp hlength, htagSize, hlengthSize,
            by tauto, by omega, by omega, by omega, by omega⟩

/-- Both fields lie in one integer. -/
theorem PackedLayout.Valid.storage (h : f.Valid) (header : Bytes) :
    f.tag.storage header = f.length.storage header := by
  unfold PackedField.storage
  rw [h.order, h.tag_size, h.length_size]

/-- The table has the big-endian spelling of every tag at its place. -/
def PackedLayout.Canonical (f : PackedLayout) : Prop :=
  ∀ type, type < 2 ^ f.tag.bitWidth →
    readUint ((f.tagStorage.drop (type * f.tagSize)).take f.tagSize) f.tagSize .bigEndian =
      .ok type

/-- The entry of a tag has the size of a tag. -/
theorem entry_length (h : f.Valid) {type : Nat} (htype : type < 2 ^ f.tag.bitWidth) :
    ((f.tagStorage.drop (type * f.tagSize)).take f.tagSize).length = f.tagSize := by
  have hentries := h.entries
  have hnext : (type + 1) * f.tagSize ≤ 2 ^ f.tag.bitWidth * f.tagSize :=
    Nat.mul_le_mul_right _ htype
  rw [Nat.add_mul, Nat.one_mul] at hnext
  rw [List.length_take, List.length_drop]
  omega

/-- Tags of one size with one number are one tag. -/
theorem tag_of_number {first second : Bytes} {size type : Nat} (hfirst : first.length = size)
    (hsecond : second.length = size) (h : readUint first size .bigEndian = .ok type)
    (hsame : readUint second size .bigEndian = .ok type) : first = second := by
  have hwritten := (write_uint_read_uint h (by omega)).2
  have hother := (write_uint_read_uint hsame (by omega)).2
  rw [hwritten, List.take_of_length_le (by omega), List.take_of_length_le (by omega)] at hother
  exact Except.ok.inj hother

/-- The octets of the identifier that the packed count includes. -/
def PackedLayout.overhead (f : PackedLayout) : Nat :=
  if f.lengthScope = .tagAndValue then (packedEnvelope f.tag).size else 0

/-- A measured element has the tag of a number and a count that fit their fields. -/
theorem packed_measure_eq_ok {sizes : Encoding} (h : packedMeasure f element = .ok sizes) :
    f.Valid ∧ sizes.total = f.headerSize + element.value.length ∧
      ∃ type, readUint element.tag f.tagSize .bigEndian = .ok type ∧
        element.tag.length = f.tagSize ∧ type < 2 ^ f.tag.bitWidth ∧
        element.value.length + f.overhead < 2 ^ f.length.bitWidth := by
  unfold packedMeasure at h
  split at h
  · cases h
  next hlayout =>
    have hvalid := packed_layout_valid hlayout
    have htagPos := hvalid.tag_pos
    have htagLe := hvalid.tag_le
    have hmask : ∀ width, 0 < 2 ^ width := Nat.two_pow_pos
    have htagMask := hmask f.tag.bitWidth
    have hlengthMask := hmask f.length.bitWidth
    split at h
    · cases h
    next hsize =>
      have hnumber : ∃ type, readUint element.tag f.tagSize .bigEndian = .ok type := by
        unfold readUint
        rw [if_neg (by omega), if_neg (by decide)]
        exact ⟨_, rfl⟩
      obtain ⟨type, htype⟩ := hnumber
      rw [htype] at h
      split at h
      · cases h
      next hfits =>
        change (if f.overhead > packedMask f.length.bitWidth ∨
            element.value.length > packedMask f.length.bitWidth - f.overhead ∨
            element.value.length > sizeMax - f.headerSize then _ else _) = _ at h
        have hsmall : ¬ type > packedMask f.tag.bitWidth := hfits
        unfold packedMask at h hsmall
        split at h
        · cases h
        next hcount =>
          cases h
          exact ⟨hvalid, rfl, type, htype, not_not.mp hsize, by omega, by omega⟩

/-- The packed encoder leaves a header that holds both fields, and the value. -/
theorem packed_encode_eq_ok (h : packedEncode f element destination = .ok (stored, used)) :
    f.Valid ∧ used = f.headerSize + element.value.length ∧
      ∃ type header, readUint element.tag f.tagSize .bigEndian = .ok type ∧
        element.tag.length = f.tagSize ∧ type < 2 ^ f.tag.bitWidth ∧
        header.length = f.headerSize ∧ stored.take used = header ++ element.value ∧
        packedFieldRead f.tag header = .ok type ∧
        packedFieldRead f.length header = .ok (element.value.length + f.overhead) := by
  unfold packedEncode at h
  split at h
  · cases h
  next sizes hsizes =>
    obtain ⟨hvalid, htotal, type, htype, htagSize, htypeLt, hcountLt⟩ :=
      packed_measure_eq_ok hsizes
    obtain ⟨hroom, h⟩ := guard_ok.mp h
    have hempty : f.tag.storageSize ≤ (List.replicate f.headerSize (0 : UInt8)).length := by
      rw [List.length_replicate, hvalid.tag_size]
    obtain ⟨first, hfirst, hfirstSize, hfirstStorage⟩ :=
      packed_field_write_eq hvalid.tag hempty htypeLt
    have hmiddle : f.length.storageSize ≤ first.length := by
      rw [hfirstSize, hvalid.tag_size, hvalid.length_size]
    obtain ⟨header, hsecond, hsecondSize, hsecondStorage⟩ :=
      packed_field_write_eq hvalid.length hmiddle hcountLt
    rw [hvalid.length_size] at hsecondSize
    rw [htype] at h
    change Except.ok (Octets.store destination 0
      ((packedFieldWrite f.length ((packedFieldWrite f.tag (List.replicate f.headerSize 0)
        type).toOption.getD (List.replicate f.headerSize 0))
        (element.value.length + f.overhead)).toOption.getD _ ++ element.value), sizes.total) =
      _ at h
    rw [hfirst] at h
    change Except.ok (Octets.store destination 0
      ((packedFieldWrite f.length first (element.value.length + f.overhead)).toOption.getD _ ++
        element.value), sizes.total) = _ at h
    rw [hsecond] at h
    cases h
    refine ⟨hvalid, htotal, type, header, htype, htagSize, htypeLt, hsecondSize, ?_, ?_, ?_⟩
    · have htake := @Octets.take_store destination [] (header ++ element.value) 0 rfl rfl
      rw [Nat.zero_add, List.nil_append, List.length_append, hsecondSize, ← htotal] at htake
      exact htake
    · -- the second write replaces a range beside the first one
      have hapart := hvalid.apart
      rw [packed_field_read_eq hvalid.tag (by rw [hsecondSize, hvalid.tag_size]),
        hvalid.storage, hsecondStorage,
        BitRange.extract_insert_disjoint _ hcountLt (by omega), ← hvalid.storage,
        hfirstStorage, BitRange.extract_insert _ _ htypeLt]
    · rw [packed_field_read_eq hvalid.length (by rw [hsecondSize, hvalid.length_size]),
        hsecondStorage, BitRange.extract_insert _ _ hcountLt]

/-- What the packed encoder writes, the packed decoder reads back in front of anything. -/
theorem packed_encode_decode (hlayout : packedLayoutValidate f = .ok ()) (hcanonical : f.Canonical)
    (h : packedEncode f element destination = .ok (stored, used)) (suffix : Bytes) :
    ∃ decoded, packedDecode f (stored.take used ++ suffix) = .ok decoded ∧
      decoded.tag.bytes = element.tag ∧ decoded.value.bytes = element.value ∧
      decoded.source.size = used := by
  obtain ⟨hvalid, hused, type, header, htype, htagSize, htypeLt, hheader, hstored, htagRead,
    hlengthRead⟩ := packed_encode_eq_ok h
  have hentry : (f.tagStorage.drop (type * f.tagSize)).take f.tagSize = element.tag :=
    tag_of_number (entry_length hvalid htypeLt) htagSize (hcanonical type htypeLt) htype
  obtain ⟨data, hdata⟩ : ∃ data, data = header ++ (element.value ++ suffix) := ⟨_, rfl⟩
  have hlength : data.length = f.headerSize + (element.value.length + suffix.length) := by
    rw [hdata, List.length_append, List.length_append, hheader]
  have hdrop : data.drop f.headerSize = element.value ++ suffix := by
    rw [hdata, List.drop_left' hheader]
  have htag : packedFieldRead f.tag data = .ok type := by
    rw [hdata, packed_field_read_append _ (by rw [hheader, hvalid.tag_size]), htagRead]
  have hcount : packedFieldRead f.length data = .ok (element.value.length + f.overhead) := by
    rw [hdata, packed_field_read_append _ (by rw [hheader, hvalid.length_size]), hlengthRead]
  have hvalue : packedCount f (element.value.length + f.overhead) = .ok element.value.length := by
    unfold packedCount PackedLayout.overhead
    dsimp only
    split
    · rw [if_neg (by omega), Nat.add_sub_cancel]
    · rfl
  rw [hstored, List.append_assoc, ← hdata]
  unfold packedDecode
  rw [hlayout]
  dsimp only
  rw [if_neg (by omega), htag, hcount]
  show ∃ decoded, (packedCount f (element.value.length + f.overhead) >>= fun count =>
    packedElement f data type count) = .ok decoded ∧ _
  rw [hvalue]
  show ∃ decoded, packedElement f data type element.value.length = .ok decoded ∧ _
  unfold packedElement
  dsimp only
  rw [if_neg (by omega), hentry, htype, if_neg (by simp), hdrop]
  exact ⟨_, rfl, rfl, by rw [List.take_left], by rw [hused]⟩

end Layout

/-- Packed headers round trip: over every layout with a canonical table what is written reads
back, and a written field holds its value while every other bit of the buffer stays. -/
theorem packed_round_trip :
    (∀ (f : PackedLayout) (element : Element) (destination stored : Bytes) (used : Nat),
      packedLayoutValidate f = .ok () → f.Canonical →
      packedEncode f element destination = .ok (stored, used) → ∀ suffix : Bytes,
        ∃ decoded, packedDecode f (stored.take used ++ suffix) = .ok decoded ∧
          decoded.tag.bytes = element.tag ∧ decoded.value.bytes = element.value ∧
          decoded.source.size = used) ∧
    ∀ (field : PackedField) (data : Bytes) (value : Nat), packedValidate field = .ok () →
      field.storageSize ≤ data.length → value ≤ packedMask field.bitWidth →
      ∃ octets, packedFieldWrite field data value = .ok octets ∧
        packedFieldRead field (Octets.store data 0 octets) = .ok value ∧
        (Octets.store data 0 octets).length = data.length ∧
        ∀ index bit, bit < 8 →
          (field.storageSize ≤ index ∨ field.place index bit < field.bitOffset ∨
            field.bitOffset + field.bitWidth ≤ field.place index bit) →
          ((Octets.store data 0 octets).getD index 0).toNat.testBit bit =
            (data.getD index 0).toNat.testBit bit := by
  refine ⟨fun f element destination stored used hlayout hcanonical h suffix =>
    packed_encode_decode hlayout hcanonical h suffix, fun field data value h hlength hvalue => ?_⟩
  have hmask := Nat.two_pow_pos field.bitWidth
  unfold packedMask at hvalue
  exact packed_field_round_trip (packed_validate_iff.mp h) hlength (by omega)

/-- A tag of two bits and a count of six in one octet. -/
def packedOctet : PackedLayout :=
  { headerSize := 1
    tag := ⟨1, 6, 2, .bigEndian⟩
    length := ⟨1, 0, 6, .bigEndian⟩
    lengthScope := .tagAndValue
    tagStorage := [0, 1, 2, 3]
    tagSize := 1 }

/-- Tag 2 with one octet of content, in front of other octets. -/
theorem packed_round_trip_octet :
    packedEncode packedOctet ⟨[2], [0xAA], by decide, by decide⟩ [0, 0] =
        .ok ([0x82, 0xAA], 2) ∧
      ∃ decoded, packedDecode packedOctet ([0x82, 0xAA] ++ [0x07]) = .ok decoded ∧
        decoded.tag.bytes = [2] ∧ decoded.value.bytes = [0xAA] ∧ decoded.source.size = 2 := by
  have hencode : packedEncode packedOctet ⟨[2], [0xAA], by decide, by decide⟩ [0, 0] =
      .ok ([0x82, 0xAA], 2) := by decide
  exact ⟨hencode, packed_round_trip.1 packedOctet _ _ _ 2 (by decide)
    (show ∀ type, type < 4 → _ by decide) hencode [0x07]⟩

end OpenTlv
