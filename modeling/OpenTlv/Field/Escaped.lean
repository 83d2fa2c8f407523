import OpenTlv.Field.Fixed

/-!
# Escaped counts

The count of `field/escaped.c`: one octet below the escape, or the escape followed by an
extended count of fixed width.
-/

namespace OpenTlv

/-- `tlv_escaped_length_t`. -/
structure EscapedLength where
  escape : UInt8
  extendedSize : Nat
  byteOrder : ByteOrder
  minExtended : Nat
  maxLength : Nat
  deriving Repr, DecidableEq

/-- `validate_length`. -/
def validateLength (config : EscapedLength) : Except Status Unit :=
  if config.escape = 0 ∨ config.extendedSize = 0 ∨ config.extendedSize > 8 ∨
      config.minExtended > config.escape.toNat ∨ config.maxLength < config.escape.toNat ∨
      (config.extendedSize < 8 ∧ config.maxLength ≥ 1 <<< (8 * config.extendedSize)) then
    .error .invalidArg
  else if config.byteOrder ≠ .bigEndian ∧ config.byteOrder ≠ .littleEndian then
    .error .invalidArg
  else .ok ()

/-- `tlv_escaped_length_read`. -/
def escapedLengthRead (config : EscapedLength) : ReadLength := fun data =>
  match validateLength config with
  | .error status => ⟨.error status, 0⟩
  | .ok () =>
    match data with
    | [] => ⟨.error .truncated, 0⟩
    | first :: rest =>
      if first > config.escape then ⟨.error .invalidLength, 1⟩
      else if first < config.escape then ⟨.ok first.toNat, 1⟩
      else
        let width := 1 + config.extendedSize
        if data.length < width then ⟨.error .truncated, data.length⟩
        else
          match readUint rest config.extendedSize config.byteOrder with
          | .error status => ⟨.error status, width⟩
          | .ok value =>
            if value < config.minExtended ∨ value > config.maxLength then
              ⟨.error .invalidLength, width⟩
            else ⟨.ok value, width⟩

/-- `tlv_escaped_length_write`. -/
def escapedLengthWrite (config : EscapedLength) : WriteLength := fun length capacity =>
  match validateLength config with
  | .error status => .error status
  | .ok () =>
    if length > config.maxLength then .error .invalidLength
    else
      let width := if length < config.escape.toNat then 1 else 1 + config.extendedSize
      match capacity with
      | none => .ok ([], width)
      | some room =>
        if room < width then .error .bufferTooShort
        else if width > 1 then
          match writeUint config.extendedSize config.byteOrder length with
          | .error status => .error status
          | .ok octets => .ok (config.escape :: octets, width)
        else .ok ([UInt8.ofNat length], width)

section Law

variable {config : EscapedLength}

/-- What a valid configuration of lengths satisfies. -/
theorem validate_length_eq_ok (h : validateLength config = .ok ()) :
    1 ≤ config.extendedSize ∧ config.extendedSize ≤ 8 ∧
      config.minExtended ≤ config.escape.toNat ∧
      ¬ (config.extendedSize < 8 ∧ config.maxLength ≥ 1 <<< (8 * config.extendedSize)) ∧
      config.byteOrder ≠ .unknown := by
  unfold validateLength at h
  obtain ⟨hconfig, h⟩ := guard_ok.mp h
  obtain ⟨horder, h⟩ := guard_ok.mp h
  simp only [not_or] at hconfig
  obtain ⟨-, hzero, hsize, hmin, -, hmax⟩ := hconfig
  refine ⟨by omega, by omega, by omega, hmax, ?_⟩
  intro hunknown
  exact horder (by simp [hunknown])

/-- A count below the escape is one octet. -/
theorem escaped_length_read_short (h : validateLength config = .ok ()) {length : Nat}
    (hlength : length < config.escape.toNat) (rest : Bytes) :
    escapedLengthRead config (UInt8.ofNat length :: rest) = ⟨.ok length, 1⟩ := by
  have hoctet : (UInt8.ofNat length).toNat = length := by
    have := config.escape.toNat_lt
    simp
    omega
  have hlt : UInt8.ofNat length < config.escape := by
    rw [UInt8.lt_iff_toNat_lt, hoctet]
    exact hlength
  have hgt : ¬ UInt8.ofNat length > config.escape := by
    rw [gt_iff_lt, UInt8.lt_iff_toNat_lt, hoctet]
    omega
  simp only [escapedLengthRead, h, if_neg hgt, if_pos hlt, hoctet]

/-- Any other count within the limit is extended. -/
theorem escaped_length_read_extended (h : validateLength config = .ok ()) {length : Nat}
    {octets : Bytes} (hlow : ¬ length < config.escape.toNat) (hmax : ¬ length > config.maxLength)
    (hfits : length < 256 ^ config.extendedSize)
    (huint : writeUint config.extendedSize config.byteOrder length = .ok octets)
    (rest : Bytes) :
    escapedLengthRead config (config.escape :: octets ++ rest) =
      ⟨.ok length, 1 + config.extendedSize⟩ := by
  obtain ⟨-, -, hmin, -, -⟩ := validate_length_eq_ok h
  have hread := read_uint_write_uint huint hfits rest
  have hoctets : octets.length = config.extendedSize := by
    obtain ⟨-, -, -, rfl⟩ := write_uint_eq_ok huint
    simp
  have hroom : ¬ (octets ++ rest).length + 1 < 1 + config.extendedSize := by
    simp [hoctets]
    omega
  have hrange : ¬ (length < config.minExtended ∨ length > config.maxLength) := by omega
  have hirrefl : ¬ config.escape < config.escape := by simp
  simp only [escapedLengthRead, h, List.cons_append, List.length_cons, gt_iff_lt, if_neg hirrefl,
    if_neg hroom, hread]
  rw [if_neg hrange]

/-- A validated escaped count obeys the count law. -/
theorem escaped_length_law (h : validateLength config = .ok ()) :
    LengthLaw (escapedLengthRead config) (escapedLengthWrite config) := by
  obtain ⟨hlow, hhigh, -, hmaxfits, horder⟩ := validate_length_eq_ok h
  intro length stored width hlength hwrite
  simp only [escapedLengthWrite, h] at hwrite
  obtain ⟨hmax, hwrite⟩ := guard_ok.mp hwrite
  cases hwrite
  rcases Nat.lt_or_ge length config.escape.toNat with hshort | hlong
  · refine ⟨[UInt8.ofNat length], by simp [hshort], ?_, ?_⟩
    · simp [escapedLengthWrite, h, hmax, hshort]
    · intro rest
      rw [if_pos hshort]
      exact escaped_length_read_short h hshort rest
  · have hextended : ¬ length < config.escape.toNat := by omega
    have hrange : ¬ (config.extendedSize < 8 ∧ length ≥ 1 <<< (8 * config.extendedSize)) := by
      rintro ⟨hsmall, hge⟩
      exact hmaxfits ⟨hsmall, by omega⟩
    have hfits : length < 256 ^ config.extendedSize :=
      fixed_length_fits hhigh hlength hrange
    have huint := write_uint_of_fits hlow hhigh horder hfits
    refine ⟨config.escape :: config.byteOrder.significant
      (Octets.digits config.extendedSize length).reverse, ?_, ?_, ?_⟩
    · simp [hextended]
      omega
    · have hwide : 1 + config.extendedSize > 1 := by omega
      simp only [escapedLengthWrite, h, if_neg hmax, if_neg hextended, if_pos hwide,
        Nat.lt_irrefl, if_false, huint]
    · intro rest
      rw [if_neg hextended]
      exact escaped_length_read_extended h hextended hmax hfits huint rest

end Law

end OpenTlv
