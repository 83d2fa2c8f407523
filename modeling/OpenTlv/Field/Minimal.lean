import OpenTlv.Field.Variable
import OpenTlv.Field.Escaped

/-!
# Fields with one form

The reverse of `TagLaw` and `LengthLaw`: what a field reads is what it writes. Every
identifier field and the fixed count have this property, the escaped count when the extended
form starts at the escape, and the variable count under a policy of minimal lengths, whichever
of its two forms the policy admits.
-/

namespace OpenTlv

/-- An identifier field reads only what it writes. -/
def TagCanonical (read : ReadTag) (write : WriteTag) : Prop :=
  ∀ data span width, read data = ⟨.ok span, width⟩ →
    span.bytes = data.take width ∧ width ≤ data.length ∧
      write span.bytes none = .ok ([], width)

/-- A count field reads only what it writes. -/
def LengthCanonical (read : ReadLength) (write : WriteLength) : Prop :=
  ∀ data length width, read data = ⟨.ok length, width⟩ →
    width ≤ data.length ∧ length ≤ sizeMax ∧
      ∀ capacity : Option Nat, (∀ room, capacity = some room → width ≤ room) →
        write length capacity = .ok (if capacity.isSome then data.take width else [], width)

/-- A number that was read from a field fits it and is written as it stands. -/
theorem write_uint_read_uint {data : Bytes} {width value : Nat} {order : ByteOrder}
    (h : readUint data width order = .ok value) (hwidth : width ≤ data.length) :
    value < 256 ^ width ∧ writeUint width order value = .ok (data.take width) := by
  unfold readUint at h
  obtain ⟨hbounds, h⟩ := guard_ok.mp h
  obtain ⟨horder, h⟩ := guard_ok.mp h
  have hlength : (order.significant (data.take width)).length = width := by
    rw [significant_length, List.length_take, Nat.min_eq_left hwidth]
  have hfits := Octets.fold_lt (order.significant (data.take width))
  have hdigits := Octets.digits_fold (order.significant (data.take width))
  rw [hlength] at hfits hdigits
  cases h
  refine ⟨hfits, ?_⟩
  rw [write_uint_of_fits (by omega) (by omega) horder hfits, hdigits, List.reverse_reverse,
    significant_significant]

/-- A number of at most eight octets is a size. -/
theorem le_size_max_of_fits {width value : Nat} (hwidth : width ≤ 8) (h : value < 256 ^ width) :
    value ≤ sizeMax := by
  have hpow : 256 ^ width ≤ 256 ^ 8 := Nat.pow_le_pow_right (by norm_num) hwidth
  unfold sizeMax
  omega

section Fixed

/-- A validated fixed identifier reads what it writes. -/
theorem fixed_identifier_canonical {config : FixedIdentifier}
    (h : fixedIdentifierValidate config = .ok ()) :
    TagCanonical (fixedIdentifierRead config) (fixedIdentifierWrite config) := by
  intro data span width hread
  simp only [fixedIdentifierRead, h] at hread
  split at hread
  · cases hread
  next hsize =>
    cases hread
    have hlength : (data.take config.size).length = config.size := by
      rw [List.length_take]
      omega
    refine ⟨rfl, by omega, ?_⟩
    simp only [fixedIdentifierWrite, h, hlength, ne_eq, not_true_eq_false, if_false, storeField]

/-- A validated fixed count reads what it writes. -/
theorem fixed_length_canonical {config : FixedLength}
    (h : fixedLengthValidate config = .ok ()) :
    LengthCanonical (fixedLengthRead config) (fixedLengthWrite config) := by
  obtain ⟨-, hhigh, -⟩ := fixed_length_validate_eq_ok h
  intro data length width hread
  simp only [fixedLengthRead, h] at hread
  split at hread
  · cases hread
  next hsize =>
    obtain ⟨hvalue, rfl⟩ := FieldRead.mk.inj hread
    obtain ⟨hfits, hwrite⟩ := write_uint_read_uint hvalue (by omega)
    have hrange : ¬ (config.size < 8 ∧ length ≥ 1 <<< (8 * config.size)) := by
      rw [Nat.shiftLeft_eq, Nat.one_mul, Nat.pow_mul]
      show ¬ (config.size < 8 ∧ length ≥ 256 ^ config.size)
      omega
    refine ⟨by omega, le_size_max_of_fits hhigh hfits, ?_⟩
    intro capacity hcapacity
    simp only [fixedLengthWrite, h, if_neg hrange]
    cases capacity with
    | none => rfl
    | some room =>
      have hroom : ¬ room < config.size := Nat.not_lt.mpr (hcapacity room rfl)
      dsimp only
      rw [if_neg hroom, hwrite]
      rfl

end Fixed

section Escaped

variable {config : EscapedLength}

/-- A validated escaped count whose extended form starts at the escape reads what it writes. -/
theorem escaped_length_canonical (h : validateLength config = .ok ())
    (hmin : config.minExtended = config.escape.toNat) :
    LengthCanonical (escapedLengthRead config) (escapedLengthWrite config) := by
  obtain ⟨hlow, hhigh, -, -, -⟩ := validate_length_eq_ok h
  have hmaximum : config.escape.toNat ≤ config.maxLength := by
    by_contra hcontra
    simp [validateLength, show config.maxLength < config.escape.toNat by omega] at h
  intro data length width hread
  simp only [escapedLengthRead, h] at hread
  cases data with
  | nil => cases hread
  | cons first rest =>
    dsimp only at hread
    split at hread
    · cases hread
    next habove =>
      split at hread
      next hbelow =>
        -- one octet below the escape
        cases hread
        have hless : first.toNat < config.escape.toNat := UInt8.lt_iff_toNat_lt.mp hbelow
        have hoctet := first.toNat_lt
        refine ⟨by simp, by unfold sizeMax; omega, ?_⟩
        intro capacity hcapacity
        simp only [escapedLengthWrite, h, if_pos hless, Nat.lt_irrefl, if_false,
          if_neg (show ¬ first.toNat > config.maxLength by omega)]
        cases capacity with
        | none => rfl
        | some room =>
          have hroom : ¬ room < 1 := Nat.not_lt.mpr (hcapacity room rfl)
          dsimp only
          rw [if_neg hroom]
          simp
      next hbelow =>
        -- the escape in front of the extended count
        have hescape : first = config.escape := by
          rw [gt_iff_lt, UInt8.lt_iff_toNat_lt] at habove
          rw [UInt8.lt_iff_toNat_lt] at hbelow
          exact UInt8.toNat_inj.mp (by omega)
        split at hread
        · cases hread
        next hroom =>
          split at hread
          · cases hread
          next value huint =>
            split at hread
            · cases hread
            next hrange =>
              cases hread
              rw [List.length_cons] at hroom
              obtain ⟨hfits, hwrite⟩ := write_uint_read_uint huint (by omega)
              have hshort : ¬ length < config.escape.toNat := by omega
              refine ⟨by rw [List.length_cons]; omega, le_size_max_of_fits hhigh hfits, ?_⟩
              intro capacity hcapacity
              simp only [escapedLengthWrite, h, if_neg hshort,
                if_neg (show ¬ length > config.maxLength by omega)]
              cases capacity with
              | none => rfl
              | some room =>
                have hstore : ¬ room < 1 + config.extendedSize :=
                  Nat.not_lt.mpr (hcapacity room rfl)
                dsimp only
                rw [if_neg hstore, if_pos (by omega), hwrite, Nat.add_comm 1,
                  ← hescape]
                rfl

end Escaped

section Identifier

variable {config : VariableIdentifier}

/-- A continuation ends within the permitted size and the data. -/
theorem identifier_continuation_bounds {data : Bytes} {count last consumed : Nat}
    (h : identifierContinuation config data count = ⟨.ok last, consumed⟩)
    (hcount : count ≤ config.maxSize) :
    last = consumed ∧ last ≤ config.maxSize ∧ last ≤ count + data.length := by
  induction data generalizing count with
  | nil =>
    unfold identifierContinuation at h
    split at h <;> cases h
  | cons octet data ih =>
    unfold identifierContinuation at h
    dsimp only at h
    rw [List.length_cons]
    split at h
    · cases h
    next hmax =>
      split at h
      · cases h
      · split at h
        · cases h
          exact ⟨rfl, by omega, by omega⟩
        · obtain ⟨hsame, hsize, hdata⟩ := ih h (by omega)
          exact ⟨hsame, hsize, by omega⟩

/-- A validated variable identifier reads what it writes. -/
theorem variable_identifier_canonical (h : identifierValidate config = .ok ()) :
    TagCanonical (variableIdentifierRead config) (variableIdentifierWrite config) := by
  intro data span width hread
  have htake := variable_identifier_read_take hread
  have hmax : 1 ≤ config.maxSize := by
    by_contra hcontra
    simp [identifierValidate, show config.maxSize = 0 by omega] at h
  have hbounds : span.bytes = data.take width ∧ 0 < width ∧ width ≤ data.length ∧
      width ≤ config.maxSize := by
    unfold variableIdentifierRead at hread
    rw [h] at hread
    dsimp only at hread
    split at hread
    · cases hread
    · split at hread
      · cases hread
      next first rest =>
        split at hread
        · cases hread
        next count consumed hextent =>
          split at hread
          · cases hread
          · cases hread
            obtain ⟨hpositive, -⟩ := identifier_extent_take hextent
            refine ⟨rfl, hpositive, ?_⟩
            rw [List.length_cons]
            unfold identifierExtent at hextent
            split at hextent
            · obtain ⟨-, hsize, hdata⟩ := identifier_continuation_bounds hextent hmax
              exact ⟨by omega, hsize⟩
            · cases hextent
              exact ⟨by omega, hmax⟩
  obtain ⟨hbytes, hpositive, hdata, hsize⟩ := hbounds
  have hlength : (data.take width).length = width := by
    rw [List.length_take]
    omega
  refine ⟨hbytes, hdata, ?_⟩
  rw [hbytes]
  simp only [variableIdentifierWrite, h, hlength, htake,
    if_neg (show ¬ (width = 0 ∨ width > config.maxSize) by omega), ne_eq, not_true_eq_false,
    if_false, storeField]

end Identifier

section Length

variable {config : VariableLength}

/-- The number of octets is determined by the size of the number. -/
theorem octet_count_unique {length count : Nat} (hcount : 0 < count)
    (hlow : 1 < count → 256 ^ (count - 1) ≤ length) (hhigh : length < 256 ^ count) :
    octetCount length = count := by
  obtain ⟨hpositive, hfits, hleast⟩ := octet_count_spec length
  rcases Nat.lt_trichotomy (octetCount length) count with hlt | heq | hgt
  · have hpow : 256 ^ octetCount length ≤ 256 ^ (count - 1) :=
      Nat.pow_le_pow_right (by norm_num) (by omega)
    have := hlow (by omega)
    omega
  · exact heq
  · have hpow : 256 ^ count ≤ 256 ^ (octetCount length - 1) :=
      Nat.pow_le_pow_right (by norm_num) (by omega)
    have := hleast (by omega)
    omega

/-- A checked fold that succeeds is the plain one. -/
theorem fold_checked_some {bytes : Bytes} {start value : Nat}
    (h : foldChecked bytes start = some value) :
    value = bytes.foldl (fun acc octet => (acc <<< 8) ||| octet.toNat) start := by
  induction bytes generalizing start with
  | nil => exact (Option.some.inj h).symm
  | cons octet rest ih =>
    unfold foldChecked at h
    split at h
    · cases h
    · exact ih h

/-- The checked fold never leaves the sizes. -/
theorem fold_checked_le {bytes : Bytes} {start value : Nat}
    (h : foldChecked bytes start = some value) (hstart : start ≤ sizeMax) : value ≤ sizeMax := by
  induction bytes generalizing start with
  | nil =>
    cases h
    exact hstart
  | cons octet rest ih =>
    unfold foldChecked at h
    split at h
    · cases h
    next hroom =>
      apply ih h
      have hoctet := octet.toNat_lt
      have hmax : sizeMax >>> 8 = 2 ^ 56 - 1 := by
        norm_num [sizeMax, Nat.shiftRight_eq_div_pow]
      rw [Octets.shift_or_octet]
      unfold sizeMax
      omega

/-- An octet meets a single bit in nothing or in all of it. -/
theorem and_single_bit {bit octet : UInt8} (hbit : singleBit bit = true)
    (h : octet &&& bit ≠ 0) {position : Nat} (hset : bit.toNat.testBit position = true) :
    octet.toNat.testBit position = true := by
  have hpower : ∀ n : Fin 256, singleBit (UInt8.ofNat n) = true →
      ∃ place : Fin 8, n.val = 2 ^ place.val := by decide +kernel
  obtain ⟨place, hplace⟩ := hpower ⟨bit.toNat, bit.toNat_lt⟩ (by simpa using hbit)
  dsimp only at hplace
  rw [hplace, Nat.testBit_two_pow, decide_eq_true_eq] at hset
  subst hset
  by_contra hclear
  apply h
  apply UInt8.toNat_inj.mp
  rw [UInt8.toNat_and, hplace, Nat.and_two_pow, Bool.eq_false_of_not_eq_true hclear]
  simp

/-- An octet of the short form is its value packed again. -/
theorem short_octet_pack {first : UInt8}
    (hstray : first &&& ~~~(config.longFormBit ||| config.payloadMask) = 0)
    (hform : first &&& config.longFormBit = 0) :
    BitField.pack (BitField.unpack first config.payloadMask) config.payloadMask = first := by
  rw [BitField.pack_unpack]
  apply BitField.eq_of_test_bit
  intro position hlt
  rw [UInt8.toNat_and, Nat.testBit_and]
  cases hset : first.toNat.testBit position with
  | false => rfl
  | true =>
    have hwithin := BitField.test_bit_of_and_complement hstray hlt hset
    rw [UInt8.toNat_or, Nat.testBit_or, BitField.test_bit_of_disjoint hform hset,
      Bool.false_or] at hwithin
    rw [hwithin, Bool.and_self]

/-- An octet of the long form is the bit with its count packed again. -/
theorem long_octet_pack (hbit : singleBit config.longFormBit = true) {first : UInt8}
    (hstray : first &&& ~~~(config.longFormBit ||| config.payloadMask) = 0)
    (hform : first &&& config.longFormBit ≠ 0) :
    config.longFormBit |||
      BitField.pack (BitField.unpack first config.payloadMask) config.payloadMask = first := by
  rw [BitField.pack_unpack]
  apply BitField.eq_of_test_bit
  intro position hlt
  rw [UInt8.toNat_or, Nat.testBit_or, UInt8.toNat_and, Nat.testBit_and]
  cases hlong : config.longFormBit.toNat.testBit position with
  | true => rw [and_single_bit hbit hform hlong, Bool.true_or]
  | false =>
    rw [Bool.false_or]
    cases hset : first.toNat.testBit position with
    | false => rfl
    | true =>
      have hwithin := BitField.test_bit_of_and_complement hstray hlt hset
      rw [UInt8.toNat_or, Nat.testBit_or, hlong, Bool.false_or] at hwithin
      rw [hwithin, Bool.and_self]

variable {policy : LengthPolicy}

/-- A count of short form is written as it was read. -/
theorem variable_length_write_short (h : lengthValidate config = .ok ())
    (hpolicy : config.policy = some policy) {first : UInt8}
    (hstray : first &&& ~~~(config.longFormBit ||| config.payloadMask) = 0)
    (hform : first &&& config.longFormBit = 0) (hshort : policy.allowShort ≠ 0)
    (hvalue : BitField.unpack first config.payloadMask ≤ policy.maxValue)
    (capacity : Option Nat) (hcapacity : ∀ room, capacity = some room → 1 ≤ room) :
    variableLengthWrite config (BitField.unpack first config.payloadMask) capacity =
      .ok (if capacity.isSome then [first] else [], 1) := by
  have hlimit : ¬ (config.policy.any fun policy =>
      BitField.unpack first config.payloadMask > policy.maxValue) = true := by
    rw [hpolicy]
    simpa using hvalue
  have hcount : longFormCount config (BitField.unpack first config.payloadMask) = .ok 0 := by
    have hmaximum := BitField.unpack_le_maximum first config.payloadMask
    unfold longFormCount
    refine if_neg ?_
    rintro (hgreater | hany)
    · omega
    · rw [hpolicy] at hany
      exact hshort (by simpa using hany)
  simp only [variableLengthWrite, h]
  rw [if_neg hlimit, hcount]
  cases capacity with
  | none => rfl
  | some room =>
    have hroom : ¬ room < 0 + 1 := Nat.not_lt.mpr (hcapacity room rfl)
    dsimp only
    rw [if_neg hroom, if_pos rfl, short_octet_pack hstray hform]
    rfl

/-- A count of long form with the fewest octets is written as it was read. -/
theorem variable_length_write_long (h : lengthValidate config = .ok ())
    (hpolicy : config.policy = some policy) {first : UInt8} {octets : Bytes} {length : Nat}
    (hstray : first &&& ~~~(config.longFormBit ||| config.payloadMask) = 0)
    (hform : first &&& config.longFormBit ≠ 0)
    (hcount : BitField.unpack first config.payloadMask = octets.length) (hne : octets ≠ [])
    (hlength : length = Octets.fold (config.byteOrder.significant octets))
    (hmost : length ≤ sizeMax) (hvalue : length ≤ policy.maxValue)
    (hlong : policy.allowLong ≠ 0) (hoctets : octets.length ≤ policy.maxLongOctets)
    (hlonger : policy.allowShort = 0 ∨ BitField.maximum config.payloadMask < length)
    (hhead : octets.length > 1 → (config.byteOrder.significant octets).headD 0 ≠ 0)
    (capacity : Option Nat)
    (hcapacity : ∀ room, capacity = some room → octets.length + 1 ≤ room) :
    variableLengthWrite config length capacity =
      .ok (if capacity.isSome then first :: octets else [], octets.length + 1) := by
  obtain ⟨-, -, horder⟩ := length_validate_eq_ok h
  have hbit : singleBit config.longFormBit = true := by
    unfold lengthValidate at h
    obtain ⟨hmasks, h⟩ := guard_ok.mp h
    simp only [not_or, Bool.not_eq_false] at hmasks
    exact hmasks.1
  have hpositive : 0 < octets.length := List.length_pos_iff.mpr hne
  have hfits : length < 256 ^ octets.length := by
    have hfold := Octets.fold_lt (config.byteOrder.significant octets)
    rwa [← hlength, significant_length] at hfold
  -- a leading octet other than zero makes this width the least one
  have hleast : 1 < octets.length → 256 ^ (octets.length - 1) ≤ length := by
    intro hmany
    have hnonzero := hhead hmany
    have hsize := significant_length config.byteOrder octets
    cases hsignificant : config.byteOrder.significant octets with
    | nil =>
      rw [hsignificant] at hsize
      simp only [List.length_nil] at hsize
      omega
    | cons head rest =>
      rw [hsignificant] at hnonzero hsize hlength
      rw [← hsize, hlength]
      exact Octets.le_fold hnonzero rest
  have hwidth := octet_count_unique hpositive hleast hfits
  have height := octet_count_le hmost
  have hmaximum : octets.length ≤ BitField.maximum config.payloadMask := by
    rw [← hcount]
    exact BitField.unpack_le_maximum first config.payloadMask
  have hlimit : ¬ (config.policy.any fun policy => length > policy.maxValue) = true := by
    rw [hpolicy]
    simpa using hvalue
  have hchosen : longFormCount config length = .ok octets.length := by
    have hlarge : length > BitField.maximum config.payloadMask ∨
        config.policy.any (fun policy => policy.allowShort = 0) = true := by
      rw [hpolicy]
      simpa using hlonger.symm
    have hadmitted : ¬ (config.policy.any fun policy =>
        policy.allowLong = 0 || octets.length > policy.maxLongOctets) = true := by
      rw [hpolicy]
      simpa using ⟨hlong, hoctets⟩
    unfold longFormCount
    rw [if_pos hlarge, hwidth, if_neg (Nat.not_lt.mpr hmaximum), if_neg hadmitted]
  have huint : writeUint octets.length config.byteOrder length = .ok octets := by
    have hdigits := Octets.digits_fold (config.byteOrder.significant octets)
    rw [significant_length, ← hlength] at hdigits
    rw [write_uint_of_fits hpositive (by omega) horder hfits, hdigits, List.reverse_reverse,
      significant_significant]
  simp only [variableLengthWrite, h]
  rw [if_neg hlimit, hchosen]
  cases capacity with
  | none => rfl
  | some room =>
    have hroom : ¬ room < octets.length + 1 := Nat.not_lt.mpr (hcapacity room rfl)
    dsimp only
    rw [if_neg hroom, if_neg (by omega), huint, ← hcount, long_octet_pack hbit hstray hform]
    rfl

/-- What a policy of minimal lengths asks of the long form. -/
theorem long_form_allowed_minimal {octets : Bytes} {value : Nat}
    (hpolicy : config.policy = some policy) (hminimal : policy.requireMinimal ≠ 0)
    (h : longFormAllowed config octets value = true) :
    value ≤ policy.maxValue ∧
      (policy.allowShort = 0 ∨ BitField.maximum config.payloadMask < value) ∧
      (octets.length > 1 → octets.headD 0 ≠ 0) := by
  unfold longFormAllowed at h
  rw [hpolicy] at h
  simp only [Bool.not_eq_true', Bool.or_eq_false_iff, Bool.and_eq_false_imp, bne_iff_ne, ne_eq,
    decide_eq_false_iff_not, decide_eq_true_eq, beq_eq_false_iff_ne] at h
  obtain ⟨hmost, hforms⟩ := h
  obtain ⟨hshort, hhead⟩ := hforms hminimal
  refine ⟨by omega, ?_, hhead⟩
  by_cases hallow : policy.allowShort = 0
  · exact .inl hallow
  · exact .inr (Nat.lt_of_not_le (hshort hallow))

/-- A validated variable count under a policy of minimal lengths reads what it writes. -/
theorem variable_length_canonical (h : lengthValidate config = .ok ())
    (hpolicy : config.policy = some policy) (hminimal : policy.requireMinimal ≠ 0) :
    LengthCanonical (variableLengthRead config) (variableLengthWrite config) := by
  intro data length width hread
  unfold variableLengthRead at hread
  rw [h, hpolicy] at hread
  cases data with
  | nil => cases hread
  | cons first rest =>
    simp only [Option.any_some] at hread
    split at hread
    · cases hread
    next hstray =>
      simp only [ne_eq, not_not] at hstray
      split at hread
      next hform =>
        split at hread
        · cases hread
        next hshort =>
          cases hread
          simp only [Bool.or_eq_true, decide_eq_true_eq, not_or, gt_iff_lt, Nat.not_lt]
            at hshort
          have hoctet := BitField.unpack_le_maximum first config.payloadMask
          have hmaximum := BitField.maximum_add_one config.payloadMask
          have hwidth : BitField.width config.payloadMask.toNat (List.range 8) ≤ 8 := by
            simpa [BitField.width] using
              List.length_filter_le (fun bit => config.payloadMask.toNat.testBit bit)
                (List.range 8)
          have hpow := Nat.pow_le_pow_right (show 0 < 2 by norm_num) hwidth
          refine ⟨by simp, by unfold sizeMax; omega, ?_⟩
          exact variable_length_write_short h hpolicy hstray hform hshort.1 hshort.2
      next hform =>
        split at hread
        · cases hread
        next hnonzero =>
          split at hread
          · cases hread
          next hlong =>
            simp only [Bool.or_eq_true, decide_eq_true_eq, not_or, gt_iff_lt, Nat.not_lt]
              at hlong
            split at hread
            · cases hread
            next hroom =>
              rw [List.length_cons] at hroom
              have hlength : (rest.take (BitField.unpack first config.payloadMask)).length =
                  BitField.unpack first config.payloadMask := by
                rw [List.length_take]
                omega
              split at hread
              · cases hread
              next value hfold =>
                split at hread
                next hallowed =>
                  cases hread
                  obtain ⟨hmost, hforms, hhead⟩ :=
                    long_form_allowed_minimal hpolicy hminimal hallowed
                  rw [significant_length] at hhead
                  have hne : rest.take (BitField.unpack first config.payloadMask) ≠ [] := by
                    rw [← List.length_pos_iff, hlength]
                    exact Nat.pos_of_ne_zero hnonzero
                  have hsize := fold_checked_le hfold (Nat.zero_le _)
                  have hwrite := variable_length_write_long h hpolicy hstray hform
                    hlength.symm hne (fold_checked_some hfold) hsize hmost hlong.1
                    (by rw [hlength]; exact hlong.2) hforms hhead
                  rw [hlength] at hwrite
                  refine ⟨by rw [List.length_cons]; omega, hsize, hwrite⟩
                · cases hread

end Length

end OpenTlv
