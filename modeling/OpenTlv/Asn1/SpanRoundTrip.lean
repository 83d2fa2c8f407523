import OpenTlv.Asn1.Codecs

/-!
# Bit strings and times survive their codecs

The octets of a representation with a borrowed span, and what the validators of bit strings and of
`GeneralizedTime` say of such octets. Spans are compared by what they hold.
-/

namespace OpenTlv

theorem asn1_store_of_le {α : Type} {size capacity : Nat} (object : α) (h : size ≤ capacity) :
    asn1Store size capacity object = .ok object :=
  if_neg (by omega)

theorem asn1_store_ok {α : Type} {size capacity : Nat} {object value : α}
    (h : asn1Store size capacity object = .ok value) : object = value := by
  unfold asn1Store at h
  split at h
  · cases h
  · exact Except.ok.inj h

namespace Asn1Span

/-- A span that is not a null pointer with a length. -/
def Sound (span : Asn1Span) : Prop :=
  span.length = span.content.length

theorem null_content {span : Asn1Span} (h : span.isNull = true) : span.content = [] := by
  cases span with
  | null length => rfl
  | octets bytes => cases h

theorem sound_of_not_null {span : Asn1Span} (h : ¬ span.isNull = true) : span.Sound := by
  cases span with
  | null length => exact absurd rfl h
  | octets bytes => rfl

theorem sound_of_length {span : Asn1Span} (h : span.length = 0) : span.Sound := by
  cases span with
  | null length => exact h
  | octets bytes => rfl

theorem content_eq_nil {span : Asn1Span} (hsound : span.Sound) (h : span.length = 0) :
    span.content = [] :=
  List.length_eq_zero_iff.mp (hsound.symm.trans h)

end Asn1Span

/-! ## Bit strings -/

/-- The octets of a bit string. -/
def Asn1BitString.octets (input : Asn1BitString) : Bytes :=
  input.unusedBits :: input.data.content

/-- The same bits. -/
def Asn1BitString.Same (input other : Asn1BitString) : Prop :=
  other.unusedBits = input.unusedBits ∧ other.data.content = input.data.content

/-- The last octet of a list that is not empty. -/
theorem octet_last {bytes : Bytes} (h : bytes ≠ []) :
    (Guarded.octet bytes (bytes.length - 1) : CodecResult UInt8) = .ok (bytes.getLastD 0) := by
  obtain ⟨front, last, rfl⟩ := (List.eq_nil_or_concat' bytes).resolve_left h
  rw [List.length_append, List.length_singleton, Nat.add_sub_cancel,
    Guarded.octet_behind front last [] rfl]
  simp

/-- The bit strings that the encoder admits. -/
structure Asn1BitString.Admitted (input : Asn1BitString) : Prop where
  sound : input.data.Sound
  size : input.data.length ≠ sizeMax
  valid : validateBitString input.octets = true

theorem validate_bit_string_unused {unused : UInt8} {content : Bytes}
    (h : validateBitString (unused :: content) = true) : unused ≤ 7 := by
  cases content with
  | nil =>
    have hzero : unused = 0 := by simpa [validateBitString] using h
    rw [hzero]
    decide
  | cons first rest =>
    simp only [validateBitString, Bool.and_eq_true, decide_eq_true_eq] at h
    exact h.1

/-- The check of a bit string decides what is admitted. -/
theorem bit_string_valid_cases (input : Asn1BitString) :
    bitStringValid input = .ok true ∧ input.Admitted ∨
      bitStringValid input = .ok false ∧ ¬ input.Admitted := by
  unfold bitStringValid
  by_cases hbounds : input.unusedBits > 7 ∨ input.data.length = sizeMax
  · refine .inr ⟨if_pos hbounds, fun h => ?_⟩
    obtain hunused | hsize := hbounds
    · exact absurd (validate_bit_string_unused h.valid) (UInt8.not_le.mpr hunused)
    · exact h.size hsize
  rw [if_neg hbounds]
  rw [not_or] at hbounds
  by_cases hempty : input.data.length = 0
  · have hsound := Asn1Span.sound_of_length hempty
    have hoctets : validateBitString input.octets = decide (input.unusedBits = 0) := by
      unfold Asn1BitString.octets
      rw [Asn1Span.content_eq_nil hsound hempty]
      rfl
    rw [if_pos hempty, ← hoctets]
    cases hvalid : validateBitString input.octets with
    | true => exact .inl ⟨rfl, hsound, hbounds.2, hvalid⟩
    | false => exact .inr ⟨rfl, fun h => by rw [h.valid] at hvalid; cases hvalid⟩
  rw [if_neg hempty]
  by_cases hnull : input.data.isNull = true
  · refine .inr ⟨if_pos hnull, fun h => hempty ?_⟩
    rw [h.sound, Asn1Span.null_content hnull]
    rfl
  rw [if_neg hnull]
  have hsound := Asn1Span.sound_of_not_null hnull
  have hcontent : input.data.content ≠ [] := fun hnil => hempty (by rw [hsound, hnil]; rfl)
  rw [hsound, octet_last hcontent]
  have hoctets : validateBitString input.octets =
      decide (input.data.content.getLastD 0 &&& unusedMask input.unusedBits = 0) := by
    unfold Asn1BitString.octets
    obtain ⟨first, rest, hlist⟩ := List.exists_cons_of_ne_nil hcontent
    rw [hlist]
    show (decide (input.unusedBits ≤ 7) && _) = _
    rw [decide_eq_true (UInt8.not_lt.mp hbounds.1)]
    rfl
  simp only [bind, Except.bind]
  rw [← hoctets]
  cases hvalid : validateBitString input.octets with
  | true => exact .inl ⟨rfl, hsound, hbounds.2, hvalid⟩
  | false => exact .inr ⟨rfl, fun h => by rw [h.valid] at hvalid; cases hvalid⟩

/-- The encoder stores the octets of an admitted bit string. -/
theorem encode_bit_string_eq {input : Asn1BitString} (h : input.Admitted)
    (destination : Option Bytes) :
    encodeBitString input destination = stored input.octets destination := by
  have hlength : input.octets.length = input.data.length + 1 := by
    rw [h.sound]
    rfl
  have hcontent : input.data.length = input.data.content.length := h.sound
  have hvalid := ((bit_string_valid_cases input).resolve_right fun hrefused => hrefused.2 h).1
  unfold encodeBitString
  rw [hvalid]
  simp only [bind, Except.bind]
  rw [if_neg (by simp)]
  cases destination with
  | none =>
    show Except.ok (input.data.length + 1, none) = _
    rw [← hlength]
    rfl
  | some data =>
    dsimp only
    by_cases hroom : data.length < input.data.length + 1
    · rw [if_pos hroom, stored_of_lt (by omega)]
    · rw [if_neg hroom, stored_of_le (by omega),
        Guarded.put_first (by rw [List.length_singleton]; omega)]
      dsimp only
      by_cases hempty : input.data.length = 0
      · have hoctets : input.octets = [input.unusedBits] := by
          unfold Asn1BitString.octets
          rw [Asn1Span.content_eq_nil h.sound hempty]
        rw [if_neg (not_not.mpr hempty), hlength, hoctets]
        rfl
      · have hput := @Guarded.put_store Status data [input.unusedBits] input.data.content 1 rfl
          (by omega)
        rw [if_pos hempty, hput, hlength]
        rfl

/-- A bit string that is not admitted is refused. -/
theorem encode_bit_string_error {input : Asn1BitString} (h : ¬ input.Admitted)
    (destination : Option Bytes) :
    encodeBitString input destination = .error (.code .invalidValue) := by
  have hvalid := ((bit_string_valid_cases input).resolve_left fun hadmitted => h hadmitted.2).1
  unfold encodeBitString
  rw [hvalid]
  rfl

/-- The decoder takes valid octets apart. -/
theorem decode_bit_string_eq {unused : UInt8} {content : Bytes}
    (hvalid : validateBitString (unused :: content) = true) (capacity : Nat) :
    decodeBitString (unused :: content) capacity =
      asn1Store 24 capacity ⟨unused, if content.length ≠ 0 then .octets content else .null 0⟩ := by
  unfold decodeBitString
  rw [hvalid, if_neg (by simp)]
  show asn1Store 24 capacity (⟨unused, if content.length ≠ 0 then .octets content
    else .null content.length⟩ : Asn1BitString) = _
  by_cases hempty : content.length = 0
  · rw [hempty]
  · rw [if_pos hempty, if_pos hempty]

/-- The codec of bit strings is inverse on both sides. -/
theorem bit_string_inverse : Inverse Asn1BitString.Same 24 validateBitString encodeBitString
    decodeBitString := by
  refine ⟨fun input destination result h => ?_, fun data capacity input hsize h destination => ?_⟩
  · by_cases hadmitted : input.Admitted
    · refine ⟨input.octets, encode_bit_string_eq hadmitted, hadmitted.valid,
        fun capacity hcapacity => ⟨_, (decode_bit_string_eq hadmitted.valid capacity).trans
          (asn1_store_of_le _ hcapacity), rfl, ?_⟩⟩
      dsimp only
      split
      · rfl
      next hempty => exact (List.length_eq_zero_iff.mp (not_not.mp hempty)).symm
    · rw [encode_bit_string_error hadmitted] at h
      cases h
  · cases data with
    | nil => cases h
    | cons unused content =>
      cases hvalid : validateBitString (unused :: content) with
      | false =>
        unfold decodeBitString at h
        rw [hvalid] at h
        cases h
      | true =>
        rw [decode_bit_string_eq hvalid] at h
        have hinput := asn1_store_ok h
        have hspan : input.data.content = content ∧ input.data.length = content.length := by
          rw [← hinput]
          dsimp only
          split
          · exact ⟨rfl, rfl⟩
          next hempty =>
            rw [not_not] at hempty
            exact ⟨(List.length_eq_zero_iff.mp hempty).symm, hempty.symm⟩
        have hoctets : input.octets = unused :: content := by
          unfold Asn1BitString.octets
          rw [hspan.1, ← hinput]
        rw [List.length_cons] at hsize
        have hadmitted : input.Admitted :=
          ⟨hspan.2.trans (congrArg List.length hspan.1.symm), by omega,
            by rw [hoctets]; exact hvalid⟩
        rw [encode_bit_string_eq hadmitted, hoctets]

/-! ## Pairs of digits -/

/-- The number of two digits. -/
def pairNumber (high low : UInt8) : UInt8 :=
  (high - 0x30) * 10 + (low - 0x30)

/-- The number of two digits, as the validators compute it. -/
def pairValue (high low : UInt8) : Nat :=
  (high.toNat - 0x30) * 10 + (low.toNat - 0x30)

/-- The digits of a number are read as the number. -/
theorem digits_of_number : ∀ value : Fin 100,
    pairNumber (0x30 + UInt8.ofNat value.val / 10) (0x30 + UInt8.ofNat value.val % 10) =
        UInt8.ofNat value.val ∧
      pairValue (0x30 + UInt8.ofNat value.val / 10) (0x30 + UInt8.ofNat value.val % 10) =
          value.val ∧
        isDigit (0x30 + UInt8.ofNat value.val / 10) = true ∧
          isDigit (0x30 + UInt8.ofNat value.val % 10) = true := by
  decide +kernel

/-- Two digits are the ones of their number. -/
theorem number_of_digits : ∀ high low : Fin 10,
    (pairNumber (UInt8.ofNat (0x30 + high.val)) (UInt8.ofNat (0x30 + low.val))).toNat =
        pairValue (UInt8.ofNat (0x30 + high.val)) (UInt8.ofNat (0x30 + low.val)) ∧
      pairValue (UInt8.ofNat (0x30 + high.val)) (UInt8.ofNat (0x30 + low.val)) ≤ 99 ∧
        timeWriteDigitPair
            (pairNumber (UInt8.ofNat (0x30 + high.val)) (UInt8.ofNat (0x30 + low.val))) =
          [UInt8.ofNat (0x30 + high.val), UInt8.ofNat (0x30 + low.val)] := by
  decide +kernel

/-- A number below 100 is written as two digits. -/
theorem written_pair {value : UInt8} (h : value ≤ 99) :
    pairNumber (0x30 + value / 10) (0x30 + value % 10) = value ∧
      pairValue (0x30 + value / 10) (0x30 + value % 10) = value.toNat ∧
        isDigit (0x30 + value / 10) = true ∧ isDigit (0x30 + value % 10) = true := by
  have hlt : value.toNat < 100 := Nat.lt_succ_of_le (UInt8.le_iff_toNat_le.mp h)
  have hpair := digits_of_number ⟨value.toNat, hlt⟩
  rwa [UInt8.ofNat_toNat] at hpair

theorem digit_of_is_digit {octet : UInt8} (h : isDigit octet = true) :
    ∃ digit : Fin 10, octet = UInt8.ofNat (0x30 + digit.val) := by
  simp only [isDigit, Bool.and_eq_true, decide_eq_true_eq, UInt8.le_iff_toNat_le,
    UInt8.reduceToNat] at h
  refine ⟨⟨octet.toNat - 0x30, by omega⟩, ?_⟩
  show octet = UInt8.ofNat (0x30 + (octet.toNat - 0x30))
  rw [show 0x30 + (octet.toNat - 0x30) = octet.toNat by omega, UInt8.ofNat_toNat]

/-- Two digits are read as their number. -/
theorem read_pair {high low : UInt8} (hhigh : isDigit high = true) (hlow : isDigit low = true) :
    (pairNumber high low).toNat = pairValue high low ∧ pairValue high low ≤ 99 ∧
      timeWriteDigitPair (pairNumber high low) = [high, low] := by
  obtain ⟨high, rfl⟩ := digit_of_is_digit hhigh
  obtain ⟨low, rfl⟩ := digit_of_is_digit hlow
  exact number_of_digits high low

/-! ## Fractions of seconds -/

/-- The octets behind the seconds. -/
def fractionOctets (digits : Bytes) : Bytes :=
  if digits = [] then [0x5A] else 0x2E :: (digits ++ [0x5A])

/-- The digits of a fraction that is written. -/
def FractionValid (digits : Bytes) : Prop :=
  (∀ digit ∈ digits, isDigit digit = true) ∧ digits.getLastD 0 ≠ 0x30

/-- The validator accepts exactly the octets of valid fractions. -/
theorem generalized_suffix_iff (suffix : Bytes) : generalizedSuffix suffix = true ↔
    ∃ digits, FractionValid digits ∧ suffix = fractionOctets digits := by
  have hzone : isDigit 0x5A = false := rfl
  constructor
  · intro h
    unfold generalizedSuffix at h
    split at h
    next rest =>
      simp only [Bool.and_eq_true, Bool.not_eq_true', decide_eq_true_eq,
        List.isEmpty_eq_false_iff] at h
      obtain ⟨⟨hnonempty, hlast⟩, hrest⟩ := h
      refine ⟨rest.takeWhile isDigit, ⟨fun digit hdigit => ?_, ?_⟩, ?_⟩
      · exact List.all_eq_true.mp (@List.all_takeWhile _ isDigit rest) digit hdigit
      · obtain ⟨front, last, hlist⟩ := (List.eq_nil_or_concat' _).resolve_left hnonempty
        rw [hlist] at hlast ⊢
        simpa using hlast
      · unfold fractionOctets
        rw [if_neg hnonempty, ← hrest, List.takeWhile_append_dropWhile]
    · rw [decide_eq_true_eq] at h
      exact ⟨[], ⟨fun digit hdigit => (by cases hdigit), (by decide)⟩, h⟩
  · rintro ⟨digits, ⟨hdigits, hlast⟩, rfl⟩
    unfold fractionOctets
    by_cases hempty : digits = []
    · rw [if_pos hempty]
      rfl
    · rw [if_neg hempty]
      have htake : (digits ++ [0x5A]).takeWhile isDigit = digits := by
        rw [List.takeWhile_append_of_pos hdigits, List.takeWhile_cons, hzone]
        simp
      have hdrop : (digits ++ [0x5A]).dropWhile isDigit = [0x5A] := by
        rw [List.dropWhile_append_of_pos hdigits, List.dropWhile_cons, hzone]
        simp
      obtain ⟨front, last, hlist⟩ := (List.eq_nil_or_concat' digits).resolve_left hempty
      have hlast' : digits.getLastD 0x30 ≠ 0x30 := by
        rw [hlist] at hlast ⊢
        simpa using hlast
      show (!((digits ++ [0x5A]).takeWhile isDigit).isEmpty &&
        decide (((digits ++ [0x5A]).takeWhile isDigit).getLastD 0x30 ≠ 0x30) &&
          decide ((digits ++ [0x5A]).dropWhile isDigit = [0x5A])) = true
      rw [htake, hdrop, decide_eq_true hlast']
      simp [hempty]

/-- The span of the digits of a fraction. -/
def fractionSpan (digits : Bytes) : Asn1Span :=
  if digits = [] then .null 0 else .octets digits

theorem fraction_span_content (digits : Bytes) : (fractionSpan digits).content = digits := by
  unfold fractionSpan
  by_cases hempty : digits = []
  · rw [if_pos hempty, hempty]
    rfl
  · rw [if_neg hempty]
    rfl

/-- A fraction takes its digits, a separator and the zone. -/
theorem fraction_octets_length (digits : Bytes) : (fractionOctets digits).length =
    (if digits.length ≠ 0 then 1 + digits.length else 0) + 1 := by
  unfold fractionOctets
  by_cases hempty : digits = []
  · rw [if_pos hempty, hempty]
    rfl
  · have hlength : digits.length ≠ 0 := fun h => hempty (List.length_eq_zero_iff.mp h)
    rw [if_neg hempty, if_pos hlength, List.length_cons, List.length_append,
      List.length_singleton]
    omega

/-! ## GeneralizedTime -/

theorem octet_of_int {number : Int} (hlow : 0 ≤ number) (hhigh : number ≤ 99) :
    (UInt8.ofInt number).toNat = number.toNat := by
  unfold UInt8.ofInt
  rw [UInt8.toNat_ofNat']
  omega

/-- The ranges of the fields of a time. -/
theorem calendar_iff (month day hour minute second : UInt8) :
    timeCalendarFieldsValid month day hour minute second = true ↔
      (1 ≤ month.toNat ∧ month.toNat ≤ 12 ∧ 1 ≤ day.toNat ∧ day.toNat ≤ 31) ∧
        hour.toNat ≤ 23 ∧ minute.toNat ≤ 59 ∧ second.toNat ≤ 59 := by
  unfold timeCalendarFieldsValid
  simp only [Bool.and_eq_true, decide_eq_true_eq, ge_iff_le, UInt8.le_iff_toNat_le,
    UInt8.reduceToNat, and_assoc]

/-- The times that the encoder admits. -/
structure Asn1GeneralizedTime.Admitted (input : Asn1GeneralizedTime) : Prop where
  year : 0 ≤ input.year ∧ input.year ≤ 9999
  calendar : timeCalendarFieldsValid input.month input.day input.hour input.minute
    input.second = true
  span : input.fractionDigits = fractionSpan input.fractionDigits.content
  fraction : FractionValid input.fractionDigits.content

/-- The check of a time decides what is admitted. -/
theorem generalized_time_valid_iff (input : Asn1GeneralizedTime) :
    generalizedTimeValid input = true ↔ input.Admitted := by
  have hspan : ∀ span : Asn1Span, (decide (span.length = 0) == span.isNull) = true ∧
      span.content.all isDigit = true ∧
        (!(decide (span.length ≠ 0) && decide (span.content.getLastD 0 = 0x30))) = true ↔
      span = fractionSpan span.content ∧ FractionValid span.content := by
    intro span
    unfold FractionValid fractionSpan
    cases span with
    | null length =>
      simp [Asn1Span.length, Asn1Span.isNull, Asn1Span.content]
      exact ⟨of_decide_eq_true, fun h => decide_eq_true h⟩
    | octets bytes =>
      cases bytes with
      | nil => simp [Asn1Span.length, Asn1Span.isNull, Asn1Span.content]
      | cons first rest =>
        simp [Asn1Span.length, Asn1Span.isNull, Asn1Span.content, List.all_eq_true]
  have hfraction := hspan input.fractionDigits
  constructor
  · intro h
    simp only [generalizedTimeValid, Bool.and_eq_true] at h
    obtain ⟨⟨⟨⟨hyear, hcalendar⟩, hnull⟩, hdigits⟩, hlast⟩ := h
    obtain ⟨hspan, hvalid⟩ := hfraction.mp ⟨hnull, hdigits, hlast⟩
    simp only [Bool.not_eq_true', Bool.or_eq_false_iff, decide_eq_false_iff_not] at hyear
    exact ⟨by omega, hcalendar, hspan, hvalid⟩
  · intro h
    obtain ⟨hnull, hdigits, hlast⟩ := hfraction.mpr ⟨h.span, h.fraction⟩
    have hyear : (!(decide (input.year < 0) || decide (input.year > 9999))) = true := by
      have := h.year
      simp only [Bool.not_eq_true', Bool.or_eq_false_iff, decide_eq_false_iff_not]
      omega
    simp only [generalizedTimeValid, Bool.and_eq_true]
    exact ⟨⟨⟨⟨hyear, h.calendar⟩, hnull⟩, hdigits⟩, hlast⟩

/-- The octets of a time. -/
def Asn1GeneralizedTime.octets (input : Asn1GeneralizedTime) : Bytes :=
  generalizedTimeDigits input ++ fractionOctets input.fractionDigits.content

/-- The encoder stores the octets of an admitted time. -/
theorem encode_generalized_time_eq {input : Asn1GeneralizedTime} (h : input.Admitted)
    (destination : Option Bytes) :
    encodeGeneralizedTime input destination = stored input.octets destination := by
  have hdigits : (generalizedTimeDigits input).length = 14 := rfl
  have hspan : input.fractionDigits.length = input.fractionDigits.content.length := by
    rw [h.span, fraction_span_content]
    unfold fractionSpan
    by_cases hempty : input.fractionDigits.content = []
    · rw [if_pos hempty, hempty]
      rfl
    · rw [if_neg hempty]
      rfl
  have hlength : input.octets.length =
      14 + (if input.fractionDigits.length ≠ 0 then 1 + input.fractionDigits.length else 0) + 1 := by
    unfold Asn1GeneralizedTime.octets
    rw [List.length_append, hdigits, fraction_octets_length, hspan]
    omega
  unfold encodeGeneralizedTime
  rw [(generalized_time_valid_iff input).mpr h, if_neg (by simp)]
  dsimp only
  rw [← hlength]
  cases destination with
  | none => rfl
  | some data =>
    dsimp only
    by_cases hroom : data.length < input.octets.length
    · rw [if_pos hroom, stored_of_lt hroom]
    rw [if_neg hroom, stored_of_le (by omega), Guarded.put_first (by omega)]
    simp only [bind, Except.bind]
    by_cases hempty : input.fractionDigits.length ≠ 0
    · have hcontent : input.fractionDigits.content ≠ [] := fun hnil => hempty (by
        rw [hspan, hnil]
        rfl)
      rw [if_pos hempty] at hlength
      rw [if_pos hempty, Guarded.put_store hdigits (by rw [List.length_singleton]; omega)]
      dsimp only
      rw [Guarded.put_store (by rw [List.length_append, hdigits]; rfl) (by omega)]
      dsimp only
      rw [Guarded.put_store (by
        simp only [List.length_append, hdigits, List.length_singleton]
        omega) (by rw [List.length_singleton]; omega)]
      unfold Asn1GeneralizedTime.octets fractionOctets
      rw [if_neg hcontent, List.append_assoc, List.append_assoc]
      rfl
    · have hcontent : input.fractionDigits.content = [] :=
        List.length_eq_zero_iff.mp (by omega)
      rw [if_neg hempty] at hlength
      rw [if_neg hempty, Guarded.put_store hdigits (by rw [List.length_singleton]; omega)]
      unfold Asn1GeneralizedTime.octets fractionOctets
      rw [if_pos hcontent]
      rfl

/-- The same time. -/
def Asn1GeneralizedTime.Same (input other : Asn1GeneralizedTime) : Prop :=
  other = { input with fractionDigits := other.fractionDigits } ∧
    other.fractionDigits.content = input.fractionDigits.content

section Decode

variable {a₀ a₁ a₂ a₃ a₄ a₅ a₆ a₇ a₈ a₉ b₀ b₁ b₂ b₃ : UInt8} {digits : Bytes}

/-- The validator of fourteen octets and what is behind them. -/
theorem validate_generalized_time_eq : validateGeneralizedTime
      ([a₀, a₁, a₂, a₃, a₄, a₅, a₆, a₇, a₈, a₉, b₀, b₁, b₂, b₃] ++ fractionOctets digits) = true ↔
    (∀ digit ∈ [a₀, a₁, a₂, a₃, a₄, a₅, a₆, a₇, a₈, a₉, b₀, b₁, b₂, b₃], isDigit digit = true) ∧
      ((1 ≤ pairValue a₄ a₅ ∧ pairValue a₄ a₅ ≤ 12 ∧ 1 ≤ pairValue a₆ a₇ ∧
        pairValue a₆ a₇ ≤ 31) ∧ pairValue a₈ a₉ ≤ 23 ∧ pairValue b₀ b₁ ≤ 59 ∧
          pairValue b₂ b₃ ≤ 59) ∧ generalizedSuffix (fractionOctets digits) = true := by
  have hlength : 15 ≤ ([a₀, a₁, a₂, a₃, a₄, a₅, a₆, a₇, a₈, a₉, b₀, b₁, b₂, b₃] ++
      fractionOctets digits).length := by
    rw [List.length_append, fraction_octets_length]
    show 15 ≤ 14 + _
    omega
  have hdate : dateRange ([a₀, a₁, a₂, a₃, a₄, a₅, a₆, a₇, a₈, a₉, b₀, b₁, b₂, b₃] ++
      fractionOctets digits) 4 = (decide (1 ≤ pairValue a₄ a₅) && decide (pairValue a₄ a₅ ≤ 12) &&
        decide (1 ≤ pairValue a₆ a₇) && decide (pairValue a₆ a₇ ≤ 31)) := rfl
  have hclock : clockRange ([a₀, a₁, a₂, a₃, a₄, a₅, a₆, a₇, a₈, a₉, b₀, b₁, b₂, b₃] ++
      fractionOctets digits) 8 = (decide (pairValue a₈ a₉ ≤ 23) &&
        decide (pairValue b₀ b₁ ≤ 59) && decide (pairValue b₂ b₃ ≤ 59)) := rfl
  unfold validateGeneralizedTime
  rw [hdate, hclock]
  show (decide _ && ([a₀, a₁, a₂, a₃, a₄, a₅, a₆, a₇, a₈, a₉, b₀, b₁, b₂, b₃] : Bytes).all isDigit &&
    _ && _ && generalizedSuffix (fractionOctets digits)) = true ↔ _
  simp only [Bool.and_eq_true, decide_eq_true_eq, List.all_eq_true, and_assoc]
  exact ⟨fun h => h.2, fun h => ⟨hlength, h⟩⟩

/-- The decoder of fourteen octets and what is behind them. -/
theorem decode_generalized_time_eq (hvalid : validateGeneralizedTime
      ([a₀, a₁, a₂, a₃, a₄, a₅, a₆, a₇, a₈, a₉, b₀, b₁, b₂, b₃] ++ fractionOctets digits) = true)
    (capacity : Nat) : decodeGeneralizedTime
      ([a₀, a₁, a₂, a₃, a₄, a₅, a₆, a₇, a₈, a₉, b₀, b₁, b₂, b₃] ++ fractionOctets digits) capacity =
      asn1Store 32 capacity ⟨(pairNumber a₀ a₁).toNat * 100 + (pairNumber a₂ a₃).toNat,
        pairNumber a₄ a₅, pairNumber a₆ a₇, pairNumber a₈ a₉, pairNumber b₀ b₁, pairNumber b₂ b₃,
        fractionSpan digits⟩ := by
  have hfraction : generalizedFraction
      ([a₀, a₁, a₂, a₃, a₄, a₅, a₆, a₇, a₈, a₉, b₀, b₁, b₂, b₃] ++ fractionOctets digits) =
        .ok (fractionSpan digits) := by
    have hlength : ([a₀, a₁, a₂, a₃, a₄, a₅, a₆, a₇, a₈, a₉, b₀, b₁, b₂, b₃] ++
        fractionOctets digits).length =
          14 + ((if digits.length ≠ 0 then 1 + digits.length else 0) + 1) := by
      rw [List.length_append, fraction_octets_length]
      rfl
    unfold generalizedFraction fractionSpan
    by_cases hempty : digits = []
    · subst hempty
      rfl
    · have hpositive : digits.length ≠ 0 := fun h => hempty (List.length_eq_zero_iff.mp h)
      rw [if_pos hpositive] at hlength
      have hdata : [a₀, a₁, a₂, a₃, a₄, a₅, a₆, a₇, a₈, a₉, b₀, b₁, b₂, b₃] ++
          fractionOctets digits =
            [a₀, a₁, a₂, a₃, a₄, a₅, a₆, a₇, a₈, a₉, b₀, b₁, b₂, b₃, 0x2E] ++
              (digits ++ [0x5A]) := by
        unfold fractionOctets
        rw [if_neg hempty]
        rfl
      have hslice : (Guarded.slice ([a₀, a₁, a₂, a₃, a₄, a₅, a₆, a₇, a₈, a₉, b₀, b₁, b₂, b₃, 0x2E] ++
          (digits ++ [0x5A])) 15 digits.length : CodecResult Bytes) = .ok digits :=
        Guarded.slice_behind _ digits [0x5A] rfl rfl
      rw [if_pos (by omega), if_neg hempty, show ([a₀, a₁, a₂, a₃, a₄, a₅, a₆, a₇, a₈, a₉, b₀, b₁, b₂,
        b₃] ++ fractionOctets digits).length - 16 = digits.length by omega, hdata, hslice]
      rfl
  have hread : decodeGeneralizedTime
      ([a₀, a₁, a₂, a₃, a₄, a₅, a₆, a₇, a₈, a₉, b₀, b₁, b₂, b₃] ++ fractionOctets digits) capacity =
      (generalizedFraction
        ([a₀, a₁, a₂, a₃, a₄, a₅, a₆, a₇, a₈, a₉, b₀, b₁, b₂, b₃] ++ fractionOctets digits) >>=
        fun fraction => asn1Store 32 capacity
          ⟨(pairNumber a₀ a₁).toNat * 100 + (pairNumber a₂ a₃).toNat, pairNumber a₄ a₅,
            pairNumber a₆ a₇, pairNumber a₈ a₉, pairNumber b₀ b₁, pairNumber b₂ b₃, fraction⟩) := by
    unfold decodeGeneralizedTime
    rw [hvalid, if_neg (by simp)]
    rfl
  rw [hread, hfraction]
  rfl

end Decode

theorem list_of_fourteen {list : Bytes} (h : list.length = 14) :
    ∃ a₀ a₁ a₂ a₃ a₄ a₅ a₆ a₇ a₈ a₉ b₀ b₁ b₂ b₃,
      list = [a₀, a₁, a₂, a₃, a₄, a₅, a₆, a₇, a₈, a₉, b₀, b₁, b₂, b₃] := by
  match list, h with
  | [a₀, a₁, a₂, a₃, a₄, a₅, a₆, a₇, a₈, a₉, b₀, b₁, b₂, b₃], _ =>
    exact ⟨a₀, a₁, a₂, a₃, a₄, a₅, a₆, a₇, a₈, a₉, b₀, b₁, b₂, b₃, rfl⟩

/-- The two pairs of a year. -/
theorem year_pairs {year : Int} (h : 0 ≤ year ∧ year ≤ 9999) :
    UInt8.ofInt (year / 100) ≤ 99 ∧ UInt8.ofInt (year % 100) ≤ 99 ∧
      ((UInt8.ofInt (year / 100)).toNat : Int) * 100 + (UInt8.ofInt (year % 100)).toNat = year := by
  have hcentury := @octet_of_int (year / 100) (by omega) (by omega)
  have hrest := @octet_of_int (year % 100) (by omega) (by omega)
  simp only [UInt8.le_iff_toNat_le, UInt8.reduceToNat, hcentury, hrest]
  omega

/-- A year is split into century and rest. -/
theorem pairs_year {century rest : UInt8} (hcentury : century.toNat ≤ 99) (hrest : rest.toNat ≤ 99) :
    UInt8.ofInt (((century.toNat : Int) * 100 + rest.toNat) / 100) = century ∧
      UInt8.ofInt (((century.toNat : Int) * 100 + rest.toNat) % 100) = rest := by
  have hdiv : ((century.toNat : Int) * 100 + rest.toNat) / 100 = century.toNat := by omega
  have hmod : ((century.toNat : Int) * 100 + rest.toNat) % 100 = rest.toNat := by omega
  rw [hdiv, hmod]
  constructor <;> apply UInt8.toNat_inj.mp
  · rw [octet_of_int (by omega) (by omega), Int.toNat_natCast]
  · rw [octet_of_int (by omega) (by omega), Int.toNat_natCast]

/-- The octets of an admitted time are valid and decoded as the same time. -/
theorem generalized_time_octets {input : Asn1GeneralizedTime} (h : input.Admitted) :
    validateGeneralizedTime input.octets = true ∧ ∀ capacity, 32 ≤ capacity →
      ∃ decoded, decodeGeneralizedTime input.octets capacity = .ok decoded ∧
        input.Same decoded := by
  obtain ⟨hcentury, hrest, hyear⟩ := year_pairs h.year
  obtain ⟨⟨hmonth₁, hmonth₂, hday₁, hday₂⟩, hhour, hminute, hsecond⟩ :=
    (calendar_iff _ _ _ _ _).mp h.calendar
  obtain ⟨hc₁, hc₂, hc₃, hc₄⟩ := written_pair hcentury
  obtain ⟨hr₁, hr₂, hr₃, hr₄⟩ := written_pair hrest
  obtain ⟨hm₁, hm₂, hm₃, hm₄⟩ := @written_pair input.month (UInt8.le_iff_toNat_le.mpr (by
    show _ ≤ 99
    omega))
  obtain ⟨hd₁, hd₂, hd₃, hd₄⟩ := @written_pair input.day (UInt8.le_iff_toNat_le.mpr (by
    show _ ≤ 99
    omega))
  obtain ⟨hh₁, hh₂, hh₃, hh₄⟩ := @written_pair input.hour (UInt8.le_iff_toNat_le.mpr (by
    show _ ≤ 99
    omega))
  obtain ⟨hi₁, hi₂, hi₃, hi₄⟩ := @written_pair input.minute (UInt8.le_iff_toNat_le.mpr (by
    show _ ≤ 99
    omega))
  obtain ⟨hs₁, hs₂, hs₃, hs₄⟩ := @written_pair input.second (UInt8.le_iff_toNat_le.mpr (by
    show _ ≤ 99
    omega))
  have hvalid : validateGeneralizedTime input.octets = true := by
    refine validate_generalized_time_eq.mpr ⟨?_, ?_, ?_⟩
    · simp only [List.mem_cons, List.not_mem_nil, or_false, forall_eq_or_imp, forall_eq]
      exact ⟨hc₃, hc₄, hr₃, hr₄, hm₃, hm₄, hd₃, hd₄, hh₃, hh₄, hi₃, hi₄, hs₃, hs₄⟩
    · rw [hm₂, hd₂, hh₂, hi₂, hs₂]
      exact ⟨⟨hmonth₁, hmonth₂, hday₁, hday₂⟩, hhour, hminute, hsecond⟩
    · exact (generalized_suffix_iff _).mpr ⟨_, h.fraction, rfl⟩
  refine ⟨hvalid, fun capacity hcapacity => ⟨_, (decode_generalized_time_eq hvalid capacity).trans
    (asn1_store_of_le _ hcapacity), ?_, fraction_span_content _⟩⟩
  rw [hc₁, hr₁, hm₁, hd₁, hh₁, hi₁, hs₁, hyear]

/-- What the validator accepts is read as an admitted time of the same octets. -/
theorem decode_generalized_time_valid {data : Bytes}
    (hvalid : validateGeneralizedTime data = true) :
    ∃ input : Asn1GeneralizedTime, input.Admitted ∧ input.octets = data ∧
      ∀ capacity, decodeGeneralizedTime data capacity = asn1Store 32 capacity input := by
  have hparts := hvalid
  simp only [validateGeneralizedTime, Bool.and_eq_true, decide_eq_true_eq] at hparts
  obtain ⟨⟨⟨⟨hlength, -⟩, -⟩, -⟩, hsuffix⟩ := hparts
  obtain ⟨digits, hfraction, hdigits⟩ := (generalized_suffix_iff _).mp hsuffix
  obtain ⟨a₀, a₁, a₂, a₃, a₄, a₅, a₆, a₇, a₈, a₉, b₀, b₁, b₂, b₃, htake⟩ :=
    @list_of_fourteen (data.take 14) (by
      rw [List.length_take]
      omega)
  have hdata : data = [a₀, a₁, a₂, a₃, a₄, a₅, a₆, a₇, a₈, a₉, b₀, b₁, b₂, b₃] ++
      fractionOctets digits := by
    rw [← htake, ← hdigits, List.take_append_drop]
  rw [hdata] at hvalid ⊢
  obtain ⟨hall, hranges, -⟩ := validate_generalized_time_eq.mp hvalid
  simp only [List.mem_cons, List.not_mem_nil, or_false, forall_eq_or_imp, forall_eq] at hall
  obtain ⟨ha₀, ha₁, ha₂, ha₃, ha₄, ha₅, ha₆, ha₇, ha₈, ha₉, hb₀, hb₁, hb₂, hb₃⟩ := hall
  obtain ⟨hc₁, hc₂, hc₃⟩ := read_pair ha₀ ha₁
  obtain ⟨hr₁, hr₂, hr₃⟩ := read_pair ha₂ ha₃
  obtain ⟨hm₁, hm₂, hm₃⟩ := read_pair ha₄ ha₅
  obtain ⟨hd₁, hd₂, hd₃⟩ := read_pair ha₆ ha₇
  obtain ⟨hh₁, hh₂, hh₃⟩ := read_pair ha₈ ha₉
  obtain ⟨hi₁, hi₂, hi₃⟩ := read_pair hb₀ hb₁
  obtain ⟨hs₁, hs₂, hs₃⟩ := read_pair hb₂ hb₃
  refine ⟨_, ⟨?_, ?_, ?_, ?_⟩, ?_, decode_generalized_time_eq hvalid⟩
  · show (0 : Int) ≤ (pairNumber a₀ a₁).toNat * 100 + (pairNumber a₂ a₃).toNat ∧
      ((pairNumber a₀ a₁).toNat : Int) * 100 + (pairNumber a₂ a₃).toNat ≤ 9999
    omega
  · refine (calendar_iff _ _ _ _ _).mpr ?_
    dsimp only
    rw [hm₁, hd₁, hh₁, hi₁, hs₁]
    exact hranges
  · show fractionSpan digits = fractionSpan (fractionSpan digits).content
    rw [fraction_span_content]
  · show FractionValid (fractionSpan digits).content
    rw [fraction_span_content]
    exact hfraction
  · obtain ⟨hcentury, hrest⟩ := @pairs_year (pairNumber a₀ a₁) (pairNumber a₂ a₃) (by omega)
      (by omega)
    unfold Asn1GeneralizedTime.octets generalizedTimeDigits
    dsimp only
    rw [hcentury, hrest, hc₃, hr₃, hm₃, hd₃, hh₃, hi₃, hs₃, fraction_span_content]
    rfl

/-- What the decoder accepts are the octets of an admitted time. -/
theorem decode_generalized_time_ok {data : Bytes} {capacity : Nat} {input : Asn1GeneralizedTime}
    (h : decodeGeneralizedTime data capacity = .ok input) :
    input.Admitted ∧ input.octets = data := by
  cases hvalid : validateGeneralizedTime data with
  | false =>
    unfold decodeGeneralizedTime at h
    rw [hvalid] at h
    cases h
  | true =>
    obtain ⟨read, hadmitted, hoctets, hread⟩ := decode_generalized_time_valid hvalid
    rw [hread] at h
    rw [← asn1_store_ok h]
    exact ⟨hadmitted, hoctets⟩

/-- The codec of `GeneralizedTime` is inverse on both sides. -/
theorem generalized_time_inverse : Inverse Asn1GeneralizedTime.Same 32 validateGeneralizedTime
    encodeGeneralizedTime decodeGeneralizedTime := by
  refine ⟨fun input destination result h => ?_, fun data capacity input _ h destination => ?_⟩
  · cases hvalid : generalizedTimeValid input with
    | false =>
      unfold encodeGeneralizedTime at h
      rw [hvalid] at h
      cases h
    | true =>
      have hadmitted := (generalized_time_valid_iff input).mp hvalid
      obtain ⟨hoctets, hdecode⟩ := generalized_time_octets hadmitted
      exact ⟨input.octets, encode_generalized_time_eq hadmitted, hoctets, hdecode⟩
  · obtain ⟨hadmitted, hoctets⟩ := decode_generalized_time_ok h
    rw [encode_generalized_time_eq hadmitted, hoctets]

end OpenTlv
