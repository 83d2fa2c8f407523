import OpenTlv.Codec.NumberRoundTrip
import OpenTlv.Codec.Digits
import OpenTlv.Schema.Conformance

/-!
# Numbers under a field schema

The adapter of `schema/number.c`, which selects the width of a number by the length rules of a
schema entry. The search walks upwards from the minimal width of the number to the largest width
of the representation; steps that run out would be a `fault`. What it stores is read back, and the
width it selects is the smallest one that the entry admits and that holds the number.
-/

namespace OpenTlv

/-- `tlv_schema_number_t`. -/
structure SchemaNumber where
  schema : SchemaEntry
  representation : NumberConfig
  deriving Repr, DecidableEq

/-- `tlv_schema_number_decode`. -/
def schemaNumberDecode (rule : SchemaNumber) (data : Bytes) (capacity : Nat) :
    CodecResult UInt64 :=
  match schemaValidateLength rule.schema data.length with
  | .error status => .error (.code status)
  | .ok () => numberDecode rule.representation data capacity

/-- The loop of `tlv_schema_number_encode` that searches a width. -/
def selectWidth (schema : SchemaEntry) (limit : Nat) : Nat → Nat → CodecResult Nat
  | 0, _ => .error .fault
  | steps + 1, width =>
    match schemaValidateLength schema width with
    | .ok () => .ok width
    | .error status =>
      if status ≠ .schema ∨ width = limit then .error (.code status)
      else selectWidth schema limit steps (width + 1)

/-- `tlv_schema_number_encode`. -/
def schemaNumberEncode (rule : SchemaNumber) (number : UInt64) (destination : Option Bytes) :
    CodecResult Encoded := do
  let (width, _) ← numberEncode rule.representation number none
  if rule.representation.width ≠ 0 then
    match schemaValidateLength rule.schema width with
    | .error status => .error (.code status)
    | .ok () => numberEncode rule.representation number destination
  else do
    let limit := if rule.representation.encoding = .bcd then 9 else 8
    let width ← selectWidth rule.schema limit limit width
    numberEncode { rule.representation with width := width } number destination

/-- The search ends with the first width that the entry admits. -/
theorem select_width_eq_ok {entry : SchemaEntry} (hentry : entry.minLength ≤ entry.maxLength)
    {limit steps width selected : Nat}
    (h : selectWidth entry limit steps width = .ok selected) (hlimit : width ≤ limit) :
    width ≤ selected ∧ selected ≤ limit ∧ entry.Admits selected ∧
      ∀ other, width ≤ other → entry.Admits other → selected ≤ other := by
  induction steps generalizing width with
  | zero => cases h
  | succ steps ih =>
    rw [selectWidth] at h
    cases hlength : schemaValidateLength entry width with
    | ok valid =>
      rw [hlength] at h
      obtain rfl := Except.ok.inj h
      exact ⟨le_refl _, hlimit, (validate_length_iff hentry width).mp hlength,
        fun other hother _ => hother⟩
    | error status =>
      rw [hlength] at h
      change (if status ≠ .schema ∨ width = limit then _ else _) = _ at h
      by_cases hstop : status ≠ .schema ∨ width = limit
      · rw [if_pos hstop] at h
        cases h
      · rw [if_neg hstop] at h
        obtain ⟨hleast, hmost, hadmits, hfirst⟩ := ih h (by omega)
        refine ⟨by omega, hmost, hadmits, fun other hother hadmitted => ?_⟩
        by_cases hequal : other = width
        · rw [hequal, ← validate_length_iff hentry, hlength] at hadmitted
          cases hadmitted
        · exact hfirst other (by omega) hadmitted

/-- Lengths are admitted or in violation of the schema. -/
theorem validate_length_error {entry : SchemaEntry} (hentry : entry.minLength ≤ entry.maxLength)
    {length : Nat} {status : Status} (h : schemaValidateLength entry length = .error status) :
    status = .schema := by
  unfold schemaValidateLength at h
  rw [if_neg (by omega)] at h
  split at h
  · exact (Except.error.inj h).symm
  · cases h

/-- The search finds a width that the entry admits, when there is one. -/
theorem select_width_finds {entry : SchemaEntry} (hentry : entry.minLength ≤ entry.maxLength)
    {limit steps width other : Nat} (hother : entry.Admits other) (hleast : width ≤ other)
    (hmost : other ≤ limit) (hsteps : limit < width + steps) :
    ∃ selected, selectWidth entry limit steps width = .ok selected := by
  induction steps generalizing width with
  | zero => omega
  | succ steps ih =>
    rw [selectWidth]
    cases hlength : schemaValidateLength entry width with
    | ok valid => exact ⟨width, rfl⟩
    | error status =>
      have hne : other ≠ width := by
        intro hequal
        rw [hequal, ← validate_length_iff hentry, hlength] at hother
        cases hother
      have hstop : ¬ (status ≠ .schema ∨ width = limit) := by
        have := validate_length_error hentry hlength
        simp only [this, ne_eq, not_true_eq_false, false_or]
        omega
      obtain ⟨selected, hselected⟩ := @ih (width + 1) (by omega) (by omega)
      exact ⟨selected, (if_neg hstop).trans hselected⟩

section Encoder

variable {entry : SchemaEntry} {config : NumberConfig} {number : UInt64}

/-- The minimal width of a number. -/
abbrev NumberConfig.least (config : NumberConfig) (number : UInt64) : Nat :=
  minimalWidth config.encoding.radix config.one_lt_radix number.toNat 1

theorem one_le_least (config : NumberConfig) (number : UInt64) : 1 ≤ config.least number := by
  unfold NumberConfig.least
  rw [minimal_width_eq]
  omega

/-- The widths that hold a number are those from its minimal width on. -/
theorem can_hold_iff_least (config : NumberConfig) (number : UInt64) (width : Nat) :
    config.CanHold width number.toNat ↔
      config.least number ≤ width ∧ width ≤ config.encoding.maximum := by
  have hone := one_le_least config number
  constructor
  · intro h
    exact ⟨(minimal_width_le_iff (one_lt_radix _) h.1).mpr h.2.2, h.2.1⟩
  · intro h
    have hpositive : 0 < width := by omega
    exact ⟨hpositive, h.2, (minimal_width_le_iff (one_lt_radix _) hpositive).mp h.1⟩

/-- With a fixed width the adapter checks the width and encodes. -/
theorem schema_encode_fixed (destination : Option Bytes) (hvalid : config.valid = true)
    (hwidth : config.width ≠ 0) (hrange : config.InRange number.toNat)
    (hhold : config.CanHold config.width number.toNat) :
    schemaNumberEncode ⟨entry, config⟩ number destination =
      (match schemaValidateLength entry config.width with
      | .error status => .error (.code status)
      | .ok () => stored (numberOctets config.encoding config.width number.toNat) destination) := by
  have hselected : config.selected number = config.width := if_pos hwidth
  rw [← hselected] at hhold
  have hmeasure := number_encode_of_hold none hvalid hrange hhold
  have hencode := number_encode_of_hold destination hvalid hrange hhold
  rw [hselected] at hmeasure hencode
  unfold schemaNumberEncode
  rw [hmeasure]
  change (if config.width ≠ 0 then _ else _) = _
  rw [if_pos hwidth, number_octets_length]
  cases schemaValidateLength entry config.width with
  | error status => rfl
  | ok valid => exact hencode

/-- Without a fixed width the adapter encodes with the width that the search selects. -/
theorem schema_encode_search (destination : Option Bytes) (hvalid : config.valid = true)
    (hwidth : config.width = 0) (hrange : config.InRange number.toNat) :
    schemaNumberEncode ⟨entry, config⟩ number destination =
      (do
        let width ← selectWidth entry config.encoding.maximum config.encoding.maximum
          (config.least number)
        numberEncode { config with width := width } number destination) := by
  have hselected : config.selected number = config.least number := if_neg (not_not.mpr hwidth)
  have hmost := (can_hold_iff_least config number _).mp (in_range_can_hold hvalid hrange)
  have hhold : config.CanHold (config.selected number) number.toNat := by
    rw [hselected]
    exact (can_hold_iff_least config number _).mpr ⟨le_refl _, hmost.1⟩
  have hmeasure := number_encode_of_hold none hvalid hrange hhold
  rw [hselected] at hmeasure
  unfold schemaNumberEncode
  rw [hmeasure]
  change (if config.width ≠ 0 then _ else _) = _
  rw [if_neg (not_not.mpr hwidth), number_octets_length]
  rfl

/-- With a width that holds the number, encoding stores the octets of that width. -/
theorem number_encode_width (destination : Option Bytes) (hvalid : config.valid = true)
    (hrange : config.InRange number.toNat) {width : Nat}
    (hhold : config.CanHold width number.toNat) :
    numberEncode { config with width := width } number destination =
      stored (numberOctets config.encoding width number.toNat) destination := by
  have hnonzero : width ≠ 0 := by
    have := hhold.1
    omega
  have hselected : NumberConfig.selected { config with width := width } number = width :=
    if_pos hnonzero
  have hvalid' : NumberConfig.valid { config with width := width } = true := by
    have hmost := hhold.2.1
    unfold NumberConfig.valid at hvalid ⊢
    unfold NumberEncoding.maximum at hmost
    by_cases hbcd : config.encoding = .bcd
    · simp_all
    · simp_all
  have hhold' : NumberConfig.CanHold { config with width := width }
      (NumberConfig.selected { config with width := width } number) number.toNat := by
    rw [hselected]
    exact hhold
  have h := number_encode_of_hold destination hvalid' hrange hhold'
  rw [hselected] at h
  exact h

/-- What the adapter encodes: the octets of a width that the entry admits and that holds the
number, the configured one or the smallest one. -/
theorem schema_encode_eq_ok {data : Bytes} {written : Nat} {result : Option Bytes}
    (hvalid : config.valid = true) (hentry : entry.minLength ≤ entry.maxLength)
    (h : schemaNumberEncode ⟨entry, config⟩ number (some data) = .ok (written, result)) :
    config.InRange number.toNat ∧ config.CanHold written number.toNat ∧ entry.Admits written ∧
      (config.width = 0 ∨ config.width = written) ∧ written ≤ data.length ∧
      result = some (Octets.store data 0 (numberOctets config.encoding written number.toNat)) ∧
      (config.width = 0 → ∀ width, entry.Admits width → config.CanHold width number.toNat →
        written ≤ width) := by
  have hrange : config.InRange number.toNat := by
    by_contra hrange
    have herror := number_encode_error none hvalid (fun hboth => hrange hboth.1)
    unfold schemaNumberEncode at h
    rw [herror] at h
    cases h
  by_cases hwidth : config.width = 0
  · rw [schema_encode_search _ hvalid hwidth hrange] at h
    have hmost := (can_hold_iff_least config number _).mp (in_range_can_hold hvalid hrange)
    cases hselect : selectWidth entry config.encoding.maximum config.encoding.maximum
        (config.least number) with
    | error stop =>
      rw [hselect] at h
      cases h
    | ok selected =>
      obtain ⟨hleast, hlimit, hadmits, hfirst⟩ := select_width_eq_ok hentry hselect hmost.1
      have hhold := (can_hold_iff_least config number selected).mpr ⟨hleast, hlimit⟩
      rw [hselect] at h
      change numberEncode { config with width := selected } number (some data) = _ at h
      rw [number_encode_width _ hvalid hrange hhold] at h
      obtain ⟨rfl, hroom, rfl⟩ := stored_eq_ok h
      rw [number_octets_length] at hroom ⊢
      exact ⟨hrange, hhold, hadmits, .inl hwidth, hroom, rfl, fun _ width hadmitted hholds =>
        hfirst width ((can_hold_iff_least config number width).mp hholds).1 hadmitted⟩
  · have hselected : config.selected number = config.width := if_pos hwidth
    have hhold : config.CanHold config.width number.toNat := by
      by_contra hhold
      have herror := number_encode_error none hvalid
        (fun hboth => hhold (hselected ▸ hboth.2))
      unfold schemaNumberEncode at h
      rw [herror] at h
      cases h
    rw [schema_encode_fixed _ hvalid hwidth hrange hhold] at h
    cases hlength : schemaValidateLength entry config.width with
    | error status =>
      rw [hlength] at h
      cases h
    | ok valid =>
      rw [hlength] at h
      obtain ⟨rfl, hroom, rfl⟩ := stored_eq_ok h
      rw [number_octets_length] at hroom ⊢
      exact ⟨hrange, hhold, (validate_length_iff hentry _).mp hlength, .inr rfl, hroom, rfl,
        fun hzero => absurd hzero hwidth⟩

/-- The adapter reads back the octets of a width that the entry admits. -/
theorem schema_decode_octets {width capacity : Nat} (hvalid : config.valid = true)
    (hentry : entry.minLength ≤ entry.maxLength) (hrange : config.InRange number.toNat)
    (hhold : config.CanHold width number.toNat) (hadmits : entry.Admits width)
    (hwidth : config.width = 0 ∨ config.width = width) (hcapacity : numberSize ≤ capacity) :
    schemaNumberDecode ⟨entry, config⟩ (numberOctets config.encoding width number.toNat)
      capacity = .ok number := by
  unfold schemaNumberDecode
  rw [number_octets_length, (validate_length_iff hentry width).mpr hadmits]
  exact number_decode_octets hvalid hrange hhold hwidth hcapacity

/-- Without a fixed width the adapter succeeds when some admitted width holds the number. -/
theorem schema_encode_succeeds {data : Bytes} {width : Nat} (hvalid : config.valid = true)
    (hentry : entry.minLength ≤ entry.maxLength) (hzero : config.width = 0)
    (hrange : config.InRange number.toNat) (hroom : config.encoding.maximum ≤ data.length)
    (hadmits : entry.Admits width) (hhold : config.CanHold width number.toNat) :
    ∃ encoded, schemaNumberEncode ⟨entry, config⟩ number (some data) = .ok encoded := by
  have hwidth := (can_hold_iff_least config number width).mp hhold
  have hone := one_le_least config number
  obtain ⟨selected, hselect⟩ := select_width_finds hentry hadmits hwidth.1 hwidth.2
    (show config.encoding.maximum < config.least number + config.encoding.maximum by omega)
  obtain ⟨hleast, hlimit, _, _⟩ := select_width_eq_ok hentry hselect (by omega)
  have hselected := (can_hold_iff_least config number selected).mpr ⟨hleast, hlimit⟩
  refine ⟨(selected, some (Octets.store data 0
    (numberOctets config.encoding selected number.toNat))), ?_⟩
  rw [schema_encode_search _ hvalid hzero hrange, hselect]
  change numberEncode { config with width := selected } number (some data) = _
  rw [number_encode_width _ hvalid hrange hselected, stored_of_le (by
    rw [number_octets_length]
    omega), number_octets_length]

end Encoder

/-- Numbers and digit strings survive their codecs, and a number that no fixed width is configured
for has the smallest width that the entry admits. -/
theorem number_and_digits_round_trip (entry : SchemaEntry) (config : NumberConfig)
    (hentry : entry.minLength ≤ entry.maxLength) (hvalid : config.valid = true) :
    (∀ (number : UInt64) (destination : Bytes) (written : Nat) (result : Option Bytes),
      schemaNumberEncode ⟨entry, config⟩ number (some destination) = .ok (written, result) →
        entry.Admits written ∧ ∃ data, data.length = written ∧
          result = some (Octets.store destination 0 data) ∧ written ≤ destination.length ∧
          ∀ capacity, numberSize ≤ capacity →
            schemaNumberDecode ⟨entry, config⟩ data capacity = .ok number) ∧
    (∀ (number : UInt64) (destination : Bytes), config.width = 0 →
      config.InRange number.toNat → config.encoding.maximum ≤ destination.length →
        ((∃ encoded,
            schemaNumberEncode ⟨entry, config⟩ number (some destination) = .ok encoded) ↔
          ∃ width, entry.Admits width ∧ config.CanHold width number.toNat) ∧
        ∀ (written : Nat) (result : Option Bytes),
          schemaNumberEncode ⟨entry, config⟩ number (some destination) =
              .ok (written, result) →
            IsLeast {width | entry.Admits width ∧ config.CanHold width number.toNat} written) ∧
    (∀ (width : Nat) (digits destination : Bytes) (written : Nat) (result : Option Bytes),
      digitsEncode width digits (some destination) = .ok (written, result) →
        ∃ data, data.length = written ∧ result = some (Octets.store destination 0 data) ∧
          written ≤ destination.length ∧ ∀ value : Bytes, digits.length < value.length →
            digitsDecode width data value = .ok (Octets.store value 0 (digits ++ [0]))) := by
  refine ⟨?_, ?_, ?_⟩
  · intro number destination written result h
    obtain ⟨hrange, hhold, hadmits, hwidth, hroom, hresult, _⟩ :=
      schema_encode_eq_ok hvalid hentry h
    exact ⟨hadmits, _, number_octets_length _ _ _, hresult, hroom, fun capacity hcapacity =>
      schema_decode_octets hvalid hentry hrange hhold hadmits hwidth hcapacity⟩
  · intro number destination hzero hrange hroom
    refine ⟨⟨?_, ?_⟩, ?_⟩
    · intro h
      obtain ⟨⟨written, result⟩, hencode⟩ := h
      obtain ⟨_, hhold, hadmits, _⟩ := schema_encode_eq_ok hvalid hentry hencode
      exact ⟨written, hadmits, hhold⟩
    · intro h
      obtain ⟨width, hadmits, hhold⟩ := h
      exact schema_encode_succeeds hvalid hentry hzero hrange hroom hadmits hhold
    · intro written result h
      obtain ⟨_, hhold, hadmits, _, _, _, hleast⟩ := schema_encode_eq_ok hvalid hentry h
      exact ⟨⟨hadmits, hhold⟩, fun width hwidth => hleast hzero width hwidth.1 hwidth.2⟩
  · intro width digits destination written result h
    by_cases hadmitted : DigitsAdmitted width digits
    · rw [digits_encode_of_admitted _ hadmitted] at h
      obtain ⟨rfl, hroom, rfl⟩ := stored_eq_ok h
      exact ⟨_, rfl, rfl, hroom, fun value hvalue => digits_decode_octets hadmitted hvalue⟩
    · rw [digits_encode_error _ hadmitted] at h
      cases h

/-- An amount of six digits under an entry of six octets. -/
theorem number_and_digits_round_trip_amount :
    ∃ data, data.length = 6 ∧
      schemaNumberDecode ⟨{ tag := [0x9F, 0x02], minLength := 6, maxLength := 6 },
        { encoding := .bcd, digits := 12 }⟩ data 8 = .ok 123456 := by
  obtain ⟨hnumbers, hsearch, _⟩ := number_and_digits_round_trip
    { tag := [0x9F, 0x02], minLength := 6, maxLength := 6 } { encoding := .bcd, digits := 12 }
    (by decide) rfl
  have hencode := (hsearch 123456 (List.replicate 9 0) rfl (fun _ => by decide) (by decide)).1.mpr
    ⟨6, ⟨by decide, by decide, by decide, by decide⟩, ⟨by decide, by decide, by decide⟩⟩
  obtain ⟨⟨written, result⟩, hencoded⟩ := hencode
  obtain ⟨hadmits, data, hlength, _, _, hdecode⟩ := hnumbers _ _ _ _ hencoded
  refine ⟨data, ?_, hdecode 8 (by decide)⟩
  rw [hlength]
  exact Nat.le_antisymm hadmits.most hadmits.least

end OpenTlv
