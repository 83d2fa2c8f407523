import OpenTlv.Core.Status

/-!
# Canonical formats

The data model of `format.h` and the three checked operations of `format.c`. A format is a
triple of callbacks; `formatDecode`, `formatMeasure` and `formatEncode` call them and verify
what they publish. A borrowed span keeps, besides its octets, the offset it has in the input
it was read from, because the checks of `tlv_format_decode` compare pointers.
-/

namespace OpenTlv

/-- `tlv_element_t`: both extents are 64-bit sizes. -/
structure Element where
  tag : Bytes
  value : Bytes
  tag_le : tag.length ≤ sizeMax
  value_le : value.length ≤ sizeMax
  deriving DecidableEq

section Extents

variable {tag value : Bytes} (h : tag.length ≤ sizeMax ∧ value.length ≤ sizeMax)
include h

theorem tag_extent : tag.length ≤ sizeMax := h.1

theorem value_extent : value.length ≤ sizeMax := h.2

end Extents

/-- A borrowed byte span. `origin` is its offset in the input when it borrows the input. -/
structure Span where
  bytes : Bytes
  origin : Option Nat
  deriving Repr, DecidableEq

/-- `tlv_range_t`. -/
structure Range where
  offset : Nat := 0
  size : Nat := 0
  present : Bool := false
  deriving Repr, DecidableEq

/-- The present range of `size` octets at `offset`. -/
def Range.at (offset size : Nat) : Range :=
  ⟨offset, size, true⟩

/-- `tlv_region_t`. -/
inductive Region where
  | header
  | tag
  | length
  | value
  | trailer
  deriving Repr, DecidableEq

/-- `tlv_format_error_t`: where and why a format operation failed. -/
structure FormatError where
  region : Region := .header
  offset : Nat := 0
  hasOffset : Bool := false
  required : Nat := 0
  hasRequired : Bool := false
  tag : Range := {}
  length : Range := {}
  value : Range := {}
  deriving Repr, DecidableEq

/-- A format operation fails with its code and the published detail. -/
abbrev FormatResult := Except (Status × FormatError)

/-- `tlv_encoding_t`. -/
structure Encoding where
  header : Nat
  value : Nat
  trailer : Nat
  total : Nat
  deriving Repr, DecidableEq

/-- `tlv_tag_binding_t`. -/
inductive TagBinding where
  | source
  | format
  deriving Repr, DecidableEq

/-- `tlv_source_t` without its back references to the input, the descriptor and the element. -/
structure Source where
  size : Nat := 0
  header : Range := {}
  tag : Range := {}
  length : Range := {}
  value : Range := {}
  trailer : Range := {}
  tagBinding : TagBinding := .source
  deriving Repr, DecidableEq

/-- `tlv_decoded_t`. An absent tag is the empty span without origin. -/
structure Decoded where
  tag : Span := ⟨[], none⟩
  value : Span := ⟨[], none⟩
  source : Source := {}
  deriving Repr, DecidableEq

/-- `tlv_format_t`. The encoder stores into the destination and reports the octets used. -/
structure Format where
  decode : Option (Bytes → FormatResult Decoded)
  measure : Option (Element → FormatResult Encoding)
  encode : Option (Element → Bytes → FormatResult (Bytes × Nat))
  isConstructed : Option (Bytes → Bool)

/-- `tlv_format_init`. -/
def formatInit (decode : Option (Bytes → FormatResult Decoded))
    (measure : Option (Element → FormatResult Encoding))
    (encode : Option (Element → Bytes → FormatResult (Bytes × Nat))) : Except Status Format :=
  if measure.isSome ≠ encode.isSome ∨ (decode.isNone ∧ encode.isNone) then .error .invalidArg
  else .ok ⟨decode, measure, encode, none⟩

/-- `range_valid`. -/
def Range.valid (range : Range) (size : Nat) : Bool :=
  !range.present || (range.offset ≤ size && range.size ≤ size - range.offset)

/-- `tag_binding_valid`. -/
def tagBindingValid (decoded : Decoded) : Bool :=
  match decoded.source.tagBinding with
  | .source =>
    if decoded.source.tag.present then
      decoded.tag.bytes.length = decoded.source.tag.size &&
        decoded.tag.origin = some decoded.source.tag.offset
    else decoded.tag.bytes.length = 0 && decoded.tag.origin.isNone
  | .format => true

/-- The checks `tlv_format_decode` makes on a successful callback. -/
def decodedValid (decoded : Decoded) (size : Nat) : Bool :=
  let s := decoded.source
  s.header.present && s.value.present && s.trailer.present && s.size ≠ 0 && s.size ≤ size &&
    s.header.offset = 0 && s.header.valid s.size && s.value.valid s.size &&
    s.trailer.valid s.size && s.tag.valid s.size && s.length.valid s.size &&
    s.value.offset = s.header.size && s.trailer.offset = s.value.offset + s.value.size &&
    s.trailer.size = s.size - s.trailer.offset &&
    decoded.value.bytes.length = s.value.size && decoded.value.origin = some s.value.offset &&
    tagBindingValid decoded

/-- A range is published only inside the input. -/
def Range.clip (range : Range) (size : Nat) : Range :=
  if range.valid size then range else { range with present := false }

/-- `tlv_format_decode`. -/
def formatDecode (format : Format) (data : Bytes) : FormatResult Decoded :=
  match format.decode with
  | none => .error (.nullArg, {})
  | some decode =>
    if data.length = 0 then .error (.atEnd, { hasOffset := true })
    else
      match decode data with
      | .ok decoded =>
        if decodedValid decoded data.length then .ok decoded
        else .error (.callback, {})
      | .error (status, detail) =>
        let status := callbackStatus status
        let status := if status = .bufferTooShort then .callback else status
        .error (status,
          { detail with
            tag := detail.tag.clip data.length
            length := detail.length.clip data.length
            value := detail.value.clip data.length })

/-- The sum check of `tlv_format_measure`. -/
def encodingValid (encoding : Encoding) (element : Element) : Bool :=
  match sizeAdd encoding.header encoding.value with
  | .error _ => false
  | .ok partialSum =>
    match sizeAdd partialSum encoding.trailer with
    | .error _ => false
    | .ok total =>
      total ≠ 0 && encoding.value = element.value.length && encoding.total = total

/-- `tlv_format_measure`. -/
def formatMeasure (format : Format) (element : Element) : FormatResult Encoding :=
  match format.measure, format.encode with
  | some measure, some _ =>
    match measure element with
    | .ok encoding =>
      if encodingValid encoding element then .ok encoding else .error (.callback, {})
    | .error (status, detail) => .error (callbackStatus status, detail)
  | _, _ => .error (.nullArg, {})

/-- `tlv_format_encode`: the destination after the call and the octets written. -/
def formatEncode (format : Format) (element : Element) (destination : Bytes) :
    FormatResult (Bytes × Nat) :=
  match formatMeasure format element with
  | .error failure => .error failure
  | .ok sizes =>
    match sizeToNative sizes.total with
    | .error status => .error (status, {})
    | .ok total =>
      if destination.length < total then
        .error (.bufferTooShort, { region := .value, hasOffset := true, hasRequired := true,
                                   required := sizes.total })
      else
        match format.encode with
        | none => .error (.nullArg, {})
        | some encode =>
          match encode element destination with
          | .error (status, detail) => .error (callbackStatus status, detail)
          | .ok (stored, used) =>
            if used ≠ total then .error (.callback, {}) else .ok (stored, used)

/-- A successful encode measured the element, and its callback used exactly that total. -/
theorem format_encode_eq_ok {format : Format} {element : Element} {destination stored : Bytes}
    {used : Nat} (h : formatEncode format element destination = .ok (stored, used)) :
    ∃ encode sizes, format.encode = some encode ∧ formatMeasure format element = .ok sizes ∧
      sizes.total = used ∧ used ≤ destination.length ∧
      encode element destination = .ok (stored, used) := by
  unfold formatEncode at h
  cases hmeasure : formatMeasure format element with
  | error failure => simp [hmeasure] at h
  | ok sizes =>
    simp only [hmeasure] at h
    cases hnative : sizeToNative sizes.total with
    | error status => simp [hnative] at h
    | ok total =>
      have htotal := size_to_native_eq_ok hnative
      subst htotal
      simp only [hnative] at h
      obtain ⟨hcapacity, h⟩ := guard_ok.mp h
      cases hencode : format.encode with
      | none => simp [hencode] at h
      | some encode =>
        simp only [hencode] at h
        cases hcall : encode element destination with
        | error failure => simp [hcall] at h
        | ok result =>
          obtain ⟨written, count⟩ := result
          simp only [hcall] at h
          obtain ⟨hused, h⟩ := guard_ok.mp h
          simp only [ne_eq, not_not] at hused
          cases h
          exact ⟨encode, sizes, rfl, rfl, hused.symm, by omega, hcall⟩

/-- What `tlv_format_measure` accepts is what the callback measured. -/
theorem format_measure_eq_ok {format : Format} {element : Element} {sizes : Encoding}
    (h : formatMeasure format element = .ok sizes) :
    ∃ measure, format.measure = some measure ∧ measure element = .ok sizes := by
  unfold formatMeasure at h
  split at h
  next measure encode hmeasure hencode =>
    split at h
    next encoding hcall =>
      split at h
      · exact ⟨measure, hmeasure, by rw [hcall, Except.ok.inj h]⟩
      · cases h
    · cases h
  · cases h

/-- A published element is a callback result that passed the checks. -/
theorem format_decode_eq_ok {format : Format} {data : Bytes} {decoded : Decoded}
    (h : formatDecode format data = .ok decoded) :
    ∃ decode, format.decode = some decode ∧ data.length ≠ 0 ∧ decode data = .ok decoded ∧
      decodedValid decoded data.length = true := by
  unfold formatDecode at h
  cases hdecode : format.decode with
  | none => simp [hdecode] at h
  | some decode =>
    simp only [hdecode] at h
    obtain ⟨hdata, h⟩ := guard_ok.mp h
    cases hcall : decode data with
    | error failed => simp [hcall] at h
    | ok result =>
      simp only [hcall] at h
      split at h
      next hvalid =>
        cases h
        exact ⟨decode, rfl, hdata, hcall, hvalid⟩
      · cases h

/-- A decode callback whose result passes the checks is published unchanged. -/
theorem format_decode_of_valid {format : Format} {decode : Bytes → FormatResult Decoded}
    {data : Bytes} {decoded : Decoded} (hformat : format.decode = some decode)
    (hdata : data.length ≠ 0) (hcall : decode data = .ok decoded)
    (hvalid : decodedValid decoded data.length = true) :
    formatDecode format data = .ok decoded := by
  simp [formatDecode, hformat, hdata, hcall, hvalid]

/-- A measurement that passes the checks is published unchanged. -/
theorem format_measure_of_valid {format : Format} {measure : Element → FormatResult Encoding}
    {encode : Element → Bytes → FormatResult (Bytes × Nat)} {element : Element}
    {encoding : Encoding} (hmeasure : format.measure = some measure)
    (hencode : format.encode = some encode) (hcall : measure element = .ok encoding)
    (hvalid : encodingValid encoding element = true) :
    formatMeasure format element = .ok encoding := by
  simp [formatMeasure, hmeasure, hencode, hcall, hvalid]

/-- An encoder that uses what was measured is published unchanged. -/
theorem format_encode_of_call {format : Format}
    {encode : Element → Bytes → FormatResult (Bytes × Nat)} {element : Element} {sizes : Encoding}
    {destination stored : Bytes} (hmeasure : formatMeasure format element = .ok sizes)
    (hencode : format.encode = some encode) (hnative : sizes.total ≤ sizeMax)
    (hroom : sizes.total ≤ destination.length)
    (hcall : encode element destination = .ok (stored, sizes.total)) :
    formatEncode format element destination = .ok (stored, sizes.total) := by
  have hsize : sizeToNative sizes.total = .ok sizes.total := if_neg (by omega)
  simp only [formatEncode, hmeasure, hsize, if_neg (Nat.not_lt.mpr hroom), hencode, hcall]
  rw [if_neg (by simp)]

end OpenTlv
