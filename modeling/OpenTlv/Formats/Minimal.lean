import OpenTlv.Field.Minimal
import OpenTlv.Formats.Configurable

/-!
# Configurations with one encoding per element

The reverse of `configurable_round_trip`. Where both fields of a composition read only what
they write, an element that `compose.c` decodes is encoded as the octets it was read from. This
holds for every fixed configuration, for the escaped ones whose extended count starts at the
escape, and for the variable ones whose policy asks for minimal lengths.
-/

namespace OpenTlv

/-- The configurations that leave an element no choice of form. -/
def Configuration.canonical : Configuration → Bool
  | .fixed _ => true
  | .variableWidth config => config.length.policy.any fun policy => policy.requireMinimal ≠ 0
  | .escaped config => config.length.minExtended = config.length.escape.toNat
  | .taggedBinary _ => true

section Steps

variable {f : FieldComposition}

theorem read_result_eq_ok {α : Type} {result : Except Status α} {value : α}
    (h : readResult result = .ok value) : result = .ok value := by
  unfold readResult at h
  split at h
  · cases h
  · exact callback_result_eq_ok h

/-- A tag that stands at the start of the data and is written as it stands. -/
structure ReadTagOctets (f : FieldComposition) (data tag : Bytes) : Prop where
  ne_nil : tag ≠ []
  stands : data.take tag.length = tag
  inside : tag.length ≤ data.length
  width : f.writeTag tag none = .ok ([], tag.length)

/-- A count that stands at the start of the data and is written as it stands. -/
structure ReadLengthOctets (f : FieldComposition) (data octets : Bytes) (length : Nat) :
    Prop where
  stands : data.take octets.length = octets
  inside : octets.length ≤ data.length
  bounded : length ≤ sizeMax
  written : ∀ capacity : Option Nat, (∀ room, capacity = some room → octets.length ≤ room) →
    f.writeLength length capacity =
      .ok (if capacity.isSome then octets else [], octets.length)

/-- The identifier step of a canonical field. -/
theorem tag_step_canonical (htags : TagCanonical f.readTag f.writeTag) {data : Bytes}
    {s s' : FieldsState} (h : tagStep f data s = .ok s') :
    ∃ tag, ReadTagOctets f (data.drop s.pos) tag ∧ s'.tag.bytes = tag ∧
      s'.tagSize = tag.length ∧ s'.pos = s.pos + tag.length ∧ s'.length = s.length ∧
      s'.trailer = s.trailer := by
  unfold tagStep at h
  cases hread : f.readTag (data.drop s.pos) with
  | mk outcome consumed =>
    simp only [hread] at h
    split at h
    · cases h
    next span hspan =>
      obtain ⟨hbounds, h⟩ := guard_ok.mp h
      cases h
      rw [read_result_eq_ok hspan] at hread
      obtain ⟨hbytes, hinside, hwidth⟩ := htags _ _ _ hread
      have hlength : span.bytes.length = consumed := by
        rw [hbytes, List.length_take, Nat.min_eq_left hinside]
      refine ⟨span.bytes, ⟨?_, ?_, ?_, ?_⟩, rfl, hlength.symm, ?_, rfl, rfl⟩
      · rw [← List.length_pos_iff, hlength]
        omega
      · rw [hlength, hbytes]
      · rw [hlength]
        exact hinside
      · rw [hlength]
        exact hwidth
      · rw [hlength]

/-- The count step of a canonical field. -/
theorem length_step_canonical (hresolve : f.resolve = none)
    (hlengths : LengthCanonical f.readLength f.writeLength) {data : Bytes} {s s' : FieldsState}
    (h : lengthStep f data s = .ok s') :
    ∃ octets, ReadLengthOctets f (data.drop s.pos) octets s'.length ∧ s'.trailer = 0 ∧
      s'.pos = s.pos + octets.length ∧ s'.tag = s.tag ∧ s'.tagSize = s.tagSize := by
  unfold lengthStep readCount at h
  rw [hresolve] at h
  cases hread : f.readLength (data.drop s.pos) with
  | mk outcome consumed =>
    simp only [hread] at h
    cases hcount : readResult outcome with
    | error status => simp [hcount, Except.map, fieldsFailure, failure] at h
    | ok length =>
      simp only [hcount, Except.map] at h
      obtain ⟨-, h⟩ := guard_ok.mp h
      split at h
      · cases h
      · cases h
        rw [read_result_eq_ok hcount] at hread
        obtain ⟨hinside, hbounded, hwrite⟩ := hlengths _ _ _ hread
        have hlength : ((data.drop s.pos).take consumed).length = consumed := by
          rw [List.length_take, Nat.min_eq_left hinside]
        refine ⟨(data.drop s.pos).take consumed, ⟨?_, ?_, hbounded, ?_⟩, rfl, ?_, rfl, rfl⟩
        · rw [hlength]
        · rw [hlength]
          exact hinside
        · rw [hlength]
          exact hwrite
        · rw [hlength]

/-- A header that stands at the start of the data and is written as it stands. -/
structure ReadHeader (f : FieldComposition) (data : Bytes) (s : FieldsState)
    (tag octets : Bytes) : Prop where
  stands : data.take s.pos = headerBytes f tag octets
  pos : s.pos = tag.length + octets.length
  inside : s.pos ≤ data.length
  tag_eq : s.tag.bytes = tag
  tag_size : s.tagSize = tag.length
  trailer : s.trailer = 0
  tag_ne : tag ≠ []
  bounded : s.length ≤ sizeMax
  tag_width : f.writeTag tag none = .ok ([], tag.length)
  length_written : ∀ capacity : Option Nat,
    (∀ room, capacity = some room → octets.length ≤ room) →
      f.writeLength s.length capacity =
        .ok (if capacity.isSome then octets else [], octets.length)

/-- The header steps of canonical fields, in either order. -/
theorem header_steps_canonical (hresolve : f.resolve = none)
    (htags : TagCanonical f.readTag f.writeTag)
    (hlengths : LengthCanonical f.readLength f.writeLength) {data : Bytes} {s : FieldsState}
    (h : headerSteps f data = .ok s) : ∃ tag octets, ReadHeader f data s tag octets := by
  unfold headerSteps at h
  split at h
  next horder =>
    split at h
    · cases h
    next first hfirst =>
      obtain ⟨tag, htag, hbytes, hsize, hpos, -, -⟩ := tag_step_canonical htags hfirst
      obtain ⟨octets, hoctets, htrailer, hend, hkept, hkeptSize⟩ :=
        length_step_canonical hresolve hlengths h
      have hfirstPos : first.pos = tag.length := hpos.trans (Nat.zero_add _)
      have hstart := htag.stands
      have hinside := hoctets.inside
      have hstands := hoctets.stands
      rw [hfirstPos] at hend hinside hstands
      rw [List.length_drop] at hinside
      refine ⟨tag, octets, ?_, hend, ?_, ?_, ?_, htrailer, htag.ne_nil, hoctets.bounded,
        htag.width, hoctets.written⟩
      · rw [hend, List.take_add, hstands, headerBytes, if_pos horder]
        exact congrArg (· ++ octets) hstart
      · have := htag.inside
        rw [List.length_drop] at this
        omega
      · rw [hkept, hbytes]
      · rw [hkeptSize, hsize]
  next horder =>
    split at h
    · cases h
    next first hfirst =>
      obtain ⟨octets, hoctets, htrailer, hpos, -, -⟩ :=
        length_step_canonical hresolve hlengths hfirst
      obtain ⟨tag, htag, hbytes, hsize, hend, hlength, hkept⟩ := tag_step_canonical htags h
      have hfirstPos : first.pos = octets.length := hpos.trans (Nat.zero_add _)
      have hstart := hoctets.stands
      have hinside := htag.inside
      have hstands := htag.stands
      rw [hfirstPos] at hend hinside hstands
      rw [List.length_drop] at hinside
      refine ⟨tag, octets, ?_, ?_, ?_, hbytes, hsize, hkept.trans htrailer, htag.ne_nil, ?_,
        htag.width, ?_⟩
      · rw [hend, List.take_add, hstands, headerBytes, if_neg horder]
        exact congrArg (· ++ tag) hstart
      · rw [hend, Nat.add_comm]
      · have := hoctets.inside
        rw [List.length_drop] at this
        omega
      · rw [hlength]
        exact hoctets.bounded
      · rw [hlength]
        exact hoctets.written

/-- The value of an element without trailer. -/
theorem value_step_eq_ok {data : Bytes} {s : FieldsState} {length : Nat} {decoded : Decoded}
    (htrailer : s.trailer = 0) (h : valueStep data s length = .ok decoded) :
    length ≤ data.length - s.pos ∧ decoded.tag = s.tag ∧
      decoded.value.bytes = (data.drop s.pos).take length ∧
      decoded.source.size = s.pos + length := by
  unfold valueStep at h
  obtain ⟨hinside, h⟩ := guard_ok.mp h
  obtain ⟨-, h⟩ := guard_ok.mp h
  cases h
  refine ⟨by omega, rfl, rfl, ?_⟩
  dsimp only
  rw [htrailer, Nat.add_zero]

end Steps

/-- Callbacks that measure and encode what they decoded as the octets it was read from. -/
def CallbacksCanonical (decode : Bytes → FormatResult Decoded)
    (measure : Element → FormatResult Encoding)
    (encode : Element → Bytes → FormatResult (Bytes × Nat)) : Prop :=
  ∀ data decoded, data.length ≤ sizeMax → decode data = .ok decoded →
    ∃ (element : Element) (header : Nat), element.tag = decoded.tag.bytes ∧
      element.value = decoded.value.bytes ∧
      header + element.value.length = decoded.source.size ∧
      measure element = .ok ⟨header, element.value.length, 0, decoded.source.size⟩ ∧
      ∀ destination : Bytes, decoded.source.size ≤ destination.length →
        ∃ stored, encode element destination = .ok (stored, decoded.source.size) ∧
          stored.take decoded.source.size = data.take decoded.source.size

section Composition

variable {f : FieldComposition}

/-- The fields of a header that was read are written with its widths. -/
theorem ReadHeader.field_sizes {data : Bytes} {s : FieldsState} {tag octets : Bytes}
    (h : ReadHeader f data s tag octets) {element : Element} (htag : element.tag = tag)
    (hcount : elementCount f element tag.length = .ok s.length) :
    fieldSizes f element = .ok (tag.length, octets.length, s.length) := by
  have hpositive := List.length_pos_iff.mpr h.tag_ne
  have hnonzero : ¬ tag.length = 0 := by omega
  have hlength := h.length_written none (by simp)
  simp only [fieldSizes, tagWidth, htag, h.tag_width, callback_result_ok, if_neg hnonzero, hcount,
    hlength, Option.isSome_none, Bool.false_eq_true, if_false]

/-- A header that was read is written in front of the value. -/
theorem ReadHeader.encode (htags : TagLaw f.readTag f.writeTag) {data : Bytes} {s : FieldsState}
    {tag octets : Bytes} (h : ReadHeader f data s tag octets) {element : Element}
    (htag : element.tag = tag) (hcount : elementCount f element tag.length = .ok s.length)
    {destination : Bytes} (hroom : s.pos + element.value.length ≤ destination.length) :
    ∃ stored, fieldsEncode f element destination = .ok (stored, s.pos + element.value.length) ∧
      stored.take (s.pos + element.value.length) = data.take s.pos ++ element.value := by
  have hpos := h.pos
  obtain ⟨-, -, hwriteTag, -⟩ := htags _ _ _ h.tag_width
  have hlength := h.length_written (some octets.length) fun room hsome =>
    (Option.some.inj hsome).le
  have hnative : sizeToNative element.value.length = .ok element.value.length :=
    if_neg (Nat.not_lt.mpr element.value_le)
  have hfits : ¬ (tag.length > destination.length ∨
      octets.length > destination.length - tag.length ∨
      element.value.length > destination.length - tag.length - octets.length) := by omega
  have hstored := take_stores f destination tag octets element.value (by omega)
  rw [h.stands, hpos]
  refine ⟨_, ?_, hstored⟩
  unfold fieldsEncode
  rw [h.field_sizes htag hcount]
  simp only [hnative, if_neg hfits, htag, hwriteTag _ (Nat.le_refl _), callback_result_ok, hlength,
    Option.isSome_some, if_true, ne_eq, not_true_eq_false, if_false]

/-- Canonical fields make a canonical composition. -/
theorem fields_canonical (hresolve : f.resolve = none) (hlaw : TagLaw f.readTag f.writeTag)
    (htags : TagCanonical f.readTag f.writeTag)
    (hlengths : LengthCanonical f.readLength f.writeLength) :
    CallbacksCanonical (fieldsDecode f) (fieldsMeasure f) (fieldsEncode f) := by
  intro data decoded hdata h
  unfold fieldsDecode at h
  cases hsteps : headerSteps f data with
  | error failed => simp [hsteps] at h
  | ok s =>
    obtain ⟨tag, octets, hheader⟩ := header_steps_canonical hresolve htags hlengths hsteps
    have hinside := hheader.inside
    have hpos := hheader.pos
    simp only [hsteps] at h
    -- in either scope the count is that of an element with the value that was read
    have hvalue : ∃ length, valueStep data s length = .ok decoded ∧
        ∀ element : Element, element.value.length = length →
          elementCount f element tag.length = .ok s.length := by
      split at h
      next hscope =>
        obtain ⟨henough, h⟩ := guard_ok.mp h
        refine ⟨_, h, fun element helement => ?_⟩
        have hsize := hheader.tag_size
        have hbounded := hheader.bounded
        unfold elementCount
        rw [if_pos hscope]
        unfold sizeAdd
        rw [if_neg (by omega)]
        exact congrArg Except.ok (by omega)
      next hscope =>
        refine ⟨_, h, fun element helement => ?_⟩
        unfold elementCount
        rw [if_neg hscope, helement]
    obtain ⟨length, hstep, hcount⟩ := hvalue
    obtain ⟨hlength, htag, hbytes, hsize⟩ := value_step_eq_ok hheader.trailer hstep
    have htaken : ((data.drop s.pos).take length).length = length := by
      rw [List.length_take, List.length_drop]
      omega
    obtain ⟨element, helementTag, helementValue⟩ : ∃ element : Element,
        element.tag = tag ∧ element.value = (data.drop s.pos).take length :=
      ⟨⟨tag, (data.drop s.pos).take length, by omega, by rw [htaken]; omega⟩, rfl, rfl⟩
    have hvalueLength : element.value.length = length := by rw [helementValue, htaken]
    have hcounted := hcount element hvalueLength
    refine ⟨element, s.pos, ?_, ?_, ?_, ?_, ?_⟩
    · rw [htag, hheader.tag_eq, helementTag]
    · rw [hbytes, helementValue]
    · rw [hvalueLength, hsize]
    · have hsum : sizeAdd tag.length octets.length = .ok s.pos := by
        unfold sizeAdd
        rw [if_neg (by omega), hpos]
      have htotal : sizeAdd s.pos element.value.length = .ok decoded.source.size := by
        unfold sizeAdd
        rw [if_neg (by omega), hvalueLength, hsize]
      simp only [fieldsMeasure, hheader.field_sizes helementTag hcounted, hsum, htotal]
    · intro destination hroom
      rw [hsize, ← hvalueLength] at hroom ⊢
      obtain ⟨stored, hencode, hstored⟩ := hheader.encode hlaw helementTag hcounted hroom
      refine ⟨stored, hencode, ?_⟩
      rw [hstored, List.take_add, hvalueLength, helementValue]

/-- A tag without count and value is encoded as it was read. -/
theorem tagged_fields_canonical {f : TaggedFieldsComposition} (hresolve : f.fields.resolve = none)
    (hlaw : TagLaw f.fields.readTag f.fields.writeTag)
    (htags : TagCanonical f.fields.readTag f.fields.writeTag)
    (hlengths : LengthCanonical f.fields.readLength f.fields.writeLength)
    (horder : f.fields.elementOrder = .tlv) :
    CallbacksCanonical (taggedFieldsDecode f) (taggedFieldsMeasure f) (taggedFieldsEncode f) := by
  intro data decoded hdata h
  unfold taggedFieldsDecode at h
  cases hread : f.fields.readTag data with
  | mk outcome consumed =>
    simp only [hread] at h
    split at h
    · cases h
    next span hspan =>
      rw [read_result_eq_ok hspan] at hread
      obtain ⟨hbytes, hinside, hwidth⟩ := htags _ _ _ hread
      obtain ⟨hbounds, h⟩ := guard_ok.mp h
      have hnonzero : ¬ consumed = 0 := by omega
      split at h
      next hlisted =>
        obtain ⟨element, header, htag, hvalue, hsum, hmeasure, hencode⟩ :=
          fields_canonical hresolve hlaw htags hlengths data decoded hdata h
        -- the composition reads the same tag again
        have hsame : element.tag = span.bytes := by
          rw [htag]
          have hleading : tagStep f.fields data {} =
              .ok { tag := ⟨span.bytes, span.origin.map (· + 0)⟩
                    tagSize := consumed
                    tagRange := Range.at 0 consumed
                    pos := 0 + consumed } := by
            simp only [tagStep, List.drop_zero, hread, read_result_ok, Nat.sub_zero,
              if_neg hbounds]
          unfold fieldsDecode headerSteps at h
          rw [if_pos horder, hleading] at h
          dsimp only at h
          split at h
          · cases h
          next s hsteps =>
            obtain ⟨octets, -, htrailer, -, hkept, -⟩ :=
              length_step_canonical hresolve hlengths hsteps
            have hdecoded : decoded.tag = s.tag := by
              split at h
              · split at h
                · cases h
                · exact (value_step_eq_ok htrailer h).2.1
              · exact (value_step_eq_ok htrailer h).2.1
            rw [hdecoded, hkept]
        rw [← hsame] at hlisted hwidth
        refine ⟨element, header, htag, hvalue, hsum, ?_, ?_⟩
        · simp only [taggedFieldsMeasure, tagWidth, hwidth, callback_result_ok,
            if_neg hnonzero, hlisted, if_true]
          exact hmeasure
        · intro destination hroom
          obtain ⟨stored, hstored⟩ := hencode destination hroom
          refine ⟨stored, ?_, hstored.2⟩
          simp only [taggedFieldsEncode, taggedFieldsMeasure, tagWidth, hwidth,
            callback_result_ok, if_neg hnonzero, hlisted, if_true, hmeasure]
          exact hstored.1
      next hlisted =>
        cases h
        have hlength : span.bytes.length = consumed := by
          rw [hbytes, List.length_take, Nat.min_eq_left hinside]
        have hmeasure : taggedFieldsMeasure f ⟨span.bytes, [], by omega, Nat.zero_le _⟩ =
            .ok ⟨consumed, 0, 0, consumed⟩ := by
          simp only [taggedFieldsMeasure, tagWidth, hwidth, callback_result_ok,
            if_neg hnonzero, if_neg hlisted, List.length_nil, ne_eq, not_true_eq_false,
            if_false]
        refine ⟨⟨span.bytes, [], by omega, Nat.zero_le _⟩, consumed, rfl, rfl, rfl, hmeasure,
          ?_⟩
        intro destination hroom
        obtain ⟨-, hsame, hwriteTag, -⟩ := hlaw _ _ _ hwidth
        refine ⟨Octets.store destination 0 span.bytes, ?_, ?_⟩
        · simp only [taggedFieldsEncode, hmeasure, if_neg hlisted, gt_iff_lt,
            if_neg (Nat.not_lt.mpr hroom), hwriteTag _ hroom]
        · have hstored := @Octets.take_store destination [] span.bytes 0 (by simp) rfl
          rw [Nat.zero_add, hlength] at hstored
          rw [hstored, List.nil_append, hbytes]

end Composition

/-- A format with canonical callbacks. -/
def FormatCanonical (format : Format) : Prop :=
  ∃ decode measure encode, format.decode = some decode ∧ format.measure = some measure ∧
    format.encode = some encode ∧ CallbacksCanonical decode measure encode

/-- A format is canonical when its callbacks are. -/
theorem format_init_canonical {decode : Bytes → FormatResult Decoded}
    {measure : Element → FormatResult Encoding}
    {encode : Element → Bytes → FormatResult (Bytes × Nat)} {format : Format}
    (hcanonical : CallbacksCanonical decode measure encode)
    (h : formatInit (some decode) (some measure) (some encode) = .ok format) :
    FormatCanonical format := by
  simp only [formatInit, Option.isSome_some, ne_eq, not_true_eq_false, Option.isNone_some,
    Bool.false_eq_true, and_self, or_self, if_false] at h
  cases h
  exact ⟨decode, measure, encode, rfl, rfl, rfl, hcanonical⟩

/-- The added detail of the binary decoders is on failures only. -/
theorem require_header_eq_ok {f : BinaryComposition} {result : FormatResult Decoded}
    {decoded : Decoded} (h : requireHeader f result = .ok decoded) : result = .ok decoded := by
  unfold requireHeader at h
  split at h
  · split at h
    · cases h
    · split at h <;> cases h
  · exact h

theorem fixed_format_init_canonical {config : BinaryComposition} {format : Format}
    (h : fixedFormatInit config = .ok format) : FormatCanonical format := by
  unfold fixedFormatInit at h
  split at h
  · cases h
  next hidentifier =>
    split at h
    · cases h
    next hlength =>
      split at h
      · cases h
      · apply format_init_canonical _ h
        intro data decoded hdata hdecode
        exact fields_canonical (f := binaryFields config) rfl (fixed_identifier_law hidentifier)
          (fixed_identifier_canonical hidentifier) (fixed_length_canonical hlength) data decoded
          hdata (require_header_eq_ok hdecode)

theorem variable_format_init_canonical {config : VariableFormat} {format : Format}
    (hminimal : (Configuration.variableWidth config).canonical = true)
    (h : variableFormatInit config = .ok format) : FormatCanonical format := by
  obtain ⟨policy, hpolicy, hrequire⟩ : ∃ policy, config.length.policy = some policy ∧
      policy.requireMinimal ≠ 0 := by
    simpa [Configuration.canonical, Option.any_eq_true] using hminimal
  unfold variableFormatInit at h
  split at h
  · cases h
  next fields hfields =>
    unfold variableFieldsInit at hfields
    split at hfields
    · cases hfields
    next hidentifier =>
      split at hfields
      · cases hfields
      next hlength =>
        split at h
        · cases h
        next plain hplain =>
          cases h
          obtain ⟨decode, measure, encode, hdecode, hmeasure, hencode, hcanonical⟩ :=
            format_init_canonical
              (fields_canonical (f := variableFields config) rfl
                (variable_identifier_law hidentifier) (variable_identifier_canonical hidentifier)
                (variable_length_canonical hlength hpolicy hrequire)) hplain
          exact ⟨decode, measure, encode, hdecode, hmeasure, hencode, hcanonical⟩

theorem escaped_format_init_canonical {config : EscapedFormat} {format : Format}
    (hminimal : (Configuration.escaped config).canonical = true)
    (h : escapedFormatInit config = .ok format) : FormatCanonical format := by
  have hmin : config.length.minExtended = config.length.escape.toNat := by
    simpa [Configuration.canonical] using hminimal
  unfold escapedFormatInit at h
  split at h
  · cases h
  next hidentifier =>
    split at h
    · cases h
    next hlength =>
      split at h
      · cases h
      next hframing =>
        split at h
        · cases h
        · apply format_init_canonical _ h
          have hlaw := fixed_identifier_law hidentifier
          have htags := fixed_identifier_canonical hidentifier
          have hlengths := escaped_length_canonical hlength hmin
          unfold escapedDecode escapedMeasure escapedEncode
          by_cases hlist : config.tagOnly.length ≠ 0
          · -- a tag-only list is accepted only together with the TLV order
            have horder : config.elementOrder = .tlv := by
              by_contra hother
              exact hframing (.inr ⟨hlist, .inl hother⟩)
            simp only [if_pos hlist]
            exact tagged_fields_canonical (f := escapedFields config) rfl hlaw htags hlengths
              horder
          · simp only [if_neg hlist]
            exact fields_canonical rfl hlaw htags hlengths

theorem tagged_binary_format_init_canonical {config : TaggedBinaryComposition}
    {format : Format} (h : taggedBinaryFormatInit config = .ok format) :
    FormatCanonical format := by
  unfold taggedBinaryFormatInit at h
  split at h
  · cases h
  next hidentifier =>
    split at h
    · cases h
    next hlength =>
      split at h
      · cases h
      next hframing =>
        split at h
        · cases h
        · apply format_init_canonical _ h
          intro data decoded hdata hdecode
          have horder : config.fields.elementOrder = .tlv := by
            by_contra hother
            exact hframing (.inl hother)
          exact tagged_fields_canonical (f := taggedBinaryFields config) rfl
            (fixed_identifier_law hidentifier) (fixed_identifier_canonical hidentifier)
            (fixed_length_canonical hlength) horder data decoded hdata
            (require_header_eq_ok hdecode)

/-- Every accepted configuration without a choice of form yields canonical callbacks. -/
theorem configuration_init_canonical {configuration : Configuration} {format : Format}
    (hminimal : configuration.canonical = true) (h : configuration.init = .ok format) :
    FormatCanonical format := by
  cases configuration with
  | fixed config => exact fixed_format_init_canonical h
  | variableWidth config => exact variable_format_init_canonical hminimal h
  | escaped config => exact escaped_format_init_canonical hminimal h
  | taggedBinary config => exact tagged_binary_format_init_canonical h

/-- An element that an accepted configuration without a choice of form decodes is encoded as
exactly the octets it was decoded from. -/
theorem configurable_canonical {configuration : Configuration} {format : Format}
    (hinit : configuration.init = .ok format) (hminimal : configuration.canonical = true)
    {data : Bytes} (hdata : data.length ≤ sizeMax) {decoded : Decoded}
    (hdecode : formatDecode format data = .ok decoded) :
    decoded.source.size ≤ data.length ∧
      ∃ element : Element, element.tag = decoded.tag.bytes ∧
        element.value = decoded.value.bytes ∧
        ∀ destination : Bytes, decoded.source.size ≤ destination.length →
          ∃ stored, formatEncode format element destination =
              .ok (stored, decoded.source.size) ∧
            stored.take decoded.source.size = data.take decoded.source.size := by
  obtain ⟨decode, measure, encode, hformat, hmeasure, hencode, hcanonical⟩ :=
    configuration_init_canonical hminimal hinit
  obtain ⟨called, hcalled, -, hcall, hvalid⟩ := format_decode_eq_ok hdecode
  have hsame : called = decode := Option.some.inj (hcalled.symm.trans hformat)
  subst hsame
  obtain ⟨element, header, htag, hvalue, hsum, hmeasured, hencoded⟩ :=
    hcanonical data decoded hdata hcall
  have hbounds : decoded.source.size ≠ 0 ∧ decoded.source.size ≤ data.length := by
    simp only [decodedValid, Bool.and_eq_true, decide_eq_true_eq] at hvalid
    omega
  obtain ⟨hnonzero, hsize⟩ := hbounds
  have hsizes : encodingValid ⟨header, element.value.length, 0, decoded.source.size⟩ element =
      true := by
    have hfirst : sizeAdd header element.value.length = .ok decoded.source.size := by
      unfold sizeAdd
      rw [if_neg (by omega), hsum]
    have hsecond : sizeAdd decoded.source.size 0 = .ok decoded.source.size := by
      unfold sizeAdd
      rw [if_neg (by omega), Nat.add_zero]
    simp [encodingValid, hfirst, hsecond, hnonzero]
  refine ⟨hsize, element, htag, hvalue, fun destination hroom => ?_⟩
  obtain ⟨stored, hstore, hoctets⟩ := hencoded destination hroom
  have hpublished := format_measure_of_valid hmeasure hencode hmeasured hsizes
  exact ⟨stored,
    format_encode_of_call hpublished hencode (Nat.le_trans hsize hdata) hroom hstore, hoctets⟩

/-- Four octets of a fixed composition are decoded, and encoded as they stood. -/
theorem configurable_canonical_sample :
    ∃ format decoded, (Configuration.fixed sampleComposition).init = .ok format ∧
      formatDecode format [0x02, 0x00, 0x5A, 0x07, 0xFF] = .ok decoded ∧
      decoded.source.size = 4 ∧
      decoded.source.size ≤ [(0x02 : UInt8), 0x00, 0x5A, 0x07, 0xFF].length ∧
      ∃ element : Element, element.tag = decoded.tag.bytes ∧
        element.value = decoded.value.bytes ∧
        ∀ destination : Bytes, decoded.source.size ≤ destination.length →
          ∃ stored, formatEncode format element destination =
              .ok (stored, decoded.source.size) ∧
            stored.take decoded.source.size =
              [(0x02 : UInt8), 0x00, 0x5A, 0x07, 0xFF].take decoded.source.size := by
  have hinit : (Configuration.fixed sampleComposition).init =
      .ok ⟨some (binaryDecode sampleComposition), some (binaryMeasure sampleComposition),
        some (binaryEncode sampleComposition), none⟩ := rfl
  exact ⟨_, _, hinit, rfl, rfl,
    configurable_canonical hinit rfl (by decide) rfl⟩

end OpenTlv
