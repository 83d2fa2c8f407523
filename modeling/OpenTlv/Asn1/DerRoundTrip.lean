import OpenTlv.Asn1.CerCanonical
import OpenTlv.Asn1.DerTree

/-!
# DER writes what it reads

Under one record of limits, `tlv_der_read` and `tlv_der_write` are inverse to each other. The
header of an accepted element is the one that is written for its tag and value, because both
fields are minimal. Both sides traverse the contents: the reader from the first octet at depth
zero, the writer from the first octet of the value at depth one. `DerRun.embed` takes a state of
the writer's traversal to the reader's, and every iteration commutes with it.
-/

namespace OpenTlv

section Fields

/-- A screened reader succeeds where both read and screen do. -/
theorem screened_tag_eq_ok {allowed : Bytes → Bool} {read : ReadTag} {data : Bytes} {tag : Span}
    {size : Nat} :
    screenedTag allowed read data = ⟨.ok tag, size⟩ ↔
      read data = ⟨.ok tag, size⟩ ∧ allowed tag.bytes = true := by
  unfold screenedTag
  cases read data with
  | mk outcome used =>
    cases outcome with
    | error status => simp
    | ok other =>
      dsimp only
      constructor
      · intro h
        split at h
        · rename_i hallowed
          cases h
          exact ⟨rfl, hallowed⟩
        · cases h
      · rintro ⟨h, hallowed⟩
        cases h
        rw [if_pos hallowed]

theorem der_read_tag_eq_ok {data : Bytes} {tag : Span} {size : Nat} :
    derReadTag data = ⟨.ok tag, size⟩ ↔
      variableIdentifierRead (asn1Identifier ⟨[], 1, 1⟩) data = ⟨.ok tag, size⟩ ∧
        asn1IdentifierAllowed tag.bytes = true ∧ derIdentifierAllowed tag.bytes = true := by
  unfold derReadTag asn1ReadIdentifier
  rw [screened_tag_eq_ok, screened_tag_eq_ok, and_assoc]

theorem der_read_tag_span {data : Bytes} {tag : Span} (h : (derReadTag data).outcome = .ok tag) :
    tag = ⟨data.take (derReadTag data).consumed, some 0⟩ := by
  cases hread : derReadTag data with
  | mk outcome size =>
    rw [hread] at h
    cases h
    have hvariable := (der_read_tag_eq_ok.mp hread).1
    have hspan := (variable_identifier_within (congrArg FieldRead.outcome hvariable)).2.2
    rw [hvariable] at hspan
    exact hspan

theorem der_identifier_law : TagLaw derReadTag derWriteTag :=
  checked_identifier_law der_fields_keeps.tag fun _ _ => der_read_tag_span

/-- No identifier is longer than its configuration allows. -/
theorem identifier_continuation_le {config : VariableIdentifier} {data : Bytes}
    {count last consumed : Nat} (hcount : count ≤ config.maxSize)
    (h : identifierContinuation config data count = ⟨.ok last, consumed⟩) :
    last ≤ config.maxSize := by
  induction data generalizing count with
  | nil =>
    unfold identifierContinuation at h
    split at h <;> cases h
  | cons octet data ih =>
    unfold identifierContinuation at h
    split at h
    · cases h
    · rename_i hmax
      dsimp only at h
      split at h
      · cases h
      · split at h
        · cases h
          omega
        · exact ih (by omega) h

/-- A DER tag fits the octets kept for it. -/
theorem der_tag_size_le {data : Bytes} {tag : Span} {size : Nat}
    (h : derReadTag data = ⟨.ok tag, size⟩) : size ≤ asn1TagMaxSize := by
  have hvariable := (der_read_tag_eq_ok.mp h).1
  unfold variableIdentifierRead at hvariable
  split at hvariable
  · cases hvariable
  · split at hvariable
    · cases hvariable
    · split at hvariable
      · cases hvariable
      · split at hvariable
        · cases hvariable
        · rename_i count _ hextent
          split at hvariable
          · cases hvariable
          · cases hvariable
            unfold identifierExtent at hextent
            split at hextent
            · have hone : (1 : Nat) ≤ (asn1Identifier ⟨[], 1, 1⟩).maxSize := by decide
              exact identifier_continuation_le hone hextent
            · cases hextent
              decide

/-- An identifier that is read is written as it stands in the input. -/
theorem der_tag_canonical {data : Bytes} {tag : Span} {size : Nat}
    (h : derReadTag data = ⟨.ok tag, size⟩) :
    tag.bytes = data.take size ∧ tag.bytes.length = size ∧
      derWriteTag tag.bytes none = .ok ([], size) := by
  have hspan := der_read_tag_span (congrArg FieldRead.outcome h)
  obtain ⟨hpositive, hwithin⟩ := der_read_tag_within (congrArg FieldRead.outcome h)
  have hmost := der_tag_size_le h
  rw [h] at hspan hpositive hwithin
  dsimp only at hspan hpositive hwithin
  obtain ⟨hvariable, hallowed, hder⟩ := der_read_tag_eq_ok.mp h
  have hbytes : tag.bytes = data.take size := congrArg Span.bytes hspan
  have hlength : tag.bytes.length = size := by
    rw [hbytes, List.length_take]
    omega
  have hwhole : derReadTag tag.bytes = ⟨.ok tag, size⟩ := by
    rw [hbytes]
    exact der_read_tag_eq_ok.mpr ⟨variable_identifier_read_take hvariable, hallowed, hder⟩
  refine ⟨hbytes, hlength, ?_⟩
  unfold derWriteTag asn1WriteIdentifierChecked
  rw [if_neg (by omega), hwhole]
  dsimp only
  rw [if_neg (by omega)]
  show Except.ok ([], tag.bytes.length) = _
  rw [hlength]

end Fields

section Element

variable {data : Bytes} {base : Nat} {limits : DerLimits} {element : ReadElement} {used : Nat}

/-- The fields of an element that is read, and the octets they take. -/
theorem der_read_element_fields (h : derReadElement data base limits = .ok (element, used)) :
    derWriteTag element.tag none = .ok ([], element.tag.length) ∧
      element.value.length ≤ limits.maxValueSize ∧
      used = element.tag.length + (lengthBytes element.value.length).length +
        element.value.length ∧
      data.take used = element.tag ++ lengthBytes element.value.length ++ element.value := by
  unfold derReadElement at h
  cases htag : derReadTag data with
  | mk outcome tagSize =>
    rw [htag] at h
    cases outcome with
    | error status => cases h
    | ok tag =>
      obtain ⟨hbytes, hsize, hwrite⟩ := der_tag_canonical htag
      dsimp only at h
      cases hlength : asn1ReadMinimalLength (data.drop tagSize) with
      | mk outcome lengthSize =>
        rw [hlength] at h
        cases outcome with
        | error status => cases h
        | ok length =>
          have hfield := asn1_read_minimal_length_within
            (congrArg FieldRead.outcome hlength)
          have hcanonical := length_bytes_of_read hlength
          rw [hlength, List.length_drop] at hfield
          dsimp only at h hfield
          split at h
          · cases h
          · split at h
            · cases h
            · cases h
              have hvalue : ((data.drop (tagSize + lengthSize)).take length).length =
                  length := by
                rw [List.length_take, List.length_drop]
                omega
              have hwidth : (lengthBytes length).length = lengthSize := by
                rw [hcanonical, List.length_take, List.length_drop]
                omega
              dsimp only
              rw [hvalue, hwidth, hsize]
              refine ⟨hwrite, by omega, rfl, ?_⟩
              rw [hcanonical, hbytes, List.take_add, List.take_add]

/-- The octets of an element. -/
def elementBytes (element : Element) : Bytes :=
  element.tag ++ lengthBytes element.value.length ++ element.value

theorem element_bytes_length (element : Element) :
    (elementBytes element).length =
      element.tag.length + (lengthBytes element.value.length).length + element.value.length := by
  rw [elementBytes, List.length_append, List.length_append]

/-- The widths of both fields, for a tag that DER writes. -/
theorem der_field_sizes {element : Element} {stored : Bytes}
    (htag : derWriteTag element.tag none = .ok (stored, element.tag.length)) :
    fieldSizes derFields element =
      .ok (element.tag.length, (lengthBytes element.value.length).length,
        element.value.length) := by
  have hnonempty := (der_identifier_law _ _ _ htag).1
  have hpositive : element.tag.length ≠ 0 := fun h => hnonempty (List.eq_nil_of_length_eq_zero h)
  have hlength := (length_bytes_spec element.value_le).2.1
  have hwidth : tagWidth derFields element.tag = .ok element.tag.length := by
    unfold tagWidth
    rw [show derFields.writeTag element.tag none = _ from htag]
    show (if element.tag.length = 0 then _ else _) = _
    rw [if_neg hpositive]
  unfold fieldSizes
  rw [hwidth]
  dsimp only
  rw [show elementCount derFields element element.tag.length = .ok element.value.length from rfl]
  dsimp only
  rw [show derFields.writeLength element.value.length none = _ from hlength]
  rfl

/-- What is measured for an element. -/
theorem der_measure_element {element : Element} {stored : Bytes}
    (htag : derWriteTag element.tag none = .ok (stored, element.tag.length))
    (hsize : (elementBytes element).length ≤ sizeMax) :
    formatMeasure formatDer element =
      .ok ⟨element.tag.length + (lengthBytes element.value.length).length, element.value.length, 0,
        (elementBytes element).length⟩ := by
  rw [element_bytes_length] at hsize ⊢
  have hpositive := List.length_pos_iff.mpr (der_identifier_law _ _ _ htag).1
  have hheader : sizeAdd element.tag.length (lengthBytes element.value.length).length =
      .ok (element.tag.length + (lengthBytes element.value.length).length) := if_neg (by omega)
  have htotal : sizeAdd (element.tag.length + (lengthBytes element.value.length).length)
      element.value.length = .ok (element.tag.length + (lengthBytes element.value.length).length +
        element.value.length) := if_neg (by omega)
  refine format_measure_of_valid rfl rfl ?_ ?_
  · unfold fieldsMeasure
    rw [der_field_sizes htag]
    dsimp only
    rw [hheader]
    dsimp only
    rw [htotal]
  · have htrailer : sizeAdd (element.tag.length + (lengthBytes element.value.length).length +
        element.value.length) 0 = .ok (element.tag.length +
          (lengthBytes element.value.length).length + element.value.length) := if_neg (by omega)
    unfold encodingValid
    dsimp only
    rw [htotal]
    dsimp only
    rw [htrailer]
    simp only [decide_true, Bool.and_true, ne_eq, decide_eq_true_eq]
    omega

/-- The size computed for an element is that of its octets. -/
theorem der_encoded_size {element : Element} {stored : Bytes}
    (htag : derWriteTag element.tag none = .ok (stored, element.tag.length))
    (hsize : (elementBytes element).length ≤ sizeMax) :
    encodedSize formatDer element = .ok (elementBytes element).length := by
  unfold encodedSize
  rw [der_measure_element htag hsize]
  exact if_neg (Nat.not_lt.mpr hsize)

/-- The octets that are stored for an element. -/
theorem der_encode_element {element : Element} {stored : Bytes}
    (htag : derWriteTag element.tag none = .ok (stored, element.tag.length))
    (hsize : (elementBytes element).length ≤ sizeMax) {buffer : Bytes}
    (hroom : (elementBytes element).length ≤ buffer.length) :
    ∃ written, formatEncode formatDer element buffer =
        .ok (written, (elementBytes element).length) ∧
      written.take (elementBytes element).length = elementBytes element := by
  have hbytes := element_bytes_length element
  obtain ⟨-, -, hwriteTag, -⟩ := der_identifier_law _ _ _ htag
  have hwriteLength := (length_bytes_spec element.value_le).2.2
  have hnative : sizeToNative element.value.length = .ok element.value.length :=
    if_neg (by have := element.value_le; omega)
  have hcall : fieldsEncode derFields element buffer =
      .ok (Octets.store (Octets.store (Octets.store buffer 0 element.tag) element.tag.length
        (lengthBytes element.value.length))
        (element.tag.length + (lengthBytes element.value.length).length) element.value,
        (elementBytes element).length) := by
    unfold fieldsEncode
    simp only [der_field_sizes htag, hnative]
    rw [if_neg (by omega)]
    rw [show derFields.writeTag element.tag (some element.tag.length) = _ from
        hwriteTag _ (Nat.le_refl _),
      show derFields.writeLength element.value.length
        (some (lengthBytes element.value.length).length) = _ from hwriteLength]
    simp only [callback_result_ok, ne_eq, not_true_eq_false, if_false, hbytes]
    rfl
  refine ⟨_, format_encode_of_call (der_measure_element htag hsize) rfl hsize hroom hcall, ?_⟩
  have htake := take_stores derFields buffer element.tag (lengthBytes element.value.length)
    element.value (by omega)
  rw [hbytes]
  exact htake

/-- What is stored for an element is read back as this element. -/
theorem der_element_read {element : Element} {stored : Bytes}
    (htag : derWriteTag element.tag none = .ok (stored, element.tag.length))
    (hvalue : element.value.length ≤ limits.maxValueSize) :
    derReadElement (elementBytes element) base limits =
      .ok (⟨element.tag, element.value⟩, (elementBytes element).length) := by
  obtain ⟨-, -, -, hreadTag⟩ := der_identifier_law _ _ _ htag
  have hreadLength := (length_bytes_spec element.value_le).1 element.value
  have hbytes : elementBytes element =
      element.tag ++ (lengthBytes element.value.length ++ element.value) := List.append_assoc _ _ _
  have hlength := element_bytes_length element
  unfold derReadElement
  rw [hbytes] at hlength ⊢
  rw [hreadTag]
  dsimp only
  rw [List.drop_left, hreadLength]
  dsimp only
  rw [if_neg (Nat.not_lt.mpr hvalue), if_neg (by omega)]
  rw [← List.drop_drop, List.drop_left, List.drop_left, List.take_length, hlength]

end Element

section Traverse

variable {data value : Bytes} {limits : DerLimits} {strict : Bool} {header used : Nat}
  {first : ReadElement × Nat} {s : DerRun Unit}

/-- The traversal of `tlv_der_read` and its strict form. -/
def readingJob (data : Bytes) (limits : DerLimits) (strict : Bool) : DerJob Unit :=
  { data := data, limits := limits, one := true, strict := strict }

/-- The traversal of the writer, over a value behind `header` octets. -/
def writingJob (value : Bytes) (header : Nat) (limits : DerLimits) (strict : Bool) : DerJob Unit :=
  { data := value, base := header, initialDepth := 1, limits := limits, strict := strict }

/-- A state of the writer's traversal as one of the reader's, in which the element is open. -/
def DerRun.embed (header used : Nat) (first : ReadElement × Nat) (s : DerRun Unit) : DerRun Unit :=
  { s with
    pos := s.pos + header
    ending := s.ending + header
    outer := s.outer.map (· + header) ++ [used]
    first := some first }

/-- An element of a traversal without a visitor, behind the first one. -/
theorem der_element_plain {job : DerJob Unit} (hvisitor : job.visitor = none)
    (hone : job.one = true → s.pos ≠ 0) :
    derElement job s =
      if job.initialDepth + s.outer.length > job.limits.maxDepth ∨
          s.count = job.limits.maxElements then
        derFail .limit (job.base + s.pos)
      else
        match derReadElement ((job.data.take s.ending).drop s.pos) (job.base + s.pos)
            job.limits with
        | .error failed => .error failed
        | .ok (element, size) =>
          derValueCheck job.strict element (job.base + (s.pos + size) - element.value.length) >>=
            fun _ => derAdvance job element (s.pos + size) { s with count := s.count + 1 } := by
  have hfirst : ¬ (job.one = true ∧ s.pos = 0) := fun h => hone h.1 h.2
  unfold derElement
  split
  · rfl
  · cases derReadElement ((job.data.take s.ending).drop s.pos) (job.base + s.pos) job.limits with
    | error failed => rfl
    | ok read =>
      obtain ⟨element, size⟩ := read
      simp only [derReport, hvisitor]
      rfl

/-- The value lies behind the header in the input. -/
structure Inlaid (data value : Bytes) (header used : Nat) : Prop where
  positive : 0 < header
  extent : used = header + value.length
  slice : value = (data.take used).drop header

theorem Inlaid.rest (h : Inlaid data value header used) {ending : Nat}
    (hending : ending ≤ value.length) (pos : Nat) :
    (data.take (ending + header)).drop (pos + header) = (value.take ending).drop pos := by
  conv => rhs; rw [h.slice]
  have hextent := h.extent
  rw [List.drop_take, List.drop_take, List.drop_drop, List.drop_take, List.take_take,
    Nat.add_comm header pos]
  congr 1
  omega

/-- Advancing commutes with the embedding. -/
theorem der_advance_embed (hrunning : s.stopped = false) {element : ReadElement} {ending : Nat}
    (hvalue : element.value.length ≤ ending) :
    derAdvance (readingJob data limits strict) element (ending + header)
        (s.embed header used first) =
      (derAdvance (writingJob value header limits strict) element ending s).map
        (DerRun.embed header used first) := by
  have hdepth : (readingJob data limits strict).initialDepth +
      (s.embed header used first).outer.length = 1 + s.outer.length := by
    show 0 + (s.outer.map (· + header) ++ [used]).length = _
    rw [List.length_append, List.length_map, List.length_singleton]
    omega
  have hpos : ending + header - element.value.length = ending - element.value.length + header := by
    omega
  by_cases henter : asn1IsConstructed element.tag = true ∧ element.value.length ≠ 0
  · rw [@der_advance_into Unit (readingJob data limits strict) (s.embed header used first)
        element _ hrunning henter,
      @der_advance_into Unit (writingJob value header limits strict) s element _ hrunning henter,
      hdepth, hpos]
    by_cases hlimit : 1 + s.outer.length = limits.maxDepth
    · refine (if_pos hlimit).trans (Eq.trans ?_ (congrArg _ (if_pos hlimit)).symm)
      show derFail _ (0 + (ending - element.value.length + header)) = derFail _ _
      rw [Nat.zero_add, Nat.add_comm]
      rfl
    · refine (if_neg hlimit).trans (Eq.trans ?_ (congrArg _ (if_neg hlimit)).symm)
      rfl
  · rw [@der_advance_over Unit (readingJob data limits strict) (s.embed header used first)
        element _ hrunning henter,
      @der_advance_over Unit (writingJob value header limits strict) s element _ hrunning henter]
    rfl

/-- One element is treated alike by both traversals. -/
theorem der_element_embed (h : Inlaid data value header used) (hrunning : s.stopped = false)
    (hending : s.ending ≤ value.length) :
    derElement (readingJob data limits strict) (s.embed header used first) =
      (derElement (writingJob value header limits strict) s).map
        (DerRun.embed header used first) := by
  have hpositive := h.positive
  have hdepth : (readingJob data limits strict).initialDepth +
      (s.embed header used first).outer.length = 1 + s.outer.length := by
    show 0 + (s.outer.map (· + header) ++ [used]).length = _
    rw [List.length_append, List.length_map, List.length_singleton]
    omega
  have hbase : 0 + (s.pos + header) = header + s.pos := by omega
  rw [@der_element_plain (s.embed header used first) (readingJob data limits strict) rfl
      (fun _ => by show s.pos + header ≠ 0; omega),
    @der_element_plain s (writingJob value header limits strict) rfl (fun hone => by cases hone),
    hdepth]
  by_cases hlimit : 1 + s.outer.length > limits.maxDepth ∨ s.count = limits.maxElements
  · refine (if_pos hlimit).trans (Eq.trans ?_ (congrArg _ (if_pos hlimit)).symm)
    show derFail _ (0 + (s.pos + header)) = derFail _ _
    rw [hbase]
    rfl
  · refine (if_neg hlimit).trans (Eq.trans ?_ (congrArg _ (if_neg hlimit)).symm)
    show (match derReadElement ((data.take (s.ending + header)).drop (s.pos + header))
        (0 + (s.pos + header)) limits with
      | .error failed => .error failed
      | .ok (element, size) => _) = Except.map _ (match derReadElement
        ((value.take s.ending).drop s.pos) (header + s.pos) limits with
      | .error failed => .error failed
      | .ok (element, size) => _)
    rw [h.rest hending, hbase]
    cases hread : derReadElement ((value.take s.ending).drop s.pos) (header + s.pos) limits with
    | error failed => rfl
    | ok read =>
      obtain ⟨element, size⟩ := read
      have hvalue := (der_read_element_ok hread).1
      have hoffset : 0 + (s.pos + header + size) = header + (s.pos + size) := by omega
      have hplace : s.pos + header + size = s.pos + size + header := by omega
      show (derValueCheck strict element (0 + (s.pos + header + size) - element.value.length) >>=
          fun _ => derAdvance (readingJob data limits strict) element (s.pos + header + size)
            ({ s with count := s.count + 1 }.embed header used first)) =
        Except.map _ (derValueCheck strict element
          (header + (s.pos + size) - element.value.length) >>= fun _ => _)
      rw [hoffset, hplace]
      cases derValueCheck strict element (header + (s.pos + size) - element.value.length) with
      | error failed => rfl
      | ok checked =>
        exact @der_advance_embed data value limits strict header used first
          { s with count := s.count + 1 } hrunning element (s.pos + size) (by omega)

/-- Every iteration of the writer's traversal is one of the reader's. -/
theorem der_step_embed (h : Inlaid data value header used) (hrunning : s.stopped = false)
    (hending : s.ending ≤ value.length) (hlive : s.halted = false) :
    derStep (readingJob data limits strict) (s.embed header used first) =
      (derStep (writingJob value header limits strict) s).map
        (DerRun.embed header used first) := by
  have helement := @der_element_embed data value limits strict header used first s h hrunning
    hending
  cases houter : s.outer with
  | nil =>
    have hless : s.pos < s.ending := by
      simpa [DerRun.halted, hrunning, houter] using hlive
    rw [der_step_element hless, der_step_element]
    · exact helement
    · show s.pos + header < s.ending + header
      omega
  | cons ending outer =>
    by_cases hdone : s.pos = s.ending
    · have hinner : derStep (writingJob value header limits strict) s =
          .ok { s with ending := ending, outer := outer } := by
        unfold derStep
        rw [houter]
        exact if_pos hdone
      rw [hinner]
      unfold derStep
      dsimp only [DerRun.embed]
      rw [houter]
      exact if_pos (congrArg (· + header) hdone)
    · have hinner : derStep (writingJob value header limits strict) s =
          derElement (writingJob value header limits strict) s := by
        unfold derStep
        rw [houter]
        exact if_neg hdone
      rw [hinner, ← helement]
      unfold derStep
      dsimp only [DerRun.embed]
      rw [houter]
      exact if_neg fun heq => hdone (Nat.add_right_cancel heq)

/-- An iteration that succeeds leaves a value, or reads an element that it passes or enters. -/
theorem der_step_plain {job : DerJob Unit} (hvisitor : job.visitor = none)
    (hone : job.one = true → s.pos ≠ 0) (hrunning : s.stopped = false) {s' : DerRun Unit}
    (h : derStep job s = .ok s') :
    (∃ ending outer, s.outer = ending :: outer ∧ s.pos = s.ending ∧
      s' = { s with ending := ending, outer := outer }) ∨
    ∃ element size, derReadElement ((job.data.take s.ending).drop s.pos) (job.base + s.pos)
        job.limits = .ok (element, size) ∧
      (s' = { s with pos := s.pos + size, count := s.count + 1 } ∨
        s' = { s with
          pos := s.pos + size - element.value.length
          count := s.count + 1
          ending := s.pos + size
          outer := s.ending :: s.outer }) := by
  have helement : derElement job s = .ok s' → ∃ element size,
      derReadElement ((job.data.take s.ending).drop s.pos) (job.base + s.pos) job.limits =
        .ok (element, size) ∧
      (s' = { s with pos := s.pos + size, count := s.count + 1 } ∨
        s' = { s with
          pos := s.pos + size - element.value.length
          count := s.count + 1
          ending := s.pos + size
          outer := s.ending :: s.outer }) := by
    intro h
    rw [der_element_plain hvisitor hone] at h
    obtain ⟨-, h⟩ := guard_ok.mp h
    cases hread : derReadElement ((job.data.take s.ending).drop s.pos) (job.base + s.pos)
        job.limits with
    | error failed =>
      rw [hread] at h
      cases h
    | ok read =>
      obtain ⟨element, size⟩ := read
      refine ⟨element, size, rfl, ?_⟩
      rw [hread] at h
      dsimp only at h
      obtain ⟨checked, hcheck, h⟩ := bind_ok.mp h
      replace h : derAdvance job element (s.pos + size) { s with count := s.count + 1 } =
        .ok s' := h
      by_cases henter : asn1IsConstructed element.tag = true ∧ element.value.length ≠ 0
      · rw [@der_advance_into Unit job { s with count := s.count + 1 } element _ hrunning
          henter] at h
        obtain ⟨-, h⟩ := guard_ok.mp h
        exact .inr (Except.ok.inj h).symm
      · rw [@der_advance_over Unit job { s with count := s.count + 1 } element _ hrunning
          henter] at h
        exact .inl (Except.ok.inj h).symm
  unfold derStep at h
  cases houter : s.outer with
  | nil =>
    rw [houter] at h
    obtain ⟨element, size, hread, hcases⟩ := helement h
    rw [houter] at hcases
    exact .inr ⟨element, size, hread, hcases⟩
  | cons ending outer =>
    rw [houter] at h
    dsimp only at h
    split at h
    · rename_i hdone
      exact .inl ⟨ending, outer, rfl, hdone, (Except.ok.inj h).symm⟩
    · obtain ⟨element, size, hread, hcases⟩ := helement h
      rw [houter] at hcases
      exact .inr ⟨element, size, hread, hcases⟩

/-- The positions stay in order, and every iteration comes closer to the end. -/
theorem der_step_inside {job : DerJob Unit} (hvisitor : job.visitor = none)
    (hone : job.one = true → s.pos ≠ 0) {s' : DerRun Unit} (hinside : s.Inside job.data)
    (h : derStep job s = .ok s') :
    s'.Inside job.data ∧ s.pos ≤ s'.pos ∧ s'.first = s.first ∧
      s'.rank job.data < s.rank job.data := by
  obtain ⟨hrunning, hpos, hends, hsize⟩ := hinside
  obtain ⟨hnearest, houter⟩ := List.pairwise_cons.mp hends
  obtain ⟨hlast, hrest⟩ := List.forall_mem_cons.mp hsize
  rcases der_step_plain hvisitor hone hrunning h with
    ⟨ending, outer, hcons, hdone, rfl⟩ | ⟨element, size, hread, hcases⟩
  · rw [hcons] at hnearest houter hrest
    refine ⟨⟨hrunning, ?_, houter, hrest⟩, Nat.le_refl _, rfl, ?_⟩
    · exact hdone ▸ hnearest ending List.mem_cons_self
    · show job.data.length - s.pos + outer.length < job.data.length - s.pos + s.outer.length
      rw [hcons, List.length_cons]
      omega
  · obtain ⟨hlow, hhigh, -⟩ := der_read_element_ok hread
    rw [List.length_drop, List.length_take] at hhigh
    have hfits : s.pos + size ≤ s.ending := by omega
    rcases hcases with rfl | rfl
    · refine ⟨⟨hrunning, hfits, hends, hsize⟩, Nat.le_add_right _ _, rfl, ?_⟩
      show job.data.length - (s.pos + size) + s.outer.length <
        job.data.length - s.pos + s.outer.length
      omega
    · refine ⟨⟨hrunning, ?_, ?_, ?_⟩, ?_, rfl, ?_⟩
      · exact Nat.sub_le _ _
      · refine List.pairwise_cons.mpr ⟨?_, hends⟩
        exact List.forall_mem_cons.mpr ⟨hfits, fun ending hmem => hfits.trans
          (hnearest ending hmem)⟩
      · exact List.forall_mem_cons.mpr ⟨hfits.trans hlast, hsize⟩
      · show s.pos ≤ s.pos + size - element.value.length
        omega
      · show job.data.length - (s.pos + size - element.value.length) +
          (s.ending :: s.outer).length < job.data.length - s.pos + s.outer.length
        rw [List.length_cons]
        omega

/-- A traversal behind its first element keeps it. -/
theorem der_drive_keeps_first {job : DerJob Unit} (hvisitor : job.visitor = none)
    (hpos : s.pos ≠ 0) (hrunning : s.stopped = false) {fuel : Nat} {s' : DerRun Unit}
    (h : drive (Status.callback, none) DerRun.halted (derStep job) fuel s = .ok s') :
    s'.first = s.first := by
  have hinvariant := drive_ok_invariant
    (fun (x : DerRun Unit) x' (hx : x.pos ≠ 0 ∧ x.stopped = false ∧ x.first = s.first) _ hstep => by
      obtain ⟨hbehind, hruns, hsame⟩ := hx
      rcases der_step_plain hvisitor (fun _ => hbehind) hruns hstep with
        ⟨ending, outer, -, -, rfl⟩ | ⟨element, size, hread, hcases⟩
      · exact ⟨hbehind, hruns, hsame⟩
      · have hlow := (der_read_element_ok hread).1
        rcases hcases with rfl | rfl
        · exact ⟨by show x.pos + size ≠ 0; omega, hruns, hsame⟩
        · exact ⟨by show x.pos + size - element.value.length ≠ 0; omega, hruns, hsame⟩)
    ⟨hpos, hrunning, rfl⟩ h
  exact hinvariant.1.2.2

/-- Fuel above the rank does not matter. -/
theorem der_drive_fuel {job : DerJob Unit} (hvisitor : job.visitor = none) (hone : job.one = false)
    (hinside : s.Inside job.data) {fuel fuel' : Nat} (hfuel : s.rank job.data < fuel)
    (hfuel' : s.rank job.data < fuel') :
    drive (Status.callback, none) DerRun.halted (derStep job) fuel s =
      drive (Status.callback, none) DerRun.halted (derStep job) fuel' s := by
  refine drive_enough_invariant (fun x y (hx : x.Inside job.data) _ hnext => ?_) hinside hfuel
    hfuel'
  obtain ⟨hin, -, -, hrank⟩ := der_step_inside hvisitor (by rw [hone]; exact fun h => by cases h)
    hx hnext
  exact ⟨hin, hrank⟩

/-- The outermost end stays where it is. -/
theorem der_step_outermost {job : DerJob Unit} (hvisitor : job.visitor = none)
    (hone : job.one = true → s.pos ≠ 0) (hrunning : s.stopped = false) {s' : DerRun Unit}
    (h : derStep job s = .ok s') :
    (s'.ending :: s'.outer).getLast? = (s.ending :: s.outer).getLast? := by
  rcases der_step_plain hvisitor hone hrunning h with
    ⟨ending, outer, hcons, -, rfl⟩ | ⟨element, size, -, rfl | rfl⟩
  · rw [hcons, List.getLast?_cons_cons]
  · rfl
  · rw [List.getLast?_cons_cons]

/-- In the reader's traversal the element is still open. -/
theorem embed_live (s : DerRun Unit) (hrunning : s.stopped = false) :
    (s.embed header used first).halted = false := by
  unfold DerRun.halted DerRun.embed
  rw [hrunning]
  cases s.outer <;> rfl

/-- Where the writer's traversal is over, the reader leaves the element and is over too. -/
theorem der_drive_leaves (h : Inlaid data value header used) (hinside : s.Inside value)
    (hlast : (s.ending :: s.outer).getLast? = some value.length) (hhalted : s.halted = true)
    (fuel : Nat) :
    ∃ s', drive (Status.callback, none) DerRun.halted
      (derStep (readingJob data limits strict)) (fuel + 1) (s.embed header used first) =
        .ok s' := by
  have hextent := h.extent
  have hpos := hinside.pos
  have hover : s.outer = [] ∧ ¬ s.pos < s.ending := by
    simpa [DerRun.halted, hinside.running] using hhalted
  obtain ⟨houter, hnot⟩ := hover
  rw [houter] at hlast
  have hending : s.ending = value.length := Option.some.inj hlast
  have hstep : derStep (readingJob data limits strict) (s.embed header used first) =
      .ok { s.embed header used first with ending := used, outer := [] } := by
    unfold derStep
    dsimp only [DerRun.embed]
    rw [houter]
    refine if_pos ?_
    omega
  have hended : DerRun.halted { s.embed header used first with ending := used, outer := [] } =
      true := by
    have hfinal : ¬ s.pos + header < used := by omega
    simp [DerRun.halted, DerRun.embed, hfinal]
  refine ⟨{ s.embed header used first with ending := used, outer := [] }, ?_⟩
  rw [drive, embed_live s hinside.running, hstep]
  cases fuel with
  | zero => exact if_pos hended
  | succ fuel => exact if_pos hended

/-- The reader's traversal inside an element succeeds when the writer's does. The reader needs one
iteration more, in which it leaves the element. -/
theorem der_drive_embed (h : Inlaid data value header used) {fuel : Nat}
    (hinside : s.Inside value)
    (hlast : (s.ending :: s.outer).getLast? = some value.length) :
    (∃ s', drive (Status.callback, none) DerRun.halted
        (derStep (readingJob data limits strict)) (fuel + 1) (s.embed header used first) =
          .ok s') ↔
      ∃ s', drive (Status.callback, none) DerRun.halted
        (derStep (writingJob value header limits strict)) fuel s = .ok s' := by
  have hone : (writingJob value header limits strict).one = true → s.pos ≠ 0 := by
    intro hone
    cases hone
  induction fuel generalizing s with
  | zero =>
    cases hhalted : s.halted with
    | true =>
      refine iff_of_true (der_drive_leaves h hinside hlast hhalted 0) ⟨s, ?_⟩
      exact if_pos hhalted
    | false =>
      have hending := hinside.size s.ending List.mem_cons_self
      have hstep := @der_step_embed data value limits strict header used first s h
        hinside.running hending hhalted
      refine iff_of_false ?_ ?_
      · rintro ⟨s', hrun⟩
        rw [drive, embed_live s hinside.running, hstep] at hrun
        cases hnext : derStep (writingJob value header limits strict) s with
        | error failed =>
          rw [hnext] at hrun
          cases hrun
        | ok next =>
          obtain ⟨hin, -⟩ := der_step_inside rfl hone hinside hnext
          rw [hnext] at hrun
          replace hrun : drive (Status.callback, none) DerRun.halted
            (derStep (readingJob data limits strict)) 0 (next.embed header used first) =
              .ok s' := hrun
          rw [drive, embed_live next hin.running] at hrun
          cases hrun
      · rintro ⟨s', hrun⟩
        rw [drive, hhalted] at hrun
        cases hrun
  | succ fuel ih =>
    cases hhalted : s.halted with
    | true =>
      refine iff_of_true (der_drive_leaves h hinside hlast hhalted _) ⟨s, ?_⟩
      exact if_pos hhalted
    | false =>
      have hending := hinside.size s.ending List.mem_cons_self
      have hstep := @der_step_embed data value limits strict header used first s h
        hinside.running hending hhalted
      rw [drive, embed_live s hinside.running, hstep]
      cases hnext : derStep (writingJob value header limits strict) s with
      | error failed =>
        refine iff_of_false ?_ ?_
        · rintro ⟨s', hrun⟩
          cases hrun
        · rintro ⟨s', hrun⟩
          rw [drive, hhalted, hnext] at hrun
          cases hrun
      | ok next =>
        obtain ⟨hin, -⟩ := der_step_inside rfl hone hinside hnext
        have hkept := der_step_outermost rfl hone hinside.running hnext
        have hrest := ih hin (hkept.trans hlast) (fun hone => by cases hone)
        have hinner : drive (Status.callback, none) DerRun.halted
            (derStep (writingJob value header limits strict)) (fuel + 1) s =
            drive (Status.callback, none) DerRun.halted
              (derStep (writingJob value header limits strict)) fuel next := by
          rw [drive, hhalted, hnext]
          rfl
        rw [hinner]
        exact hrest

end Traverse

section RoundTrip

variable {data : Bytes} {limits : DerLimits} {strict : Bool} {element : ReadElement} {used : Nat}

/-- The writer's traversal before its first iteration. -/
def writingStart (value : Bytes) : DerRun Unit :=
  { count := 1, ending := value.length, context := () }

/-- The reader's traversal before its first iteration. -/
def readingStart (data : Bytes) : DerRun Unit :=
  { count := 0, ending := data.length, context := () }

/-- The reader's traversal when it has read its first element. -/
def readingFirst (element : ReadElement) (used : Nat) : DerRun Unit :=
  { count := 1, ending := used, first := some (element, used), context := () }

/-- The contents of a constructed element, as the writer accepts them. -/
def DerContentsAccepted (tag value : Bytes) (header : Nat) (limits : DerLimits) (strict : Bool) :
    Prop :=
  asn1IsConstructed tag = true →
    ∃ s, derTraverse (writingJob value header limits strict) (writingStart value) = .ok s

/-- Contents that may not be entered are refused by the writer as well. -/
theorem der_writing_blocked {value : Bytes} {header : Nat} (hvalue : value.length ≠ 0)
    (hdepth : limits.maxDepth = 0) (s : DerRun Unit) :
    derTraverse (writingJob value header limits strict) (writingStart value) ≠ .ok s := by
  intro h
  have hahead : (writingStart value).pos < (writingStart value).ending := Nat.pos_of_ne_zero hvalue
  have hlive : (writingStart value).halted = false := by
    unfold DerRun.halted
    rw [decide_eq_true hahead]
    rfl
  have hstep : derStep (writingJob value header limits strict) (writingStart value) =
      derFail .limit (header + 0) := by
    rw [der_step_element hahead, der_element_plain rfl (fun hone => by cases hone)]
    refine if_pos (.inl ?_)
    show 1 + 0 > limits.maxDepth
    omega
  unfold derTraverse at h
  rw [drive, hlive, hstep] at h
  cases h

/-- The first iteration of a reader whose input begins with an element. -/
theorem der_reading_step (hread : derReadElement data 0 limits = .ok (element, used)) :
    derStep (readingJob data limits strict) (readingStart data) =
      if limits.maxElements = 0 then derFail .limit 0
      else derValueCheck strict element (used - element.value.length) >>= fun _ =>
        derAdvance (readingJob data limits strict) element used (readingFirst element used) := by
  have hlimit : (0 > limits.maxDepth ∨ 0 = limits.maxElements) ↔ limits.maxElements = 0 := by
    omega
  simp only [derStep, derElement, readingJob, readingStart, readingFirst, List.length_nil,
    Nat.add_zero, Nat.zero_add, List.take_length, List.drop_zero, hread, derReport, hlimit]
  simp [bind, Except.bind]

/-- A constructed first element is entered where depth is left. -/
theorem der_reading_enters (hread : derReadElement data 0 limits = .ok (element, used))
    (henter : asn1IsConstructed element.tag = true ∧ element.value.length ≠ 0) :
    derAdvance (readingJob data limits strict) element used (readingFirst element used) =
      if limits.maxDepth = 0 then derFail .limit (used - element.value.length)
      else .ok ((writingStart element.value).embed (used - element.value.length) used
        (element, used)) := by
  obtain ⟨hlow, -, -⟩ := der_read_element_ok hread
  have hending : element.value.length + (used - element.value.length) = used := by omega
  rw [@der_advance_into Unit (readingJob data limits strict) (readingFirst element used) element
    used rfl henter]
  unfold DerRun.embed writingStart readingFirst
  dsimp only
  rw [hending, Nat.zero_add]
  by_cases hdepth : limits.maxDepth = 0
  · rw [if_pos hdepth]
    refine (if_pos ?_).trans ?_
    · exact hdepth.symm
    · show derFail _ (0 + _) = _
      rw [Nat.zero_add]
  · rw [if_neg hdepth]
    exact if_neg fun h => hdepth h.symm

/-- Whether the reader accepts what is inside its first element. -/
theorem der_reading_inside (hread : derReadElement data 0 limits = .ok (element, used)) :
    (∃ s s', derAdvance (readingJob data limits strict) element used (readingFirst element used) =
        .ok s ∧
      drive (Status.callback, none) DerRun.halted (derStep (readingJob data limits strict))
        (data.length + 1) s = .ok s') ↔
      DerContentsAccepted element.tag element.value (used - element.value.length) limits
        strict := by
  obtain ⟨hlow, hhigh, hslice⟩ := der_read_element_ok hread
  by_cases henter : asn1IsConstructed element.tag = true ∧ element.value.length ≠ 0
  · rw [der_reading_enters hread henter]
    by_cases hdepth : limits.maxDepth = 0
    · rw [if_pos hdepth]
      refine iff_of_false ?_ ?_
      · rintro ⟨s, s', hadvance, -⟩
        cases hadvance
      · intro haccepted
        obtain ⟨s, hs⟩ := haccepted henter.1
        exact der_writing_blocked henter.2 hdepth s hs
    · rw [if_neg hdepth]
      have hinlaid : Inlaid data element.value (used - element.value.length) used :=
        ⟨by omega, by omega, hslice⟩
      have hinside : (writingStart element.value).Inside element.value :=
        ⟨rfl, Nat.zero_le _, List.pairwise_singleton _ _, fun ending hmem =>
          (List.mem_singleton.mp hmem).le⟩
      have hsame := @der_drive_embed data element.value limits strict
        (used - element.value.length) used (element, used) _ hinlaid data.length hinside rfl
      have hrank : (writingStart element.value).rank element.value = element.value.length :=
        rfl
      have hfuel := @der_drive_fuel (writingStart element.value)
        (writingJob element.value (used - element.value.length) limits strict) rfl rfl hinside
        data.length (element.value.length + 2) (by rw [show (writingJob element.value
          (used - element.value.length) limits strict).data = element.value from rfl, hrank]
                                                   omega)
        (by rw [show (writingJob element.value (used - element.value.length) limits
              strict).data = element.value from rfl, hrank]; omega)
      rw [hfuel] at hsame
      constructor
      · rintro ⟨s, s', hadvance, hrun⟩
        cases hadvance
        exact fun _ => hsame.mp ⟨s', hrun⟩
      · intro haccepted
        obtain ⟨s', hrun⟩ := hsame.mpr (haccepted henter.1)
        exact ⟨_, s', rfl, hrun⟩
  · rw [@der_advance_over Unit (readingJob data limits strict) (readingFirst element used) element
      used rfl henter]
    refine iff_of_true ⟨_, { readingFirst element used with pos := used }, rfl, ?_⟩ ?_
    · have hended : DerRun.halted { readingFirst element used with pos := used } = true := by
        simp [DerRun.halted, readingFirst]
      exact if_pos hended
    · intro hconstructed
      have hempty : element.value = [] := by
        by_contra hne
        exact henter ⟨hconstructed, fun h => hne (List.eq_nil_of_length_eq_zero h)⟩
      rw [hempty]
      exact ⟨_, rfl⟩

/-- A run of the reader returns its first element. -/
theorem der_reading_first (hread : derReadElement data 0 limits = .ok (element, used))
    {s s' : DerRun Unit} {fuel : Nat}
    (hadvance : derAdvance (readingJob data limits strict) element used
      (readingFirst element used) = .ok s)
    (hrun : drive (Status.callback, none) DerRun.halted (derStep (readingJob data limits strict))
      fuel s = .ok s') : s'.first = some (element, used) := by
  obtain ⟨hlow, -, -⟩ := der_read_element_ok hread
  by_cases henter : asn1IsConstructed element.tag = true ∧ element.value.length ≠ 0
  · rw [der_reading_enters hread henter] at hadvance
    obtain ⟨-, hadvance⟩ := guard_ok.mp hadvance
    cases hadvance
    refine der_drive_keeps_first rfl ?_ rfl hrun
    show 0 + (used - element.value.length) ≠ 0
    omega
  · rw [@der_advance_over Unit (readingJob data limits strict) (readingFirst element used) element
      used rfl henter] at hadvance
    cases hadvance
    refine der_drive_keeps_first rfl ?_ rfl hrun
    show used ≠ 0
    omega

/-- The reader behind the checks of its limits. -/
theorem der_reading_eq (hdepth : limits.maxDepth ≤ derMaxDepth)
    (hinput : data.length ≤ limits.maxInputSize) (hdata : data ≠ []) :
    derReadImpl data limits strict =
      (derStep (readingJob data limits strict) (readingStart data) >>=
        drive (Status.callback, none) DerRun.halted (derStep (readingJob data limits strict))
          (data.length + 1)).map (fun s => s.first.getD (⟨[], []⟩, 0)) := by
  have hpositive := List.length_pos_iff.mpr hdata
  have hlive : (readingStart data).halted = false := by
    unfold DerRun.halted
    rw [decide_eq_true (show (readingStart data).pos < (readingStart data).ending from hpositive)]
    rfl
  unfold derReadImpl
  rw [if_neg (Nat.not_lt.mpr hdepth), if_neg (Nat.not_lt.mpr hinput), if_neg (by omega)]
  show (drive (Status.callback, none) DerRun.halted (derStep (readingJob data limits strict))
    (data.length + 1 + 1) (readingStart data) >>= fun s => pure (s.first.getD (⟨[], []⟩, 0))) = _
  rw [drive, hlive]
  show (derStep (readingJob data limits strict) (readingStart data) >>= _ >>= _) = _
  cases derStep (readingJob data limits strict) (readingStart data) with
  | error failed => rfl
  | ok s =>
    show (drive (Status.callback, none) DerRun.halted
      (derStep (readingJob data limits strict)) (data.length + 1) s >>= _) =
      (drive (Status.callback, none) DerRun.halted
        (derStep (readingJob data limits strict)) (data.length + 1) s).map _
    cases drive (Status.callback, none) DerRun.halted
      (derStep (readingJob data limits strict)) (data.length + 1) s with
    | error failed => rfl
    | ok last => rfl

/-- A reader that returns has passed the checks of its limits. -/
theorem der_reading_limits {result : ReadElement × Nat}
    (h : derReadImpl data limits strict = .ok result) :
    limits.maxDepth ≤ derMaxDepth ∧ data.length ≤ limits.maxInputSize ∧ data ≠ [] := by
  unfold derReadImpl at h
  obtain ⟨hdepth, h⟩ := guard_ok.mp h
  obtain ⟨hinput, h⟩ := guard_ok.mp h
  obtain ⟨hsize, h⟩ := guard_ok.mp h
  exact ⟨Nat.not_lt.mp hdepth, Nat.not_lt.mp hinput, fun hnil => hsize (by rw [hnil]; rfl)⟩

/-- `tlv_der_read` accepts an input that begins with an element whose content is right. -/
theorem der_reading_ok_iff (hread : derReadElement data 0 limits = .ok (element, used)) :
    derReadImpl data limits strict = .ok (element, used) ↔
      limits.maxDepth ≤ derMaxDepth ∧ data.length ≤ limits.maxInputSize ∧
        limits.maxElements ≠ 0 ∧
        derValueCheck strict element (used - element.value.length) = .ok () ∧
        DerContentsAccepted element.tag element.value (used - element.value.length) limits
          strict := by
  have hinside := @der_reading_inside data limits strict element used hread
  by_cases hlimits : limits.maxDepth ≤ derMaxDepth ∧ data.length ≤ limits.maxInputSize
  · rw [der_reading_eq hlimits.1 hlimits.2 (der_read_element_nonempty hread),
      der_reading_step hread]
    by_cases helements : limits.maxElements = 0
    · rw [if_pos helements]
      exact iff_of_false (fun h => by cases h) fun h => h.2.2.1 helements
    · rw [if_neg helements]
      cases hcheck : derValueCheck strict element (used - element.value.length) with
      | error failed => exact iff_of_false (fun h => by cases h) fun h => by cases h.2.2.2.1
      | ok checked =>
        rw [← hinside]
        show Except.map _ (derAdvance (readingJob data limits strict) element used
          (readingFirst element used) >>= _) = _ ↔ _
        cases hadvance : derAdvance (readingJob data limits strict) element used
            (readingFirst element used) with
        | error failed =>
          refine iff_of_false (fun h => by cases h) ?_
          rintro ⟨-, -, -, -, s, s', hs, -⟩
          cases hs
        | ok s =>
          show Except.map _ (drive (Status.callback, none) DerRun.halted
            (derStep (readingJob data limits strict)) (data.length + 1) s) = _ ↔ _
          cases hrun : drive (Status.callback, none) DerRun.halted
              (derStep (readingJob data limits strict)) (data.length + 1) s with
          | error failed =>
            refine iff_of_false (fun h => by cases h) ?_
            rintro ⟨-, -, -, -, s', s'', hs, hrun'⟩
            cases hs
            rw [hrun] at hrun'
            cases hrun'
          | ok last =>
            have hfirst := der_reading_first hread hadvance hrun
            refine iff_of_true ?_
              ⟨hlimits.1, hlimits.2, helements, rfl, s, last, rfl, hrun⟩
            show Except.ok (last.first.getD (⟨[], []⟩, 0)) = _
            rw [hfirst]
            rfl
  · refine iff_of_false ?_ fun h => hlimits ⟨h.1, h.2.1⟩
    intro h
    obtain ⟨hdepth, hinput, -⟩ := der_reading_limits h
    exact hlimits ⟨hdepth, hinput⟩

/-- What `tlv_der_read` returns is the element that its input begins with. -/
theorem der_reading_returns (h : derReadImpl data limits strict = .ok (element, used)) :
    derReadElement data 0 limits = .ok (element, used) := by
  obtain ⟨hdepth, hinput, hdata⟩ := der_reading_limits h
  rw [der_reading_eq hdepth hinput hdata] at h
  cases hread : derReadElement data 0 limits with
  | error failed =>
    have hstep : ∃ failed', derStep (readingJob data limits strict) (readingStart data) =
        .error failed' := by
      simp only [derStep, derElement, readingJob, readingStart, List.length_nil, Nat.add_zero,
        List.take_length, List.drop_zero, hread]
      split
      · exact ⟨_, rfl⟩
      · exact ⟨_, rfl⟩
    obtain ⟨failed', hstep⟩ := hstep
    rw [hstep] at h
    cases h
  | ok read =>
    obtain ⟨other, size⟩ := read
    rw [der_reading_step hread] at h
    split at h
    · cases h
    · cases hcheck : derValueCheck strict other (size - other.value.length) with
      | error failed =>
        rw [hcheck] at h
        cases h
      | ok checked =>
        rw [hcheck] at h
        replace h : Except.map (fun s : DerRun Unit => s.first.getD (⟨[], []⟩, 0))
          (derAdvance (readingJob data limits strict) other size (readingFirst other size) >>=
            drive (Status.callback, none) DerRun.halted
              (derStep (readingJob data limits strict)) (data.length + 1)) =
            .ok (element, used) := h
        cases hadvance : derAdvance (readingJob data limits strict) other size
            (readingFirst other size) with
        | error failed =>
          rw [hadvance] at h
          cases h
        | ok s =>
          rw [hadvance] at h
          replace h : Except.map (fun s : DerRun Unit => s.first.getD (⟨[], []⟩, 0))
            (drive (Status.callback, none) DerRun.halted
              (derStep (readingJob data limits strict)) (data.length + 1) s) =
              .ok (element, used) := h
          obtain ⟨last, hrun, h⟩ := bind_ok.mp h
          have hfirst := der_reading_first hread hadvance hrun
          replace h : last.first.getD (⟨[], []⟩, 0) = (element, used) :=
            Except.ok.inj h
          rw [hfirst] at h
          rw [← h]
          rfl

/-- What DER can measure it can write. -/
theorem der_encoded_size_ok {written : Element} {total : Nat}
    (h : encodedSize formatDer written = .ok total) :
    (∃ stored, derWriteTag written.tag none = .ok (stored, written.tag.length)) ∧
      total = (elementBytes written).length ∧ total ≤ sizeMax := by
  unfold encodedSize at h
  split at h
  · cases h
  · rename_i sizes hmeasure
    obtain ⟨measure, hsome, hcall⟩ := format_measure_eq_ok hmeasure
    obtain rfl : fieldsMeasure derFields = measure := Option.some.inj hsome
    have hnative := size_to_native_eq_ok h
    unfold fieldsMeasure at hcall
    split at hcall
    · cases hcall
    · rename_i t l count hsizes
      obtain ⟨hwidth, -, -⟩ := field_sizes_eq_ok hsizes
      obtain ⟨stored, htag⟩ := tag_width_eq_ok hwidth
      obtain ⟨-, rfl, -, -⟩ := der_identifier_law _ _ _ htag
      rw [der_field_sizes htag] at hsizes
      have hlength := (Prod.mk.inj (Prod.mk.inj (Except.ok.inj hsizes)).2).1
      split at hcall
      · cases hcall
      · rename_i header hheader
        split at hcall
        · cases hcall
        · rename_i sum hsum
          cases hcall
          obtain ⟨rfl, hheaderFits⟩ := size_add_eq_ok hheader
          obtain ⟨rfl, hfits⟩ := size_add_eq_ok hsum
          have htagFits := written.tag_le
          dsimp only at hnative
          refine ⟨⟨stored, htag⟩, ?_, by omega⟩
          rw [hnative, element_bytes_length, hlength]

/-- The writer reports the failure of the format without a location. -/
theorem der_stored_ok_iff {written : Element} {buffer stored : Bytes} {size : Nat} :
    ((match formatEncode formatDer written buffer with
        | .error (status, _) => derUnlocated status
        | .ok (stored, size) => pure (some stored, size)) : DerResult Written) =
        .ok (some stored, size) ↔
      formatEncode formatDer written buffer = .ok (stored, size) := by
  cases formatEncode formatDer written buffer with
  | error failed => exact iff_of_false (fun h => by cases h) fun h => by cases h
  | ok result => simp [pure, Except.pure, Prod.ext_iff]

/-- The checks of the writer, and what it stores. -/
theorem der_writing_ok_iff {written : Element} {buffer stored : Bytes} {size : Nat} :
    derWriteImpl written limits strict (some buffer) = .ok (some stored, size) ↔
      ∃ total, encodedSize formatDer written = .ok total ∧ limits.maxDepth ≤ derMaxDepth ∧
        total ≤ limits.maxInputSize ∧ limits.maxElements ≠ 0 ∧
        written.value.length ≤ limits.maxValueSize ∧
        derValueCheck strict ⟨written.tag, written.value⟩ (total - written.value.length) = .ok () ∧
        DerContentsAccepted written.tag written.value (total - written.value.length) limits
          strict ∧
        formatEncode formatDer written buffer = .ok (stored, size) := by
  unfold derWriteImpl
  cases hsize : encodedSize formatDer written with
  | error status =>
    refine iff_of_false (fun h => by cases h) ?_
    rintro ⟨total, htotal, -⟩
    cases htotal
  | ok total =>
    simp only [Except.ok.injEq, exists_eq_left']
    by_cases hdepth : limits.maxDepth > derMaxDepth
    · rw [if_pos hdepth]
      exact iff_of_false (fun h => by cases h) fun h => Nat.not_lt.mpr h.1 hdepth
    rw [if_neg hdepth]
    by_cases hlimit : total > limits.maxInputSize ∨ limits.maxElements = 0
    · rw [if_pos hlimit]
      refine iff_of_false (fun h => by cases h) ?_
      rintro ⟨-, hinput, helements, -⟩
      rcases hlimit with hlimit | hlimit
      · omega
      · exact helements hlimit
    rw [if_neg hlimit]
    obtain ⟨hinput, helements⟩ := not_or.mp hlimit
    by_cases hvalue : written.value.length > limits.maxValueSize
    · rw [if_pos hvalue]
      exact iff_of_false (fun h => by cases h) fun h => Nat.not_lt.mpr h.2.2.2.1 hvalue
    rw [if_neg hvalue]
    cases hcheck : derValueCheck strict ⟨written.tag, written.value⟩
        (total - written.value.length) with
    | error failed => exact iff_of_false (fun h => by cases h) fun h => by cases h.2.2.2.2.1
    | ok checked =>
      have hencode := @der_stored_ok_iff written buffer stored size
      cases hconstructed : asn1IsConstructed written.tag with
      | false =>
        have haccepted : DerContentsAccepted written.tag written.value
            (total - written.value.length) limits strict := by
          intro htrue
          rw [hconstructed] at htrue
          cases htrue
        refine hencode.trans ⟨fun h => ?_, fun h => h.2.2.2.2.2.2⟩
        exact ⟨Nat.not_lt.mp hdepth, Nat.not_lt.mp hinput, helements, Nat.not_lt.mp hvalue,
          rfl, haccepted, h⟩
      | true =>
        cases hrun : derTraverse (writingJob written.value (total - written.value.length)
            limits strict) (writingStart written.value) with
        | error failed =>
          refine iff_of_false ?_ ?_
          · intro h
            dsimp only [writingJob, writingStart] at hrun
            rw [hrun] at h
            cases h
          · rintro ⟨-, -, -, -, -, haccepted, -⟩
            obtain ⟨s, hs⟩ := haccepted hconstructed
            rw [hrun] at hs
            cases hs
        | ok s =>
          have haccepted : DerContentsAccepted written.tag written.value
              (total - written.value.length) limits strict := fun _ => ⟨s, hrun⟩
          dsimp only [writingJob, writingStart] at hrun
          rw [hrun]
          refine hencode.trans ⟨fun h => ?_, fun h => h.2.2.2.2.2.2⟩
          exact ⟨Nat.not_lt.mp hdepth, Nat.not_lt.mp hinput, helements,
            Nat.not_lt.mp hvalue, rfl, haccepted, h⟩

/-- DER writes what it reads and reads what it writes, under the same limits. -/
theorem der_read_write_inverse (limits : DerLimits) (strict : Bool) :
    (∀ (data : Bytes) (element : ReadElement) (used : Nat), data.length ≤ sizeMax →
      derReadImpl data limits strict = .ok (element, used) →
      ∃ written : Element, written.tag = element.tag ∧ written.value = element.value ∧
        ∀ buffer : Bytes, used ≤ buffer.length →
          ∃ stored, derWriteImpl written limits strict (some buffer) = .ok (some stored, used) ∧
            stored.take used = data.take used) ∧
    ∀ (written : Element) (buffer stored : Bytes) (size : Nat),
      derWriteImpl written limits strict (some buffer) = .ok (some stored, size) →
      (stored.take size).length = size ∧
        derReadImpl (stored.take size) limits strict =
          .ok (⟨written.tag, written.value⟩, size) := by
  constructor
  · intro data element used hdata h
    have hread := der_reading_returns h
    obtain ⟨htag, hvalue, hused, hbytes⟩ := der_read_element_fields hread
    obtain ⟨-, hhigh, -⟩ := der_read_element_ok hread
    obtain ⟨hdepth, hinput, helements, hcheck, haccepted⟩ := (der_reading_ok_iff hread).mp h
    have htagSize : element.tag.length ≤ sizeMax := by omega
    have hvalueSize : element.value.length ≤ sizeMax := by omega
    refine ⟨⟨element.tag, element.value, htagSize, hvalueSize⟩, rfl, rfl, fun buffer hroom => ?_⟩
    have hlength : (elementBytes ⟨element.tag, element.value, htagSize, hvalueSize⟩).length =
        used := by
      rw [element_bytes_length, hused]
    have hsize := @der_encoded_size ⟨element.tag, element.value, htagSize, hvalueSize⟩ [] htag
      (by rw [hlength]; omega)
    obtain ⟨stored, hencode, hstored⟩ := @der_encode_element
      ⟨element.tag, element.value, htagSize, hvalueSize⟩ [] htag (by rw [hlength]; omega) buffer
      (by rw [hlength]; omega)
    rw [hlength] at hsize hencode hstored
    refine ⟨stored, der_writing_ok_iff.mpr ⟨used, hsize, hdepth, by omega, helements, hvalue,
      hcheck, haccepted, hencode⟩, ?_⟩
    rw [hstored, hbytes]
    rfl
  · intro written buffer stored size h
    obtain ⟨total, htotal, hdepth, hinput, helements, hvalue, hcheck, haccepted, hencode⟩ :=
      der_writing_ok_iff.mp h
    obtain ⟨⟨tagStored, htag⟩, rfl, hfits⟩ := der_encoded_size_ok htotal
    obtain ⟨-, sizes, -, hmeasure, hused, hroom, -⟩ := format_encode_eq_ok hencode
    rw [der_measure_element htag hfits] at hmeasure
    cases hmeasure
    obtain rfl : (elementBytes written).length = size := hused
    obtain ⟨other, hother, hbytes⟩ := der_encode_element htag hfits hroom
    rw [hencode] at hother
    obtain ⟨rfl, -⟩ := Prod.mk.inj (Except.ok.inj hother)
    rw [hbytes]
    refine ⟨rfl, (der_reading_ok_iff (der_element_read htag hvalue)).mpr ?_⟩
    exact ⟨hdepth, hinput, helements, hcheck, haccepted⟩

/-- A sequence of one integer, read in front of another octet and written again. -/
theorem der_read_write_sequence :
    derReadStrict [0x30, 0x03, 0x02, 0x01, 0x05, 0xFF] derDefaultLimits =
        .ok (⟨[0x30], [0x02, 0x01, 0x05]⟩, 5) ∧
      ∃ written : Element, written.tag = [0x30] ∧ written.value = [0x02, 0x01, 0x05] ∧
        ∃ stored, derWriteStrict written derDefaultLimits (some [0, 0, 0, 0, 0]) =
            .ok (some stored, 5) ∧ stored.take 5 = [0x30, 0x03, 0x02, 0x01, 0x05] := by
  have hread : derReadImpl [0x30, 0x03, 0x02, 0x01, 0x05, 0xFF] derDefaultLimits true =
      .ok (⟨[0x30], [0x02, 0x01, 0x05]⟩, 5) := by decide +kernel
  obtain ⟨written, htag, hvalue, hwrite⟩ := (der_read_write_inverse derDefaultLimits true).1
    [0x30, 0x03, 0x02, 0x01, 0x05, 0xFF] _ _ (by decide) hread
  exact ⟨hread, written, htag, hvalue, hwrite [0, 0, 0, 0, 0] (by decide)⟩

end RoundTrip

end OpenTlv
