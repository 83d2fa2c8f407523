import OpenTlv.Asn1.BerGrammar

/-!
# Elements of indefinite length

What the scan of contents comes to in its two modes, and that an element written with an
indefinite length reads back. The writer scans its value as definite contents; the reader scans
the same octets in front of the end of contents that the writer appended, so both rest on the
one grammar.
-/

namespace OpenTlv

section Extents

/-- A definite scan takes the whole input as contents. -/
theorem ber_scan_definite_iff (data : Bytes) (value consumed : Nat) :
    berScanContents data false = .ok (value, consumed) ↔
      BerContents (berMaxDepth - 1) data ∧ value = data.length ∧ consumed = data.length := by
  rw [ber_scan_contents_iff]
  unfold Closes
  constructor
  · rintro ⟨contents, closing, hcontents, hcloses, rfl, rfl⟩
    rw [if_neg (show ¬ false = true by simp)] at hcloses
    obtain ⟨rfl, rfl⟩ := hcloses
    exact ⟨hcontents, rfl, Nat.add_zero _⟩
  · rintro ⟨hcontents, rfl, rfl⟩
    refine ⟨data, 0, hcontents, ?_, rfl, (Nat.add_zero _).symm⟩
    rw [if_neg (show ¬ false = true by simp)]
    exact ⟨rfl, rfl⟩

/-- An indefinite scan takes the contents in front of the first end that belongs to them. -/
theorem ber_scan_indefinite_iff (data : Bytes) (value consumed : Nat) :
    berScanContents data true = .ok (value, consumed) ↔
      ∃ contents rest, data = contents ++ [0, 0] ++ rest ∧
        BerContents (berMaxDepth - 1) contents ∧ value = contents.length ∧
        consumed = contents.length + berEocSize := by
  rw [ber_scan_contents_iff]
  unfold Closes
  constructor
  · rintro ⟨contents, closing, hcontents, hcloses, rfl, rfl⟩
    rw [if_pos rfl] at hcloses
    obtain ⟨rfl, rest, rfl⟩ := hcloses
    exact ⟨contents, rest, by rw [List.append_assoc]; rfl, hcontents, rfl, rfl⟩
  · rintro ⟨contents, rest, rfl, hcontents, rfl, rfl⟩
    refine ⟨contents, berEocSize, hcontents, ?_, rfl, rfl⟩
    rw [if_pos rfl]
    exact ⟨rfl, rest, by rw [List.append_assoc]; rfl⟩

end Extents

section ReadBack

variable {element : Element} {destination stored : Bytes} {used : Nat}

/-- The BER identifier writer stores what its reader takes whole. -/
theorem ber_identifier_law : TagLaw berReadTag berWriteTag := by
  intro tag stored width h
  unfold berWriteTag at h
  obtain ⟨hreserved, h⟩ := guard_ok.mp h
  obtain ⟨hne, hwidth, hwrite, hread⟩ :=
    @variable_identifier_law berIdentifier rfl tag stored width h
  refine ⟨hne, hwidth, fun room hroom => ?_, fun rest => ?_⟩
  · unfold berWriteTag
    rw [if_neg hreserved]
    exact hwrite room hroom
  · obtain ⟨first, more, rfl⟩ := List.exists_cons_of_ne_nil hne
    unfold berReadTag
    rw [List.cons_append, List.head?_cons] at *
    rw [if_neg hreserved]
    exact hread rest

/-- A measured indefinite element has a constructed identifier, and four parts. -/
theorem indefinite_measure_eq_ok {sizes : Encoding}
    (h : asn1IndefiniteMeasure berFields element = .ok sizes) :
    BerTag element.tag ∧ asn1IsConstructed element.tag = true ∧
      sizes.total = element.tag.length + 1 + element.value.length + berEocSize := by
  unfold asn1IndefiniteMeasure at h
  cases hwrite : berFields.writeTag element.tag none with
  | error status =>
    rw [hwrite] at h
    cases h
  | ok field =>
    obtain ⟨octets, width⟩ := field
    obtain ⟨-, rfl, -, hread⟩ := ber_identifier_law _ _ _ hwrite
    have htag : BerTag element.tag := by
      have hwhole := hread []
      rw [List.append_nil] at hwhole
      exact hwhole
    rw [hwrite] at h
    dsimp only at h
    obtain ⟨hconstructed, h⟩ := guard_ok.mp h
    split at h
    · cases h
    next partialSum hpartial =>
      split at h
      · cases h
      next total htotal =>
        cases h
        obtain ⟨hfirst, -⟩ := size_add_eq_ok hpartial
        obtain ⟨hsecond, -⟩ := size_add_eq_ok htotal
        exact ⟨htag, by simpa using hconstructed, by dsimp only; omega⟩

/-- The indefinite encoder wrote the four parts of the element, and its value is contents. -/
theorem indefinite_encode_eq_ok
    (h : asn1IndefiniteEncode berFields element destination = .ok (stored, used)) :
    BerTag element.tag ∧ asn1IsConstructed element.tag = true ∧
      BerContents (berMaxDepth - 1) element.value ∧
      used = element.tag.length + 1 + element.value.length + berEocSize ∧
      stored.take used = element.tag ++ [berIndefinite] ++ element.value ++ [0, 0] := by
  unfold asn1IndefiniteEncode at h
  split at h
  · cases h
  next sizes hsizes =>
    obtain ⟨htag, hconstructed, hsum⟩ := indefinite_measure_eq_ok hsizes
    split at h
    · cases h
    next total hnative =>
      have htotal := size_to_native_eq_ok hnative
      obtain ⟨-, h⟩ := guard_ok.mp h
      split at h
      · cases h
      next extent hscan =>
        cases h
        obtain ⟨hcontents, -⟩ := (ber_scan_definite_iff _ _ _).mp hscan
        have hextent : used = (element.tag ++ [berIndefinite] ++ element.value ++
            [0, 0]).length := by
          simp only [List.length_append, List.length_cons, List.length_nil]
          unfold berEocSize at hsum
          omega
        refine ⟨htag, hconstructed, hcontents, by omega, ?_⟩
        have hstored := @Octets.take_store destination []
          (element.tag ++ [berIndefinite] ++ element.value ++ [0, 0]) 0 rfl rfl
        rw [Nat.zero_add, List.nil_append, ← hextent] at hstored
        exact hstored

/-- The parts of an indefinite element in front of any octets decode to the element. -/
theorem indefinite_parts_decode (htag : BerTag element.tag)
    (hconstructed : asn1IsConstructed element.tag = true)
    (hcontents : BerContents (berMaxDepth - 1) element.value) (suffix : Bytes) :
    ∃ decoded,
      fieldsDecode berFields
        (element.tag ++ [berIndefinite] ++ element.value ++ [0, 0] ++ suffix) = .ok decoded ∧
      Reproduces decoded element
        (element.tag.length + 1 + element.value.length + berEocSize)
        (element.tag ++ [berIndefinite] ++ element.value ++ [0, 0] ++ suffix).length := by
  obtain ⟨data, hdata⟩ : ∃ data, data =
      element.tag ++ [berIndefinite] ++ element.value ++ [0, 0] ++ suffix := ⟨_, rfl⟩
  have hlength : data.length =
      element.tag.length + 1 + element.value.length + 2 + suffix.length := by
    rw [hdata]
    simp only [List.length_append, List.length_cons, List.length_nil]
  have hbehind : data.drop element.tag.length =
      berIndefinite :: (element.value ++ [0, 0] ++ suffix) := by
    rw [hdata]
    simp only [List.append_assoc, List.drop_left, List.cons_append, List.nil_append]
  have hvalue : data.drop (element.tag.length + 1) = element.value ++ [0, 0] ++ suffix := by
    rw [← List.drop_drop, hbehind, List.drop_succ_cons, List.drop_zero]
  have hne : element.tag ≠ [] := by
    obtain ⟨first, rest, htagEq, -⟩ := htag.head
    rw [htagEq]
    exact List.cons_ne_nil _ _
  rw [← hdata]
  have htagged := @tag_step_eq berFields data element.tag
    (berIndefinite :: (element.value ++ [0, 0] ++ suffix)) {}
    (by
      rw [hdata]
      simp only [List.append_assoc, List.drop_zero, List.cons_append, List.nil_append])
    hne (htag.append _)
  rw [Nat.zero_add] at htagged
  have hscan : berScanContents ((data.drop element.tag.length).drop 1) true =
      .ok (element.value.length, element.value.length + berEocSize) := by
    rw [List.drop_drop, hvalue]
    exact (ber_scan_indefinite_iff _ _ _).mpr
      ⟨element.value, suffix, rfl, hcontents, rfl, rfl⟩
  have hbounds : berReadValueBounds element.tag (data.drop element.tag.length) =
      ⟨1, .ok (element.value.length, berEocSize)⟩ := by
    unfold berReadValueBounds resolveIndefinite
    rw [hscan, hbehind, List.head?_cons, if_pos rfl, hconstructed]
    rfl
  have hcount : readCount berFields data
      { tag := ⟨element.tag, some 0⟩, tagSize := element.tag.length,
        tagRange := Range.at 0 element.tag.length, pos := element.tag.length } =
      (⟨.ok (element.value.length, berEocSize), 1⟩, none) := by
    unfold readCount
    dsimp only [berFields]
    rw [hbounds]
  unfold fieldsDecode headerSteps
  rw [if_pos (show berFields.elementOrder = .tlv from rfl), htagged]
  dsimp only
  unfold lengthStep
  rw [hcount]
  dsimp only
  rw [if_neg (show ¬ 1 > data.length - element.tag.length by omega),
    if_neg (show ¬ (berFields.lengthScope = .tagAndValue ∧ _) by rintro ⟨h, -⟩; cases h)]
  dsimp only
  rw [if_neg (show ¬ berFields.lengthScope = .tagAndValue by intro h; cases h)]
  unfold valueStep available
  dsimp only
  rw [if_neg (show ¬ element.value.length > data.length - (element.tag.length + 1) by omega),
    if_neg (show ¬ berEocSize > data.length - (element.tag.length + 1) - element.value.length by
      unfold berEocSize
      omega),
    if_pos (show 1 ≤ data.length - element.tag.length by omega), hvalue]
  refine ⟨_, rfl, ?_, rfl, rfl, ?_⟩
  · have hinside : element.tag.length + 1 + element.value.length + 2 ≤ data.length := by omega
    simp only [decodedValid, tagBindingValid, Range.at, Range.valid, List.append_assoc,
      List.take_left]
    simp [berEocSize, hinside]
    exact ⟨by omega, decide_eq_true (by omega), decide_eq_true (by omega)⟩
  · rw [List.append_assoc, List.take_left]

/-- What `tlv_ber_write_indefinite` writes, `tlv_format_ber` reads back in front of anything. -/
theorem ber_write_indefinite_decode
    (h : berWriteIndefinite element destination = .ok (stored, used)) (suffix : Bytes) :
    ∃ decoded, formatDecode formatBer (stored.take used ++ suffix) = .ok decoded ∧
      decoded.tag.bytes = element.tag ∧ decoded.value.bytes = element.value ∧
      decoded.source.size = used := by
  unfold berWriteIndefinite at h
  obtain ⟨encode, sizes, hencode, -, -, -, hcall⟩ := format_encode_eq_ok h
  obtain rfl : asn1IndefiniteEncode berFields = encode := Option.some.inj hencode
  obtain ⟨htag, hconstructed, hcontents, hused, hstored⟩ := indefinite_encode_eq_ok hcall
  obtain ⟨decoded, hdecode, hreproduces⟩ :=
    indefinite_parts_decode htag hconstructed hcontents suffix
  rw [← hstored] at hdecode hreproduces
  rw [← hused] at hreproduces
  have hsome : (stored.take used ++ suffix).length ≠ 0 := by
    rw [hstored]
    simp
  exact ⟨decoded, format_decode_of_valid rfl hsome hdecode hreproduces.valid,
    hreproduces.tag_eq, hreproduces.value_eq, hreproduces.size_eq⟩

end ReadBack

/-- The scan of BER contents accepts the grammar and nothing else, with one scope of
`TLV_BER_MAX_DEPTH` for the outermost contents, and written indefinite elements read back. -/
theorem ber_contents_grammar :
    (∀ (data : Bytes) (value consumed : Nat),
      berScanContents data false = .ok (value, consumed) ↔
        BerContents (berMaxDepth - 1) data ∧ value = data.length ∧ consumed = data.length) ∧
    (∀ (data : Bytes) (value consumed : Nat),
      berScanContents data true = .ok (value, consumed) ↔
        ∃ contents rest, data = contents ++ [0, 0] ++ rest ∧
          BerContents (berMaxDepth - 1) contents ∧ value = contents.length ∧
          consumed = contents.length + berEocSize) ∧
    ∀ (element : Element) (destination stored : Bytes) (used : Nat),
      berWriteIndefinite element destination = .ok (stored, used) → ∀ suffix : Bytes,
        ∃ decoded, formatDecode formatBer (stored.take used ++ suffix) = .ok decoded ∧
          decoded.tag.bytes = element.tag ∧ decoded.value.bytes = element.value ∧
          decoded.source.size = used :=
  ⟨ber_scan_definite_iff, ber_scan_indefinite_iff,
    fun _ _ _ _ h suffix => ber_write_indefinite_decode h suffix⟩

/-- An empty sequence of indefinite length is written, and reads back in front of other octets. -/
theorem ber_contents_grammar_sequence :
    berWriteIndefinite ⟨[0x30], [], by decide, by decide⟩ [0, 0, 0, 0] =
        .ok ([0x30, 0x80, 0, 0], 4) ∧
      ∃ decoded, formatDecode formatBer ([0x30, 0x80, 0, 0] ++ [0x05]) = .ok decoded ∧
        decoded.tag.bytes = [0x30] ∧ decoded.value.bytes = [] ∧ decoded.source.size = 4 := by
  have hwrite : berWriteIndefinite ⟨[0x30], [], by decide, by decide⟩ [0, 0, 0, 0] =
      .ok ([0x30, 0x80, 0, 0], 4) := by decide
  exact ⟨hwrite, ber_contents_grammar.2.2 _ _ _ _ hwrite [0x05]⟩

end OpenTlv
