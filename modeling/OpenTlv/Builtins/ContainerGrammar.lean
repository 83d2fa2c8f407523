import OpenTlv.Builtins.Containers
import OpenTlv.Lib.PrefixCode

/-!
# What the container validators accept

The grammars of a DHCPv4 options region and of Bluetooth advertising data over complete elements,
which are prefix codes, and the two loops as recognisers of them.
-/

namespace OpenTlv

/-! ## Single elements -/

theorem fixed_identifier_octet (code : UInt8) (rest : Bytes) :
    fixedIdentifierRead ⟨1⟩ ([code] ++ rest) = ⟨.ok ⟨[code], some 0⟩, 1⟩ := by
  simp [fixedIdentifierRead, fixedIdentifierValidate]

theorem fixed_length_octet (length : UInt8) (rest : Bytes) :
    fixedLengthRead ⟨1, .bigEndian⟩ ([length] ++ rest) = ⟨.ok length.toNat, 1⟩ := by
  simp [fixedLengthRead, fixedLengthValidate, readUint, ByteOrder.significant, Octets.fold]

section Octets

variable {c : BinaryComposition} (hidentifier : c.identifier = ⟨1⟩)
  (hlength : c.length = ⟨1, .bigEndian⟩)

include hidentifier hlength

/-- The header of an element with an identifier and a length of one octet each. -/
theorem octets_header (code length : UInt8) (rest : Bytes)
    (hscope : ¬ (c.lengthScope = .tagAndValue ∧ length.toNat = 0)) :
    ∃ s, headerSteps (binaryFields c) (headerBytes (binaryFields c) [code] [length] ++ rest) =
        .ok s ∧
      s.length = length.toNat ∧ s.trailer = 0 ∧ s.tagSize = 1 ∧ s.pos = 2 ∧
      s.tag.bytes = [code] ∧ s.tagRange.present = true ∧ s.tagRange.size = 1 ∧
      s.tag.origin = some s.tagRange.offset ∧ s.tagRange.valid s.pos = true ∧
      s.lengthRange.valid s.pos = true := by
  refine @header_steps_eq (binaryFields c) [code] [length] rest length.toNat rfl (by simp) ?_ ?_
    hscope
  · intro rest
    show fixedIdentifierRead c.identifier _ = _
    rw [hidentifier]
    exact fixed_identifier_octet code rest
  · intro rest
    show fixedLengthRead c.length _ = _
    rw [hlength]
    exact fixed_length_octet length rest

/-- The extent of the value that a length octet declares. -/
abbrev BinaryComposition.extent (c : BinaryComposition) (length : UInt8) : Nat :=
  if c.lengthScope = .tagAndValue then length.toNat - 1 else length.toNat

/-- An element whose value is complete. -/
theorem octets_complete (code length : UInt8) {rest : Bytes}
    (hscope : ¬ (c.lengthScope = .tagAndValue ∧ length.toNat = 0))
    (hextent : c.extent length ≤ rest.length) :
    ∃ decoded,
      fieldsDecode (binaryFields c) (headerBytes (binaryFields c) [code] [length] ++ rest) =
        .ok decoded ∧
      decodedValid decoded (rest.length + 2) = true ∧ decoded.tag.bytes = [code] ∧
      decoded.source.size = 2 + c.extent length := by
  obtain ⟨s, hsteps, hcount, htrailer, htagSize, hpos, htag, hpresent, hsize, horigin, htagRange,
    hlengthRange⟩ := octets_header hidentifier hlength code length rest hscope
  have hheader : (headerBytes (binaryFields c) [code] [length] ++ rest).length =
      rest.length + 2 := by
    unfold headerBytes
    split <;> simp
  have hdata : (headerBytes (binaryFields c) [code] [length] ++ rest).drop s.pos =
      rest.take (c.extent length) ++ rest.drop (c.extent length) := by
    rw [List.take_append_drop, hpos]
    unfold headerBytes
    split <;> rfl
  have hvalue : (rest.take (c.extent length)).length = c.extent length := by
    rw [List.length_take, Nat.min_eq_left hextent]
  have hfits : (rest.take (c.extent length)).length ≤ sizeMax := by
    have hlt := length.toNat_lt
    have hbound : c.extent length ≤ length.toNat := by
      unfold BinaryComposition.extent
      split
      · exact Nat.sub_le _ _
      · exact le_refl _
    rw [hvalue]
    show _ ≤ 2 ^ 64 - 1
    omega
  obtain ⟨decoded, hstep, hreproduces⟩ := @value_step_reproduces
    ⟨[code], rest.take (c.extent length), by simp [sizeMax], hfits⟩ _ _ s (2 + c.extent length)
    hdata (by omega) htrailer
    (by rw [hpos, hvalue]) (by omega) htag hpresent hsize horigin htagRange hlengthRange
  rw [hheader] at hreproduces
  refine ⟨decoded, ?_, hreproduces.valid, hreproduces.tag_eq, hreproduces.size_eq⟩
  rw [hvalue] at hstep
  unfold fieldsDecode
  rw [hsteps]
  dsimp only
  rw [htagSize, hcount]
  by_cases hboth : c.lengthScope = .tagAndValue
  · rw [if_pos (show (binaryFields c).lengthScope = .tagAndValue from hboth),
      if_neg fun hless => hscope ⟨hboth, by omega⟩]
    rwa [show c.extent length = length.toNat - 1 from if_pos hboth] at hstep
  · rw [if_neg (show ¬ (binaryFields c).lengthScope = .tagAndValue from hboth)]
    rwa [show c.extent length = length.toNat from if_neg hboth] at hstep

/-- An element whose value is truncated. -/
theorem octets_truncated (code length : UInt8) {rest : Bytes}
    (hscope : ¬ (c.lengthScope = .tagAndValue ∧ length.toNat = 0))
    (hextent : ¬ c.extent length ≤ rest.length) :
    ∃ failed,
      fieldsDecode (binaryFields c) (headerBytes (binaryFields c) [code] [length] ++ rest) =
        .error failed := by
  obtain ⟨s, hsteps, hcount, htrailer, htagSize, hpos, _⟩ :=
    octets_header hidentifier hlength code length rest hscope
  have hheader : (headerBytes (binaryFields c) [code] [length] ++ rest).length =
      rest.length + 2 := by
    unfold headerBytes
    split <;> simp
  have hshort : ∀ count, count = c.extent length → ∃ failed,
      valueStep (headerBytes (binaryFields c) [code] [length] ++ rest) s count =
        .error failed := by
    intro count hcount
    unfold valueStep
    rw [if_pos (by omega)]
    exact ⟨_, rfl⟩
  unfold fieldsDecode
  rw [hsteps]
  dsimp only
  rw [htagSize, hcount]
  by_cases hboth : c.lengthScope = .tagAndValue
  · rw [if_pos (show (binaryFields c).lengthScope = .tagAndValue from hboth),
      if_neg fun hless => hscope ⟨hboth, by omega⟩]
    exact hshort _ (if_pos hboth).symm
  · rw [if_neg (show ¬ (binaryFields c).lengthScope = .tagAndValue from hboth)]
    exact hshort _ (if_neg hboth).symm

end Octets

/-- A failure keeps failing when the required extent is added. -/
theorem require_header_error {c : BinaryComposition} {failed : Status × FormatError} :
    ∃ failed', requireHeader c (.error failed) = .error failed' := by
  obtain ⟨status, detail⟩ := failed
  unfold requireHeader
  split
  · split
    · exact ⟨_, rfl⟩
    · split <;> exact ⟨_, rfl⟩
  · exact ⟨_, rfl⟩

/-- A failing decoder fails the call. -/
theorem format_decode_error {format : Format} {decode : Bytes → FormatResult Decoded}
    {data : Bytes} {failed : Status × FormatError} (hformat : format.decode = some decode)
    (hcall : decode data = .error failed) :
    ∃ failed', formatDecode format data = .error failed' := by
  obtain ⟨status, detail⟩ := failed
  unfold formatDecode
  simp only [hformat, hcall]
  split <;> exact ⟨_, rfl⟩

/-! ## DHCPv4 options -/

/-- A complete option other than End: a Pad, or a code with its length and value. -/
inductive DhcpOption : Bytes → Prop where
  | pad : DhcpOption [0]
  | valued (code : UInt8) (value : Bytes) (hpad : code ≠ 0) (hend : code ≠ 255)
      (hvalue : value.length < 256) :
      DhcpOption (code :: UInt8.ofNat value.length :: value)

/-- A Pad or End option is its code alone. -/
theorem dhcp_decode_mark {code : UInt8} (hcode : code = 0 ∨ code = 255) (rest : Bytes) :
    ∃ decoded, formatDecode formatDhcpv4 (code :: rest) = .ok decoded ∧
      decoded.tag.bytes = [code] ∧ decoded.source.size = 1 := by
  have hmark : taggedFieldsTagOnly (taggedBinaryFields dhcpv4Options) [code] = true := by
    obtain rfl | rfl := hcode <;> rfl
  have hread : (taggedBinaryFields dhcpv4Options).fields.readTag (code :: rest) =
      ⟨.ok ⟨[code], some 0⟩, 1⟩ := fixed_identifier_octet code rest
  have hdecode : taggedBinaryDecode dhcpv4Options (code :: rest) = .ok
      { tag := ⟨[code], some 0⟩
        value := ⟨[], some 1⟩
        source := { size := 1, header := Range.at 0 1, tag := Range.at 0 1, length := {},
                    value := Range.at 1 0, trailer := Range.at 1 0 } } := by
    unfold taggedBinaryDecode taggedFieldsDecode
    simp only [hread, read_result_ok, hmark]
    rw [if_neg (by simp), if_neg (by simp)]
    rfl
  refine ⟨_, format_decode_of_valid rfl (by simp) hdecode ?_, rfl, rfl⟩
  simp [decodedValid, Range.at, Range.valid, tagBindingValid]

/-- With another code the whole element is decoded. -/
theorem dhcp_decode_fields {code : UInt8} (hpad : code ≠ 0) (hend : code ≠ 255) (rest : Bytes) :
    taggedBinaryDecode dhcpv4Options (code :: rest) =
      requireHeader dhcpv4Options.fields
        (fieldsDecode (binaryFields dhcpv4Options.fields) (code :: rest)) := by
  have hmark : taggedFieldsTagOnly (taggedBinaryFields dhcpv4Options) [code] = false := by
    have hzero : ((0 : UInt8) == code) = false := beq_eq_false_iff_ne.mpr fun h => hpad h.symm
    have hlast : ((255 : UInt8) == code) = false := beq_eq_false_iff_ne.mpr fun h => hend h.symm
    simp [taggedFieldsTagOnly, taggedBinaryFields, dhcpv4Options, hzero, hlast]
  have hread : (taggedBinaryFields dhcpv4Options).fields.readTag (code :: rest) =
      ⟨.ok ⟨[code], some 0⟩, 1⟩ := fixed_identifier_octet code rest
  unfold taggedBinaryDecode taggedFieldsDecode
  simp only [hread, read_result_ok, hmark]
  rw [if_neg (by simp), if_pos trivial]
  rfl

theorem dhcp_scope (length : UInt8) :
    ¬ (dhcpv4Options.fields.lengthScope = .tagAndValue ∧ length.toNat = 0) := by
  intro h
  cases h.1

/-- A code with its length and value. -/
theorem dhcp_decode_valued {code : UInt8} {value : Bytes} (hpad : code ≠ 0) (hend : code ≠ 255)
    (hvalue : value.length < 256) (rest : Bytes) :
    ∃ decoded,
      formatDecode formatDhcpv4 (code :: UInt8.ofNat value.length :: (value ++ rest)) =
        .ok decoded ∧
      decoded.tag.bytes = [code] ∧ decoded.source.size = 2 + value.length := by
  have hlength : (UInt8.ofNat value.length).toNat = value.length := by
    rw [UInt8.toNat_ofNat']
    omega
  have hextent : dhcpv4Options.fields.extent (UInt8.ofNat value.length) = value.length := hlength
  obtain ⟨decoded, hdecode, hvalid, htag, hsize⟩ := @octets_complete dhcpv4Options.fields rfl rfl
    code (UInt8.ofNat value.length) (value ++ rest) (dhcp_scope _) (by
      rw [hextent, List.length_append]
      omega)
  refine ⟨decoded, format_decode_of_valid rfl (by simp) ?_ hvalid, htag, by
    rw [hsize, hextent]⟩
  rw [show headerBytes (binaryFields dhcpv4Options.fields) [code] [UInt8.ofNat value.length] =
    [code, UInt8.ofNat value.length] from rfl] at hdecode
  rw [dhcp_decode_fields hpad hend]
  exact congrArg (requireHeader dhcpv4Options.fields) hdecode

/-- A complete option at the front is decoded whole. -/
theorem dhcp_decode_option {option : Bytes} (hoption : DhcpOption option) (rest : Bytes) :
    ∃ decoded code, formatDecode formatDhcpv4 (option ++ rest) = .ok decoded ∧
      decoded.tag.bytes = [code] ∧ code ≠ 255 ∧ decoded.source.size = option.length := by
  cases hoption with
  | pad =>
    obtain ⟨decoded, hdecode, htag, hsize⟩ := dhcp_decode_mark (.inl rfl) rest
    exact ⟨decoded, 0, hdecode, htag, by decide, hsize⟩
  | valued code value hpad hend hvalue =>
    obtain ⟨decoded, hdecode, htag, hsize⟩ := dhcp_decode_valued hpad hend hvalue rest
    exact ⟨decoded, code, hdecode, htag, hend, by
      rw [hsize, List.length_cons, List.length_cons]
      omega⟩

/-- The decoder accepts what starts with a complete option or with End. -/
theorem dhcp_decode_ok {data : Bytes} {decoded : Decoded}
    (h : formatDecode formatDhcpv4 data = .ok decoded) :
    (∃ tail, data = 255 :: tail) ∨ ∃ option rest, data = option ++ rest ∧ DhcpOption option := by
  cases data with
  | nil => cases h
  | cons code rest =>
    by_cases hend : code = 255
    · exact .inl ⟨rest, by rw [hend]⟩
    by_cases hpad : code = 0
    · exact .inr ⟨[0], rest, by rw [hpad]; rfl, .pad⟩
    refine .inr ?_
    have hdecode := dhcp_decode_fields hpad hend rest
    have hfail : ∀ failed, fieldsDecode (binaryFields dhcpv4Options.fields) (code :: rest) =
        .error failed → False := by
      intro failed hfailed
      rw [hfailed] at hdecode
      obtain ⟨other, hother⟩ := @require_header_error dhcpv4Options.fields failed
      rw [hother] at hdecode
      obtain ⟨last, hlast⟩ := @format_decode_error formatDhcpv4 _ _ _ rfl hdecode
      rw [hlast] at h
      cases h
    cases rest with
    | nil => exact absurd rfl (hfail _)
    | cons length rest =>
      by_cases hextent : dhcpv4Options.fields.extent length ≤ rest.length
      · have hlength : length.toNat ≤ rest.length := hextent
        have htake : (rest.take length.toNat).length = length.toNat := by
          rw [List.length_take, Nat.min_eq_left hlength]
        refine ⟨code :: UInt8.ofNat (rest.take length.toNat).length :: rest.take length.toNat,
          rest.drop length.toNat, ?_, .valued code _ hpad hend ?_⟩
        · rw [htake, UInt8.ofNat_toNat, List.cons_append, List.cons_append,
            List.take_append_drop]
        · rw [htake]
          exact length.toNat_lt
      · obtain ⟨failed, hfailed⟩ := @octets_truncated dhcpv4Options.fields rfl rfl code length
          rest (dhcp_scope length) hextent
        exact absurd hfailed (hfail failed)

/-- A code does not say how an option goes on, but its length does. -/
theorem dhcp_option_code : PrefixCode DhcpOption := by
  refine ⟨?_, ?_⟩
  · intro code h hnil
    cases h <;> cases hnil
  · intro first second rest rest' hfirst hsecond hequal
    cases hfirst with
    | pad =>
      cases hsecond with
      | pad => rfl
      | valued code value hpad _ _ =>
        simp only [List.cons_append, List.cons.injEq] at hequal
        exact absurd hequal.1.symm hpad
    | valued code value hpad hend hvalue =>
      cases hsecond with
      | pad =>
        simp only [List.cons_append, List.cons.injEq] at hequal
        exact absurd hequal.1 hpad
      | valued code' value' _ _ hvalue' =>
        simp only [List.cons_append, List.cons.injEq] at hequal
        obtain ⟨rfl, hlength, hrest⟩ := hequal
        have hsame : value.length = value'.length := by
          have := congrArg UInt8.toNat hlength
          rw [UInt8.toNat_ofNat', UInt8.toNat_ofNat'] at this
          omega
        rw [(List.append_inj hrest hsame).1]

/-- No option other than End starts with the code of End. -/
theorem dhcp_end_ended (tail : Bytes) : Ended DhcpOption (255 :: tail) := by
  intro code rest hcode hequal
  cases hcode with
  | pad =>
    simp only [List.cons_append, List.cons.injEq] at hequal
    exact absurd hequal.1 (by decide)
  | valued code value _ hend _ =>
    simp only [List.cons_append, List.cons.injEq] at hequal
    exact hend hequal.1.symm

/-! ## Regions -/

/-- The tails that a policy allows. -/
def OptionsTail.Allows : OptionsTail → Bytes → Prop
  | .pad, tail => ∀ octet ∈ tail, octet = 0
  | .empty, tail => tail = []
  | .ignore, _ => True

/-- The regions that rules admit, with their significant sizes: complete options up to the first
End and an allowed tail, or complete options alone where End is optional. -/
inductive OptionsRegion (rules : OptionsRules) (maxElements : Nat) : Bytes → Nat → Prop where
  | ended (options : List Bytes) (tail : Bytes) (hoptions : ∀ option ∈ options, DhcpOption option)
      (hcount : options.length + 1 ≤ maxElements) (htail : rules.tail.Allows tail) :
      OptionsRegion rules maxElements (options.flatten ++ 255 :: tail)
        (options.flatten.length + 1)
  | exhausted (options : List Bytes) (hoptions : ∀ option ∈ options, DhcpOption option)
      (hcount : options.length ≤ maxElements) (hrequire : rules.requireEnd = false) :
      OptionsRegion rules maxElements options.flatten options.flatten.length

section Region

variable {rules : OptionsRules} {maxElements n : Nat}

/-- A region is options in front of an End or of nothing. -/
theorem options_region_iff {data : Bytes} :
    OptionsRegion rules maxElements data n ↔
      ∃ options tail, Sequence DhcpOption options tail ∧ data = options.flatten ++ tail ∧
        ((∃ rest, tail = 255 :: rest ∧ options.length + 1 ≤ maxElements ∧
            rules.tail.Allows rest ∧ n = options.flatten.length + 1) ∨
          (tail = [] ∧ options.length ≤ maxElements ∧ rules.requireEnd = false ∧
            n = options.flatten.length)) := by
  constructor
  · intro h
    cases h with
    | ended options tail hoptions hcount htail =>
      exact ⟨options, 255 :: tail, ⟨hoptions, dhcp_end_ended tail⟩, rfl,
        .inl ⟨tail, rfl, hcount, htail, rfl⟩⟩
    | exhausted options hoptions hcount hrequire =>
      exact ⟨options, [], ⟨hoptions, ended_nil dhcp_option_code⟩, (List.append_nil _).symm,
        .inr ⟨rfl, hcount, hrequire, rfl⟩⟩
  · intro h
    obtain ⟨options, tail, hsequence, rfl, hend⟩ := h
    obtain ⟨rest, rfl, hcount, htail, rfl⟩ | ⟨rfl, hcount, hrequire, rfl⟩ := hend
    · exact .ended options rest hsequence.items hcount htail
    · rw [List.append_nil]
      exact .exhausted options hsequence.items hcount hrequire

/-- A region without octets. -/
theorem options_region_nil :
    OptionsRegion rules maxElements [] n ↔ rules.requireEnd = false ∧ n = 0 := by
  rw [options_region_iff]
  constructor
  · intro h
    obtain ⟨options, tail, hsequence, hdata, hend⟩ := h
    obtain rfl := hsequence.no_items (ended_nil dhcp_option_code) hdata
    obtain ⟨rest, rfl, _⟩ | ⟨_, _, hrequire, hsize⟩ := hend
    · cases hdata
    · exact ⟨hrequire, hsize⟩
  · intro h
    exact ⟨[], [], ⟨fun _ hmem => (by cases hmem), ended_nil dhcp_option_code⟩, rfl,
      .inr ⟨rfl, Nat.zero_le _, h.1, h.2⟩⟩

/-- A region that starts with End. -/
theorem options_region_end {tail : Bytes} :
    OptionsRegion rules maxElements (255 :: tail) n ↔
      1 ≤ maxElements ∧ rules.tail.Allows tail ∧ n = 1 := by
  rw [options_region_iff]
  constructor
  · intro h
    obtain ⟨options, tail', hsequence, hdata, hend⟩ := h
    obtain rfl := hsequence.no_items (dhcp_end_ended tail) hdata
    obtain ⟨rest, rfl, hcount, htail, hsize⟩ | ⟨rfl, _⟩ := hend
    · obtain rfl := (List.cons.inj hdata).2
      exact ⟨hcount, htail, hsize⟩
    · cases hdata
  · intro h
    exact ⟨[], 255 :: tail, ⟨fun _ hmem => (by cases hmem), dhcp_end_ended tail⟩, rfl,
      .inl ⟨tail, rfl, h.1, h.2.1, h.2.2⟩⟩

/-- A region that starts with a complete option. -/
theorem options_region_option {option rest : Bytes} (hoption : DhcpOption option) :
    OptionsRegion rules maxElements (option ++ rest) n ↔
      1 ≤ maxElements ∧ ∃ k, n = option.length + k ∧
        OptionsRegion rules (maxElements - 1) rest k := by
  constructor
  · intro h
    obtain ⟨options, tail, hsequence, hdata, hend⟩ := options_region_iff.mp h
    obtain ⟨others, rfl, hothers, hrest⟩ := hsequence.uncons dhcp_option_code hoption hdata
    rw [List.length_cons, List.flatten_cons, List.length_append] at hend
    have hcount : 1 ≤ maxElements := by
      obtain ⟨_, _, hcount, _⟩ | ⟨_, hcount, _⟩ := hend <;> omega
    obtain ⟨after, hafter, hcount', htail, hsize⟩ | ⟨hnil, hcount', hrequire, hsize⟩ := hend
    · exact ⟨hcount, others.flatten.length + 1, by omega, options_region_iff.mpr
        ⟨others, tail, hothers, hrest, .inl ⟨after, hafter, by omega, htail, rfl⟩⟩⟩
    · exact ⟨hcount, others.flatten.length, hsize, options_region_iff.mpr
        ⟨others, tail, hothers, hrest, .inr ⟨hnil, by omega, hrequire, rfl⟩⟩⟩
  · intro h
    obtain ⟨hcount, k, hsize, hregion⟩ := h
    obtain ⟨others, tail, hothers, hrest, hend⟩ := options_region_iff.mp hregion
    refine options_region_iff.mpr ⟨option :: others, tail, hothers.cons hoption, ?_, ?_⟩
    · rw [List.flatten_cons, List.append_assoc, ← hrest]
    · rw [List.length_cons, List.flatten_cons, List.length_append]
      obtain ⟨after, hafter, hcount', htail, hsize'⟩ | ⟨hnil, hcount', hrequire, hsize'⟩ := hend
      · exact .inl ⟨after, hafter, by omega, htail, by omega⟩
      · exact .inr ⟨hnil, by omega, hrequire, by omega⟩

end Region

/-- The check behind a terminator. -/
theorem zero_tail_iff (failure : Nat → ContainerFailure) {data : Bytes} {remaining i : Nat}
    (h : i + remaining = data.length) :
    zeroTail failure data remaining i = .ok () ↔ ∀ octet ∈ data.drop i, octet = 0 := by
  induction remaining generalizing i with
  | zero => simp [zeroTail, List.drop_of_length_le (show data.length ≤ i by omega)]
  | succ remaining ih =>
    have hindex : i < data.length := by omega
    have hread : (Guarded.octet data i : ContainerResult UInt8) = .ok data[i] := by
      unfold Guarded.octet
      rw [List.getElem?_eq_getElem hindex]
    rw [zeroTail, hread, List.drop_eq_getElem_cons hindex, List.forall_mem_cons,
      ← ih (by omega)]
    change (if data[i] ≠ 0 then _ else _) = _ ↔ _
    by_cases hzero : data[i] = 0
    · rw [if_neg (not_not.mpr hzero)]
      exact ⟨fun h => ⟨hzero, h⟩, fun h => h.2⟩
    · rw [if_pos hzero]
      exact ⟨fun h => (by cases h), fun h => absurd h.1 hzero⟩

/-- The check of the tail accepts what the options allow. -/
theorem check_tail_iff {data : Bytes} {pos : Nat} (tail : OptionsTail) (h : pos ≤ data.length) :
    checkTail data pos tail = .ok () ↔ tail.Allows (data.drop pos) := by
  cases tail with
  | pad => exact zero_tail_iff _ (by omega)
  | empty =>
    show (if pos ≠ data.length then _ else _) = _ ↔ data.drop pos = []
    rw [List.drop_eq_nil_iff]
    by_cases hend : pos = data.length
    · rw [if_neg (not_not.mpr hend)]
      exact ⟨fun _ => by omega, fun _ => rfl⟩
    · rw [if_pos hend]
      exact ⟨fun h => (by cases h), fun h => absurd h (by omega)⟩
  | ignore => exact ⟨fun _ => trivial, fun _ => rfl⟩

/-- The reader of a whole input at a position. -/
abbrev readerAt (data : Bytes) (pos : Nat) : Reader :=
  { data := data, size := data.length, pos := pos }

/-- The reader pulls what the format decodes at its position. -/
theorem reader_next_at {format : Format} {data : Bytes} {pos : Nat}
    (hformat : format.decode.isSome) (hsize : data.length ≤ sizeMax) (hpos : pos < data.length) :
    readerNext format (readerAt data pos) =
      match formatDecode format (data.drop pos) with
      | .ok decoded => .ok (decoded, readerAt data (pos + decoded.source.size))
      | .error (status, _) => .error status := by
  have hvalid : readerValid format (readerAt data pos) = .ok () := by
    unfold readerValid
    rw [if_neg (by simp [Option.isSome_iff_ne_none.mp hformat]), if_neg (by simp; omega),
      if_neg (by simp; omega)]
  have hrest : (readerAt data pos).rest = data.drop pos := by
    unfold Reader.rest
    rw [List.take_of_length_le (le_refl _)]
  unfold readerNext
  rw [hvalid]
  dsimp only
  rw [if_neg (by omega), hrest]
  cases formatDecode format (data.drop pos) with
  | ok decoded => rfl
  | error failed => simp

/-- The loop over DHCPv4 options recognises the region behind its position. -/
theorem options_loop_iff {data : Bytes} {rules : OptionsRules} {maxElements : Nat}
    (hsize : data.length ≤ sizeMax) (steps count pos n : Nat) (hpos : pos ≤ data.length)
    (hsteps : data.length < pos + steps) (hcount : count ≤ maxElements) :
    optionsLoop data rules maxElements steps count (readerAt data pos) = .ok n ↔
      ∃ k, n = pos + k ∧ OptionsRegion rules (maxElements - count) (data.drop pos) k := by
  induction steps generalizing count pos with
  | zero => omega
  | succ steps ih =>
    rw [optionsLoop]
    by_cases hend : pos = data.length
    · rw [if_pos hend, List.drop_of_length_le (by omega)]
      simp only [options_region_nil]
      cases hrequire : rules.requireEnd with
      | true => exact ⟨fun h => (by cases h), fun h => (by obtain ⟨_, _, h, _⟩ := h; cases h)⟩
      | false =>
        refine ⟨fun h => ⟨0, ?_, rfl, rfl⟩, fun h => ?_⟩
        · have := Except.ok.inj h
          omega
        · obtain ⟨k, rfl, _, rfl⟩ := h
          rw [if_neg (by simp), hend]
          rfl
    · have hinside : pos < data.length := by omega
      rw [if_neg hend, reader_next_at rfl hsize hinside]
      by_cases hlimit : count = maxElements
      · -- Every region that goes on here has an element too many.
        rw [if_pos hlimit]
        refine ⟨fun h => (by cases h), fun h => ?_⟩
        obtain ⟨k, _, hregion⟩ := h
        obtain ⟨options, tail, hsequence, hdata, hstop⟩ := options_region_iff.mp hregion
        obtain ⟨_, _, hmost, _⟩ | ⟨rfl, hmost, _⟩ := hstop
        · omega
        · obtain rfl : options = [] := List.length_eq_zero_iff.mp (by omega)
          have := congrArg List.length hdata
          simp at this
          omega
      · rw [if_neg hlimit]
        cases hdecode : formatDecode formatDhcpv4 (data.drop pos) with
        | error failed =>
          -- Nothing that a region starts with is in front of the reader.
          refine ⟨fun h => (by cases h), fun h => ?_⟩
          obtain ⟨k, _, hregion⟩ := h
          obtain ⟨options, tail, hsequence, hdata, hstop⟩ := options_region_iff.mp hregion
          cases options with
          | nil =>
            obtain ⟨rest, rfl, _⟩ | ⟨rfl, _⟩ := hstop
            · obtain ⟨decoded, hok, _⟩ := dhcp_decode_mark (.inr rfl) rest
              rw [hdata] at hdecode
              exact absurd (hdecode.symm.trans hok) (by simp)
            · have := congrArg List.length hdata
              simp at this
              omega
          | cons option others =>
            rw [List.flatten_cons, List.append_assoc] at hdata
            rw [hdata] at hdecode
            obtain ⟨decoded, _, hok, _⟩ := dhcp_decode_option
              (hsequence.items option (List.mem_cons_self ..)) (others.flatten ++ tail)
            exact absurd (hdecode.symm.trans hok) (by simp)
        | ok decoded =>
          obtain ⟨tail, hdata⟩ | ⟨option, rest, hdata, hoption⟩ := dhcp_decode_ok hdecode
          · obtain ⟨other, hother, htag, hused⟩ := dhcp_decode_mark (.inr rfl) tail
            rw [hdata] at hdecode
            obtain rfl := Except.ok.inj (hdecode.symm.trans hother)
            have hrest : data.drop (pos + 1) = tail := by
              rw [← List.drop_drop, hdata]
              rfl
            have hcheck := check_tail_iff rules.tail (show pos + 1 ≤ data.length by omega)
            rw [hrest] at hcheck
            dsimp only
            rw [hdata, hused, htag]
            simp only [options_region_end]
            change (checkTail data (pos + 1) rules.tail >>= fun _ =>
              Except.ok (pos + 1)) = _ ↔ _
            constructor
            · intro h
              obtain ⟨checked, htail, h⟩ := bind_ok.mp h
              exact ⟨1, (Except.ok.inj h).symm, by omega, hcheck.mp htail, rfl⟩
            · intro h
              obtain ⟨k, rfl, _, hallows, rfl⟩ := h
              rw [hcheck.mpr hallows]
              rfl
          · obtain ⟨other, code, hother, htag, hlast, hused⟩ :=
              dhcp_decode_option hoption rest
            rw [hdata] at hdecode
            obtain rfl := Except.ok.inj (hdecode.symm.trans hother)
            have hlength := congrArg List.length hdata
            rw [List.length_drop, List.length_append] at hlength
            have hpositive := List.length_pos_of_ne_nil (dhcp_option_code.nonempty hoption)
            have hrest : data.drop (pos + option.length) = rest := by
              rw [← List.drop_drop, hdata, List.drop_left' rfl]
            have hnext := ih (count + 1) (pos + option.length) (by omega) (by omega)
              (by omega)
            rw [hrest] at hnext
            dsimp only
            rw [hdata, hused, htag]
            simp only [options_region_option hoption]
            change (if code = 255 then _ else _) = _ ↔ _
            rw [if_neg hlast, hnext, show maxElements - (count + 1) =
              maxElements - count - 1 by omega]
            constructor
            · intro h
              obtain ⟨k, hk, hregion⟩ := h
              exact ⟨option.length + k, by omega, by omega, k, rfl, hregion⟩
            · intro h
              obtain ⟨_, hn, _, k, hk, hregion⟩ := h
              exact ⟨k, by omega, hregion⟩

/-! ## Bluetooth advertising data -/

/-- A complete AD structure: its length, which counts the type, the type and the data. -/
inductive AdStructure : Bytes → Prop where
  | mk (type : UInt8) (value : Bytes) (hvalue : value.length + 1 < 256) :
      AdStructure (UInt8.ofNat (value.length + 1) :: type :: value)

/-- Advertising data with its significant size: complete structures and zeros. -/
inductive AdData : Bytes → Nat → Prop where
  | mk (structures : List Bytes) (zeros : Nat)
      (hstructures : ∀ ad ∈ structures, AdStructure ad) :
      AdData (structures.flatten ++ List.replicate zeros 0) structures.flatten.length

/-- The length of a structure says how it goes on. -/
theorem ad_structure_code : PrefixCode AdStructure := by
  refine ⟨?_, ?_⟩
  · intro code h hnil
    cases h
    cases hnil
  · intro first second rest rest' hfirst hsecond hequal
    cases hfirst with
    | mk type value hvalue =>
      cases hsecond with
      | mk type' value' hvalue' =>
        simp only [List.cons_append, List.cons.injEq] at hequal
        obtain ⟨hlength, rfl, hrest⟩ := hequal
        have hsame : value.length = value'.length := by
          have := congrArg UInt8.toNat hlength
          rw [UInt8.toNat_ofNat', UInt8.toNat_ofNat'] at this
          omega
        rw [(List.append_inj hrest hsame).1]

/-- No structure starts with a zero. -/
theorem ad_zeros_ended (zeros : Nat) : Ended AdStructure (List.replicate zeros 0) := by
  intro code rest hcode hequal
  cases hcode with
  | mk type value hvalue =>
    have hmem : UInt8.ofNat (value.length + 1) ∈ List.replicate zeros (0 : UInt8) := by
      rw [hequal]
      simp
    have hzero := congrArg UInt8.toNat (List.mem_replicate.mp hmem).2
    rw [UInt8.toNat_ofNat'] at hzero
    simp at hzero
    omega

/-- A complete structure at the front is decoded whole. -/
theorem ad_decode_structure {ad : Bytes} (had : AdStructure ad) (rest : Bytes) :
    ∃ decoded, formatDecode formatBluetoothLtv (ad ++ rest) = .ok decoded ∧
      decoded.source.size = ad.length := by
  cases had with
  | mk type value hvalue =>
    have hlength : (UInt8.ofNat (value.length + 1)).toNat = value.length + 1 := by
      rw [UInt8.toNat_ofNat']
      omega
    have hextent : bluetoothLtvConfig.extent (UInt8.ofNat (value.length + 1)) =
        value.length := by
      show (UInt8.ofNat (value.length + 1)).toNat - 1 = value.length
      omega
    obtain ⟨decoded, hdecode, hvalid, _, hsize⟩ := @octets_complete bluetoothLtvConfig rfl rfl
      type (UInt8.ofNat (value.length + 1)) (value ++ rest) (fun h => by omega) (by
        rw [hextent, List.length_append]
        omega)
    rw [show headerBytes (binaryFields bluetoothLtvConfig) [type]
      [UInt8.ofNat (value.length + 1)] = [UInt8.ofNat (value.length + 1), type] from rfl]
      at hdecode
    refine ⟨decoded, format_decode_of_valid rfl (by simp) ?_ hvalid, by
      rw [hsize, hextent, List.length_cons, List.length_cons]
      omega⟩
    exact congrArg (requireHeader bluetoothLtvConfig) hdecode

/-- The decoder accepts what starts with a complete structure. -/
theorem ad_decode_ok {data : Bytes} {decoded : Decoded}
    (h : formatDecode formatBluetoothLtv data = .ok decoded) :
    ∃ ad rest, data = ad ++ rest ∧ AdStructure ad := by
  have hfail : ∀ failed, fieldsDecode (binaryFields bluetoothLtvConfig) data =
      .error failed → False := by
    intro failed hfailed
    obtain ⟨other, hother⟩ := @require_header_error bluetoothLtvConfig failed
    have hdecode : binaryDecode bluetoothLtvConfig data = .error other := by
      unfold binaryDecode
      rw [hfailed, hother]
    obtain ⟨last, hlast⟩ := @format_decode_error formatBluetoothLtv _ _ _ rfl hdecode
    rw [hlast] at h
    cases h
  match data, h, hfail with
  | [], h, _ => cases h
  | [length], _, hfail =>
    by_cases hzero : length = 0
    · rw [hzero] at hfail
      exact absurd rfl (hfail _)
    · have hnonzero : ¬ length.toNat = 0 := fun h => hzero (UInt8.toNat_inj.mp h)
      have hstep := @length_step_eq (binaryFields bluetoothLtvConfig) [length] [length] []
        length.toNat {} rfl rfl (fixed_length_octet length []) (fun h => hnonzero h.2)
      have hshort : ∃ failed,
          fieldsDecode (binaryFields bluetoothLtvConfig) [length] = .error failed := by
        unfold fieldsDecode headerSteps
        rw [if_neg (by decide), hstep]
        exact ⟨_, rfl⟩
      obtain ⟨failed, hfailed⟩ := hshort
      exact (hfail failed hfailed).elim
  | length :: type :: rest, _, hfail =>
    by_cases hzero : length.toNat = 0
    · obtain rfl : length = 0 := UInt8.toNat_inj.mp hzero
      exact absurd rfl (hfail _)
    by_cases hextent : bluetoothLtvConfig.extent length ≤ rest.length
    · have hlength : length.toNat - 1 ≤ rest.length := hextent
      have htake : (rest.take (length.toNat - 1)).length = length.toNat - 1 := by
        rw [List.length_take, Nat.min_eq_left hlength]
      have hlt := length.toNat_lt
      refine ⟨UInt8.ofNat ((rest.take (length.toNat - 1)).length + 1) :: type ::
        rest.take (length.toNat - 1), rest.drop (length.toNat - 1), ?_, .mk type _ ?_⟩
      · rw [htake, show length.toNat - 1 + 1 = length.toNat by omega, UInt8.ofNat_toNat,
          List.cons_append, List.cons_append, List.take_append_drop]
      · omega
    · obtain ⟨failed, hfailed⟩ := @octets_truncated bluetoothLtvConfig rfl rfl type length
        rest (fun h => hzero h.2) hextent
      exact absurd hfailed (hfail failed)

section AdData

variable {n : Nat}

/-- Advertising data is structures in front of zeros. -/
theorem ad_data_iff {data : Bytes} :
    AdData data n ↔ ∃ structures zeros,
      Sequence AdStructure structures (List.replicate zeros 0) ∧
        data = structures.flatten ++ List.replicate zeros 0 ∧ n = structures.flatten.length := by
  constructor
  · intro h
    cases h with
    | mk structures zeros hstructures =>
      exact ⟨structures, zeros, ⟨hstructures, ad_zeros_ended zeros⟩, rfl, rfl⟩
  · intro h
    obtain ⟨structures, zeros, hsequence, rfl, rfl⟩ := h
    exact .mk structures zeros hsequence.items

/-- Advertising data that no structure starts is zeros only. -/
theorem ad_data_ended {data : Bytes} (hended : Ended AdStructure data) :
    AdData data n ↔ (∀ octet ∈ data, octet = 0) ∧ n = 0 := by
  rw [ad_data_iff]
  constructor
  · intro h
    obtain ⟨structures, zeros, hsequence, hdata, hsize⟩ := h
    obtain rfl := hsequence.no_items hended hdata
    refine ⟨fun octet hoctet => ?_, hsize⟩
    rw [hdata] at hoctet
    exact (List.mem_replicate.mp hoctet).2
  · intro h
    exact ⟨[], data.length, ⟨fun _ hmem => (by cases hmem), ad_zeros_ended _⟩,
      List.eq_replicate_iff.mpr ⟨rfl, h.1⟩, h.2⟩

/-- Advertising data that starts with a complete structure. -/
theorem ad_data_structure {ad rest : Bytes} (had : AdStructure ad) :
    AdData (ad ++ rest) n ↔ ∃ k, n = ad.length + k ∧ AdData rest k := by
  constructor
  · intro h
    obtain ⟨structures, zeros, hsequence, hdata, hsize⟩ := ad_data_iff.mp h
    obtain ⟨others, rfl, hothers, hrest⟩ := hsequence.uncons ad_structure_code had hdata
    rw [List.flatten_cons, List.length_append] at hsize
    exact ⟨_, hsize, ad_data_iff.mpr ⟨others, zeros, hothers, hrest, rfl⟩⟩
  · intro h
    obtain ⟨k, rfl, hdata⟩ := h
    obtain ⟨others, zeros, hothers, rfl, rfl⟩ := ad_data_iff.mp hdata
    exact ad_data_iff.mpr ⟨ad :: others, zeros, hothers.cons had, by
      rw [List.flatten_cons, List.append_assoc], by rw [List.flatten_cons, List.length_append]⟩

end AdData

/-- A zero in the place of a length starts no structure. -/
theorem ad_zero_ended (tail : Bytes) : Ended AdStructure (0 :: tail) := by
  intro code rest hcode hequal
  cases hcode with
  | mk type value hvalue =>
    simp only [List.cons_append, List.cons.injEq] at hequal
    have hzero := congrArg UInt8.toNat hequal.1
    rw [UInt8.toNat_ofNat'] at hzero
    simp at hzero
    omega

/-- The loop over advertising data recognises the structures behind its position. -/
theorem ad_data_loop_iff {data : Bytes} (hsize : data.length ≤ sizeMax) (steps pos n : Nat)
    (hpos : pos ≤ data.length) (hsteps : data.length < pos + steps) :
    adDataLoop data steps (readerAt data pos) = .ok n ↔
      ∃ k, n = pos + k ∧ AdData (data.drop pos) k := by
  induction steps generalizing pos with
  | zero => omega
  | succ steps ih =>
    rw [adDataLoop]
    by_cases hend : pos = data.length
    · rw [if_pos hend, List.drop_of_length_le (by omega)]
      simp only [ad_data_ended (ended_nil ad_structure_code)]
      constructor
      · intro h
        exact ⟨0, (Except.ok.inj h).symm, fun _ hmem => (by cases hmem), rfl⟩
      · intro h
        obtain ⟨k, rfl, _, rfl⟩ := h
        rfl
    · have hinside : pos < data.length := by omega
      have hread : (Guarded.octet data pos : ContainerResult UInt8) = .ok data[pos] := by
        unfold Guarded.octet
        rw [List.getElem?_eq_getElem hinside]
      rw [if_neg hend]
      show (Guarded.octet data pos >>= _) = _ ↔ _
      rw [hread]
      change (if data[pos] = 0 then _ else _) = _ ↔ _
      by_cases hzero : data[pos] = 0
      · have hdrop : data.drop pos = 0 :: data.drop (pos + 1) := by
          rw [List.drop_eq_getElem_cons hinside, hzero]
        have hcheck := zero_tail_iff (fun i => ⟨.invalidValue, some i, none⟩)
          (show pos + (data.length - pos) = data.length by omega)
        rw [if_pos hzero]
        simp only [hdrop, ad_data_ended (ad_zero_ended _)] at hcheck ⊢
        change (zeroTail _ data (data.length - pos) pos >>= fun _ => Except.ok pos) = _ ↔ _
        constructor
        · intro h
          obtain ⟨checked, htail, h⟩ := bind_ok.mp h
          exact ⟨0, (Except.ok.inj h).symm, hcheck.mp htail, rfl⟩
        · intro h
          obtain ⟨k, rfl, hzeros, rfl⟩ := h
          rw [hcheck.mpr hzeros]
          rfl
      · rw [if_neg hzero, reader_next_at rfl hsize hinside]
        cases hdecode : formatDecode formatBluetoothLtv (data.drop pos) with
        | error failed =>
          -- The length is no terminator, so a structure would have to start here.
          refine ⟨fun h => (by cases h), fun h => ?_⟩
          obtain ⟨k, _, hdata⟩ := h
          obtain ⟨structures, zeros, hsequence, hdata, _⟩ := ad_data_iff.mp hdata
          cases structures with
          | nil =>
            have hmem : data[pos] ∈ List.replicate zeros (0 : UInt8) := by
              rw [← List.nil_append (List.replicate zeros 0),
                show ([] : Bytes) = ([] : List Bytes).flatten from rfl, ← hdata,
                List.drop_eq_getElem_cons hinside]
              exact List.mem_cons_self ..
            exact absurd (List.mem_replicate.mp hmem).2 hzero
          | cons ad others =>
            rw [List.flatten_cons, List.append_assoc] at hdata
            rw [hdata] at hdecode
            obtain ⟨decoded, hok, _⟩ := ad_decode_structure
              (hsequence.items ad (List.mem_cons_self ..)) (others.flatten ++ _)
            exact absurd (hdecode.symm.trans hok) (by simp)
        | ok decoded =>
          obtain ⟨ad, rest, hdata, had⟩ := ad_decode_ok hdecode
          obtain ⟨other, hother, hused⟩ := ad_decode_structure had rest
          rw [hdata] at hdecode
          obtain rfl := Except.ok.inj (hdecode.symm.trans hother)
          have hlength := congrArg List.length hdata
          rw [List.length_drop, List.length_append] at hlength
          have hpositive := List.length_pos_of_ne_nil (ad_structure_code.nonempty had)
          have hrest : data.drop (pos + ad.length) = rest := by
            rw [← List.drop_drop, hdata, List.drop_left' rfl]
          have hnext := ih (pos + ad.length) (by omega) (by omega)
          rw [hrest] at hnext
          dsimp only
          rw [hdata, hused, hnext]
          simp only [ad_data_structure had]
          constructor
          · intro h
            obtain ⟨k, hk, hregion⟩ := h
            exact ⟨ad.length + k, by omega, k, rfl, hregion⟩
          · intro h
            obtain ⟨_, hn, k, hk, hregion⟩ := h
            exact ⟨k, by omega, hregion⟩

/-! ## The validators -/

/-- A reader starts in front of its input. -/
theorem reader_init_at {format : Format} {data : Bytes} (hformat : format.decode.isSome) :
    readerInit format data = .ok (readerAt data 0) := by
  unfold readerInit
  rw [if_neg (by simp [Option.isSome_iff_ne_none.mp hformat])]

/-- The container validators accept exactly the regions of their grammars, and report the sizes
that the grammars give them. -/
theorem container_validate_exact {data : Bytes} (hsize : data.length ≤ sizeMax) :
    (∀ rules maxElements n, dhcpv4OptionsValidate data rules maxElements = .ok n ↔
        OptionsRegion rules maxElements data n) ∧
      ∀ n, bluetoothAdDataValidate data = .ok n ↔ AdData data n := by
  refine ⟨fun rules maxElements n => ?_, fun n => ?_⟩
  · unfold dhcpv4OptionsValidate
    rw [reader_init_at rfl]
    refine (options_loop_iff hsize (data.length + 1) 0 0 n (Nat.zero_le _) (by omega)
      (Nat.zero_le _)).trans ?_
    rw [List.drop_zero, Nat.sub_zero]
    simp
  · unfold bluetoothAdDataValidate
    rw [reader_init_at rfl]
    refine (ad_data_loop_iff hsize (data.length + 1) 0 n (Nat.zero_le _) (by omega)).trans ?_
    rw [List.drop_zero]
    simp

/-- A Pad, an option with the value of End in it, and End; a structure with a zero in it. -/
theorem container_validate_exact_hidden :
    dhcpv4OptionsValidate [0, 53, 1, 255, 255, 0] optionsDefaultRules 3 = .ok 5 ∧
      bluetoothAdDataValidate [2, 1, 0, 0] = .ok 3 :=
  ⟨((container_validate_exact (by decide)).1 _ _ _).mpr
      (.ended [[0], [53, 1, 255]] [0]
        (by
          intro option hoption
          obtain rfl | rfl := List.mem_pair.mp hoption
          · exact .pad
          · exact .valued 53 [255] (by decide) (by decide) (by decide))
        (by decide) (fun octet hoctet => List.mem_singleton.mp hoctet)),
    ((container_validate_exact (by decide)).2 _).mpr
      (.mk [[2, 1, 0]] 1 (by
        intro ad had
        obtain rfl := List.mem_singleton.mp had
        exact .mk 1 [0] (by decide)))⟩

end OpenTlv
