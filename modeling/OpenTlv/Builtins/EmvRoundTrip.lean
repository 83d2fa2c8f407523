import OpenTlv.Builtins.EmvTrack2

/-!
# EMV values survive their codecs

For every rule of the dictionary, what the encoder accepts is decoded as the same representation,
and the arrays that the codecs stage values in are never exceeded. What the decoder of Track 2
accepts is also encoded as the same octets.
-/

namespace OpenTlv

/-- The size of the representation of a kind. A digit string has no size of its own. -/
def EmvKind.size : EmvKind → Nat
  | .account => 4
  | .afl => 264
  | .biometric => 4
  | .cryptogram => 8
  | .cvmResult => 3
  | .date => 3
  | .digits => 0
  | .numberList => 40
  | .time => 3
  | .track2 => 56

/-- The buffers with room for a representation. -/
def EmvKind.Room : (kind : EmvKind) → kind.Value → Nat → Prop
  | .digits, text, capacity => text.length < capacity
  | kind, _, capacity => kind.size ≤ capacity

/-- The same strings and fields of Track 2. -/
structure EmvTrack2.Same (track2 other : EmvTrack2) : Prop where
  pan : cString other.pan.toList = cString track2.pan.toList
  year : other.expirationYear = track2.expirationYear
  month : other.expirationMonth = track2.expirationMonth
  code : other.serviceCode = track2.serviceCode
  discretionary : cString other.discretionaryData.toList = cString track2.discretionaryData.toList

/-- The same representation: of lists the items in use, of arrays of characters the strings. -/
def EmvKind.Same : (kind : EmvKind) → kind.Value → kind.Value → Prop
  | .account, value, other => value = other
  | .afl, value, other => EmvAfl.Same value other
  | .biometric, value, other => value = other
  | .cryptogram, value, other => value = other
  | .cvmResult, value, other => value = other
  | .date, value, other => value = other
  | .digits, text, buffer => cString buffer = text
  | .numberList, value, other => EmvNumberList.Same value other
  | .time, value, other => value = other
  | .track2, value, other => EmvTrack2.Same value other

/-! ## Staged representations -/

section Staged

variable {rule : EmvRule} {staged : Staged} {octets : Bytes}

/-- Staged octets of an admitted length are the output. -/
theorem emv_finish_eq (h : Stages staged octets) (destination : Option Bytes) :
    (staged >>= fun result => emvFinish rule result.1 result.2 destination) =
      match schemaValidateLength rule.schema octets.length with
      | .error status => .error (.code status)
      | .ok () => stored octets destination := by
  rw [h.staged]
  show emvFinish rule octets.length (Octets.store emvStaging 0 octets) destination = _
  unfold emvFinish
  cases schemaValidateLength rule.schema octets.length with
  | error status => rfl
  | ok admitted =>
    cases destination with
    | none => rfl
    | some data =>
      dsimp only
      by_cases hroom : data.length < octets.length
      · rw [if_pos hroom, stored_of_lt hroom]
      · rw [if_neg hroom, stored_of_le (by omega), Guarded.slice_store]
        show (Guarded.put data 0 octets >>= fun data => Except.ok (octets.length, some data)) = _
        rw [Guarded.put_first (by omega)]
        rfl

end Staged

/-- A codec whose branches are faithful loses nothing. -/
theorem lossless_of_faithful {α : Type} {same : α → α → Prop} {size : Nat} {rule : EmvRule}
    {stage : α → Staged} {decode : Bytes → Nat → CodecResult α}
    (hfaithful : ∀ value, EmvFaithful same size (stage value) decode value)
    (hdecode : ∀ data capacity, schemaValidateLength rule.schema data.length = .ok () →
      decode data capacity ≠ .error .fault) :
    Lossless same (fun _ capacity => size ≤ capacity)
      (fun value destination =>
        stage value >>= fun result => emvFinish rule result.1 result.2 destination)
      (fun data buffer =>
        match schemaValidateLength rule.schema data.length with
        | .error status => .error (.code status)
        | .ok () => decode data buffer.length) := by
  refine ⟨fun value destination written result h => ?_, fun value destination h => ?_,
    fun data buffer h => ?_⟩
  · obtain herror | ⟨octets, hstages, hread⟩ := hfaithful value
    · rw [herror] at h
      cases h
    rw [emv_finish_eq hstages] at h
    cases hadmitted : schemaValidateLength rule.schema octets.length with
    | error status =>
      rw [hadmitted] at h
      cases h
    | ok admitted =>
      rw [hadmitted] at h
      obtain ⟨rfl, hroom, rfl⟩ := stored_eq_ok h
      refine ⟨octets, rfl, hroom, rfl, fun buffer hbuffer => ?_⟩
      obtain ⟨decoded, hdecoded, hsame⟩ := hread buffer.length hbuffer
      exact ⟨decoded, by rw [hadmitted]; exact hdecoded, hsame⟩
  · obtain herror | ⟨octets, hstages, -⟩ := hfaithful value
    · rw [herror] at h
      cases h
    rw [emv_finish_eq hstages] at h
    split at h
    · cases h
    · exact stored_ne_fault _ _ h
  · split at h
    · cases h
    next hadmitted => exact hdecode data buffer.length hadmitted h

/-- The lengths that a rule admits. -/
theorem admitted_of_validate {entry : SchemaEntry} {length : Nat}
    (h : schemaValidateLength entry length = .ok ()) :
    entry.minLength ≤ length ∧ length ≤ entry.maxLength := by
  unfold schemaValidateLength at h
  split at h
  · cases h
  split at h
  · cases h
  · omega

/-! ## Track 2 -/

/-- Two representations of one content are the same. -/
theorem track2_same {track2 other : EmvTrack2} {content : Track2Content}
    (hheld : track2.Holds content) (hother : other.Holds content) : EmvTrack2.Same track2 other :=
  ⟨hother.pan.trans hheld.pan.symm, UInt8.toNat_inj.mp (hother.year.trans hheld.year.symm),
    UInt8.toNat_inj.mp (hother.month.trans hheld.month.symm),
    UInt16.toNat_inj.mp (hother.code.trans hheld.code.symm),
    hother.discretionary.trans hheld.discretionary.symm⟩

/-- Track 2 data is staged and read back. -/
theorem stage_track2_faithful (track2 : EmvTrack2) :
    EmvFaithful EmvTrack2.Same 56 (stageTrack2 track2) decodeTrack2 track2 := by
  by_cases hcontent : ∃ content : Track2Content, content.Valid ∧ track2.Holds content
  · obtain ⟨content, hvalid, hheld⟩ := hcontent
    refine .inr ⟨_, stage_track2_eq hheld hvalid, fun capacity hcapacity => ?_⟩
    obtain ⟨other, hother, hdecode⟩ := decode_track2_eq hvalid
      (Nibbles.unpack_pack content.nibbles_even hvalid.nibbles_lt) hcapacity
    exact ⟨other, hdecode, track2_same hheld hother⟩
  · exact .inl (stage_track2_error hcontent)

/-- What the decoder of Track 2 accepts is encoded as the same octets. -/
theorem track2_encodes_back {data buffer destination : Bytes} {track2 : EmvTrack2}
    (h : emvValueDecode codecTrack2EquivalentDataRule data buffer = .ok track2)
    (hroom : data.length ≤ destination.length) :
    emvValueEncode codecTrack2EquivalentDataRule track2 (some destination) =
      .ok (data.length, some (Octets.store destination 0 data)) := by
  have hsplit : emvValueDecode codecTrack2EquivalentDataRule data buffer =
      match schemaValidateLength codecTrack2EquivalentDataRule.schema data.length with
      | .error status => .error (.code status)
      | .ok () => decodeTrack2 data buffer.length := rfl
  rw [hsplit] at h
  cases hadmitted : schemaValidateLength codecTrack2EquivalentDataRule.schema data.length with
  | error status =>
    rw [hadmitted] at h
    cases h
  | ok admitted =>
    rw [hadmitted] at h
    obtain ⟨content, hvalid, hheld, hnibbles⟩ := decode_track2_ok h
    have hdata : Nibbles.pack content.nibbles = data := by
      rw [← hnibbles, Nibbles.pack_unpack]
    have hfinish := @emv_finish_eq codecTrack2EquivalentDataRule _ _
      (stage_track2_eq hheld hvalid) (some destination)
    rw [hdata, hadmitted] at hfinish
    exact hfinish.trans (stored_of_le hroom)

/-! ## Digit strings -/

section Digits

variable {text : Bytes}

/-- The characters of an admitted string are no zeros. -/
theorem admitted_ne_zero (h : DigitsAdmitted 0 text) : ∀ character ∈ text, character ≠ 0 := by
  intro character hcharacter hzero
  have hdigit := h.decimal character hcharacter
  rw [hzero] at hdigit
  cases hdigit

/-- A decoded string in its buffer. -/
theorem c_string_stored (h : DigitsAdmitted 0 text) (buffer : Bytes) :
    cString (Octets.store buffer 0 (text ++ [0])) = text := by
  rw [Guarded.store_front, List.append_assoc]
  exact c_string_append (admitted_ne_zero h) _

/-- The octets of an admitted string are decoded as the string. -/
theorem decode_digits_eq {argument : Nat} {buffer : Bytes} (h : DigitsAdmitted 0 text)
    (hargument : argument = 0 ∨ argument ≤ 19 ∧ text.length ≠ 0 ∧ text.length ≤ argument)
    (hroom : text.length < buffer.length) :
    decodeDigits argument (digitsOctets 0 text) buffer =
      .ok (Octets.store buffer 0 (text ++ [0])) := by
  unfold decodeDigits
  by_cases hzero : argument = 0
  · rw [if_pos hzero]
    exact digits_decode_octets h hroom
  · obtain ⟨hpan, hnonempty, hbound⟩ := hargument.resolve_left hzero
    have hstrnlen : emvStrnlen (Octets.store (List.replicate 20 0) 0 (text ++ [0])) =
        text.length := by
      rw [← c_string_length, c_string_stored h]
    have hstrlen : emvStrlen (Octets.store (List.replicate 20 0) 0 (text ++ [0])) =
        .ok text.length := by
      have hlength := @Octets.store_length (List.replicate 20 0) (text ++ [0]) 0 (by
        rw [List.length_append, List.length_singleton, List.length_replicate]
        omega)
      unfold emvStrlen
      rw [hstrnlen, hlength, List.length_replicate, if_pos (by omega)]
    have hslice := @Guarded.slice_store Status (List.replicate 20 0) (text ++ [0])
    rw [List.length_append, List.length_singleton] at hslice
    rw [if_neg hzero, digits_decode_octets h (by rw [List.length_replicate]; omega)]
    show (emvStrlen _ >>= _) = _
    rw [hstrlen]
    simp only [bind, Except.bind]
    rw [if_neg (by omega), if_neg (by omega), hslice]
    exact Guarded.put_first (by rw [List.length_append, List.length_singleton]; omega)

/-- A string of the encoder that is read back. -/
theorem encode_digits_cases {rule : EmvRule} (hargument : rule.argument ≤ 19)
    (destination : Option Bytes) :
    (∃ status, encodeDigits rule text destination = .error (.code status)) ∨
      DigitsAdmitted 0 text ∧
        (rule.argument = 0 ∨
          rule.argument ≤ 19 ∧ text.length ≠ 0 ∧ text.length ≤ rule.argument) ∧
        schemaValidateLength rule.schema (digitsOctets 0 text).length = .ok () ∧
          encodeDigits rule text destination = stored (digitsOctets 0 text) destination := by
  unfold encodeDigits
  cases hvalidate : schemaValidateLength rule.schema (text.length / 2 + text.length % 2) with
  | error status => exact .inl ⟨status, rfl⟩
  | ok checked =>
    dsimp only
    by_cases hcount : rule.argument ≠ 0 ∧ (text.length = 0 ∨ text.length > rule.argument)
    · rw [if_pos hcount]
      exact .inl ⟨_, rfl⟩
    rw [if_neg hcount]
    by_cases hadmitted : DigitsAdmitted 0 text
    · refine .inr ⟨hadmitted, by omega, ?_, digits_encode_of_admitted destination hadmitted⟩
      rw [hadmitted.octets_length, if_neg (not_not.mpr rfl)]
      exact hvalidate
    · exact .inl ⟨_, digits_encode_error destination hadmitted⟩

/-- The array of the account number is not exceeded. -/
theorem decode_digits_ne_fault {argument : Nat} (h : argument ≤ 19) (data buffer : Bytes) :
    decodeDigits argument data buffer ≠ .error .fault := by
  unfold decodeDigits
  split
  · exact digits_decode_ne_fault 0 data buffer
  cases hpan : digitsDecode 0 data (List.replicate 20 0) with
  | error stop =>
    cases stop with
    | fault => exact absurd hpan (digits_decode_ne_fault 0 data _)
    | code status => exact fun h => by cases h
  | ok pan =>
    obtain ⟨hlength, hzero⟩ := digits_decode_terminated hpan
    rw [List.length_replicate] at hlength
    have hstrlen : emvStrlen pan = .ok (emvStrnlen pan) := if_pos (strnlen_lt hzero)
    dsimp only
    rw [hstrlen]
    simp only [bind, Except.bind]
    split
    · exact fun h => by cases h
    split
    · exact fun h => by cases h
    next hcount hroom =>
      have hpart : ((pan.drop 0).take (emvStrnlen pan + 1)).length = emvStrnlen pan + 1 := by
        rw [List.length_take, List.length_drop]
        omega
      rw [Guarded.slice, if_pos (by omega)]
      dsimp only
      rw [Guarded.put_of_le (by omega)]
      exact fun h => by cases h

end Digits

/-- Digit strings lose nothing. -/
theorem digits_lossless {rule : EmvRule} (hargument : rule.argument ≤ 19) :
    Lossless (fun text buffer => cString buffer = text)
      (fun text capacity => text.length < capacity) (encodeDigits rule)
      (fun data buffer =>
        match schemaValidateLength rule.schema data.length with
        | .error status => .error (.code status)
        | .ok () => decodeDigits rule.argument data buffer) := by
  refine ⟨fun text destination written result h => ?_, fun text destination h => ?_,
    fun data buffer h => ?_⟩
  · obtain ⟨status, herror⟩ | ⟨hadmitted, hcount, hvalidate, hencode⟩ :=
      @encode_digits_cases text rule hargument (some destination)
    · rw [herror] at h
      cases h
    rw [hencode] at h
    obtain ⟨rfl, hroom, rfl⟩ := stored_eq_ok h
    refine ⟨_, rfl, hroom, rfl, fun buffer hbuffer => ⟨_, ?_, c_string_stored hadmitted buffer⟩⟩
    rw [hvalidate]
    exact decode_digits_eq hadmitted hcount hbuffer
  · obtain ⟨status, herror⟩ | ⟨-, -, -, hencode⟩ :=
      @encode_digits_cases text rule hargument destination
    · rw [herror] at h
      cases h
    · rw [hencode] at h
      exact stored_ne_fault _ _ h
  · split at h
    · cases h
    · exact decode_digits_ne_fault hargument data buffer h

/-! ## The rules of the dictionary -/

/-- EMV values survive their codecs: under every rule, what is encoded is decoded as the same
representation inside of the staging arrays, and what is decoded as Track 2 is encoded as the same
octets. -/
theorem emv_value_lossless {rule : EmvRule} (h : rule ∈ emvValueRules) :
    Lossless rule.kind.Same rule.kind.Room (emvValueEncode rule) (emvValueDecode rule) ∧
      ∀ (data buffer destination : Bytes) (track2 : EmvTrack2),
        emvValueDecode codecTrack2EquivalentDataRule data buffer = .ok track2 →
          data.length ≤ destination.length →
            emvValueEncode codecTrack2EquivalentDataRule track2 (some destination) =
              .ok (data.length, some (Octets.store destination 0 data)) := by
  refine ⟨?_, fun data buffer destination track2 => track2_encodes_back⟩
  simp only [emvValueRules, List.mem_cons, List.not_mem_nil, or_false] at h
  rcases h with rfl | rfl | rfl | rfl | rfl | rfl | rfl | rfl | rfl | rfl | rfl | rfl | rfl | rfl |
    rfl
  · exact lossless_of_faithful stage_track2_faithful fun data capacity _ =>
      decode_track2_ne_fault data capacity
  · exact digits_lossless (le_refl _)
  · exact lossless_of_faithful stage_afl_faithful fun data capacity h =>
      decode_afl_ne_fault (admitted_of_validate h).2 capacity
  · exact lossless_of_faithful stage_date_faithful fun data capacity _ =>
      decode_date_ne_fault data capacity
  · exact lossless_of_faithful stage_date_faithful fun data capacity _ =>
      decode_date_ne_fault data capacity
  · exact lossless_of_faithful stage_date_faithful fun data capacity _ =>
      decode_date_ne_fault data capacity
  · exact lossless_of_faithful stage_account_faithful fun data capacity _ =>
      decode_enumeration_ne_fault 2 validAccount data capacity
  · exact digits_lossless (Nat.zero_le _)
  · exact lossless_of_faithful stage_time_faithful fun data capacity _ =>
      decode_time_ne_fault data capacity
  · exact lossless_of_faithful stage_cryptogram_faithful fun data capacity h =>
      decode_cryptogram_ne_fault (Nat.le_antisymm (admitted_of_validate h).2
        (admitted_of_validate h).1) capacity
  · exact lossless_of_faithful stage_cvm_result_faithful fun data capacity h =>
      decode_cvm_result_ne_fault (Nat.le_antisymm (admitted_of_validate h).2
        (admitted_of_validate h).1) capacity
  · exact lossless_of_faithful (stage_number_list_faithful (.inr rfl)) fun data capacity _ =>
      decode_number_list_ne_fault (.inr rfl) data capacity
  · exact lossless_of_faithful (stage_number_list_faithful (.inl rfl)) fun data capacity _ =>
      decode_number_list_ne_fault (.inl rfl) data capacity
  · exact lossless_of_faithful stage_biometric_faithful fun data capacity _ =>
      decode_enumeration_ne_fault 0 validBiometric data capacity
  · exact lossless_of_faithful stage_biometric_faithful fun data capacity _ =>
      decode_enumeration_ne_fault 0 validBiometric data capacity

/-- The content of `1234D2512201`: a number of four digits, valid up to December 2025. -/
def shortTrack2 : EmvTrack2 :=
  { pan := ⟨#[0x31, 0x32, 0x33, 0x34] ++ Array.replicate 16 0, rfl⟩
    expirationYear := 25
    expirationMonth := 12
    serviceCode := 201
    discretionaryData := Vector.replicate 31 0 }

/-- Three digits are encoded in two octets and decoded as the same digits, and Track 2
that is decoded is encoded as the same octets. -/
theorem emv_value_lossless_samples :
    (emvValueEncode codecPanRule ([49, 50, 51] : Bytes) (some [0, 0]) =
        .ok (2, some [0x12, 0x3F]) ∧
      ∃ data decoded, some [0x12, 0x3F] = some (Octets.store [0, 0] 0 data) ∧
        emvValueDecode codecPanRule data [9, 9, 9, 9] = .ok decoded ∧
          codecPanRule.kind.Same ([49, 50, 51] : Bytes) decoded) ∧
    (emvValueDecode codecTrack2EquivalentDataRule [0x12, 0x34, 0xD2, 0x51, 0x22, 0x01]
        (List.replicate 64 0) = .ok shortTrack2 ∧
      emvValueEncode codecTrack2EquivalentDataRule shortTrack2 (some (List.replicate 6 0)) =
        .ok (6, some [0x12, 0x34, 0xD2, 0x51, 0x22, 0x01])) := by
  have hpan : codecPanRule ∈ emvValueRules := by simp [emvValueRules]
  have hencode : emvValueEncode codecPanRule ([49, 50, 51] : Bytes) (some [0, 0]) =
      .ok (2, some [0x12, 0x3F]) := by rfl
  have hdecode : emvValueDecode codecTrack2EquivalentDataRule
      [0x12, 0x34, 0xD2, 0x51, 0x22, 0x01] (List.replicate 64 0) = .ok shortTrack2 := by rfl
  obtain ⟨hlossless, htrack2⟩ := emv_value_lossless hpan
  obtain ⟨data, -, -, hdata, hback⟩ := hlossless.readsBack _ _ _ _ hencode
  obtain ⟨decoded, hdecoded, hsame⟩ := hback [9, 9, 9, 9] (show 3 < 4 by decide)
  exact ⟨⟨hencode, data, decoded, hdata, hdecoded, hsame⟩, hdecode,
    htrack2 _ _ (List.replicate 6 0) _ hdecode (by decide)⟩

end OpenTlv
