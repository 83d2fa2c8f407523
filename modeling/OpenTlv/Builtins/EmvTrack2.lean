import OpenTlv.Builtins.EmvStaging

/-!
# Track 2

The nibbles of Track 2 as a grammar: account number, separator, expiration, service code and
discretionary digits, padded to whole octets. The encoder stages the nibbles of a content, and the
decoder accepts exactly the nibbles of contents.
-/

namespace OpenTlv

/-- What Track 2 holds, with digits as numbers. -/
structure Track2Content where
  pan : List Nat
  year : Nat
  month : Nat
  code : Nat
  discretionary : List Nat

namespace Track2Content

/-- The separator and the fixed digits. -/
def fixed (content : Track2Content) : List Nat :=
  [13, content.year / 10, content.year % 10, content.month / 10, content.month % 10,
    content.code / 100, content.code / 10 % 10, content.code % 10]

/-- The nibbles without padding. -/
def digits (content : Track2Content) : List Nat :=
  content.pan ++ (content.fixed ++ content.discretionary)

/-- The padding to whole octets. -/
def padding (content : Track2Content) : List Nat :=
  if content.digits.length % 2 ≠ 0 then [15] else []

/-- The nibbles of a content. -/
def nibbles (content : Track2Content) : List Nat :=
  content.digits ++ content.padding

/-- The contents that are written in digits. -/
structure Written (content : Track2Content) : Prop where
  panDigits : ∀ digit ∈ content.pan, digit ≤ 9
  panNonempty : 1 ≤ content.pan.length
  panLength : content.pan.length ≤ 19
  year : content.year ≤ 99
  month : content.month ≤ 99
  code : content.code ≤ 999
  discretionaryDigits : ∀ digit ∈ content.discretionary, digit ≤ 9
  discretionaryLength : content.discretionary.length ≤ 30

/-- The contents that are admitted. -/
structure Valid (content : Track2Content) : Prop extends Written content where
  calendar : 1 ≤ content.month ∧ content.month ≤ 12

variable {content : Track2Content}

theorem digits_length (content : Track2Content) : content.digits.length =
    content.pan.length + 8 + content.discretionary.length := by
  simp [digits, fixed]
  omega

theorem nibbles_length (content : Track2Content) : content.nibbles.length =
    content.digits.length + content.digits.length % 2 := by
  unfold nibbles padding
  rw [List.length_append]
  split
  · rw [List.length_singleton]
    omega
  · rw [List.length_nil]
    omega

theorem nibbles_even (content : Track2Content) : content.nibbles.length % 2 = 0 := by
  rw [nibbles_length]
  omega

/-- The separator is the only digit that is no decimal one. -/
theorem Written.fixed_le (h : content.Written) : ∀ digit ∈ content.fixed.tail, digit ≤ 9 := by
  have hyear := h.year
  have hmonth := h.month
  have hcode := h.code
  intro digit hdigit
  simp only [fixed, List.tail_cons, List.mem_cons, List.not_mem_nil, or_false] at hdigit
  omega

/-- Every written nibble is a hexadecimal digit. -/
theorem Written.nibbles_lt (h : content.Written) : ∀ nibble ∈ content.nibbles, nibble < 16 := by
  intro nibble hnibble
  simp only [nibbles, digits, List.mem_append] at hnibble
  obtain (hpan | hfixed | hdiscretionary) | hpadding := hnibble
  · have := h.panDigits nibble hpan
    omega
  · obtain rfl | htail := List.mem_cons.mp hfixed
    · norm_num
    · have := h.fixed_le nibble htail
      omega
  · have := h.discretionaryDigits nibble hdiscretionary
    omega
  · unfold padding at hpadding
    split at hpadding
    · rw [List.mem_singleton.mp hpadding]
      norm_num
    · cases hpadding

end Track2Content

/-- The string in an array of characters. -/
def cString (array : Bytes) : Bytes :=
  array.take (emvStrnlen array)

/-- A representation of a content. -/
structure EmvTrack2.Holds (track2 : EmvTrack2) (content : Track2Content) : Prop where
  pan : cString track2.pan.toList = content.pan.map digitCharacter
  year : track2.expirationYear.toNat = content.year
  month : track2.expirationMonth.toNat = content.month
  code : track2.serviceCode.toNat = content.code
  discretionary : cString track2.discretionaryData.toList =
    content.discretionary.map digitCharacter

/-! ## Strings -/

theorem strnlen_le (array : Bytes) : emvStrnlen array ≤ array.length := by
  induction array with
  | nil => exact le_refl _
  | cons character rest ih =>
    rw [emvStrnlen]
    split
    · exact Nat.zero_le _
    · exact Nat.succ_le_succ ih

/-- An array with a zero holds a string. -/
theorem strnlen_lt {array : Bytes} (h : 0 ∈ array) : emvStrnlen array < array.length := by
  induction array with
  | nil => cases h
  | cons character rest ih =>
    rw [emvStrnlen]
    split
    · exact Nat.succ_pos _
    next hcharacter =>
      obtain hzero | hrest := List.mem_cons.mp h
      · exact absurd hzero.symm hcharacter
      · exact Nat.succ_lt_succ (ih hrest)

theorem c_string_length (array : Bytes) : (cString array).length = emvStrnlen array := by
  unfold cString
  rw [List.length_take, Nat.min_eq_left (strnlen_le array)]

/-- A string ends at the first zero. -/
theorem strnlen_append {text : Bytes} (htext : ∀ character ∈ text, character ≠ 0) (rest : Bytes) :
    emvStrnlen (text ++ 0 :: rest) = text.length := by
  induction text with
  | nil => rfl
  | cons character text ih =>
    rw [List.cons_append, emvStrnlen, if_neg (htext character (List.mem_cons_self ..)),
      ih fun other hother => htext other (List.mem_cons_of_mem _ hother), List.length_cons]

/-- A string ends at its first zero octet. -/
theorem c_string_append {text : Bytes} (htext : ∀ character ∈ text, character ≠ 0) (rest : Bytes) :
    cString (text ++ 0 :: rest) = text := by
  unfold cString
  rw [strnlen_append htext, List.take_left]

/-- The characters of digits are no zeros. -/
theorem digit_character_toNat {digit : Nat} (h : digit ≤ 9) :
    (digitCharacter digit).toNat = 48 + digit := by
  unfold digitCharacter zeroDigit
  rw [UInt8.toNat_ofNat']
  omega

theorem digit_characters_ne_zero {digits : List Nat} (h : ∀ digit ∈ digits, digit ≤ 9) :
    ∀ character ∈ digits.map digitCharacter, character ≠ 0 := by
  intro character hcharacter hzero
  obtain ⟨digit, hdigit, rfl⟩ := List.mem_map.mp hcharacter
  have htoNat := digit_character_toNat (h digit hdigit)
  rw [hzero] at htoNat
  have : (0 : UInt8).toNat = 0 := rfl
  omega

/-! ## Encoding -/

section Staging

/-- The staging array of the nibbles with a front in it. -/
abbrev staged (front : List Nat) : Bytes :=
  Octets.store (List.replicate 58 0) 0 (front.map UInt8.ofNat)

/-- Putting the next digit extends the staged ones. -/
theorem staged_put {front : List Nat} {value : UInt8} {digit : Nat}
    (hvalue : value = UInt8.ofNat digit)
    (hroom : front.length < 58) :
    (Guarded.put (staged front) front.length [value] : CodecResult Bytes) =
      .ok (staged (front ++ [digit])) := by
  have hput := @Guarded.put_store Status (List.replicate 58 0) (front.map UInt8.ofNat) [value]
    front.length (List.length_map _) (by rw [List.length_replicate]; exact hroom)
  rw [hput, hvalue]
  simp [staged]

/-- Digits are put one behind the other, and a text that is no digits is rejected. -/
theorem push_digits_cases (text : Bytes) :
    ∀ {front : List Nat}, front.length + text.length ≤ 58 →
      (∃ digits : List Nat, (∀ digit ∈ digits, digit ≤ 9) ∧ text = digits.map digitCharacter ∧
        pushDigits text front.length (staged front) =
          .ok ((front ++ digits).length, staged (front ++ digits))) ∨
      ((¬ ∃ digits : List Nat, (∀ digit ∈ digits, digit ≤ 9) ∧
        text = digits.map digitCharacter) ∧
        pushDigits text front.length (staged front) = .error (.code .invalidValue)) := by
  induction text with
  | nil =>
    intro front _
    refine .inl ⟨[], by simp, rfl, ?_⟩
    rw [List.append_nil]
    rfl
  | cons character text ih =>
    intro front hroom
    rw [List.length_cons] at hroom
    rw [pushDigits]
    by_cases hdigit : character < 48 ∨ character > 57
    · refine .inr ⟨fun h => ?_, if_pos hdigit⟩
      obtain ⟨digits, hdigits, htext⟩ := h
      cases digits with
      | nil => cases htext
      | cons digit digits =>
        rw [List.map_cons, List.cons.injEq] at htext
        have hle := hdigits digit (List.mem_cons_self ..)
        have htoNat := digit_character_toNat hle
        rw [← htext.1] at htoNat
        rw [UInt8.lt_iff_toNat_lt, gt_iff_lt, UInt8.lt_iff_toNat_lt] at hdigit
        have h48 : (48 : UInt8).toNat = 48 := rfl
        have h57 : (57 : UInt8).toNat = 57 := rfl
        omega
    · rw [if_neg hdigit]
      rw [not_or, UInt8.not_lt, UInt8.not_lt, UInt8.le_iff_toNat_le, UInt8.le_iff_toNat_le]
        at hdigit
      have h48 : (48 : UInt8).toNat = 48 := rfl
      have h57 : (57 : UInt8).toNat = 57 := rfl
      have hvalue : character - 48 = UInt8.ofNat (character.toNat - 48) := by
        apply UInt8.toNat_inj.mp
        rw [UInt8.toNat_sub_of_le _ _ (UInt8.le_iff_toNat_le.mpr hdigit.1), UInt8.toNat_ofNat']
        omega
      have hcharacter : digitCharacter (character.toNat - 48) = character := by
        apply UInt8.toNat_inj.mp
        rw [digit_character_toNat (by omega)]
        omega
      have hnext := @ih (front ++ [character.toNat - 48]) (by simp; omega)
      rw [staged_put hvalue (by omega)]
      show (∃ digits, _ ∧ _ ∧ pushDigits text (front.length + 1)
        (staged (front ++ [character.toNat - 48])) = _) ∨ _ ∧ pushDigits text (front.length + 1)
        (staged (front ++ [character.toNat - 48])) = _
      rw [List.length_append, List.length_singleton] at hnext
      obtain ⟨digits, hdigits, rfl, hpush⟩ | ⟨hnone, hpush⟩ := hnext
      · refine .inl ⟨(character.toNat - 48) :: digits, ?_, ?_, ?_⟩
        · intro digit hmem
          obtain rfl | hmem := List.mem_cons.mp hmem
          · omega
          · exact hdigits digit hmem
        · rw [List.map_cons, hcharacter]
        · rw [hpush, List.append_assoc]
          rfl
      · refine .inr ⟨fun h => hnone ?_, hpush⟩
        obtain ⟨digits, hdigits, htext⟩ := h
        cases digits with
        | nil => cases htext
        | cons digit digits =>
          rw [List.map_cons, List.cons.injEq] at htext
          exact ⟨digits, fun other hother => hdigits other (List.mem_cons_of_mem _ hother),
            htext.2⟩

/-- Nibbles are put one behind the other. -/
theorem push_nibbles_eq (digits : List Nat) : ∀ {front : List Nat},
    front.length + digits.length ≤ 58 →
      pushNibbles (digits.map UInt8.ofNat) front.length (staged front) =
        .ok ((front ++ digits).length, staged (front ++ digits)) := by
  induction digits with
  | nil =>
    intro front _
    rw [List.append_nil]
    rfl
  | cons digit digits ih =>
    intro front hroom
    rw [List.length_cons] at hroom
    have hnext := @ih (front ++ [digit]) (by simp; omega)
    rw [List.map_cons, pushNibbles, staged_put rfl (by omega)]
    rw [List.length_append, List.length_singleton, List.append_assoc] at hnext
    exact hnext

/-- Nibbles are packed. -/
theorem pack_nibbles_eq {digits : List Nat} (hlt : ∀ digit ∈ digits, digit < 16)
    (heven : digits.length % 2 = 0) (hroom : digits.length ≤ 58) (remaining i : Nat)
    (hi : 2 * (i + remaining) = digits.length) :
    packNibbles (staged digits) remaining i
        (Octets.store emvStaging 0 (Nibbles.pack (digits.take (2 * i)))) =
      .ok (Octets.store emvStaging 0 (Nibbles.pack digits)) := by
  have hread : ∀ index, (h : index < digits.length) →
      (Guarded.octet (staged digits) index : CodecResult UInt8) =
        .ok (UInt8.ofNat digits[index]) := by
    intro index h
    have hsplit : digits = digits.take index ++ digits[index] :: digits.drop (index + 1) := by
      rw [← List.drop_eq_getElem_cons h, List.take_append_drop]
    rw [staged, Guarded.store_front]
    nth_rewrite 1 [hsplit]
    rw [List.map_append, List.map_cons, List.append_assoc, List.cons_append]
    exact Guarded.octet_behind _ _ _ (by rw [List.length_map, List.length_take]; omega)
  induction remaining generalizing i with
  | zero => rw [packNibbles, List.take_of_length_le (by omega)]
  | succ remaining ih =>
    have hhigh : 2 * i < digits.length := by omega
    have hlow : 2 * i + 1 < digits.length := by omega
    have hoctet : UInt8.ofNat digits[2 * i] <<< 4 ||| UInt8.ofNat digits[2 * i + 1] =
        UInt8.ofNat (digits[2 * i] * 16 + digits[2 * i + 1]) := by
      have hfirst := hlt _ (List.getElem_mem hhigh)
      have hsecond := hlt _ (List.getElem_mem hlow)
      generalize digits[2 * i] = a at hfirst
      generalize digits[2 * i + 1] = b at hsecond
      revert a b
      decide
    have htake : digits.take (2 * (i + 1)) =
        digits.take (2 * i) ++ [digits[2 * i], digits[2 * i + 1]] := by
      rw [show 2 * (i + 1) = 2 * i + 1 + 1 by omega, List.take_succ_eq_append_getElem hlow,
        List.take_succ_eq_append_getElem hhigh, List.append_assoc]
      rfl
    have hpack := @Nibbles.pack_append (digits.take (2 * i)) [digits[2 * i], digits[2 * i + 1]]
      (by rw [List.length_take]; omega)
    have hput := @Guarded.put_store Status emvStaging (Nibbles.pack (digits.take (2 * i)))
      [UInt8.ofNat (digits[2 * i] * 16 + digits[2 * i + 1])] i
      (by rw [Nibbles.pack_length, List.length_take]; omega)
      (by rw [emv_staging_length, List.length_singleton]; omega)
    rw [packNibbles, Nat.mul_comm i 2, hread _ hhigh, hread _ hlow]
    simp only [bind, Except.bind]
    rw [hoctet, hput]
    rw [show Nibbles.pack (digits.take (2 * i)) ++
        [UInt8.ofNat (digits[2 * i] * 16 + digits[2 * i + 1])] =
      Nibbles.pack (digits.take (2 * (i + 1))) from by rw [htake, hpack]; rfl]
    exact ih (i + 1) (by omega)

end Staging

section Encoder

variable {track2 : EmvTrack2} {content : Track2Content}

/-- The fixed nibbles of a representation. -/
theorem fixed_nibbles_eq (hheld : track2.Holds content) (hvalid : content.Valid) :
    track2.fixedNibbles = content.fixed.map UInt8.ofNat := by
  have hyear := hheld.year
  have hmonth := hheld.month
  have hcode := hheld.code
  have hyear' := hvalid.year
  have hmonth' := hvalid.month
  have hcode' := hvalid.code
  unfold EmvTrack2.fixedNibbles Track2Content.fixed
  simp only [List.map_cons, List.map_nil, List.cons.injEq, and_true]
  refine ⟨rfl, ?_, ?_, ?_, ?_, ?_, ?_, ?_⟩ <;> apply UInt8.toNat_inj.mp
  · simp only [UInt8.toNat_div, hyear, UInt8.toNat_ofNat', UInt8.reduceToNat]
    omega
  · simp only [UInt8.toNat_mod, hyear, UInt8.toNat_ofNat', UInt8.reduceToNat]
    omega
  · simp only [UInt8.toNat_div, hmonth, UInt8.toNat_ofNat', UInt8.reduceToNat]
    omega
  · simp only [UInt8.toNat_mod, hmonth, UInt8.toNat_ofNat', UInt8.reduceToNat]
    omega
  · simp only [UInt16.toNat_toUInt8, UInt16.toNat_div, hcode, UInt8.toNat_ofNat',
      UInt16.reduceToNat]
  · simp only [UInt16.toNat_toUInt8, UInt16.toNat_mod, UInt16.toNat_div, hcode,
      UInt8.toNat_ofNat', UInt16.reduceToNat]
  · simp only [UInt16.toNat_toUInt8, UInt16.toNat_mod, hcode, UInt8.toNat_ofNat',
      UInt16.reduceToNat]

/-- The bounds that the encoder checks. -/
theorem track2_bounds (hheld : track2.Holds content) :
    (emvStrnlen track2.pan.toList = 0 ∨ emvStrnlen track2.pan.toList > 19 ∨
        emvStrnlen track2.discretionaryData.toList > 30 ∨ track2.expirationMonth < 1 ∨
        track2.expirationMonth > 12 ∨ track2.expirationYear > 99 ∨ track2.serviceCode > 999) ↔
      (content.pan.length = 0 ∨ content.pan.length > 19 ∨ content.discretionary.length > 30 ∨
        content.month < 1 ∨ content.month > 12 ∨ content.year > 99 ∨ content.code > 999) := by
  have hpan := congrArg List.length hheld.pan
  have hdiscretionary := congrArg List.length hheld.discretionary
  rw [c_string_length, List.length_map] at hpan hdiscretionary
  simp only [hpan, hdiscretionary, gt_iff_lt, UInt8.lt_iff_toNat_lt, UInt16.lt_iff_toNat_lt,
    hheld.month, hheld.year, hheld.code, UInt8.reduceToNat, UInt16.reduceToNat]

/-- The encoder stages the nibbles of a content. -/
theorem stage_track2_eq (hheld : track2.Holds content) (hvalid : content.Valid) :
    Stages (stageTrack2 track2) (Nibbles.pack content.nibbles) := by
  have hbounds : ¬ (content.pan.length = 0 ∨ content.pan.length > 19 ∨
      content.discretionary.length > 30 ∨ content.month < 1 ∨ content.month > 12 ∨
      content.year > 99 ∨ content.code > 999) := by
    have h1 := hvalid.panNonempty
    have h2 := hvalid.panLength
    have h3 := hvalid.discretionaryLength
    have h4 := hvalid.calendar
    have h5 := hvalid.year
    have h6 := hvalid.code
    omega
  have hlength := content.digits_length
  have hnibbles := content.nibbles_length
  have hpanLength := hvalid.panLength
  have hdiscretionaryLength := hvalid.discretionaryLength
  have hpush : ∀ {digits front : List Nat}, (∀ digit ∈ digits, digit ≤ 9) →
      front.length + digits.length ≤ 58 →
        pushDigits (digits.map digitCharacter) front.length (staged front) =
          .ok ((front ++ digits).length, staged (front ++ digits)) := by
    intro digits front hdigits hroom
    obtain ⟨digits', hdigits', hsame, hpush⟩ | ⟨hnone, _⟩ :=
      @push_digits_cases (digits.map digitCharacter) front (by rwa [List.length_map])
    · have hequal : digits = digits' := by
        have hinj := congrArg (List.map fun character : UInt8 => character.toNat - 48) hsame
        have hback : ∀ list : List Nat, (∀ digit ∈ list, digit ≤ 9) →
            (list.map digitCharacter).map (fun character : UInt8 => character.toNat - 48) =
              list := by
          intro list hlist
          rw [List.map_map]
          conv_rhs => rw [← List.map_id list]
          refine List.map_congr_left fun digit hdigit => ?_
          show (digitCharacter digit).toNat - 48 = digit
          rw [digit_character_toNat (hlist digit hdigit)]
          omega
        rwa [hback _ hdigits, hback _ hdigits'] at hinj
      rw [hpush, hequal]
    · exact absurd ⟨digits, hdigits, rfl⟩ hnone
  -- account number, fixed digits, discretionary data, padding
  have hpan := @hpush content.pan [] hvalid.panDigits (by simp; omega)
  have hfixed := @push_nibbles_eq content.fixed content.pan
    (by simp [Track2Content.fixed]; omega)
  have hdiscretionary := @hpush content.discretionary (content.pan ++ content.fixed)
    hvalid.discretionaryDigits (by simp [Track2Content.fixed]; omega)
  rw [List.append_assoc] at hdiscretionary
  have hpadding := @push_nibbles_eq content.padding content.digits (by
    have hpadded : content.padding.length ≤ 1 := by
      unfold Track2Content.padding
      split <;> simp
    omega)
  have hpadNibbles : (if content.digits.length % 2 ≠ 0 then [15] else [] : Bytes) =
      content.padding.map UInt8.ofNat := by
    unfold Track2Content.padding
    split <;> rfl
  have hpack := @pack_nibbles_eq content.nibbles hvalid.nibbles_lt content.nibbles_even (by omega)
    (content.nibbles.length / 2) 0 (by have := content.nibbles_even; omega)
  rw [Nat.mul_zero, List.take_zero] at hpack
  change packNibbles _ _ 0 (Octets.store emvStaging 0 []) = _ at hpack
  rw [Guarded.store_nil] at hpack
  rw [List.nil_append] at hpan
  refine ⟨?_, by rw [Nibbles.pack_length]; omega⟩
  have hempty : (List.replicate 58 0 : Bytes) = staged [] := (Guarded.store_nil _).symm
  have htext : track2.pan.toList.take (emvStrnlen track2.pan.toList) =
    content.pan.map digitCharacter := hheld.pan
  have htext' : track2.discretionaryData.toList.take
    (emvStrnlen track2.discretionaryData.toList) = content.discretionary.map digitCharacter :=
      hheld.discretionary
  unfold stageTrack2
  dsimp only
  rw [if_neg (fun h => hbounds ((track2_bounds hheld).mp h)), htext, htext', hempty,
    fixed_nibbles_eq hheld hvalid]
  simp only [bind, Except.bind, pure, Except.pure]
  rw [show pushDigits (content.pan.map digitCharacter) 0 (staged []) = _ from hpan]
  dsimp only
  rw [hfixed]
  dsimp only
  rw [hdiscretionary]
  dsimp only
  rw [show content.pan ++ (content.fixed ++ content.discretionary) = content.digits from rfl,
    hpadNibbles, hpadding]
  dsimp only
  rw [show content.digits ++ content.padding = content.nibbles from rfl, hpack,
    Nibbles.pack_length]

/-- The encoder rejects what is no content. -/
theorem stage_track2_error (h : ¬ ∃ content : Track2Content, content.Valid ∧
    track2.Holds content) : stageTrack2 track2 = .error (.code .invalidValue) := by
  unfold stageTrack2
  dsimp only
  by_cases hbounds : emvStrnlen track2.pan.toList = 0 ∨ emvStrnlen track2.pan.toList > 19 ∨
      emvStrnlen track2.discretionaryData.toList > 30 ∨ track2.expirationMonth < 1 ∨
      track2.expirationMonth > 12 ∨ track2.expirationYear > 99 ∨ track2.serviceCode > 999
  · exact if_pos hbounds
  rw [if_neg hbounds]
  have hpanLength := c_string_length track2.pan.toList
  have hdiscretionaryLength := c_string_length track2.discretionaryData.toList
  have hempty : (List.replicate 58 0 : Bytes) = staged [] := (Guarded.store_nil _).symm
  rw [hempty]
  simp only [bind, Except.bind, pure, Except.pure]
  obtain ⟨pan, hpanDigits, hpan, hpush⟩ | ⟨_, hpush⟩ :=
    @push_digits_cases (cString track2.pan.toList) [] (by simp; omega)
  · rw [show pushDigits (track2.pan.toList.take (emvStrnlen track2.pan.toList)) 0 (staged []) = _
      from hpush]
    dsimp only
    have hlength : pan.length ≤ 19 := by
      have := congrArg List.length hpan
      rw [List.length_map] at this
      omega
    have hfixed : ∃ fixed : List Nat, fixed.length = 8 ∧
        track2.fixedNibbles = fixed.map UInt8.ofNat :=
      ⟨track2.fixedNibbles.map UInt8.toNat, rfl, by
        rw [List.map_map]
        conv_lhs => rw [← List.map_id track2.fixedNibbles]
        exact List.map_congr_left fun value _ => UInt8.ofNat_toNat.symm⟩
    obtain ⟨fixed, hfixedLength, hfixed⟩ := hfixed
    rw [hfixed, List.nil_append, push_nibbles_eq fixed (by omega)]
    dsimp only
    obtain ⟨discretionary, hdigits, hdiscretionary, hpush'⟩ | ⟨_, hpush'⟩ :=
      @push_digits_cases (cString track2.discretionaryData.toList) (pan ++ fixed)
        (by rw [List.length_append]; omega)
    · -- All parts are digits in their bounds, so there is a content.
      have hlength' := congrArg List.length hdiscretionary
      have hlength := congrArg List.length hpan
      rw [List.length_map] at hlength hlength'
      have hheld : track2.Holds ⟨pan, track2.expirationYear.toNat,
        track2.expirationMonth.toNat, track2.serviceCode.toNat, discretionary⟩ :=
          ⟨hpan, rfl, rfl, rfl, hdiscretionary⟩
      rw [track2_bounds hheld] at hbounds
      dsimp only at hbounds
      exact absurd ⟨_, ⟨⟨hpanDigits, by dsimp only; omega, by dsimp only; omega,
        by dsimp only; omega, by dsimp only; omega, by dsimp only; omega, hdigits,
        by dsimp only; omega⟩, by dsimp only; omega⟩, hheld⟩ h
    · rw [show pushDigits (track2.discretionaryData.toList.take
        (emvStrnlen track2.discretionaryData.toList)) _ _ = _ from hpush']
  · rw [show pushDigits (track2.pan.toList.take (emvStrnlen track2.pan.toList)) 0 (staged []) = _
      from hpush]

end Encoder

/-! ## Decoding -/

section Decoder

variable {data : Bytes}

/-- The search skips digits and finds the separator behind them. -/
theorem find_separator_eq {digits rest : List Nat} (hdigits : ∀ digit ∈ digits, digit ≤ 9) :
    ∀ {front : List Nat} {remaining : Nat},
      Nibbles.unpack data = front ++ (digits ++ 13 :: rest) →
      findSeparator data (digits.length + (remaining + 1)) front.length =
        .ok (some (front.length + digits.length)) := by
  induction digits with
  | nil =>
    intro front remaining hdata
    have hread : track2Nibble data front.length = .ok 13 := nibble_eq (by simp [hdata])
    rw [List.length_nil, Nat.zero_add, findSeparator, hread]
    rfl
  | cons digit digits ih =>
    intro front remaining hdata
    have hdigit := hdigits digit (List.mem_cons_self ..)
    have hread : track2Nibble data front.length = .ok digit := nibble_eq (by simp [hdata])
    have hnext := @ih (fun other hother => hdigits other (List.mem_cons_of_mem _ hother))
      (front ++ [digit]) remaining (by simp [hdata])
    rw [List.length_append, List.length_singleton] at hnext
    rw [List.length_cons, show digits.length + 1 + (remaining + 1) =
      digits.length + (remaining + 1) + 1 by omega, findSeparator, hread]
    simp only [bind, Except.bind]
    rw [if_neg (by omega), if_neg (by omega), hnext]
    congr 2
    omega

/-- What the search found is behind digits only. -/
theorem find_separator_some {remaining i sep : Nat}
    (h : findSeparator data remaining i = .ok (some sep)) (hroom : i + remaining ≤
      (Nibbles.unpack data).length) :
    i ≤ sep ∧ sep < i + remaining ∧ (Nibbles.unpack data)[sep]? = some 13 ∧
      ∀ digit ∈ ((Nibbles.unpack data).drop i).take (sep - i), digit ≤ 9 := by
  induction remaining generalizing i with
  | zero => cases h
  | succ remaining ih =>
    have hindex : i < (Nibbles.unpack data).length := by omega
    have hread : track2Nibble data i = .ok (Nibbles.unpack data)[i] :=
      nibble_eq (List.getElem?_eq_getElem hindex)
    rw [findSeparator, hread] at h
    simp only [bind, Except.bind] at h
    by_cases hfound : (Nibbles.unpack data)[i] = 13
    · rw [if_pos hfound] at h
      cases h
      refine ⟨le_refl _, by omega, ?_, by simp⟩
      rw [List.getElem?_eq_getElem hindex, hfound]
    · rw [if_neg hfound] at h
      by_cases hlarge : (Nibbles.unpack data)[i] > 9
      · rw [if_pos hlarge] at h
        cases h
      · rw [if_neg hlarge] at h
        obtain ⟨hlow, hhigh, hsep, hdigits⟩ := ih h (by omega)
        refine ⟨by omega, by omega, hsep, ?_⟩
        rw [List.drop_eq_getElem_cons hindex, show sep - i = sep - (i + 1) + 1 by omega,
          List.take_succ_cons]
        intro digit hdigit
        obtain rfl | hdigit := List.mem_cons.mp hdigit
        · omega
        · exact hdigits digit hdigit

/-- The check of nibbles. -/
theorem check_digits_iff {remaining i : Nat} (hroom : i + remaining ≤
    (Nibbles.unpack data).length) : checkDigits data remaining i = .ok () ↔
      ∀ digit ∈ ((Nibbles.unpack data).drop i).take remaining, digit ≤ 9 := by
  induction remaining generalizing i with
  | zero => simp [checkDigits]
  | succ remaining ih =>
    have hindex : i < (Nibbles.unpack data).length := by omega
    have hread : track2Nibble data i = .ok (Nibbles.unpack data)[i] :=
      nibble_eq (List.getElem?_eq_getElem hindex)
    rw [checkDigits, hread, List.drop_eq_getElem_cons hindex, List.take_succ_cons,
      List.forall_mem_cons, ← ih (by omega)]
    simp only [bind, Except.bind]
    by_cases hlarge : (Nibbles.unpack data)[i] > 9
    · rw [if_pos hlarge]
      exact ⟨fun h => (by cases h), fun h => absurd h.1 (by omega)⟩
    · rw [if_neg hlarge]
      exact ⟨fun h => ⟨by omega, h⟩, fun h => h.2⟩

/-- Digits are copied into an array of characters. -/
theorem read_digits_eq {n base : Nat} {digits rest : List Nat} :
    ∀ {front : List Nat} {i : Nat} {text : Vector UInt8 n},
      Nibbles.unpack data = front ++ (digits ++ rest) → front.length = base + i →
      i + digits.length ≤ n →
      ∃ text', readDigits data base digits.length i text = .ok text' ∧
        text'.toList.take (i + digits.length) =
          text.toList.take i ++ digits.map digitCharacter ∧
        text'.toList.drop (i + digits.length) = text.toList.drop (i + digits.length) := by
  induction digits with
  | nil =>
    intro front i text _ _ _
    exact ⟨text, rfl, by simp, rfl⟩
  | cons digit digits ih =>
    intro front i text hdata hfront hroom
    rw [List.length_cons] at hroom
    have hread : track2Nibble data (base + i) = .ok digit := by
      rw [← hfront]
      exact nibble_eq (by simp [hdata])
    obtain ⟨text₁, hassign, htake, hdrop⟩ := @Guarded.assign_next Status _ _ i text
      (digitCharacter digit) (by omega)
    obtain ⟨text₂, hnext, htake₂, hdrop₂⟩ := @ih (front ++ [digit]) (i + 1) text₁
      (by simp [hdata]) (by simp; omega) (by omega)
    have hindex : i + (digits.length + 1) = i + 1 + digits.length := by omega
    refine ⟨text₂, ?_, ?_, ?_⟩
    · rw [List.length_cons, readDigits, hread]
      simp only [bind, Except.bind]
      rw [show UInt8.ofNat (zeroDigit + digit) = digitCharacter digit from rfl, hassign]
      exact hnext
    · rw [List.length_cons, hindex, htake₂, htake, List.append_assoc]
      rfl
    · rw [List.length_cons, hindex, hdrop₂, ← List.drop_drop, hdrop, List.drop_drop]

/-- Copied digits are the string of the array. -/
theorem read_digits_string {n base : Nat} {digits front rest : List Nat}
    (hdata : Nibbles.unpack data = front ++ (digits ++ rest)) (hfront : front.length = base)
    (hdigits : ∀ digit ∈ digits, digit ≤ 9) (hroom : digits.length < n) :
    ∃ text, readDigits data base digits.length 0 (Vector.replicate n 0) = .ok text ∧
      cString text.toList = digits.map digitCharacter := by
  obtain ⟨text, hread, htake, hdrop⟩ := @read_digits_eq data n base digits rest front 0
    (Vector.replicate n 0) hdata (by omega) (by omega)
  rw [Nat.zero_add, List.take_zero, List.nil_append] at htake
  rw [Nat.zero_add] at hdrop
  refine ⟨text, hread, ?_⟩
  have hrest : text.toList.drop digits.length = 0 :: List.replicate (n - digits.length - 1) 0 := by
    rw [hdrop, Vector.toList_replicate, List.drop_replicate, ← List.replicate_succ]
    congr 1
    omega
  rw [← List.take_append_drop digits.length text.toList, htake, hrest,
    c_string_append (digit_characters_ne_zero hdigits)]

/-- The fields of nibbles that spell out a content. -/
theorem read_track2_eq {content : Track2Content} (hwritten : content.Written)
    {rest : List Nat} (hdata : Nibbles.unpack data = content.digits ++ rest) (capacity : Nat) :
    ∃ track2 : EmvTrack2, track2.Holds content ∧
      readTrack2 data content.pan.length content.discretionary.length capacity =
        if content.month < 1 ∨ content.month > 12 then .error (.code .invalidValue)
        else emvStore 56 capacity track2 := by
  have hyear := hwritten.year
  have hmonth := hwritten.month
  have hcode := hwritten.code
  have hsplit : Nibbles.unpack data = content.pan ++ (content.fixed ++
      (content.discretionary ++ rest)) := by
    rw [hdata, Track2Content.digits, List.append_assoc, List.append_assoc]
  obtain ⟨pan, hpan, hpanText⟩ := @read_digits_string data 20 0 content.pan [] _ hsplit rfl
    hwritten.panDigits (by have := hwritten.panLength; omega)
  obtain ⟨text, htext, hdiscretionaryText⟩ := @read_digits_string data 31
    (content.pan.length + 8) content.discretionary (content.pan ++ content.fixed) rest
    (by rw [hsplit, List.append_assoc]) (by rw [List.length_append]; rfl)
    hwritten.discretionaryDigits (by have := hwritten.discretionaryLength; omega)
  have hread : ∀ k digit, content.fixed[k]? = some digit →
      track2Nibble data (content.pan.length + k) = .ok digit := by
    intro k digit hdigit
    refine nibble_eq ?_
    rw [hsplit, List.getElem?_append_right (by omega), Nat.add_sub_cancel_left,
      List.getElem?_append_left, hdigit]
    exact (List.getElem?_eq_some_iff.mp hdigit).1
  have htwo : ∀ number : Nat, number / 10 * 10 + number % 10 = number := by
    intro number
    omega
  have hthree : content.code / 100 * 100 + content.code / 10 % 10 * 10 + content.code % 10 =
      content.code := by omega
  have hchecked : (UInt8.ofNat content.month < 1 ∨ UInt8.ofNat content.month > 12) ↔
      (content.month < 1 ∨ content.month > 12) := by
    simp only [gt_iff_lt, UInt8.lt_iff_toNat_lt, UInt8.toNat_ofNat', UInt8.reduceToNat]
    omega
  refine ⟨⟨pan, UInt8.ofNat content.year, UInt8.ofNat content.month, UInt16.ofNat content.code,
    text⟩, ⟨hpanText, ?_, ?_, ?_, hdiscretionaryText⟩, ?_⟩
  · show (UInt8.ofNat content.year).toNat = content.year
    rw [UInt8.toNat_ofNat']
    omega
  · show (UInt8.ofNat content.month).toNat = content.month
    rw [UInt8.toNat_ofNat']
    omega
  · show (UInt16.ofNat content.code).toNat = content.code
    rw [UInt16.toNat_ofNat']
    omega
  · unfold readTrack2
    rw [hpan]
    simp only [bind, Except.bind]
    rw [hread 1 _ rfl, hread 2 _ rfl, hread 3 _ rfl, hread 4 _ rfl]
    dsimp only
    rw [htwo content.month]
    by_cases hmonth : content.month < 1 ∨ content.month > 12
    · rw [if_pos (hchecked.mpr hmonth), if_pos hmonth]
    · rw [if_neg fun h => hmonth (hchecked.mp h), if_neg hmonth, hread 5 _ rfl, hread 6 _ rfl,
        hread 7 _ rfl, htext]
      dsimp only
      rw [htwo content.year, hthree]

/-- The last nibble says how many digits there are. -/
theorem last_nibble {content : Track2Content} (hwritten : content.Written)
    (hdata : Nibbles.unpack data = content.nibbles) :
    ∃ last, track2Nibble data (data.length * 2 - 1) = .ok last ∧
      data.length * 2 - (if last = 15 then 1 else 0) = content.digits.length := by
  have hlength := congrArg List.length hdata
  have hdigits := content.digits_length
  rw [Nibbles.unpack_length, Track2Content.nibbles_length] at hlength
  by_cases hodd : content.digits.length % 2 ≠ 0
  · refine ⟨15, nibble_eq ?_, by rw [if_pos rfl]; omega⟩
    have hpadding : content.padding = [15] := if_pos hodd
    rw [hdata, Track2Content.nibbles, hpadding, List.getElem?_append_right (by omega),
      show data.length * 2 - 1 - content.digits.length = 0 by omega]
    rfl
  · have hpadding : content.padding = [] := if_neg hodd
    have hnibbles : Nibbles.unpack data = content.pan ++ 13 ::
        (content.fixed.tail ++ content.discretionary) := by
      rw [hdata, Track2Content.nibbles, hpadding, List.append_nil]
      rfl
    have hindex : data.length * 2 - 1 - content.pan.length - 1 <
        (content.fixed.tail ++ content.discretionary).length := by
      have : content.fixed.tail.length = 7 := rfl
      rw [List.length_append, this]
      omega
    refine ⟨(content.fixed.tail ++ content.discretionary)[
      data.length * 2 - 1 - content.pan.length - 1], nibble_eq ?_, ?_⟩
    · rw [hnibbles, List.getElem?_append_right (by omega), List.getElem?_cons, if_neg (by omega),
        List.getElem?_eq_getElem hindex]
    · have hle : (content.fixed.tail ++ content.discretionary)[
          data.length * 2 - 1 - content.pan.length - 1] ≤ 9 := by
        obtain hmem | hmem := List.mem_append.mp (List.getElem_mem hindex)
        · exact hwritten.fixed_le _ hmem
        · exact hwritten.discretionaryDigits _ hmem
      rw [if_neg (by omega)]
      omega

/-- The decoder reads the nibbles of a content. -/
theorem decode_track2_eq {content : Track2Content} {capacity : Nat} (hvalid : content.Valid)
    (hdata : Nibbles.unpack data = content.nibbles) (hcapacity : 56 ≤ capacity) :
    ∃ track2 : EmvTrack2, track2.Holds content ∧ decodeTrack2 data capacity = .ok track2 := by
  obtain ⟨last, hlast, htotal⟩ := last_nibble hvalid.toWritten hdata
  obtain ⟨track2, hheld, hread⟩ := @read_track2_eq data content hvalid.toWritten content.padding
    hdata capacity
  have hlength := congrArg List.length hdata
  have hdigits := content.digits_length
  have hpan := hvalid.panNonempty
  have hpanLength := hvalid.panLength
  have hdiscretionaryLength := hvalid.discretionaryLength
  rw [Nibbles.unpack_length, Track2Content.nibbles_length] at hlength
  have hsplit : Nibbles.unpack data = [] ++ (content.pan ++ 13 ::
      (content.fixed.tail ++ (content.discretionary ++ content.padding))) := by
    rw [hdata, Track2Content.nibbles, Track2Content.digits]
    simp [Track2Content.fixed]
  have hfind := @find_separator_eq data content.pan _ hvalid.panDigits []
    (min content.digits.length 20 - content.pan.length - 1) hsplit
  rw [List.length_nil, Nat.zero_add, show content.pan.length +
    (min content.digits.length 20 - content.pan.length - 1 + 1) =
      min content.digits.length 20 by omega] at hfind
  have hbehind : (Nibbles.unpack data).drop (content.pan.length + 1) =
      content.fixed.tail ++ (content.discretionary ++ content.padding) := by
    rw [hsplit, List.nil_append, ← List.drop_drop, List.drop_left' rfl]
    rfl
  have hfixed : checkDigits data 7 (content.pan.length + 1) = .ok () := by
    rw [check_digits_iff (by rw [Nibbles.unpack_length]; omega), hbehind,
      List.take_left' (show content.fixed.tail.length = 7 from rfl)]
    exact hvalid.fixed_le
  have hdiscretionary : checkDigits data content.discretionary.length (content.pan.length + 8) =
      .ok () := by
    rw [check_digits_iff (by rw [Nibbles.unpack_length]; omega),
      show content.pan.length + 8 = content.pan.length + 1 + 7 by omega, ← List.drop_drop, hbehind,
      List.drop_left' (show content.fixed.tail.length = 7 from rfl), List.take_left' rfl]
    exact hvalid.discretionaryDigits
  refine ⟨track2, hheld, ?_⟩
  unfold decodeTrack2
  rw [if_neg (by omega), hlast]
  simp only [bind, Except.bind]
  rw [htotal, hfind]
  dsimp only
  rw [if_neg (by omega), hfixed, show content.digits.length - (content.pan.length + 8) =
    content.discretionary.length by omega]
  dsimp only
  rw [if_neg (by omega), hdiscretionary]
  dsimp only
  rw [hread, if_neg (by have := hvalid.calendar; omega), emv_store_of_le _ hcapacity]

theorem list_of_seven {list : List Nat} (h : list.length = 7) :
    ∃ a b c d e f g, list = [a, b, c, d, e, f, g] :=
  match list, h with
  | [a, b, c, d, e, f, g], _ => ⟨a, b, c, d, e, f, g, rfl⟩

/-- Nibbles with a separator and digits around it are those of a written content. -/
theorem content_of_nibbles {list : List Nat} {sep discretionary : Nat} (hsep : list[sep]? = some 13)
    (hnonempty : 1 ≤ sep) (hpanLength : sep ≤ 19) (hpan : ∀ digit ∈ list.take sep, digit ≤ 9)
    (hfixed : ∀ digit ∈ (list.drop (sep + 1)).take 7, digit ≤ 9)
    (hdiscretionary : ∀ digit ∈ (list.drop (sep + 8)).take discretionary, digit ≤ 9)
    (hdiscretionaryLength : discretionary ≤ 30)
    (hlength : sep + 8 + discretionary ≤ list.length) :
    ∃ content : Track2Content, content.Written ∧ content.pan.length = sep ∧
      content.discretionary.length = discretionary ∧
      list = content.digits ++ list.drop (sep + 8 + discretionary) := by
  obtain ⟨hindex, hseparator⟩ := List.getElem?_eq_some_iff.mp hsep
  obtain ⟨y₁, y₂, m₁, m₂, c₁, c₂, c₃, hseven⟩ := @list_of_seven ((list.drop (sep + 1)).take 7) (by
    rw [List.length_take, List.length_drop]
    omega)
  rw [hseven] at hfixed
  simp only [List.mem_cons, List.not_mem_nil, or_false, forall_eq_or_imp, forall_eq] at hfixed
  obtain ⟨hy₁, hy₂, hm₁, hm₂, hc₁, hc₂, hc₃⟩ := hfixed
  have hpanTake : (list.take sep).length = sep := by
    rw [List.length_take]
    omega
  have hdiscretionaryTake : ((list.drop (sep + 8)).take discretionary).length =
      discretionary := by
    rw [List.length_take, List.length_drop]
    omega
  refine ⟨⟨list.take sep, y₁ * 10 + y₂, m₁ * 10 + m₂, c₁ * 100 + c₂ * 10 + c₃,
    (list.drop (sep + 8)).take discretionary⟩, ⟨hpan, ?_, ?_, ?_, ?_, ?_, hdiscretionary, ?_⟩,
    hpanTake, hdiscretionaryTake, ?_⟩
  · show 1 ≤ (list.take sep).length
    omega
  · show (list.take sep).length ≤ 19
    omega
  · show y₁ * 10 + y₂ ≤ 99
    omega
  · show m₁ * 10 + m₂ ≤ 99
    omega
  · show c₁ * 100 + c₂ * 10 + c₃ ≤ 999
    omega
  · show ((list.drop (sep + 8)).take discretionary).length ≤ 30
    omega
  · have hfront : list = list.take sep ++ 13 :: list.drop (sep + 1) := by
      rw [← hseparator, ← List.drop_eq_getElem_cons hindex, List.take_append_drop]
    have hmiddle : list.drop (sep + 1) = [y₁, y₂, m₁, m₂, c₁, c₂, c₃] ++ list.drop (sep + 8) := by
      have hsplit := List.take_append_drop 7 (list.drop (sep + 1))
      rw [List.drop_drop, hseven] at hsplit
      exact hsplit.symm
    have hback : list.drop (sep + 8) = (list.drop (sep + 8)).take discretionary ++
        list.drop (sep + 8 + discretionary) := by
      have hsplit := List.take_append_drop discretionary (list.drop (sep + 8))
      rw [List.drop_drop] at hsplit
      exact hsplit.symm
    have hdigits : (⟨list.take sep, y₁ * 10 + y₂, m₁ * 10 + m₂, c₁ * 100 + c₂ * 10 + c₃,
        (list.drop (sep + 8)).take discretionary⟩ : Track2Content).fixed =
          [13, y₁, y₂, m₁, m₂, c₁, c₂, c₃] := by
      simp only [Track2Content.fixed, List.cons.injEq, and_true, true_and]
      omega
    unfold Track2Content.digits
    rw [hdigits, List.append_assoc, List.append_assoc]
    dsimp only
    rw [← hback, List.cons_append, ← hmiddle]
    exact hfront

/-- What the decoder accepts are the nibbles of a content. -/
theorem decode_track2_ok {track2 : EmvTrack2} {capacity : Nat}
    (h : decodeTrack2 data capacity = .ok track2) :
    ∃ content : Track2Content, content.Valid ∧ track2.Holds content ∧
      Nibbles.unpack data = content.nibbles := by
  have hlength := Nibbles.unpack_length data
  unfold decodeTrack2 at h
  by_cases hempty : data.length = 0
  · rw [if_pos hempty] at h
    cases h
  rw [if_neg hempty] at h
  have hindex : data.length * 2 - 1 < (Nibbles.unpack data).length := by omega
  have hlast : track2Nibble data (data.length * 2 - 1) =
      .ok (Nibbles.unpack data)[data.length * 2 - 1] :=
    nibble_eq (List.getElem?_eq_getElem hindex)
  rw [hlast] at h
  simp only [bind, Except.bind] at h
  obtain ⟨total, htotal⟩ : ∃ total, total = data.length * 2 -
    if (Nibbles.unpack data)[data.length * 2 - 1] = 15 then 1 else 0 := ⟨_, rfl⟩
  rw [← htotal] at h
  obtain ⟨found, hfind, h⟩ := bind_ok.mp h
  cases found with
  | none => cases h
  | some sep =>
    dsimp only at h
    obtain ⟨-, hbound, hsep, hpan⟩ := find_separator_some hfind (by omega)
    by_cases hshort : sep = 0 ∨ sep + 8 > total
    · rw [if_pos hshort] at h
      cases h
    rw [if_neg hshort] at h
    obtain ⟨checked, hfixed, h⟩ := bind_ok.mp h
    by_cases hlong : total - (sep + 8) > 30
    · rw [if_pos hlong] at h
      cases h
    rw [if_neg hlong] at h
    obtain ⟨checked, hdiscretionary, h⟩ := bind_ok.mp h
    rw [check_digits_iff (by omega)] at hfixed hdiscretionary
    obtain ⟨content, hwritten, hpanLength, hdiscretionaryLength, hdata⟩ :=
      content_of_nibbles hsep (by omega) (by omega) (by simpa using hpan) hfixed
        hdiscretionary (by omega) (by omega)
    obtain ⟨track2', hheld, hread⟩ := read_track2_eq hwritten hdata capacity
    rw [hpanLength, hdiscretionaryLength] at hread
    rw [hread] at h
    by_cases hcalendar : content.month < 1 ∨ content.month > 12
    · rw [if_pos hcalendar] at h
      cases h
    rw [if_neg hcalendar] at h
    have hsame : track2' = track2 := by
      unfold emvStore at h
      split at h
      · cases h
      · exact Except.ok.inj h
    refine ⟨content, ⟨hwritten, by omega⟩, hsame ▸ hheld, ?_⟩
    -- What is behind the digits is the padding to whole octets.
    have hdigits := content.digits_length
    have hrest : (Nibbles.unpack data).drop (sep + 8 + (total - (sep + 8))) =
        content.padding := by
      rw [show sep + 8 + (total - (sep + 8)) = total by omega]
      unfold Track2Content.padding
      by_cases hpad : (Nibbles.unpack data)[data.length * 2 - 1] = 15
      · rw [if_pos hpad] at htotal
        rw [if_pos (by omega), htotal, List.drop_eq_getElem_cons hindex, hpad,
          List.drop_of_length_le (by omega)]
      · rw [if_neg hpad] at htotal
        rw [if_neg (by omega), List.drop_of_length_le (by omega)]
    rw [hrest] at hdata
    exact hdata

/-! ## The decoder stays inside its storage -/

theorem find_separator_ne_fault {remaining i : Nat} (h : i + remaining ≤ data.length * 2) :
    findSeparator data remaining i ≠ .error .fault := by
  induction remaining generalizing i with
  | zero => exact fun h => by cases h
  | succ remaining ih =>
    refine Guarded.bind_ne_fault (nibble_ne_fault (by omega)) fun digit _ => ?_
    split
    · exact fun h => by cases h
    split
    · exact fun h => by cases h
    · exact ih (by omega)

theorem check_digits_ne_fault {remaining i : Nat} (h : i + remaining ≤ data.length * 2) :
    checkDigits data remaining i ≠ .error .fault := by
  induction remaining generalizing i with
  | zero => exact fun h => by cases h
  | succ remaining ih =>
    refine Guarded.bind_ne_fault (nibble_ne_fault (by omega)) fun digit _ => ?_
    split
    · exact fun h => by cases h
    · exact ih (by omega)

theorem read_digits_ne_fault {n base remaining i : Nat} {text : Vector UInt8 n}
    (h : base + i + remaining ≤ data.length * 2) (hroom : i + remaining ≤ n) :
    readDigits data base remaining i text ≠ .error .fault := by
  induction remaining generalizing i text with
  | zero => exact fun h => by cases h
  | succ remaining ih =>
    exact Guarded.bind_ne_fault (nibble_ne_fault (by omega)) fun _ _ =>
      Guarded.bind_ne_fault (Guarded.assign_ne_fault _ _ (by omega)) fun _ _ =>
        ih (by omega) (by omega)

/-- Reading track 2 data never leaves its octets. -/
theorem decode_track2_ne_fault (data : Bytes) (capacity : Nat) :
    decodeTrack2 data capacity ≠ .error .fault := by
  unfold decodeTrack2
  split
  · exact fun h => by cases h
  next hempty =>
    refine Guarded.bind_ne_fault (nibble_ne_fault (by omega)) fun last _ => ?_
    dsimp only
    have htotal : data.length * 2 - (if last = 15 then 1 else 0) ≤ data.length * 2 :=
      Nat.sub_le _ _
    generalize data.length * 2 - (if last = 15 then 1 else 0) = total at htotal
    refine Guarded.bind_ne_fault (find_separator_ne_fault (by omega)) fun found hfound => ?_
    cases found with
    | none => exact fun h => by cases h
    | some sep =>
      obtain ⟨-, hsep, -⟩ := find_separator_some hfound (by
        rw [Nibbles.unpack_length]
        omega)
      dsimp only
      split
      · exact fun h => by cases h
      refine Guarded.bind_ne_fault (check_digits_ne_fault (by omega)) fun _ _ => ?_
      split
      · exact fun h => by cases h
      refine Guarded.bind_ne_fault (check_digits_ne_fault (by omega)) fun _ _ =>
        Guarded.bind_ne_fault (read_digits_ne_fault (by omega) (by omega)) fun _ _ =>
          Guarded.bind_ne_fault (nibble_ne_fault (by omega)) fun _ _ =>
            Guarded.bind_ne_fault (nibble_ne_fault (by omega)) fun _ _ =>
              Guarded.bind_ne_fault (nibble_ne_fault (by omega)) fun _ _ =>
                Guarded.bind_ne_fault (nibble_ne_fault (by omega)) fun _ _ => ?_
      dsimp only
      split
      · exact fun h => by cases h
      exact Guarded.bind_ne_fault (nibble_ne_fault (by omega)) fun _ _ =>
        Guarded.bind_ne_fault (nibble_ne_fault (by omega)) fun _ _ =>
          Guarded.bind_ne_fault (nibble_ne_fault (by omega)) fun _ _ =>
            Guarded.bind_ne_fault (read_digits_ne_fault (by omega) (by omega)) fun _ _ =>
              emv_store_ne_fault _ _ _

end Decoder

end OpenTlv
