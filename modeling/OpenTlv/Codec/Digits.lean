import OpenTlv.Codec.Codec
import OpenTlv.Lib.Nibbles

/-!
# Digit string codec

The packed digit strings of `codec/digits.c`: two digits to an octet, the high nibble first, padded
with nibbles of value 15. The accesses to the input, to the string and to the destination are
guarded. A decoded string is followed by a terminating zero in its buffer.
-/

namespace OpenTlv

/-- `nibble`. -/
def nibble (data : Bytes) (index : Nat) : CodecResult Nat := do
  let octet ← Guarded.octet data (index / 2)
  return (if index % 2 ≠ 0 then octet.toNat else octet.toNat >>> 4) &&& 15

/-- The decoder's first loop: `remaining` nibbles from `i` on, with the digits counted so far. -/
def countDigits (data : Bytes) : Nat → Nat → Nat → Bool → CodecResult Nat
  | 0, _, count, _ => .ok count
  | remaining + 1, i, count, padding => do
      let digit ← nibble data i
      if digit = 15 then countDigits data remaining (i + 1) count true
      else if digit > 9 ∨ padding then .error (.code .invalidValue)
      else countDigits data remaining (i + 1) (count + 1) padding

/-- The octet of `'0'`. -/
def zeroDigit : Nat := 48

/-- The decoder's second loop: store `remaining` digits from `i` on. -/
def copyDigits (data : Bytes) : Nat → Nat → Bytes → CodecResult Bytes
  | 0, _, digits => .ok digits
  | remaining + 1, i, digits => do
      let digit ← nibble data i
      let digits ← Guarded.put digits i [UInt8.ofNat (zeroDigit + digit)]
      copyDigits data remaining (i + 1) digits

/-- `tlv_digits_decode`, into the buffer `value`. -/
def digitsDecode (width : Nat) (data value : Bytes) : CodecResult Bytes :=
  if (width ≠ 0 ∧ data.length ≠ width) ∨ data.length > (sizeMax - 1) / 2 then
    .error (.code .invalidValue)
  else do
    let count ← countDigits data (data.length * 2) 0 0 false
    if value.length ≤ count then .error (.code .bufferTooShort)
    else do
      let digits ← copyDigits data count 0 value
      Guarded.put digits count [0]

/-- A character of a digit string. -/
def isDecimal (character : UInt8) : Bool :=
  !(character.toNat < 48 || character.toNat > 57)

/-- The encoder's nibble at a position of the output. -/
def paddedDigit (digits : Bytes) (index : Nat) : CodecResult Nat :=
  if index < digits.length then do
    let digit ← Guarded.octet digits index
    return digit.toNat - zeroDigit
  else .ok 15

/-- The encoder's loop: `remaining` octets from `i` on. -/
def packDigits (digits : Bytes) : Nat → Nat → Bytes → CodecResult Bytes
  | 0, _, data => .ok data
  | remaining + 1, i, data => do
      let high ← paddedDigit digits (i * 2)
      let low ← paddedDigit digits (i * 2 + 1)
      let data ← Guarded.put data i [UInt8.ofNat ((high <<< 4) ||| low)]
      packDigits digits remaining (i + 1) data

/-- `tlv_digits_encode`. -/
def digitsEncode (width : Nat) (digits : Bytes) (destination : Option Bytes) :
    CodecResult Encoded :=
  let minimal := digits.length / 2 + digits.length % 2
  if width ≠ 0 ∧ minimal > width then .error (.code .invalidValue)
  else
    let bytes := if width ≠ 0 then width else minimal
    if bytes > (sizeMax - 1) / 2 then .error (.code .invalidValue)
    else if !digits.all isDecimal then .error (.code .invalidValue)
    else
      match destination with
      | none => .ok (bytes, none)
      | some data =>
        if data.length < bytes then .error (.code .bufferTooShort)
        else do
          let data ← packDigits digits bytes 0 data
          return (bytes, some data)

/-! ## Strings survive the codec -/

/-- A nibble read from the input. -/
theorem nibble_eq {data : Bytes} {index value : Nat}
    (h : (Nibbles.unpack data)[index]? = some value) : nibble data index = .ok value := by
  rw [Nibbles.unpack_getElem?, Option.map_eq_some_iff] at h
  obtain ⟨octet, hoctet, hvalue⟩ := h
  have hread : (Guarded.octet data (index / 2) : CodecResult UInt8) = .ok octet := by
    unfold Guarded.octet
    rw [hoctet]
  have hlt := octet.toNat_lt
  have hmask : ∀ n : Nat, n &&& 15 = n % 16 := fun n => Nat.and_two_pow_sub_one_eq_mod n 4
  have hshift : octet.toNat >>> 4 = octet.toNat / 16 := Nat.shiftRight_eq_div_pow _ 4
  unfold nibble
  rw [hread]
  change Except.ok ((if index % 2 ≠ 0 then octet.toNat else octet.toNat >>> 4) &&& 15) = _
  rw [hmask, ← hvalue]
  by_cases heven : index % 2 = 0
  · rw [if_neg (not_not.mpr heven), if_pos heven, hshift]
    congr 1
    omega
  · rw [if_pos heven, if_neg heven]

/-- Digits are counted. -/
theorem count_digits_front {data : Bytes} {front digits rest : List Nat}
    (hdata : Nibbles.unpack data = front ++ (digits ++ rest))
    (hdigits : ∀ digit ∈ digits, digit ≤ 9) (remaining count : Nat) :
    countDigits data (digits.length + remaining) front.length count false =
      countDigits data remaining (front.length + digits.length) (count + digits.length)
        false := by
  induction digits generalizing front count with
  | nil => simp
  | cons digit digits ih =>
    have hdigit := hdigits digit (by simp)
    have hread : nibble data front.length = .ok digit := nibble_eq (by simp [hdata])
    have hrest := @ih (front ++ [digit]) (by simp [hdata])
      (fun d h => hdigits d (List.mem_cons_of_mem _ h)) (count + 1)
    rw [List.length_cons, Nat.add_right_comm, countDigits, hread]
    change (if digit = 15 then _ else if digit > 9 ∨ false = true then _ else _) = _
    rw [if_neg (by omega), if_neg (by simp; omega)]
    rw [List.length_append, List.length_singleton] at hrest
    rw [hrest, Nat.add_right_comm count, Nat.add_assoc front.length,
      Nat.add_comm 1 digits.length, Nat.add_assoc count]

/-- Padding is not counted. -/
theorem count_digits_padding {data : Bytes} {front : List Nat} {remaining : Nat}
    (hdata : Nibbles.unpack data = front ++ List.replicate remaining 15) (count : Nat)
    (padding : Bool) :
    countDigits data remaining front.length count padding = .ok count := by
  induction remaining generalizing front padding with
  | zero => rfl
  | succ remaining ih =>
    have hread : nibble data front.length = .ok 15 :=
      nibble_eq (by simp [hdata, List.replicate_succ])
    have hrest := @ih (front ++ [15]) (by simp [hdata, List.replicate_succ]) true
    rw [List.length_append, List.length_singleton] at hrest
    rw [countDigits, hread]
    exact hrest

/-- The character of a digit. -/
def digitCharacter (digit : Nat) : UInt8 :=
  UInt8.ofNat (zeroDigit + digit)

/-- Digits are stored one behind the other. -/
theorem copy_digits_eq {data value : Bytes} {front digits rest : List Nat}
    (hdata : Nibbles.unpack data = front ++ (digits ++ rest))
    (hroom : front.length + digits.length ≤ value.length) :
    copyDigits data digits.length front.length
        (Octets.store value 0 (front.map digitCharacter)) =
      .ok (Octets.store value 0 ((front ++ digits).map digitCharacter)) := by
  induction digits generalizing front with
  | nil => simp [copyDigits]
  | cons digit digits ih =>
    simp only [List.length_cons] at hroom
    have hread : nibble data front.length = .ok digit := nibble_eq (by simp [hdata])
    have hput := @Guarded.put_store Status value (front.map digitCharacter)
      [digitCharacter digit] front.length (by simp) (by simp; omega)
    have hrest := @ih (front ++ [digit]) (by simp [hdata]) (by simp; omega)
    rw [List.length_cons, copyDigits, hread]
    change (Guarded.put _ front.length [digitCharacter digit] >>= _) = _
    rw [hput]
    change copyDigits data digits.length (front.length + 1) _ = _
    simpa using hrest

/-- The nibbles that the encoder stores. -/
def paddedDigits (digits : Bytes) (bytes : Nat) : List Nat :=
  digits.map (fun digit => digit.toNat - zeroDigit) ++
    List.replicate (2 * bytes - digits.length) 15

theorem padded_digits_length {digits : Bytes} {bytes : Nat} (h : digits.length ≤ 2 * bytes) :
    (paddedDigits digits bytes).length = 2 * bytes := by
  simp only [paddedDigits, List.length_append, List.length_map, List.length_replicate]
  omega

/-- The digit read at an index is that of the padded digits. -/
theorem padded_digit_eq {digits : Bytes} {bytes index value : Nat}
    (h : (paddedDigits digits bytes)[index]? = some value) :
    paddedDigit digits index = .ok value := by
  unfold paddedDigits at h
  unfold paddedDigit
  by_cases hindex : index < digits.length
  · rw [List.getElem?_append_left (by simpa using hindex), List.getElem?_map,
      List.getElem?_eq_getElem hindex] at h
    have hread : (Guarded.octet digits index : CodecResult UInt8) = .ok digits[index] := by
      unfold Guarded.octet
      rw [List.getElem?_eq_getElem hindex]
    rw [if_pos hindex, hread, ← Option.some.inj h]
    rfl
  · rw [List.getElem?_append_right (by simpa using hindex), List.getElem?_replicate] at h
    rw [if_neg hindex]
    split at h
    · rw [Option.some.inj h]
    · cases h

/-- The encoder's loop stores the octets of the padded digits. -/
theorem pack_digits_eq {digits data : Bytes} {bytes : Nat} (hdigits : digits.length ≤ 2 * bytes)
    (hlt : ∀ digit ∈ paddedDigits digits bytes, digit < 16) (hroom : bytes ≤ data.length)
    (remaining i : Nat) (hi : i + remaining = bytes) :
    packDigits digits remaining i
        (Octets.store data 0 (Nibbles.pack ((paddedDigits digits bytes).take (2 * i)))) =
      .ok (Octets.store data 0 (Nibbles.pack (paddedDigits digits bytes))) := by
  have hlength := padded_digits_length hdigits
  induction remaining generalizing i with
  | zero =>
    rw [packDigits, List.take_of_length_le (by omega)]
  | succ remaining ih =>
    have hhigh : 2 * i < (paddedDigits digits bytes).length := by omega
    have hlow : 2 * i + 1 < (paddedDigits digits bytes).length := by omega
    have hhighRead : paddedDigit digits (i * 2) = .ok (paddedDigits digits bytes)[2 * i] := by
      rw [Nat.mul_comm]
      exact padded_digit_eq (List.getElem?_eq_getElem hhigh)
    have hlowRead : paddedDigit digits (i * 2 + 1) =
        .ok (paddedDigits digits bytes)[2 * i + 1] := by
      rw [Nat.mul_comm]
      exact padded_digit_eq (List.getElem?_eq_getElem hlow)
    have hsmall := hlt _ (List.getElem_mem hlow)
    have hoctet : ((paddedDigits digits bytes)[2 * i] <<< 4 |||
        (paddedDigits digits bytes)[2 * i + 1]) =
        (paddedDigits digits bytes)[2 * i] * 16 + (paddedDigits digits bytes)[2 * i + 1] := by
      rw [← Nat.shiftLeft_add_eq_or_of_lt (show _ < 2 ^ 4 from hsmall), Nat.shiftLeft_eq]
    have htake : (paddedDigits digits bytes).take (2 * (i + 1)) =
        (paddedDigits digits bytes).take (2 * i) ++
          [(paddedDigits digits bytes)[2 * i], (paddedDigits digits bytes)[2 * i + 1]] := by
      rw [show 2 * (i + 1) = 2 * i + 1 + 1 by omega, List.take_succ_eq_append_getElem hlow,
        List.take_succ_eq_append_getElem hhigh, List.append_assoc]
      rfl
    have hfront : (Nibbles.pack ((paddedDigits digits bytes).take (2 * i))).length = i := by
      rw [Nibbles.pack_length, List.length_take]
      omega
    have hput := @Guarded.put_store Status data _
      [UInt8.ofNat ((paddedDigits digits bytes)[2 * i] * 16 +
        (paddedDigits digits bytes)[2 * i + 1])] i hfront (by simp; omega)
    have hpack := @Nibbles.pack_append ((paddedDigits digits bytes).take (2 * i))
      [(paddedDigits digits bytes)[2 * i], (paddedDigits digits bytes)[2 * i + 1]]
      (by rw [List.length_take]; omega)
    rw [packDigits, hhighRead]
    change (paddedDigit digits (i * 2 + 1) >>= _) = _
    rw [hlowRead]
    change (Guarded.put _ i [UInt8.ofNat (_ <<< 4 ||| _)] >>= _) = _
    rw [hoctet, hput]
    change packDigits digits remaining (i + 1) _ = _
    rw [show Nibbles.pack ((paddedDigits digits bytes).take (2 * i)) ++
        [UInt8.ofNat ((paddedDigits digits bytes)[2 * i] * 16 +
          (paddedDigits digits bytes)[2 * i + 1])] =
      Nibbles.pack ((paddedDigits digits bytes).take (2 * (i + 1))) from by
        rw [htake, hpack]; rfl]
    exact ih (i + 1) (by omega)

/-- The octets of a digit string, whose width is configured or minimal. -/
def digitsOctets (width : Nat) (digits : Bytes) : Bytes :=
  Nibbles.pack (paddedDigits digits
    (if width ≠ 0 then width else digits.length / 2 + digits.length % 2))

/-- The digit strings that the encoder admits. -/
structure DigitsAdmitted (width : Nat) (digits : Bytes) : Prop where
  fits : width ≠ 0 → digits.length / 2 + digits.length % 2 ≤ width
  size : (if width ≠ 0 then width else digits.length / 2 + digits.length % 2) ≤
    (sizeMax - 1) / 2
  decimal : ∀ digit ∈ digits, isDecimal digit = true

namespace DigitsAdmitted

variable {width : Nat} {digits : Bytes}

theorem room (h : DigitsAdmitted width digits) : digits.length ≤
    2 * (if width ≠ 0 then width else digits.length / 2 + digits.length % 2) := by
  by_cases hwidth : width ≠ 0
  · have := h.fits hwidth
    rw [if_pos hwidth]
    omega
  · rw [if_neg hwidth]
    omega

theorem digit_le (h : DigitsAdmitted width digits) :
    ∀ digit ∈ digits.map (fun digit => digit.toNat - zeroDigit), digit ≤ 9 := by
  intro digit hmem
  obtain ⟨character, hcharacter, rfl⟩ := List.mem_map.mp hmem
  have hdigit := h.decimal character hcharacter
  simp only [isDecimal, Bool.not_eq_true', Bool.or_eq_false_iff, decide_eq_false_iff_not] at hdigit
  show character.toNat - 48 ≤ 9
  omega

theorem nibble_lt (h : DigitsAdmitted width digits) (bytes : Nat) :
    ∀ digit ∈ paddedDigits digits bytes, digit < 16 := by
  intro digit hmem
  obtain hmem | hmem := List.mem_append.mp hmem
  · have := h.digit_le digit hmem
    omega
  · obtain ⟨_, rfl⟩ := List.mem_replicate.mp hmem
    norm_num

theorem octets_length (h : DigitsAdmitted width digits) : (digitsOctets width digits).length =
    if width ≠ 0 then width else digits.length / 2 + digits.length % 2 := by
  unfold digitsOctets
  rw [Nibbles.pack_length, padded_digits_length h.room]
  omega

/-- The characters of the digits are the string. -/
theorem characters (h : DigitsAdmitted width digits) :
    (digits.map (fun digit => digit.toNat - zeroDigit)).map digitCharacter = digits := by
  rw [List.map_map]
  conv_rhs => rw [← List.map_id digits]
  refine List.map_congr_left fun character hcharacter => ?_
  have hdigit := h.decimal character hcharacter
  simp only [isDecimal, Bool.not_eq_true', Bool.or_eq_false_iff, decide_eq_false_iff_not] at hdigit
  show UInt8.ofNat (48 + (character.toNat - 48)) = character
  rw [show 48 + (character.toNat - 48) = character.toNat by omega, UInt8.ofNat_toNat]

end DigitsAdmitted

/-- The encoder stores the octets of admitted strings. -/
theorem digits_encode_of_admitted {width : Nat} {digits : Bytes} (destination : Option Bytes)
    (h : DigitsAdmitted width digits) :
    digitsEncode width digits destination = stored (digitsOctets width digits) destination := by
  have hlength := h.octets_length
  have hall : ¬ (!digits.all isDecimal) = true := by
    simpa using h.decimal
  unfold digitsEncode
  dsimp only
  rw [if_neg (by have := h.fits; omega), if_neg (by have := h.size; omega), if_neg hall,
    ← hlength]
  cases destination with
  | none => rfl
  | some data =>
    by_cases hroom : data.length < (digitsOctets width digits).length
    · rw [stored_of_lt hroom]
      exact if_pos hroom
    · have hpack := @pack_digits_eq digits data _ h.room (h.nibble_lt _) (by omega) _ 0
        (Nat.zero_add _)
      rw [Nat.mul_zero, List.take_zero, ← hlength] at hpack
      change packDigits digits _ 0 (Octets.store data 0 []) = _ at hpack
      rw [Guarded.store_nil] at hpack
      have hoctets : Nibbles.pack (paddedDigits digits (digitsOctets width digits).length) =
          digitsOctets width digits := by
        rw [hlength]
        rfl
      rw [stored_of_le (by omega)]
      refine (if_neg hroom).trans ?_
      rw [hpack, hoctets]
      rfl

/-- The encoder rejects all other strings. -/
theorem digits_encode_error {width : Nat} {digits : Bytes} (destination : Option Bytes)
    (h : ¬ DigitsAdmitted width digits) :
    digitsEncode width digits destination = .error (.code .invalidValue) := by
  unfold digitsEncode
  dsimp only
  by_cases hwidth : width ≠ 0 ∧ digits.length / 2 + digits.length % 2 > width
  · rw [if_pos hwidth]
  rw [if_neg hwidth]
  by_cases hsize : (if width ≠ 0 then width else digits.length / 2 + digits.length % 2) >
      (sizeMax - 1) / 2
  · rw [if_pos hsize]
  rw [if_neg hsize]
  by_cases hall : (!digits.all isDecimal) = true
  · rw [if_pos hall]
  · refine absurd ⟨fun hfixed => ?_, by omega, by simpa using hall⟩ h
    by_contra hlarge
    exact hwidth ⟨hfixed, by omega⟩

/-- The octets of an admitted string are read back. -/
theorem digits_decode_octets {width : Nat} {digits value : Bytes} (h : DigitsAdmitted width digits)
    (hroom : digits.length < value.length) :
    digitsDecode width (digitsOctets width digits) value =
      .ok (Octets.store value 0 (digits ++ [0])) := by
  have hlength := h.octets_length
  have hpadded := padded_digits_length h.room
  have hdata : Nibbles.unpack (digitsOctets width digits) =
      [] ++ (digits.map (fun digit => digit.toNat - zeroDigit) ++
        List.replicate (2 * (digitsOctets width digits).length - digits.length) 15) := by
    rw [hlength, List.nil_append]
    exact Nibbles.unpack_pack (by omega) (h.nibble_lt _)
  have hcount : countDigits (digitsOctets width digits) ((digitsOctets width digits).length * 2)
      0 0 false = .ok digits.length := by
    have hfront := count_digits_front hdata h.digit_le
      (2 * (digitsOctets width digits).length - digits.length) 0
    have hroom := h.room
    have hpadding := @count_digits_padding (digitsOctets width digits)
      (digits.map (fun digit => digit.toNat - zeroDigit))
      (2 * (digitsOctets width digits).length - digits.length) hdata digits.length false
    rw [List.length_map] at hfront hpadding
    rw [show (digitsOctets width digits).length * 2 = digits.length +
      (2 * (digitsOctets width digits).length - digits.length) by omega]
    simp only [List.length_nil, Nat.zero_add] at hfront
    rw [hfront, hpadding]
  have hcopy := @copy_digits_eq _ value _ _ _ hdata (by simpa using hroom.le)
  rw [List.nil_append, h.characters, List.length_map] at hcopy
  change copyDigits _ digits.length 0 (Octets.store value 0 []) = _ at hcopy
  rw [Guarded.store_nil] at hcopy
  have hsize := h.size
  have hwidth : ¬ ((width ≠ 0 ∧ (digitsOctets width digits).length ≠ width) ∨
      (digitsOctets width digits).length > (sizeMax - 1) / 2) := by
    rw [hlength]
    split <;> simp_all
  unfold digitsDecode
  rw [if_neg hwidth, hcount]
  change (if value.length ≤ digits.length then _ else _) = _
  have hput := @Guarded.put_store Status value digits [0] digits.length rfl hroom
  rw [if_neg (by omega), hcopy]
  exact hput

/-! ## The decoder stays inside its storage -/

/-- A nibble inside of the input. -/
theorem nibble_of_lt {data : Bytes} {index : Nat} (h : index < data.length * 2) :
    ∃ digit, nibble data index = .ok digit :=
  ⟨_, nibble_eq (List.getElem?_eq_getElem (show index < (Nibbles.unpack data).length by
    rw [Nibbles.unpack_length]
    omega))⟩

theorem nibble_ne_fault {data : Bytes} {index : Nat} (h : index < data.length * 2) :
    nibble data index ≠ .error .fault := by
  obtain ⟨digit, hread⟩ := nibble_of_lt h
  rw [hread]
  exact fun h => by cases h

/-- No more digits are counted than there are nibbles. -/
theorem count_digits_le {data : Bytes} {remaining i count total : Nat} {padding : Bool}
    (h : countDigits data remaining i count padding = .ok total) : total ≤ count + remaining := by
  induction remaining generalizing i count padding with
  | zero =>
    rw [← Except.ok.inj h]
    omega
  | succ remaining ih =>
    rw [countDigits] at h
    obtain ⟨digit, hdigit, h⟩ := bind_ok.mp h
    split at h
    · have := ih h
      omega
    split at h
    · cases h
    · have := ih h
      omega

theorem count_digits_ne_fault {data : Bytes} {remaining i count : Nat} {padding : Bool}
    (h : i + remaining ≤ data.length * 2) :
    countDigits data remaining i count padding ≠ .error .fault := by
  induction remaining generalizing i count padding with
  | zero => exact fun h => by cases h
  | succ remaining ih =>
    refine Guarded.bind_ne_fault (nibble_ne_fault (by omega)) fun digit _ => ?_
    split
    · exact ih (by omega)
    split
    · exact fun h => by cases h
    · exact ih (by omega)

/-- Digits are copied inside the buffer. -/
theorem copy_digits_length {data value : Bytes} {remaining i : Nat}
    (h : i + remaining ≤ data.length * 2) (hroom : i + remaining ≤ value.length) :
    ∃ value', copyDigits data remaining i value = .ok value' ∧ value'.length = value.length := by
  induction remaining generalizing i value with
  | zero => exact ⟨value, rfl, rfl⟩
  | succ remaining ih =>
    obtain ⟨digit, hread⟩ := nibble_of_lt (show i < data.length * 2 by omega)
    have hlength : ∀ character : UInt8,
        (Octets.store value i [character]).length = value.length := fun character =>
      Octets.store_length (by rw [List.length_singleton]; omega)
    obtain ⟨value', hcopy, hlength'⟩ := @ih (Octets.store value i [digitCharacter digit]) (i + 1)
      (by omega) (by rw [hlength]; omega)
    refine ⟨value', ?_, hlength'.trans (hlength _)⟩
    rw [copyDigits, hread]
    show (Guarded.put value i [digitCharacter digit] >>= _) = _
    rw [Guarded.put_of_le (by rw [List.length_singleton]; omega)]
    exact hcopy

/-- Decoding digits never leaves the octets. -/
theorem digits_decode_ne_fault (width : Nat) (data value : Bytes) :
    digitsDecode width data value ≠ .error .fault := by
  unfold digitsDecode
  split
  · exact fun h => by cases h
  refine Guarded.bind_ne_fault (count_digits_ne_fault (by omega)) fun count hcount => ?_
  have hle := count_digits_le hcount
  split
  · exact fun h => by cases h
  obtain ⟨digits, hcopy, hlength⟩ := @copy_digits_length data value count 0 (by omega) (by omega)
  rw [hcopy]
  show Guarded.put digits count [0] ≠ _
  rw [Guarded.put_of_le (by rw [List.length_singleton]; omega)]
  exact fun h => by cases h

/-- A decoded string leaves the size of its buffer, and ends inside of it. -/
theorem digits_decode_terminated {width : Nat} {data value decoded : Bytes}
    (h : digitsDecode width data value = .ok decoded) :
    decoded.length = value.length ∧ 0 ∈ decoded := by
  unfold digitsDecode at h
  split at h
  · cases h
  obtain ⟨count, hcount, h⟩ := bind_ok.mp h
  have hle := count_digits_le hcount
  simp only [bind, Except.bind] at h
  split at h
  · cases h
  obtain ⟨digits, hcopy, hlength⟩ :=
    @copy_digits_length data value count 0 (by omega) (by omega)
  rw [hcopy] at h
  have hput : (Guarded.put digits count [0] : CodecResult Bytes) =
      .ok (Octets.store digits count [0]) :=
    Guarded.put_of_le (by rw [List.length_singleton]; omega)
  rw [← Except.ok.inj (hput.symm.trans h)]
  refine ⟨(Octets.store_length (by rw [List.length_singleton]; omega)).trans hlength, ?_⟩
  unfold Octets.store
  simp

end OpenTlv
