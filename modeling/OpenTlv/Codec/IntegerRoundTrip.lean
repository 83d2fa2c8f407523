import OpenTlv.Codec.Integer
import OpenTlv.Asn1.Values

/-!
# Signed numbers survive their codec

The octets of two's complement do not change their meaning when a redundant first octet is taken
away, so the shortest ones are read back as the number, and every valid encoding is the shortest
one of what it is read as.
-/

namespace OpenTlv

/-- The bits that octets stand for. -/
def integerBits (data : Bytes) : UInt64 :=
  shiftOctets (signFill (data.headD 0)) data

/-! ## Bits and octets -/

/-- Shifting octets in computes their number, modulo the width. -/
theorem shift_octets_toNat (bits : UInt64) (data : Bytes) : (shiftOctets bits data).toNat =
    (bits.toNat * 256 ^ data.length + Octets.fold data) % 2 ^ 64 := by
  induction data using List.reverseRecOn with
  | nil =>
    have hlt := bits.toNat_lt
    show bits.toNat = (bits.toNat * 256 ^ 0 + 0) % 2 ^ 64
    omega
  | append_singleton data octet ih =>
    have hoctet := octet.toNat_lt
    have hstep : shiftOctets bits (data ++ [octet]) =
        (shiftOctets bits data <<< 8) ||| octet.toUInt64 := by
      unfold shiftOctets
      rw [List.foldl_append]
      rfl
    have hvalue : ((shiftOctets bits data <<< 8) ||| octet.toUInt64).toNat =
        (shiftOctets bits data).toNat * 256 % 2 ^ 64 + octet.toNat := by
      have hshift : (shiftOctets bits data <<< 8).toNat =
          ((shiftOctets bits data).toNat % 2 ^ 56) <<< 8 := by
        rw [UInt64.toNat_shiftLeft, Nat.shiftLeft_eq, Nat.shiftLeft_eq]
        show (shiftOctets bits data).toNat * 2 ^ 8 % 2 ^ 64 = _
        omega
      rw [UInt64.toNat_or, hshift, UInt8.toNat_toUInt64, Octets.shift_or_octet]
      omega
    rw [hstep, hvalue, ih, List.length_append, List.length_singleton,
      Octets.fold_append_singleton, pow_succ 256 data.length, ← Nat.mul_assoc]
    omega

/-- Eight octets leave nothing of what was there before. -/
theorem shift_octets_full (bits : UInt64) {data : Bytes} (h : data.length = 8) :
    (shiftOctets bits data).toNat = Octets.fold data := by
  have hlt := Octets.fold_lt data
  rw [h] at hlt
  rw [shift_octets_toNat, h]
  omega

/-- The staged octets are the digits of the bits. -/
theorem integer_encode_value_eq (value : Int64) :
    integerEncodeValue value = (Octets.digits 8 value.toUInt64.toNat).reverse := by
  have hoctet : ∀ shift : Nat, shift < 64 → (value.toUInt64 >>> shift.toUInt64).toUInt8 =
      UInt8.ofNat (value.toUInt64.toNat >>> shift) := by
    intro shift hshift
    apply UInt8.toNat_inj.mp
    have hmod : shift.toUInt64.toNat % 64 = shift := by
      rw [UInt64.toNat_ofNat']
      omega
    rw [UInt64.toNat_toUInt8, UInt64.toNat_shiftRight, hmod, UInt8.toNat_ofNat']
  have hlist : integerEncodeValue value =
      [(value.toUInt64 >>> (56 : Nat).toUInt64).toUInt8,
        (value.toUInt64 >>> (48 : Nat).toUInt64).toUInt8,
        (value.toUInt64 >>> (40 : Nat).toUInt64).toUInt8,
        (value.toUInt64 >>> (32 : Nat).toUInt64).toUInt8,
        (value.toUInt64 >>> (24 : Nat).toUInt64).toUInt8,
        (value.toUInt64 >>> (16 : Nat).toUInt64).toUInt8,
        (value.toUInt64 >>> (8 : Nat).toUInt64).toUInt8,
        (value.toUInt64 >>> (0 : Nat).toUInt64).toUInt8] := rfl
  rw [hlist, hoctet 56 (by norm_num), hoctet 48 (by norm_num), hoctet 40 (by norm_num),
    hoctet 32 (by norm_num), hoctet 24 (by norm_num), hoctet 16 (by norm_num),
    hoctet 8 (by norm_num), hoctet 0 (by norm_num)]
  simp only [Octets.digits, List.reverse_cons, List.reverse_nil, List.nil_append,
    List.cons_append, ← Nat.shiftRight_add, Nat.reduceAdd, Nat.shiftRight_zero]

theorem integer_encode_value_length (value : Int64) : (integerEncodeValue value).length = 8 :=
  rfl

/-- The staged octets stand for the number. -/
theorem integer_bits_encode_value (value : Int64) :
    integerBits (integerEncodeValue value) = value.toUInt64 := by
  apply UInt64.toNat_inj.mp
  unfold integerBits
  rw [shift_octets_full _ (integer_encode_value_length value), integer_encode_value_eq,
    Octets.fold_reverse_digits_of_lt]
  have hlt := value.toUInt64.toNat_lt
  norm_num
  omega

/-- Eight octets are the ones staged for what they stand for. -/
theorem integer_encode_value_bits {data : Bytes} (h : data.length = 8) :
    integerEncodeValue (integerBits data).toInt64 = data := by
  have hdigits := Octets.digits_fold data
  rw [h] at hdigits
  rw [integer_encode_value_eq]
  show (Octets.digits 8 (integerBits data).toInt64.toUInt64.toNat).reverse = data
  rw [UInt64.toUInt64_toInt64]
  unfold integerBits
  rw [shift_octets_full _ h, hdigits, List.reverse_reverse]

/-! ## Redundant octets -/

/-- A redundant first octet does not change what octets stand for. -/
theorem integer_bits_redundant {first second : UInt8} (h : redundantOctet first second = true)
    (rest : Bytes) : integerBits (first :: second :: rest) = integerBits (second :: rest) := by
  have hstep : (signFill first <<< 8) ||| first.toUInt64 = signFill second := by
    simp only [redundantOctet, Bool.or_eq_true, Bool.and_eq_true, decide_eq_true_eq] at h
    obtain ⟨rfl, hsecond⟩ | ⟨rfl, hsecond⟩ := h
    · have hfill : signFill second = 0 := if_neg (not_not.mpr hsecond)
      rw [hfill]
      rfl
    · have hfill : signFill second = ~~~0 := if_pos hsecond
      rw [hfill]
      rfl
  show shiftOctets ((signFill first <<< 8) ||| first.toUInt64) (second :: rest) = _
  rw [hstep]
  rfl

/-- The octet that repeats a sign. -/
def fillOctet (first : UInt8) : UInt8 :=
  if first &&& 0x80 ≠ 0 then 0xFF else 0x00

theorem fill_octet_redundant (first : UInt8) : redundantOctet (fillOctet first) first = true := by
  unfold fillOctet redundantOctet
  by_cases hsign : first &&& 0x80 = 0
  · simp [hsign]
  · simp [hsign]

theorem fill_octet_fill (first : UInt8) :
    redundantOctet (fillOctet first) (fillOctet first) = true := by
  unfold fillOctet
  split <;> decide

/-- Repeating the sign does not change what octets stand for. -/
theorem integer_bits_fill (count : Nat) (first : UInt8) (rest : Bytes) :
    integerBits (List.replicate count (fillOctet first) ++ first :: rest) =
      integerBits (first :: rest) := by
  induction count with
  | zero => rfl
  | succ count ih =>
    rw [List.replicate_succ, List.cons_append, ← ih]
    cases count with
    | zero => exact integer_bits_redundant (fill_octet_redundant first) rest
    | succ count => exact integer_bits_redundant (fill_octet_fill first) _

/-- The validator looks for a redundant first octet. -/
theorem validate_integer_cons (first second : UInt8) (rest : Bytes) :
    validateInteger (first :: second :: rest) = !redundantOctet first second :=
  rfl

/-- The minimal size leaves valid octets that stand for the same bits. -/
theorem integer_start_spec {full : Bytes} {remaining start : Nat}
    (h : start + remaining + 1 = full.length) :
    ∃ start', integerStart full remaining start = .ok start' ∧ start' < full.length ∧
      integerBits (full.drop start') = integerBits (full.drop start) ∧
        validateInteger (full.drop start') = true := by
  induction remaining generalizing start with
  | zero =>
    have hlast : start < full.length := by omega
    have hdrop : full.drop start = [full[start]] := by
      rw [List.drop_eq_getElem_cons hlast, List.drop_of_length_le (by omega)]
    exact ⟨start, rfl, hlast, rfl, by rw [hdrop]; rfl⟩
  | succ remaining ih =>
    have hfirst : start < full.length := by omega
    have hsecond : start + 1 < full.length := by omega
    have hdrop : full.drop start = full[start] :: full[start + 1] :: full.drop (start + 2) := by
      rw [List.drop_eq_getElem_cons hfirst, List.drop_eq_getElem_cons hsecond]
    have hnext : full.drop (start + 1) = full[start + 1] :: full.drop (start + 2) :=
      List.drop_eq_getElem_cons hsecond
    have hturn : integerStart full (remaining + 1) start =
        if redundantOctet full[start] full[start + 1] then integerStart full remaining (start + 1)
        else .ok start := by
      rw [integerStart, Guarded.octet_of_lt hfirst, Guarded.octet_of_lt hsecond]
      rfl
    cases hredundant : redundantOctet full[start] full[start + 1] with
    | true =>
      obtain ⟨start', hstart, hlt, hbits, hvalid⟩ := @ih (start + 1) (by omega)
      refine ⟨start', ?_, hlt, ?_, hvalid⟩
      · rw [hturn, hredundant, if_pos rfl, hstart]
      · rw [hbits, hnext, hdrop, integer_bits_redundant hredundant]
    | false =>
      refine ⟨start, ?_, hfirst, rfl, ?_⟩
      · rw [hturn, hredundant, if_neg (by simp)]
      · rw [hdrop, validate_integer_cons, hredundant]
        rfl

/-- The minimal size goes past exactly the octets that repeat the sign. -/
theorem integer_start_fill {first : UInt8} {rest : Bytes} {count remaining start : Nat}
    (hvalid : validateInteger (first :: rest) = true) (hstart : start ≤ count)
    (h : start + remaining + 1 = (List.replicate count (fillOctet first) ++ first :: rest).length) :
    integerStart (List.replicate count (fillOctet first) ++ first :: rest) remaining start =
      .ok count := by
  have hlength := h
  simp only [List.length_append, List.length_replicate, List.length_cons] at hlength
  obtain ⟨full, hfull⟩ : ∃ full, full = List.replicate count (fillOctet first) ++ first :: rest :=
    ⟨_, rfl⟩
  have hfill : ∀ i, i < count → full[i]? = some (fillOctet first) := by
    intro i hi
    rw [hfull, List.getElem?_append_left (by simpa using hi), List.getElem?_replicate, if_pos hi]
  have hbehind : ∀ i, full[count + i]? = (first :: rest)[i]? := by
    intro i
    rw [hfull, List.getElem?_append_right (by simp)]
    simp
  rw [← hfull]
  induction remaining generalizing start with
  | zero =>
    have hcount : start = count := by omega
    rw [hcount]
    rfl
  | succ remaining ih =>
    have hread : ∀ i octet, full[i]? = some octet →
        (Guarded.octet full i : CodecResult UInt8) = .ok octet := by
      intro i octet hoctet
      unfold Guarded.octet
      rw [hoctet]
    by_cases hlt : start < count
    · have hredundant : ∃ second, full[start + 1]? = some second ∧
          redundantOctet (fillOctet first) second = true := by
        by_cases hnext : start + 1 < count
        · exact ⟨_, hfill _ hnext, fill_octet_fill first⟩
        · have hcount : start + 1 = count + 0 := by omega
          exact ⟨first, by rw [hcount, hbehind]; rfl, fill_octet_redundant first⟩
      obtain ⟨second, hsecond, hredundant⟩ := hredundant
      rw [integerStart, hread _ _ (hfill _ hlt), hread _ _ hsecond]
      show (if redundantOctet (fillOctet first) second then integerStart full remaining (start + 1)
        else Except.ok start) = _
      rw [if_pos hredundant]
      exact ih (by omega) (by omega) (by omega)
    · have hcount : start = count := by omega
      cases rest with
      | nil =>
        simp only [List.length_nil] at hlength
        omega
      | cons second rest =>
        rw [validate_integer_cons, Bool.not_eq_true'] at hvalid
        have hfirst : full[count]? = some first := hbehind 0
        have hsecond : full[count + 1]? = some second := hbehind 1
        rw [hcount, integerStart, hread _ _ hfirst, hread _ _ hsecond]
        show (if redundantOctet first second then integerStart full remaining (count + 1)
          else Except.ok count) = _
        rw [if_neg (by rw [hvalid]; simp)]

/-! ## The codec -/

/-- The two branches of the decoder's conversion agree with the one of the machine. -/
theorem signed_bits (bits : UInt64) :
    (if bits ≤ 0x7FFFFFFFFFFFFFFF then bits.toInt64 else -1 - (~~~bits).toInt64) =
      bits.toInt64 := by
  split
  · rfl
  · apply Int64.toBitVec_inj.mp
    have hcomplement : (~~~bits).toInt64.toBitVec = ~~~bits.toInt64.toBitVec := rfl
    have hones : (-1 : Int64).toBitVec = BitVec.allOnes 64 := rfl
    rw [Int64.toBitVec_sub, hcomplement, hones, BitVec.allOnes_sub_eq_not, BitVec.not_not]

/-- Octets of an admitted length are decoded when they are valid. -/
theorem decode_integer_eq {data : Bytes} (hpositive : 0 < data.length) (hlength : data.length ≤ 8)
    (hvalid : validateInteger data = true) (capacity : Nat) :
    Int64Minimal.decodeInteger data capacity =
      if capacity < 8 then .error (.code .bufferTooShort)
      else .ok (integerBits data).toInt64 := by
  obtain ⟨first, rest, rfl⟩ := List.exists_cons_of_length_pos hpositive
  have hredundant : integerRedundant (first :: rest) = .ok false := by
    cases rest with
    | nil => rfl
    | cons second rest =>
      rw [validate_integer_cons, Bool.not_eq_true'] at hvalid
      have hread : integerRedundant (first :: second :: rest) =
          .ok (redundantOctet first second) := by
        unfold integerRedundant
        rw [if_pos (by simp)]
        rfl
      rw [hread, hvalid]
  have hvalue : Int64Minimal.integerDecodeValue (first :: rest) =
      .ok (some (integerBits (first :: rest)).toInt64) := by
    unfold Int64Minimal.integerDecodeValue
    rw [if_neg (by omega)]
    exact congrArg (fun value => Except.ok (some value)) (signed_bits _)
  unfold Int64Minimal.decodeInteger
  rw [if_neg (by omega), hredundant]
  simp only [bind, Except.bind]
  rw [if_neg (by simp), hvalue]

/-- What the decoder accepts are valid octets of an admitted length. -/
theorem decode_integer_ok {data : Bytes} {capacity : Nat} {value : Int64}
    (h : Int64Minimal.decodeInteger data capacity = .ok value) : 0 < data.length ∧ data.length ≤ 8 ∧
      validateInteger data = true ∧ value = (integerBits data).toInt64 := by
  by_cases hbounds : data.length = 0 ∨ data.length > 8
  · unfold Int64Minimal.decodeInteger at h
    rw [if_pos hbounds] at h
    cases h
  have hvalid : validateInteger data = true := by
    match data, h, hbounds with
    | [], _, hbounds => simp at hbounds
    | [_], _, _ => rfl
    | first :: second :: rest, h, hbounds =>
      rw [validate_integer_cons, Bool.not_eq_true']
      by_contra hredundant
      have hread : integerRedundant (first :: second :: rest) = .ok true := by
        unfold integerRedundant
        rw [if_pos (by simp)]
        show Except.ok (redundantOctet first second) = _
        rw [eq_true_of_ne_false hredundant]
      unfold Int64Minimal.decodeInteger at h
      rw [if_neg hbounds, hread] at h
      simp only [bind, Except.bind] at h
      cases h
  rw [decode_integer_eq (by omega) (by omega) hvalid] at h
  split at h
  · cases h
  · exact ⟨by omega, by omega, hvalid, (Except.ok.inj h).symm⟩

/-- The encoder stores what is behind the redundant octets. -/
theorem encode_integer_eq {value : Int64} {start : Nat}
    (h : integerStart (integerEncodeValue value) 7 0 = .ok start) (hstart : start < 8)
    (destination : Option Bytes) : encodeInteger value destination =
      stored ((integerEncodeValue value).drop start) destination := by
  have hfull := integer_encode_value_length value
  have hlength : ((integerEncodeValue value).drop start).length = 8 - start := by
    rw [List.length_drop, hfull]
  have hoffset : 8 - (8 - start) = start := by omega
  have hminimal : integerMinimalSize (integerEncodeValue value) = .ok (8 - start) := by
    unfold integerMinimalSize
    rw [h]
    rfl
  have hslice : (Guarded.slice (integerEncodeValue value) start (8 - start) : CodecResult Bytes) =
      .ok ((integerEncodeValue value).drop start) := by
    unfold Guarded.slice
    rw [if_pos (by omega), List.take_of_length_le (by omega)]
  unfold encodeInteger
  dsimp only
  rw [hminimal]
  simp only [bind, Except.bind]
  cases destination with
  | none =>
    rw [← hlength]
    rfl
  | some data =>
    dsimp only
    by_cases hroom : data.length < 8 - start
    · rw [if_pos hroom, stored_of_lt (by omega)]
    · rw [if_neg hroom, hoffset, hslice]
      dsimp only
      rw [Guarded.put_first (by omega), stored_of_le (by omega), hlength]
      rfl

/-- The codec of signed numbers is inverse on both sides. -/
theorem integer_inverse : Inverse Eq 8 validateInteger encodeInteger Int64Minimal.decodeInteger := by
  refine ⟨fun value _ _ _ => ?_, fun data capacity value _ h destination => ?_⟩
  · obtain ⟨start, hstart, hlt, hbits, hvalid⟩ :=
      @integer_start_spec (integerEncodeValue value) 7 0 rfl
    have hfull := integer_encode_value_length value
    rw [List.drop_zero, integer_bits_encode_value] at hbits
    refine ⟨_, encode_integer_eq hstart (by omega), hvalid, fun capacity hcapacity =>
      ⟨value, ?_, rfl⟩⟩
    rw [decode_integer_eq (by rw [List.length_drop]; omega) (by rw [List.length_drop]; omega)
      hvalid, if_neg (by omega), hbits, Int64.toInt64_toUInt64]
  · obtain ⟨hpositive, hlength, hvalid, rfl⟩ := decode_integer_ok h
    obtain ⟨first, rest, rfl⟩ := List.exists_cons_of_length_pos hpositive
    have hfull : (List.replicate (8 - (first :: rest).length) (fillOctet first) ++
        first :: rest).length = 8 := by
      rw [List.length_append, List.length_replicate]
      omega
    have hencode : integerEncodeValue (integerBits (first :: rest)).toInt64 =
        List.replicate (8 - (first :: rest).length) (fillOctet first) ++ first :: rest := by
      rw [← integer_bits_fill (8 - (first :: rest).length) first rest,
        integer_encode_value_bits hfull]
    have hstart : integerStart (integerEncodeValue (integerBits (first :: rest)).toInt64) 7 0 =
        .ok (8 - (first :: rest).length) := by
      rw [hencode]
      exact integer_start_fill hvalid (Nat.zero_le _) (by rw [hfull])
    rw [encode_integer_eq hstart (by omega), hencode, List.drop_left' (by simp)]

end OpenTlv
