import OpenTlv.Codec.Number
import OpenTlv.Field.Variable
import OpenTlv.Lib.Nibbles
import Mathlib.Data.Nat.Log

/-!
# Numbers survive the number codec

The octets that the encoder stores, the width it selects, and the number that the decoder reads
from them. `NumberConfig.Admits` says which numbers a representation holds, and
`number_encode_eq` is the whole encoder in terms of it.
-/

namespace OpenTlv

/-! ## Widths and decimal limits -/

/-- The loop over the minimal representation counts its octets. -/
theorem minimal_width_eq (radix : Nat) (hradix : 1 < radix) (remaining width : Nat) :
    minimalWidth radix hradix remaining width = width + Nat.log radix remaining := by
  induction remaining, width using minimalWidth.induct radix hradix with
  | case1 remaining width h ih =>
    rw [minimalWidth, dif_pos h, ih, Nat.log_of_one_lt_of_le hradix h]
    omega
  | case2 remaining width h =>
    rw [minimalWidth, dif_neg h, Nat.log_of_lt (by omega)]
    rfl

/-- A number fits a width exactly when its minimal width does. -/
theorem minimal_width_le_iff {radix number width : Nat} (hradix : 1 < radix) (hwidth : 0 < width) :
    minimalWidth radix hradix number 1 ≤ width ↔ number < radix ^ width := by
  rw [minimal_width_eq]
  constructor
  · intro h
    exact lt_of_lt_of_le (Nat.lt_pow_succ_log_self hradix number)
      (Nat.pow_le_pow_right (by omega) (by omega))
  · intro h
    have hlog : Nat.log radix number < width := by
      by_cases hzero : number = 0
      · rw [hzero, Nat.log_zero_right]
        exact hwidth
      · exact (Nat.log_lt_iff_lt_pow hradix hzero).mpr h
    omega

/-- Powers of ten of the decimal limits stay below `2^64`. -/
theorem decimal_power_toNat {digits : Nat} (h : digits ≤ 19) :
    (decimalPower digits).toNat = 10 ^ digits := by
  induction digits with
  | zero => rfl
  | succ digits ih =>
    have hpower : 10 ^ (digits + 1) ≤ 10 ^ 19 := Nat.pow_le_pow_right (by norm_num) h
    rw [decimalPower, UInt64.toNat_mul, ih (by omega)]
    show 10 ^ digits * 10 % 2 ^ 64 = 10 ^ (digits + 1)
    rw [← Nat.pow_succ]
    exact Nat.mod_eq_of_lt (by omega)

/-- The limit is the largest number of so many digits. -/
theorem decimal_limit_toNat {digits : Nat} (h : digits ≤ 18) :
    (decimalLimit digits).toNat = 10 ^ digits - 1 := by
  have hpower := @decimal_power_toNat digits (by omega)
  have hpositive : 0 < 10 ^ digits := Nat.pow_pos (by norm_num)
  have hle : (1 : UInt64) ≤ decimalPower digits := by
    rw [UInt64.le_iff_toNat_le, hpower]
    exact hpositive
  rw [decimalLimit, UInt64.toNat_sub_of_le _ _ hle, hpower]
  rfl

/-! ## Packed decimals -/

/-- The octet of two decimal digits. -/
def bcdOctet (pair : Nat) : UInt8 :=
  UInt8.ofNat (((pair / 10) <<< 4) ||| (pair % 10))

/-- The octets of a packed decimal. -/
def bcdOctets : Nat → Nat → Bytes
  | 0, _ => []
  | width + 1, number => bcdOctets width (number / 100) ++ [bcdOctet (number % 100)]

@[simp] theorem bcd_octets_length (width number : Nat) :
    (bcdOctets width number).length = width := by
  induction width generalizing number with
  | zero => rfl
  | succ width ih => simp [bcdOctets, ih]

/-- The nibbles of two decimal digits. -/
theorem bcd_octet_nibbles : ∀ pair : Fin 100,
    (bcdOctet pair.val).toNat >>> 4 = pair.val / 10 ∧
      (bcdOctet pair.val).toNat &&& 15 = pair.val % 10 := by
  decide +kernel

/-- The encoder's loop leaves the packed decimal at the start of the staging area. -/
theorem bcd_write_eq (width : Nat) (number : UInt64) {bytes : Bytes}
    (hroom : width ≤ bytes.length) :
    bcdWrite width number bytes =
      .ok (Octets.store bytes 0 (bcdOctets width number.toNat)) := by
  induction width generalizing number bytes with
  | zero => simp [bcdWrite, bcdOctets, Guarded.store_nil]
  | succ width ih =>
    have hput := @Guarded.put_of_le Status bytes [bcdOctet (number.toNat % 100)] width
      (by simpa using hroom)
    have hlength := @Octets.store_length bytes [bcdOctet (number.toNat % 100)] width
      (by simpa using hroom)
    have hdiv : (number / 100).toNat = number.toNat / 100 := by simp
    have hmod : (number % 100).toNat = number.toNat % 100 := by simp
    rw [bcdWrite, hmod]
    change (Guarded.put bytes width [bcdOctet (number.toNat % 100)] >>= _) = _
    rw [hput]
    change bcdWrite width (number / 100) _ = _
    rw [ih _ (by omega), hdiv, bcdOctets,
      Guarded.store_behind (bcd_octets_length _ _) (by omega)]

/-- Packed decimals are read one behind the other. -/
theorem bcd_read_append (number : UInt64) (front rest : Bytes) :
    bcdRead number (front ++ rest) = (bcdRead number front >>= fun read => bcdRead read rest) := by
  induction front generalizing number with
  | nil => rfl
  | cons octet front ih =>
    rw [List.cons_append, bcdRead, bcdRead]
    split
    · rfl
    · exact ih _

/-- The decoder's loop reads back a packed decimal that fits its width. -/
theorem bcd_read_octets {width number : Nat} (hfits : number < 100 ^ width)
    (hnumber : number < 2 ^ 64) :
    bcdRead 0 (bcdOctets width number) = .ok (UInt64.ofNat number) := by
  induction width generalizing number with
  | zero =>
    have hzero : number = 0 := by simpa using hfits
    rw [hzero]
    rfl
  | succ width ih =>
    have hquotient : number / 100 < 100 ^ width := by
      rw [Nat.pow_succ] at hfits
      omega
    have hnibbles := bcd_octet_nibbles ⟨number % 100, by omega⟩
    rw [bcdOctets, bcd_read_append, ih hquotient (by omega)]
    change bcdRead (UInt64.ofNat (number / 100)) [bcdOctet (number % 100)] = _
    unfold bcdRead
    simp only [hnibbles.1, hnibbles.2]
    rw [if_neg (by omega)]
    have hsum : UInt64.ofNat (number / 100) * 100 + UInt64.ofNat (number % 100 / 10) * 10 +
        UInt64.ofNat (number % 100 % 10) = UInt64.ofNat number := by
      apply UInt64.toNat_inj.mp
      simp only [UInt64.toNat_add, UInt64.toNat_mul, UInt64.toNat_ofNat', UInt64.reduceToNat]
      omega
    rw [hsum]
    rfl

/-! ## The whole codec -/

namespace NumberConfig

/-- A number in the range of a representation. -/
def InRange (config : NumberConfig) (number : Nat) : Prop :=
  config.encoding = .bcd → number < 10 ^ config.digits

/-- A width that a representation has and that can hold a number: one to eight octets of a binary
integer, one to nine of a packed decimal. -/
def CanHold (config : NumberConfig) (width number : Nat) : Prop :=
  1 ≤ width ∧ width ≤ config.encoding.maximum ∧ number < config.encoding.radix ^ width

end NumberConfig

/-- The octets of a number. -/
def numberOctets (encoding : NumberEncoding) (width number : Nat) : Bytes :=
  if encoding = .bcd then bcdOctets width number
  else encoding.order.significant (Octets.digits width number).reverse

@[simp] theorem number_octets_length (encoding : NumberEncoding) (width number : Nat) :
    (numberOctets encoding width number).length = width := by
  unfold numberOctets
  split <;> simp

theorem order_known (encoding : NumberEncoding) : encoding.order ≠ .unknown := by
  cases encoding <;> decide

/-- The limit of a valid configuration is its range. -/
theorem in_range_iff {config : NumberConfig} (hvalid : config.valid = true) (number : UInt64) :
    config.InRange number.toNat ↔
      ¬ (config.encoding = .bcd ∧ number > decimalLimit config.digits) := by
  unfold NumberConfig.InRange
  by_cases hbcd : config.encoding = .bcd
  · have hdigits : config.digits ≤ 18 := by
      unfold NumberConfig.valid at hvalid
      rw [if_pos hbcd] at hvalid
      simp at hvalid
      omega
    have hlimit := decimal_limit_toNat hdigits
    have hpositive : 0 < 10 ^ config.digits := Nat.pow_pos (by norm_num)
    rw [show number > decimalLimit config.digits ↔
      (decimalLimit config.digits).toNat < number.toNat from UInt64.lt_iff_toNat_lt, hlimit]
    simp only [hbcd, true_and, forall_const]
    omega
  · simp [hbcd]

/-- The configured width of a valid configuration is a width of its representation. -/
theorem width_le_maximum {config : NumberConfig} (hvalid : config.valid = true) :
    config.width ≤ config.encoding.maximum := by
  unfold NumberConfig.valid at hvalid
  unfold NumberEncoding.maximum
  split at hvalid <;> simp_all

/-- A number in range needs no more than the largest width. -/
theorem in_range_can_hold {config : NumberConfig} (hvalid : config.valid = true)
    {number : UInt64} (hrange : config.InRange number.toNat) :
    config.CanHold config.encoding.maximum number.toNat := by
  have hnumber := number.toNat_lt
  by_cases hbcd : config.encoding = .bcd
  · have hdigits : config.digits ≤ 18 := by
      unfold NumberConfig.valid at hvalid
      rw [if_pos hbcd] at hvalid
      simp at hvalid
      omega
    have hlimit := hrange hbcd
    have hpower : 10 ^ config.digits ≤ 10 ^ 18 := Nat.pow_le_pow_right (by norm_num) hdigits
    unfold NumberConfig.CanHold NumberEncoding.maximum NumberEncoding.radix
    rw [if_pos hbcd, if_pos hbcd]
    refine ⟨by norm_num, le_refl _, lt_of_lt_of_le (lt_of_lt_of_le hlimit hpower) ?_⟩
    norm_num
  · unfold NumberConfig.CanHold NumberEncoding.maximum NumberEncoding.radix
    rw [if_neg hbcd, if_neg hbcd]
    refine ⟨by norm_num, le_refl _, lt_of_lt_of_le hnumber ?_⟩
    norm_num

/-- What the encoder stages. -/
theorem number_stage_eq {config : NumberConfig} {width : Nat} {number : UInt64} {bytes : Bytes}
    (hhold : config.CanHold width number.toNat) (hroom : width ≤ bytes.length) :
    numberStage config.encoding width number bytes =
      .ok (Octets.store bytes 0 (numberOctets config.encoding width number.toNat)) := by
  obtain ⟨hlow, hhigh, hfits⟩ := hhold
  unfold NumberEncoding.maximum NumberEncoding.radix at *
  unfold numberStage numberOctets
  by_cases hbcd : config.encoding = .bcd
  · rw [if_pos hbcd, if_pos hbcd]
    exact bcd_write_eq width number hroom
  · rw [if_neg hbcd] at hhigh hfits
    rw [if_neg hbcd, if_neg hbcd, write_uint_of_fits hlow hhigh (order_known _) hfits]
    exact Guarded.put_first (by simpa using hroom)

/-- The width that the encoder selects. -/
def NumberConfig.selected (config : NumberConfig) (number : UInt64) : Nat :=
  if config.width ≠ 0 then config.width
  else minimalWidth config.encoding.radix config.one_lt_radix number.toNat 1

/-- The encoder stores the octets of the width it selects, when that width holds the number. -/
theorem number_encode_of_hold {config : NumberConfig} {number : UInt64}
    (destination : Option Bytes) (hvalid : config.valid = true)
    (hrange : config.InRange number.toNat)
    (hhold : config.CanHold (config.selected number) number.toNat) :
    numberEncode config number destination =
      stored (numberOctets config.encoding (config.selected number) number.toNat)
        destination := by
  have hfits := (minimal_width_le_iff (one_lt_radix config.encoding) hhold.1).mpr hhold.2.2
  have hwidth : ¬ (config.width ≠ 0 ∧
      minimalWidth config.encoding.radix (one_lt_radix _) number.toNat 1 > config.width) := by
    intro h
    unfold NumberConfig.selected at hfits
    rw [if_pos h.1] at hfits
    omega
  have hmaximum : config.selected number ≤ 9 := by
    have := hhold.2.1
    unfold NumberEncoding.maximum at this
    split at this <;> omega
  have hstaged := @number_stage_eq config _ number (List.replicate 9 0) hhold (by simpa)
  have hvalid' : ¬ (!config.valid) = true := by simp [hvalid]
  unfold numberEncode
  rw [if_neg hvalid', if_neg ((in_range_iff hvalid number).mp hrange)]
  dsimp only
  rw [if_neg hwidth]
  change (if destination.any (fun data => data.length < config.selected number) then _ else _) = _
  have hlength := number_octets_length config.encoding (config.selected number) number.toNat
  cases destination with
  | none =>
    rw [if_neg (by simp)]
    change (numberStage config.encoding (config.selected number) number _ >>= _) = _
    rw [hstaged]
    change Except.ok (config.selected number, none) = _
    unfold stored
    rw [hlength]
  | some data =>
    by_cases hroom : data.length < config.selected number
    · rw [if_pos (by simpa using hroom), stored_of_lt (by omega)]
    · rw [if_neg (by simpa using hroom)]
      change (numberStage config.encoding (config.selected number) number _ >>= _) = _
      rw [hstaged]
      have hslice := @Guarded.slice_store Status (List.replicate 9 0)
        (numberOctets config.encoding (config.selected number) number.toNat)
      rw [hlength] at hslice
      change (Guarded.slice _ 0 (config.selected number) >>= _) = _
      rw [hslice]
      change (Guarded.put data 0 _ >>= _) = _
      rw [Guarded.put_first (by omega), stored_of_le (by omega), hlength]
      rfl

/-- The encoder rejects every other number. -/
theorem number_encode_error {config : NumberConfig} {number : UInt64}
    (destination : Option Bytes) (hvalid : config.valid = true)
    (h : ¬ (config.InRange number.toNat ∧
      config.CanHold (config.selected number) number.toNat)) :
    numberEncode config number destination = .error (.code .invalidValue) := by
  have hvalid' : ¬ (!config.valid) = true := by simp [hvalid]
  unfold numberEncode
  rw [if_neg hvalid']
  by_cases hrange : config.InRange number.toNat
  · have hlarge : config.width ≠ 0 ∧
        minimalWidth config.encoding.radix (one_lt_radix _) number.toNat 1 > config.width := by
      by_contra hsmall
      refine h ⟨hrange, ?_⟩
      have hmaximum := in_range_can_hold hvalid hrange
      have hleast := (minimal_width_le_iff (one_lt_radix config.encoding) hmaximum.1).mpr
        hmaximum.2.2
      have hwidth := width_le_maximum hvalid
      have hone : 1 ≤ minimalWidth config.encoding.radix (one_lt_radix _) number.toNat 1 := by
        rw [minimal_width_eq]
        omega
      unfold NumberConfig.selected
      split
      · next hfixed =>
          exact ⟨by omega, hwidth,
            (minimal_width_le_iff (one_lt_radix config.encoding) (by omega)).mp (by omega)⟩
      · exact ⟨hone, hleast,
          (minimal_width_le_iff (one_lt_radix config.encoding) hone).mp (le_refl _)⟩
    rw [if_neg ((in_range_iff hvalid number).mp hrange)]
    dsimp only
    rw [if_pos hlarge]
  · rw [if_pos (not_not.mp fun hlimit => hrange ((in_range_iff hvalid number).mpr hlimit))]

/-- The octets of a number that a width holds are read back. -/
theorem number_decode_octets {config : NumberConfig} {width capacity : Nat} {number : UInt64}
    (hvalid : config.valid = true) (hrange : config.InRange number.toNat)
    (hhold : config.CanHold width number.toNat) (hwidth : config.width = 0 ∨ config.width = width)
    (hcapacity : numberSize ≤ capacity) :
    numberDecode config (numberOctets config.encoding width number.toNat) capacity =
      .ok number := by
  have hvalid' : ¬ (!config.valid) = true := by simp [hvalid]
  have hlength := number_octets_length config.encoding width number.toNat
  obtain ⟨hlow, hhigh, hfits⟩ := hhold
  unfold numberDecode
  rw [if_neg hvalid', hlength, if_neg (by omega)]
  by_cases hbcd : config.encoding = .bcd
  · have hread : bcdRead 0 (numberOctets config.encoding width number.toNat) = .ok number := by
      unfold NumberEncoding.radix at hfits
      unfold numberOctets
      rw [if_pos hbcd] at hfits
      rw [if_pos hbcd, bcd_read_octets hfits number.toNat_lt, UInt64.ofNat_toNat]
    have hlimit := (in_range_iff hvalid number).mp hrange
    simp only [hbcd, true_and] at hlimit
    simp only [if_pos hbcd, hread, bind, Except.bind, if_neg hlimit, pure, Except.pure]
    rw [if_neg (by omega)]
  · have hread : readUint (numberOctets config.encoding width number.toNat) width
        config.encoding.order = .ok number.toNat := by
      unfold NumberEncoding.maximum at hhigh
      unfold NumberEncoding.radix at hfits
      unfold numberOctets
      rw [if_neg hbcd] at hhigh hfits
      rw [if_neg hbcd]
      have hwritten := write_uint_of_fits hlow hhigh (order_known config.encoding) hfits
      have := read_uint_write_uint hwritten hfits []
      rwa [List.append_nil] at this
    simp only [if_neg hbcd, hread, bind, Except.bind, pure, Except.pure, UInt64.ofNat_toNat]
    rw [if_neg (by omega)]

theorem bcd_read_ne_fault (number : UInt64) (data : Bytes) :
    bcdRead number data ≠ .error .fault := by
  induction data generalizing number with
  | nil => exact fun h => by cases h
  | cons octet rest ih =>
    rw [bcdRead]
    split
    · exact fun h => by cases h
    · exact ih _

/-- The decoder stays inside the data. -/
theorem number_decode_ne_fault (config : NumberConfig) (data : Bytes) (capacity : Nat) :
    numberDecode config data capacity ≠ .error .fault := by
  unfold numberDecode
  split
  · exact fun h => by cases h
  split
  · exact fun h => by cases h
  have hend : ∀ number : UInt64, (if capacity < numberSize then .error (.code .bufferTooShort)
      else pure number : CodecResult UInt64) ≠ .error .fault := by
    intro number
    split <;> exact fun h => by cases h
  dsimp only
  split
  · refine Guarded.bind_ne_fault (bcd_read_ne_fault _ _) fun number _ => ?_
    split
    · exact fun h => by cases h
    · exact hend number
  · split
    · exact fun h => by cases h
    · exact hend _

end OpenTlv
