import OpenTlv.Builtins.EmvCodec

/-!
# What the EMV codecs stage

The octets that the branches of the encoder stage for the kinds other than Track 2 and digit
strings, and that the branches of the decoder read the same representation from them.
-/

namespace OpenTlv

/-! ## Numbers -/

theorem emv_number_valid {digits size : Nat} (hdigits : digits ≤ 18) (hsize : size ≤ 8) :
    (emvNumber digits size).valid = true := by
  unfold emvNumber NumberConfig.valid
  by_cases hzero : digits = 0
  · simp [hzero, hsize]
  · simp [hzero]
    omega

/-- The octets that a number is written in. -/
abbrev emvNumberOctets (digits size : Nat) (number : UInt64) : Bytes :=
  numberOctets (emvNumber digits size).encoding size number.toNat

/-- The numbers that fit into octets. -/
structure EmvFits (digits size : Nat) (number : UInt64) : Prop where
  decimals : digits ≤ 18
  octets : size ≤ 8
  range : (emvNumber digits size).InRange number.toNat
  hold : (emvNumber digits size).CanHold size number.toNat

/-- A number that fits is written. -/
theorem write_number_eq {digits size offset : Nat} {number : UInt64} {bytes : Bytes}
    (h : EmvFits digits size number) (hroom : offset + size ≤ bytes.length) :
    writeNumber number digits bytes offset size =
      .ok (true, Octets.store bytes offset (emvNumberOctets digits size number)) := by
  have hpositive := h.hold.1
  have hselected : (emvNumber digits size).selected number = size :=
    if_pos (show size ≠ 0 by omega)
  have hencode := fun part => @number_encode_of_hold (emvNumber digits size) number (some part)
    (emv_number_valid h.decimals h.octets) h.range (by rw [hselected]; exact h.hold)
  have hpart : ((bytes.drop offset).take size).length = size := by
    rw [List.length_take, List.length_drop]
    omega
  have hlength : (emvNumberOctets digits size number).length = size := number_octets_length ..
  have hwhole : Octets.store ((bytes.drop offset).take size) 0
      (emvNumberOctets digits size number) = emvNumberOctets digits size number := by
    rw [Guarded.store_front, List.drop_of_length_le (by omega), List.append_nil]
  have hsize := h.octets
  unfold writeNumber
  rw [if_neg (by omega), Guarded.slice, if_pos hroom]
  simp only [bind, Except.bind]
  rw [hencode, hselected, stored_of_le (by rw [number_octets_length]; omega)]
  dsimp only
  rw [hwhole, Guarded.put_of_le (by omega)]
  rfl

/-- A number that does not fit is not written. -/
theorem write_number_error {digits size offset : Nat} {number : UInt64} {bytes : Bytes}
    (hdigits : digits ≤ 18) (hpositive : 0 < size) (hsize : size ≤ 8)
    (hroom : offset + size ≤ bytes.length) (h : ¬ EmvFits digits size number) :
    writeNumber number digits bytes offset size = .ok (false, bytes) := by
  have hselected : (emvNumber digits size).selected number = size :=
    if_pos (show size ≠ 0 by omega)
  have hencode := fun part => @number_encode_error (emvNumber digits size) number (some part)
    (emv_number_valid hdigits hsize) (by
      rw [hselected]
      exact fun hboth => h ⟨hdigits, hsize, hboth.1, hboth.2⟩)
  unfold writeNumber
  rw [if_neg (by omega), Guarded.slice, if_pos hroom]
  simp only [bind, Except.bind]
  rw [hencode]

/-- A number that fits is read from its octets. -/
theorem read_number_eq {digits size offset : Nat} {number : UInt64} {front rest : Bytes}
    (h : EmvFits digits size number) (hoffset : front.length = offset) :
    readNumber (front ++ (emvNumberOctets digits size number ++ rest)) offset size digits =
      .ok (some number) := by
  have hsize := h.octets
  have hdecode := @number_decode_octets (emvNumber digits size) size numberSize number
    (emv_number_valid h.decimals h.octets) h.range h.hold (.inr rfl) (le_refl _)
  unfold readNumber
  rw [if_neg (by omega), Guarded.slice_behind front (emvNumberOctets digits size number) rest
    hoffset (number_octets_length _ _ _)]
  simp only [bind, Except.bind]
  rw [hdecode]

/-- A number that fits is read from octets of its own. -/
theorem read_number_whole {digits size : Nat} {number : UInt64} (h : EmvFits digits size number) :
    readNumber (emvNumberOctets digits size number) 0
      (emvNumberOctets digits size number).length digits = .ok (some number) := by
  have hread := @read_number_eq digits size 0 number [] [] h rfl
  rw [List.nil_append, List.append_nil] at hread
  rw [number_octets_length]
  exact hread

/-- Reading a number has no fault inside of the data. -/
theorem read_number_ne_fault {data : Bytes} {offset size digits : Nat}
    (h : offset + size ≤ data.length) : readNumber data offset size digits ≠ .error .fault := by
  unfold readNumber
  split
  · exact fun h => by cases h
  · rw [Guarded.slice, if_pos h]
    refine Guarded.bind_ne_fault (fun h => by cases h) fun part _ => ?_
    split
    · exact fun h => by cases h
    next hfault => exact absurd hfault (number_decode_ne_fault _ _ _)
    · exact fun h => by cases h

/-! ## Staging -/

/-- Octets that a branch of the encoder stages. -/
structure Stages (staged : Staged) (octets : Bytes) : Prop where
  staged : staged = .ok (octets.length, Octets.store emvStaging 0 octets)
  room : octets.length ≤ 252

theorem emv_staging_length : emvStaging.length = 252 :=
  List.length_replicate

/-- A number that fits is staged. -/
theorem stage_number_stages {digits count : Nat} {number : UInt64}
    (h : EmvFits digits count number) :
    Stages (stageNumber number digits count) (emvNumberOctets digits count number) := by
  have hsize := h.octets
  have hlength : (emvNumberOctets digits count number).length = count := number_octets_length ..
  refine ⟨?_, by omega⟩
  have hroom : 0 + count ≤ emvStaging.length := by
    rw [emv_staging_length]
    omega
  unfold stageNumber
  rw [write_number_eq h hroom, hlength]
  rfl

/-- What a branch of the encoder does with a representation: it rejects it, or it stages octets
that the branch of the decoder reads as the same representation. -/
def EmvFaithful {α : Type} (same : α → α → Prop) (size : Nat) (staged : Staged)
    (decode : Bytes → Nat → CodecResult α) (value : α) : Prop :=
  staged = .error (.code .invalidValue) ∨
    ∃ octets, Stages staged octets ∧ ∀ capacity, size ≤ capacity →
      ∃ decoded, decode octets capacity = .ok decoded ∧ same value decoded

theorem emv_store_of_le {α : Type} {size capacity : Nat} (object : α) (h : size ≤ capacity) :
    emvStore size capacity object = .ok object :=
  if_neg (by omega)

theorem emv_store_ne_fault {α : Type} (size capacity : Nat) (object : α) :
    emvStore size capacity object ≠ .error .fault := by
  unfold emvStore
  split <;> exact fun h => by cases h

/-- Three numbers of two digits in one number. -/
theorem triple_number {a b c : UInt8} (ha : a ≤ 99) (hb : b ≤ 99) (hc : c ≤ 99)
    {number : UInt64} (h : number = a.toUInt64 * 10000 + b.toUInt64 * 100 + c.toUInt64) :
    (number / 10000).toUInt8 = a ∧ (number / 100 % 100).toUInt8 = b ∧
      (number % 100).toUInt8 = c ∧ EmvFits 6 3 number := by
  have ha' : a.toNat ≤ 99 := UInt8.le_iff_toNat_le.mp ha
  have hb' : b.toNat ≤ 99 := UInt8.le_iff_toNat_le.mp hb
  have hc' : c.toNat ≤ 99 := UInt8.le_iff_toNat_le.mp hc
  have hnumber : number.toNat = a.toNat * 10000 + b.toNat * 100 + c.toNat := by
    rw [h]
    simp only [UInt64.toNat_add, UInt64.toNat_mul, UInt8.toNat_toUInt64, UInt64.reduceToNat]
    omega
  refine ⟨?_, ?_, ?_, by norm_num, by norm_num, fun _ => ?_, by norm_num, by decide, ?_⟩
  · apply UInt8.toNat_inj.mp
    simp only [UInt64.toNat_toUInt8, UInt64.toNat_div, UInt64.reduceToNat, hnumber]
    omega
  · apply UInt8.toNat_inj.mp
    simp only [UInt64.toNat_toUInt8, UInt64.toNat_mod, UInt64.toNat_div, UInt64.reduceToNat,
      hnumber]
    omega
  · apply UInt8.toNat_inj.mp
    simp only [UInt64.toNat_toUInt8, UInt64.toNat_mod, UInt64.reduceToNat, hnumber]
    omega
  · show number.toNat < 10 ^ 6
    omega
  · show number.toNat < 100 ^ 3
    omega

/-! ## Dates and times -/

theorem month_days_le (month : Nat) : monthDays.getD month 0 ≤ 31 := by
  by_cases hmonth : month < 12
  · revert month
    decide
  · rw [List.getD_eq_default _ _ (by simpa [monthDays] using hmonth)]
    norm_num

/-- The fields of a valid date fit two digits. -/
theorem valid_date_bounds {date : EmvDate} (h : validDate date = true) :
    date.year ≤ 99 ∧ date.month ≤ 99 ∧ date.day ≤ 99 := by
  unfold validDate at h
  split at h
  · cases h
  next hbounds =>
    have hdays := month_days_le (date.month.toNat - 1)
    simp only [decide_eq_true_eq] at h
    have hday : date.day.toNat ≤ 32 := by
      have := h.2
      split at this <;> omega
    simp only [not_or, UInt8.not_lt] at hbounds
    refine ⟨hbounds.1, ?_, ?_⟩
    · exact UInt8.le_trans hbounds.2.2 (by decide)
    · exact UInt8.le_iff_toNat_le.mpr (show date.day.toNat ≤ 99 by omega)

/-- A date is staged and read back. -/
theorem stage_date_faithful (date : EmvDate) :
    EmvFaithful Eq 3 (stageDate 3 date) decodeDate date := by
  unfold stageDate
  cases hvalid : validDate date with
  | false => exact .inl rfl
  | true =>
    obtain ⟨hyear, hmonth, hday⟩ := valid_date_bounds hvalid
    obtain ⟨hyear, hmonth, hday, hfits⟩ :=
      @triple_number _ _ _ hyear hmonth hday date.number rfl
    refine .inr ⟨_, stage_number_stages hfits, fun capacity hcapacity => ⟨date, ?_, rfl⟩⟩
    unfold decodeDate
    rw [read_number_whole hfits]
    show (if !validDate ⟨(date.number / 10000).toUInt8, (date.number / 100 % 100).toUInt8,
      (date.number % 100).toUInt8⟩ then _ else _) = _
    rw [hyear, hmonth, hday, hvalid, if_neg (by simp), emv_store_of_le _ hcapacity]

/-- A time is staged and read back. -/
theorem stage_time_faithful (time : EmvTime) :
    EmvFaithful Eq 3 (stageTime 3 time) decodeTime time := by
  unfold stageTime
  cases hvalid : validTime time with
  | false => exact .inl rfl
  | true =>
    have hbounds : time.hour ≤ 23 ∧ time.minute ≤ 59 ∧ time.second ≤ 59 := by
      simpa [validTime, and_assoc] using hvalid
    obtain ⟨hhour, hminute, hsecond, hfits⟩ := @triple_number time.hour time.minute time.second
      (UInt8.le_trans hbounds.1 (by decide)) (UInt8.le_trans hbounds.2.1 (by decide))
      (UInt8.le_trans hbounds.2.2 (by decide)) time.number rfl
    refine .inr ⟨_, stage_number_stages hfits, fun capacity hcapacity => ⟨time, ?_, rfl⟩⟩
    unfold decodeTime
    rw [read_number_whole hfits]
    show (if !validTime ⟨(time.number / 10000).toUInt8, (time.number / 100 % 100).toUInt8,
      (time.number % 100).toUInt8⟩ then _ else _) = _
    rw [hhour, hminute, hsecond, hvalid, if_neg (by simp), emv_store_of_le _ hcapacity]

/-! ## Enumerations -/

/-- An enumerator whose number fits is read back. -/
theorem decode_enumeration_eq {digits size capacity : Nat} {valid : UInt64 → Bool}
    {enumerator : UInt32} (h : EmvFits digits size enumerator.toUInt64)
    (hvalid : valid enumerator.toUInt64 = true) (hcapacity : 4 ≤ capacity) :
    decodeEnumeration digits valid (emvNumberOctets digits size enumerator.toUInt64) capacity =
      .ok enumerator := by
  unfold decodeEnumeration
  rw [read_number_whole h]
  show (if !valid enumerator.toUInt64 then _ else emvStore 4 capacity
    enumerator.toUInt64.toUInt32) = _
  rw [hvalid, if_neg (by simp), emv_store_of_le _ hcapacity, UInt32.toUInt32_toUInt64]

/-- The numbers of the enumerators fit. -/
theorem enumerator_fits {digits size : Nat} {number : UInt64} (hdigits : digits ≤ 18)
    (hpositive : 0 < size) (hsize : size ≤ 8)
    (hrange : digits ≠ 0 → number.toNat < 10 ^ digits)
    (hhold : number.toNat < 100 ^ size) : EmvFits digits size number := by
  have hradix : 100 ^ size ≤ 256 ^ size := Nat.pow_le_pow_left (by norm_num) size
  by_cases hzero : digits = 0
  · subst hzero
    exact ⟨hdigits, hsize, fun h => (by cases h), hpositive, hsize,
      (show number.toNat < 256 ^ size by omega)⟩
  · have hencoding : (emvNumber digits size).encoding = .bcd := if_pos hzero
    refine ⟨hdigits, hsize, fun _ => hrange hzero, hpositive, ?_, ?_⟩
    · rw [hencoding]
      exact Nat.le_succ_of_le hsize
    · rw [hencoding]
      exact hhold

/-- An account type is staged and read back. -/
theorem stage_account_faithful (account : UInt32) :
    EmvFaithful Eq 4 (stageAccount 1 account) (decodeEnumeration 2 validAccount) account := by
  unfold stageAccount
  cases hvalid : validAccount account.toUInt64 with
  | false => exact .inl rfl
  | true =>
    have hnumber : account.toUInt64.toNat ≤ 30 := by
      simp only [validAccount, Bool.or_eq_true, decide_eq_true_eq] at hvalid
      obtain ((h | h) | h) | h := hvalid <;> rw [h] <;> decide
    have hfits : EmvFits 2 1 account.toUInt64 :=
      enumerator_fits (by norm_num) (by norm_num) (by norm_num)
        (fun _ => by omega) (by omega)
    exact .inr ⟨_, stage_number_stages hfits, fun capacity hcapacity =>
      ⟨account, decode_enumeration_eq hfits hvalid hcapacity, rfl⟩⟩

/-- A biometric type is staged and read back. -/
theorem stage_biometric_faithful (biometric : UInt32) :
    EmvFaithful Eq 4 (stageBiometric biometric) (decodeEnumeration 0 validBiometric)
      biometric := by
  unfold stageBiometric
  cases hvalid : validBiometric biometric.toUInt64 with
  | false => exact .inl rfl
  | true =>
    have hfits : EmvFits 0 (if biometric = biometricPalm then 3 else 1)
        biometric.toUInt64 := by
      by_cases hpalm : biometric = biometricPalm
      · rw [if_pos hpalm, hpalm]
        exact enumerator_fits (by norm_num) (by norm_num) (by norm_num)
          (fun h => absurd rfl h) (by decide)
      · -- Every other biometric type has a number of one octet.
        have hother : biometric.toUInt64 ≠ biometricPalm.toUInt64 := fun h =>
          hpalm (by simpa using congrArg UInt64.toUInt32 h)
        have hnumber : biometric.toUInt64.toNat ≤ 16 := by
          simp only [validBiometric, Bool.or_eq_true, decide_eq_true_eq, hother,
            or_false] at hvalid
          obtain ((h | h) | h) | h := hvalid <;> rw [h] <;> decide
        rw [if_neg hpalm]
        exact enumerator_fits (by norm_num) (by norm_num) (by norm_num)
          (fun h => absurd rfl h) (by omega)
    exact .inr ⟨_, stage_number_stages hfits, fun capacity hcapacity =>
      ⟨biometric, decode_enumeration_eq hfits hvalid hcapacity, rfl⟩⟩

/-! ## Single octets -/

/-- A type of two bits and flags of six are told apart in an octet. -/
theorem cryptogram_octet : ∀ type : Fin 4, ∀ flags : Fin 64,
    ((((UInt32.ofNat type.val <<< 6).toUInt8 ||| UInt8.ofNat flags.val) >>> 6).toUInt32 =
      UInt32.ofNat type.val) ∧
    ((UInt32.ofNat type.val <<< 6).toUInt8 ||| UInt8.ofNat flags.val) &&& 0x3F =
      UInt8.ofNat flags.val := by
  decide +kernel

/-- Cryptogram information is staged and read back. -/
theorem stage_cryptogram_faithful (info : EmvCryptogram) :
    EmvFaithful Eq 8 (stageCryptogram 1 info) decodeCryptogram info := by
  unfold stageCryptogram
  by_cases hinfo : info.type > 3 ∨ info.flags > 0x3F
  · rw [if_pos hinfo]
    exact .inl rfl
  · rw [if_neg hinfo]
    rw [not_or] at hinfo
    have htype : info.type.toNat < 4 := by
      have := UInt32.le_iff_toNat_le.mp (UInt32.not_lt.mp hinfo.1)
      exact Nat.lt_succ_of_le this
    have hflags : info.flags.toNat < 64 := by
      have := UInt8.le_iff_toNat_le.mp (UInt8.not_lt.mp hinfo.2)
      exact Nat.lt_succ_of_le this
    obtain ⟨hhigh, hlow⟩ := cryptogram_octet ⟨_, htype⟩ ⟨_, hflags⟩
    rw [UInt32.ofNat_toNat, UInt8.ofNat_toNat] at hhigh hlow
    refine .inr ⟨[(info.type <<< 6).toUInt8 ||| info.flags], ⟨?_, by simp⟩,
      fun capacity hcapacity => ⟨info, ?_, rfl⟩⟩
    · rw [Guarded.put_first (by rw [emv_staging_length]; simp)]
      rfl
    · show emvStore 8 capacity (⟨_, _⟩ : EmvCryptogram) = _
      rw [hhigh, hlow, emv_store_of_le _ hcapacity]

theorem stage_cvm_result_eq (result : EmvCvmResult) : stageCvmResult 3 result =
    .ok (3, Octets.store emvStaging 0 [result.method, result.condition, result.result]) := by
  have hput := fun front octet offset (hoffset : List.length front = offset)
      (hroom : offset < 252) => @Guarded.put_store Status emvStaging front [octet] offset hoffset
    (by rw [emv_staging_length]; exact hroom)
  unfold stageCvmResult
  simp only [bind, Except.bind]
  rw [Guarded.put_first (by rw [emv_staging_length]; simp)]
  dsimp only
  rw [hput [result.method] _ 1 rfl (by norm_num)]
  dsimp only
  rw [hput ([result.method] ++ [result.condition]) _ 2 rfl (by norm_num)]
  rfl

/-- CVM results are staged and read back. -/
theorem stage_cvm_result_faithful (result : EmvCvmResult) :
    EmvFaithful Eq 3 (stageCvmResult 3 result) decodeCvmResult result := by
  have hdecode : ∀ capacity, decodeCvmResult [result.method, result.condition, result.result]
      capacity = emvStore 3 capacity result := fun capacity => rfl
  rw [stage_cvm_result_eq]
  refine .inr ⟨[result.method, result.condition, result.result], ⟨rfl, by simp⟩,
    fun capacity hcapacity => ⟨result, ?_, rfl⟩⟩
  rw [hdecode, emv_store_of_le _ hcapacity]

/-! ## Lists -/

section Numbers

variable {width argument : Nat}

/-- The octets of the numbers of a list. -/
abbrev emvListOctets (argument width : Nat) (numbers : List UInt64) : Bytes :=
  numbers.flatMap (emvNumberOctets argument width)

theorem emv_list_octets_length (numbers : List UInt64) :
    (emvListOctets argument width numbers).length = numbers.length * width := by
  induction numbers with
  | nil => simp
  | cons number numbers ih =>
    rw [emvListOctets, List.flatMap_cons, List.length_append, number_octets_length,
      show (List.flatMap (emvNumberOctets argument width) numbers).length =
        numbers.length * width from ih, List.length_cons, Nat.succ_mul, Nat.add_comm]

/-- One turn of the loop writes the next number. -/
theorem write_numbers_step {values : Vector UInt64 4} {number : UInt64} {left i : Nat}
    {bytes : Bytes} (hitem : Guarded.item values i = (.ok number : CodecResult UInt64)) :
    writeNumbers values width argument (left + 1) i bytes =
      (writeNumber number argument bytes (i * width) width >>= fun written =>
        match written with
        | (false, _) => .error (.code .invalidValue)
        | (true, bytes) => writeNumbers values width argument left (i + 1) bytes) := by
  rw [writeNumbers, hitem]
  rfl

/-- The loop writes numbers that fit one behind the other. -/
theorem write_numbers_cases (hargument : argument ≤ 18) (hpositive : 0 < width)
    (hwidth : width ≤ 8) {values : Vector UInt64 4} (numbers : List UInt64) :
    ∀ {before after : List UInt64} {front : Bytes},
      values.toList = before ++ (numbers ++ after) → front.length = before.length * width →
      front.length + numbers.length * width ≤ 252 →
      ((∀ number ∈ numbers, EmvFits argument width number) ∧
        writeNumbers values width argument numbers.length before.length
            (Octets.store emvStaging 0 front) =
          .ok (Octets.store emvStaging 0 (front ++ emvListOctets argument width numbers))) ∨
      writeNumbers values width argument numbers.length before.length
        (Octets.store emvStaging 0 front) = .error (.code .invalidValue) := by
  induction numbers with
  | nil =>
    intro before after front _ _ _
    refine .inl ⟨fun _ h => (by cases h), ?_⟩
    rw [emvListOctets, List.flatMap_nil, List.append_nil]
    rfl
  | cons number numbers ih =>
    intro before after front hvalues hfront hroom
    rw [List.length_cons, Nat.succ_mul] at hroom
    have hitem := @Guarded.item_of_lt Status _ _ before.length values number (by
      rw [hvalues, List.getElem?_append_right (le_refl _), Nat.sub_self]
      rfl)
    have hstaging : (Octets.store emvStaging 0 front).length = 252 := by
      rw [Octets.store_length (by rw [emv_staging_length]; omega), emv_staging_length]
    rw [List.length_cons, write_numbers_step hitem]
    by_cases hfits : EmvFits argument width number
    · have hafter := @Guarded.store_after emvStaging front
        (emvNumberOctets argument width number) 0 (Nat.zero_le _)
      rw [Nat.zero_add, hfront] at hafter
      have hnext := @ih (before ++ [number]) after
        (front ++ emvNumberOctets argument width number) (by rw [hvalues]; simp)
        (by
          rw [List.length_append, List.length_append, number_octets_length,
            List.length_singleton, Nat.succ_mul, hfront])
        (by
          rw [List.length_append, number_octets_length]
          omega)
      rw [write_number_eq hfits (by rw [hstaging, ← hfront]; omega), hafter]
      rw [List.length_append, List.length_singleton, List.append_assoc] at hnext
      obtain ⟨hall, hwrite⟩ | hwrite := hnext
      · refine .inl ⟨fun other hother => ?_, hwrite⟩
        obtain rfl | hother := List.mem_cons.mp hother
        · exact hfits
        · exact hall other hother
      · exact .inr hwrite
    · refine .inr ?_
      rw [write_number_error hargument hpositive hwidth (by rw [hstaging, ← hfront]; omega)
        hfits]
      rfl

/-- The loop reads numbers that fit. -/
theorem read_numbers_eq (numbers : List UInt64) :
    ∀ {front rest : Bytes} {i : Nat} {values : Vector UInt64 4},
      (∀ number ∈ numbers, EmvFits argument width number) → front.length = i * width →
      i + numbers.length ≤ 4 →
      ∃ values', readNumbers (front ++ (emvListOctets argument width numbers ++ rest)) width
          argument numbers.length i values = .ok values' ∧
        values'.toList.take (i + numbers.length) = values.toList.take i ++ numbers := by
  induction numbers with
  | nil =>
    intro front rest i values _ _ _
    exact ⟨values, rfl, by simp⟩
  | cons number numbers ih =>
    intro front rest i values hfits hfront hroom
    rw [List.length_cons] at hroom
    have hread := @read_number_eq argument width (i * width) number front
      (emvListOctets argument width numbers ++ rest) (hfits number (List.mem_cons_self ..)) hfront
    obtain ⟨values₁, hassign, htake, -⟩ := @Guarded.assign_next Status _ _ i values number (by omega)
    obtain ⟨values₂, hnext, htake₂⟩ := @ih (front ++ emvNumberOctets argument width number) rest
      (i + 1) values₁ (fun other hother => hfits other (List.mem_cons_of_mem _ hother))
      (by rw [List.length_append, number_octets_length, hfront, Nat.succ_mul]) (by omega)
    refine ⟨values₂, ?_, ?_⟩
    · rw [List.length_cons, readNumbers, emvListOctets, List.flatMap_cons, List.append_assoc,
        hread]
      change (Guarded.assign values i number >>= _) = _
      rw [hassign]
      rwa [List.append_assoc] at hnext
    · rw [List.length_cons, show i + (numbers.length + 1) = i + 1 + numbers.length by omega,
        htake₂, htake, List.append_assoc]
      rfl

/-- The same number of numbers, and the same ones. -/
def EmvNumberList.Same (list other : EmvNumberList) : Prop :=
  list.count = other.count ∧
    list.values.toList.take list.count = other.values.toList.take other.count

/-- A list of numbers is staged and read back. -/
theorem stage_number_list_faithful (hargument : argument = 1 ∨ argument = 3)
    (list : EmvNumberList) :
    EmvFaithful EmvNumberList.Same 40 (stageNumberList argument list)
      (decodeNumberList argument) list := by
  have hbounds : argument ≤ 18 ∧ 0 < (argument + 1) / 2 ∧ (argument + 1) / 2 ≤ 2 := by omega
  unfold stageNumberList
  by_cases hcount : list.count = 0 ∨ list.count > 4
  · exact .inl (if_pos hcount)
  · dsimp only
    rw [if_neg hcount]
    have hused : (list.values.toList.take list.count).length = list.count := by
      rw [List.length_take, Vector.length_toList]
      omega
    have hsmall : list.count * ((argument + 1) / 2) ≤ 4 * 2 :=
      Nat.mul_le_mul (by omega) hbounds.2.2
    have hcases := @write_numbers_cases ((argument + 1) / 2) argument hbounds.1 hbounds.2.1
      (by omega) list.values (list.values.toList.take list.count) []
      (list.values.toList.drop list.count) [] (by simp) (by simp) (by
        rw [hused]
        simp only [List.length_nil]
        omega)
    rw [hused, Guarded.store_nil, List.length_nil, List.nil_append] at hcases
    obtain ⟨hfits, hwrite⟩ | hwrite := hcases
    · have hlength := @emv_list_octets_length ((argument + 1) / 2) argument
        (list.values.toList.take list.count)
      rw [hused] at hlength
      refine .inr ⟨_, ⟨?_, by rw [hlength]; omega⟩, fun capacity hcapacity => ?_⟩
      · rw [hwrite, hlength]
        rfl
      · obtain ⟨values, hread, htake⟩ := @read_numbers_eq ((argument + 1) / 2) argument
          (list.values.toList.take list.count) [] [] 0 (Vector.replicate 4 0) hfits (by simp)
          (by omega)
        rw [hused, List.nil_append, List.append_nil] at hread
        rw [hused, Nat.zero_add, List.take_zero, List.nil_append] at htake
        refine ⟨⟨values, list.count⟩, ?_, rfl, htake.symm⟩
        unfold decodeNumberList
        dsimp only
        rw [hlength, if_neg (by omega), Nat.mul_div_cancel _ hbounds.2.1,
          if_neg (by simp; omega), hread]
        exact emv_store_of_le _ hcapacity
    · rw [hwrite]
      exact .inl rfl

end Numbers

section Entries

/-- The entries that are written. -/
abbrev EmvAflEntry.Valid (entry : EmvAflEntry) : Prop :=
  validAflEntry entry.sfi entry.firstRecord entry.lastRecord entry.offlineAuthRecordCount = true

/-- The octets of an entry. -/
def EmvAflEntry.octets (entry : EmvAflEntry) : Bytes :=
  [entry.sfi <<< 3, entry.firstRecord, entry.lastRecord, entry.offlineAuthRecordCount]

/-- The octets of entries. -/
abbrev aflOctets (entries : List EmvAflEntry) : Bytes :=
  entries.flatMap EmvAflEntry.octets

theorem afl_octets_length (entries : List EmvAflEntry) :
    (aflOctets entries).length = entries.length * 4 := by
  induction entries with
  | nil => rfl
  | cons entry entries ih =>
    rw [aflOctets, List.flatMap_cons, List.length_append, show (List.flatMap EmvAflEntry.octets
      entries).length = entries.length * 4 from ih, List.length_cons, Nat.succ_mul, Nat.add_comm]
    rfl

/-- The identifier of a valid entry keeps its bits. -/
theorem sfi_shift : ∀ sfi : Fin 256, sfi.val ≤ 30 →
    (UInt8.ofNat sfi.val <<< 3) >>> 3 = UInt8.ofNat sfi.val := by
  decide +kernel

theorem EmvAflEntry.Valid.sfi_eq {entry : EmvAflEntry} (h : entry.Valid) :
    (entry.sfi <<< 3) >>> 3 = entry.sfi := by
  have hsfi : entry.sfi ≤ 30 := by
    simp only [Valid, validAflEntry, Bool.and_eq_true, decide_eq_true_eq] at h
    exact h.1.1.1.2
  have hshift := sfi_shift ⟨entry.sfi.toNat, entry.sfi.toNat_lt⟩
    (UInt8.le_iff_toNat_le.mp hsfi)
  rwa [UInt8.ofNat_toNat] at hshift

/-- The loop writes valid entries one behind the other. -/
theorem write_entries_cases {array : Vector EmvAflEntry 63} (entries : List EmvAflEntry) :
    ∀ {before after : List EmvAflEntry} {front : Bytes},
      array.toList = before ++ (entries ++ after) → front.length = before.length * 4 →
      front.length + entries.length * 4 ≤ 252 →
      ((∀ entry ∈ entries, entry.Valid) ∧
        writeEntries array entries.length before.length (Octets.store emvStaging 0 front) =
          .ok (Octets.store emvStaging 0 (front ++ aflOctets entries))) ∨
      writeEntries array entries.length before.length (Octets.store emvStaging 0 front) =
        .error (.code .invalidValue) := by
  induction entries with
  | nil =>
    intro before after front _ _ _
    refine .inl ⟨fun _ h => (by cases h), ?_⟩
    rw [aflOctets, List.flatMap_nil, List.append_nil]
    rfl
  | cons entry entries ih =>
    intro before after front harray hfront hroom
    rw [List.length_cons, Nat.succ_mul] at hroom
    have hitem := @Guarded.item_of_lt Status _ _ before.length array entry (by
      rw [harray, List.getElem?_append_right (le_refl _), Nat.sub_self]
      rfl)
    have hput := fun front octet offset (hoffset : List.length front = offset)
        (hroom : offset + 1 ≤ 252) => @Guarded.put_store Status emvStaging front [octet] offset
      hoffset (by rw [emv_staging_length]; exact hroom)
    rw [List.length_cons, writeEntries, hitem]
    simp only [bind, Except.bind]
    cases hvalid : validAflEntry entry.sfi entry.firstRecord entry.lastRecord
        entry.offlineAuthRecordCount with
    | false => exact .inr rfl
    | true =>
      have hnext := @ih (before ++ [entry]) after (front ++ entry.octets)
        (by rw [harray]; simp) (by simp [EmvAflEntry.octets]; omega)
        (by simp [EmvAflEntry.octets]; omega)
      have hoctets : front ++ [entry.sfi <<< 3] ++ [entry.firstRecord] ++
          [entry.lastRecord] ++ [entry.offlineAuthRecordCount] = front ++ entry.octets := by
        simp [EmvAflEntry.octets]
      rw [if_neg (by simp), hput front _ _ hfront (by omega)]
      dsimp only
      rw [hput (front ++ [entry.sfi <<< 3]) _ _ (by simp; omega) (by omega)]
      dsimp only
      rw [hput (front ++ [entry.sfi <<< 3] ++ [entry.firstRecord]) _ _ (by simp; omega)
        (by omega)]
      dsimp only
      rw [hput (front ++ [entry.sfi <<< 3] ++ [entry.firstRecord] ++ [entry.lastRecord]) _ _
        (by simp; omega) (by omega), hoctets]
      rw [List.length_append, List.length_singleton, List.append_assoc] at hnext
      obtain ⟨hall, hwrite⟩ | hwrite := hnext
      · refine .inl ⟨fun other hother => ?_, hwrite⟩
        obtain rfl | hother := List.mem_cons.mp hother
        · exact hvalid
        · exact hall other hother
      · exact .inr hwrite

/-- The loop reads valid entries. -/
theorem read_entries_eq (entries : List EmvAflEntry) :
    ∀ {front rest : Bytes} {i : Nat} {array : Vector EmvAflEntry 63},
      (∀ entry ∈ entries, entry.Valid) → front.length = i * 4 → i + entries.length ≤ 63 →
      ∃ array', readEntries (front ++ (aflOctets entries ++ rest)) entries.length i array =
          .ok array' ∧
        array'.toList.take (i + entries.length) = array.toList.take i ++ entries := by
  induction entries with
  | nil =>
    intro front rest i array _ _ _
    exact ⟨array, rfl, by simp⟩
  | cons entry entries ih =>
    intro front rest i array hvalid hfront hroom
    rw [List.length_cons] at hroom
    have hentry := hvalid entry (List.mem_cons_self ..)
    obtain ⟨data, hdata⟩ : ∃ data, data = front ++ (aflOctets (entry :: entries) ++ rest) :=
      ⟨_, rfl⟩
    have hread : ∀ before octet after, data = before ++ octet :: after →
        ∀ index, before.length = index →
          (Guarded.octet data index : CodecResult UInt8) = .ok octet := by
      intro before octet after hequal index hindex
      rw [hequal]
      exact Guarded.octet_behind before octet after hindex
    have hfirst := hread front (entry.sfi <<< 3) _
      (by rw [hdata]; simp [aflOctets, EmvAflEntry.octets]; rfl) _ hfront
    have hsecond := hread (front ++ [entry.sfi <<< 3]) entry.firstRecord _
      (by rw [hdata]; simp [aflOctets, EmvAflEntry.octets]; rfl) (i * 4 + 1) (by simp; omega)
    have hthird := hread (front ++ [entry.sfi <<< 3, entry.firstRecord]) entry.lastRecord _
      (by rw [hdata]; simp [aflOctets, EmvAflEntry.octets]; rfl) (i * 4 + 2) (by simp; omega)
    have hfourth := hread (front ++ [entry.sfi <<< 3, entry.firstRecord, entry.lastRecord])
      entry.offlineAuthRecordCount _ (by rw [hdata]; simp [aflOctets, EmvAflEntry.octets]; rfl)
      (i * 4 + 3) (by simp; omega)
    obtain ⟨array₁, hassign, htake, -⟩ := @Guarded.assign_next Status _ _ i array entry (by omega)
    obtain ⟨array₂, hnext, htake₂⟩ := @ih (front ++ entry.octets) rest (i + 1) array₁
      (fun other hother => hvalid other (List.mem_cons_of_mem _ hother))
      (by simp [EmvAflEntry.octets]; omega) (by omega)
    have hsame : front ++ entry.octets ++ (aflOctets entries ++ rest) = data := by
      rw [hdata]
      simp [aflOctets]
    rw [hsame] at hnext
    rw [← hdata]
    refine ⟨array₂, ?_, ?_⟩
    · rw [List.length_cons, readEntries]
      simp only [bind, Except.bind, hfirst, hsecond, hthird, hfourth, hentry.sfi_eq]
      rw [show validAflEntry entry.sfi entry.firstRecord entry.lastRecord
        entry.offlineAuthRecordCount = true from hentry, if_neg (by simp), hassign]
      exact hnext
    · rw [List.length_cons, show i + (entries.length + 1) = i + 1 + entries.length by omega,
        htake₂, htake, List.append_assoc]
      rfl

/-- The same number of entries, and the same ones. -/
def EmvAfl.Same (afl other : EmvAfl) : Prop :=
  afl.count = other.count ∧ afl.entries.toList.take afl.count = other.entries.toList.take other.count

/-- A file locator is staged and read back. -/
theorem stage_afl_faithful (afl : EmvAfl) :
    EmvFaithful EmvAfl.Same 264 (stageAfl afl) decodeAfl afl := by
  unfold stageAfl
  by_cases hcount : afl.count = 0 ∨ afl.count > 63
  · exact .inl (if_pos hcount)
  · rw [if_neg hcount]
    have hused : (afl.entries.toList.take afl.count).length = afl.count := by
      rw [List.length_take, Vector.length_toList]
      omega
    have hcases := @write_entries_cases afl.entries (afl.entries.toList.take afl.count) []
      (afl.entries.toList.drop afl.count) [] (by simp) (by simp) (by
        rw [hused]
        simp only [List.length_nil]
        omega)
    rw [hused, Guarded.store_nil, List.length_nil, List.nil_append] at hcases
    obtain ⟨hvalid, hwrite⟩ | hwrite := hcases
    · have hlength := afl_octets_length (afl.entries.toList.take afl.count)
      rw [hused] at hlength
      refine .inr ⟨_, ⟨?_, by rw [hlength]; omega⟩, fun capacity hcapacity => ?_⟩
      · rw [hwrite, hlength]
        rfl
      · obtain ⟨entries, hread, htake⟩ := @read_entries_eq
          (afl.entries.toList.take afl.count) [] [] 0 (Vector.replicate 63 ⟨0, 0, 0, 0⟩) hvalid
          (by simp) (by omega)
        rw [hused, List.nil_append, List.append_nil] at hread
        rw [hused, Nat.zero_add, List.take_zero, List.nil_append] at htake
        refine ⟨⟨entries, afl.count⟩, ?_, rfl, htake.symm⟩
        unfold decodeAfl
        dsimp only
        rw [hlength, Nat.mul_div_cancel _ (by norm_num), hread]
        exact emv_store_of_le _ hcapacity
    · rw [hwrite]
      exact .inl rfl

end Entries

/-! ## The decoder stays inside its storage -/

theorem decode_date_ne_fault (data : Bytes) (capacity : Nat) :
    decodeDate data capacity ≠ .error .fault := by
  refine Guarded.bind_ne_fault (read_number_ne_fault (by omega)) fun read _ => ?_
  cases read with
  | none => exact fun h => by cases h
  | some number =>
    dsimp only
    split
    · exact fun h => by cases h
    · exact emv_store_ne_fault _ _ _

theorem decode_time_ne_fault (data : Bytes) (capacity : Nat) :
    decodeTime data capacity ≠ .error .fault := by
  refine Guarded.bind_ne_fault (read_number_ne_fault (by omega)) fun read _ => ?_
  cases read with
  | none => exact fun h => by cases h
  | some number =>
    dsimp only
    split
    · exact fun h => by cases h
    · exact emv_store_ne_fault _ _ _

theorem decode_enumeration_ne_fault (digits : Nat) (valid : UInt64 → Bool) (data : Bytes)
    (capacity : Nat) : decodeEnumeration digits valid data capacity ≠ .error .fault := by
  refine Guarded.bind_ne_fault (read_number_ne_fault (by omega)) fun read _ => ?_
  cases read with
  | none => exact fun h => by cases h
  | some number =>
    dsimp only
    split
    · exact fun h => by cases h
    · exact emv_store_ne_fault _ _ _

theorem decode_cryptogram_ne_fault {data : Bytes} (h : data.length = 1) (capacity : Nat) :
    decodeCryptogram data capacity ≠ .error .fault :=
  Guarded.bind_ne_fault (Guarded.octet_ne_fault (by omega)) fun _ _ => emv_store_ne_fault _ _ _

theorem decode_cvm_result_ne_fault {data : Bytes} (h : data.length = 3) (capacity : Nat) :
    decodeCvmResult data capacity ≠ .error .fault :=
  Guarded.bind_ne_fault (Guarded.octet_ne_fault (by omega)) fun _ _ =>
    Guarded.bind_ne_fault (Guarded.octet_ne_fault (by omega)) fun _ _ =>
      Guarded.bind_ne_fault (Guarded.octet_ne_fault (by omega)) fun _ _ =>
        emv_store_ne_fault _ _ _

/-- Reading numbers stays inside the octets and the table. -/
theorem read_numbers_ne_fault {data : Bytes} {width argument remaining i : Nat}
    {values : Vector UInt64 4} (hdata : (i + remaining) * width ≤ data.length)
    (hroom : i + remaining ≤ 4) :
    readNumbers data width argument remaining i values ≠ .error .fault := by
  induction remaining generalizing i values with
  | zero => exact fun h => by cases h
  | succ remaining ih =>
    have hextent : i * width + width ≤ data.length := by
      have := Nat.mul_le_mul_right width (show i + 1 ≤ i + (remaining + 1) by omega)
      rw [Nat.add_mul, Nat.one_mul] at this
      omega
    refine Guarded.bind_ne_fault (read_number_ne_fault hextent) fun read _ => ?_
    cases read with
    | none => exact fun h => by cases h
    | some number =>
      exact Guarded.bind_ne_fault (Guarded.assign_ne_fault _ _ (by omega)) fun _ _ =>
        ih (by rwa [show i + 1 + remaining = i + (remaining + 1) by omega]) (by omega)

theorem decode_number_list_ne_fault {argument : Nat} (hargument : argument = 1 ∨ argument = 3)
    (data : Bytes) (capacity : Nat) : decodeNumberList argument data capacity ≠ .error .fault := by
  unfold decodeNumberList
  dsimp only
  rw [if_neg (by omega)]
  split
  · exact fun h => by cases h
  next hcount =>
    refine Guarded.bind_ne_fault (read_numbers_ne_fault ?_ (by omega)) fun _ _ =>
      emv_store_ne_fault _ _ _
    rw [Nat.zero_add]
    exact Nat.div_mul_le_self _ _

/-- Reading entries stays inside the octets and the table. -/
theorem read_entries_ne_fault {data : Bytes} {remaining i : Nat}
    {entries : Vector EmvAflEntry 63} (hdata : (i + remaining) * 4 ≤ data.length)
    (hroom : i + remaining ≤ 63) : readEntries data remaining i entries ≠ .error .fault := by
  induction remaining generalizing i entries with
  | zero => exact fun h => by cases h
  | succ remaining ih =>
    refine Guarded.bind_ne_fault (Guarded.octet_ne_fault (by omega)) fun _ _ =>
      Guarded.bind_ne_fault (Guarded.octet_ne_fault (by omega)) fun _ _ =>
        Guarded.bind_ne_fault (Guarded.octet_ne_fault (by omega)) fun _ _ =>
          Guarded.bind_ne_fault (Guarded.octet_ne_fault (by omega)) fun _ _ => ?_
    dsimp only
    split
    · exact fun h => by cases h
    · exact Guarded.bind_ne_fault (Guarded.assign_ne_fault _ _ (by omega)) fun _ _ =>
        ih (by omega) (by omega)

theorem decode_afl_ne_fault {data : Bytes} (h : data.length ≤ 252) (capacity : Nat) :
    decodeAfl data capacity ≠ .error .fault :=
  Guarded.bind_ne_fault (read_entries_ne_fault (by omega) (by omega)) fun _ _ =>
    emv_store_ne_fault _ _ _

end OpenTlv
