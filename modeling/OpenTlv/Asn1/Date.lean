import OpenTlv.Asn1.SpanRoundTrip
import OpenTlv.Lib.Gregorian

/-!
# The date conversion of queries

`date_decode` of `asn1/query.c` counts the seconds from the start of 1970 to the time that a
`GeneralizedTime` without a fraction names. Every result of its arithmetic is checked against
the range of its type.
-/

namespace OpenTlv

/-- The result of a signed operation of a width, which must not overflow. -/
def signedResult (width : Nat) (number : Int) : CodecResult Int :=
  if -2 ^ (width - 1) ≤ number ∧ number < 2 ^ (width - 1) then .ok number else .error .fault

/-- The `days` of `date_decode`. -/
def dateDays : Vector Nat 12 :=
  #v[31, 28, 31, 30, 31, 30, 31, 31, 30, 31, 30, 31]

/-- The `leap` of `date_decode`. -/
def dateLeap (year : Int) : Bool :=
  year.tmod 4 = 0 && (year.tmod 100 ≠ 0 || year.tmod 400 = 0)

/-- The entry of a month with the leap day. -/
def dateMonth (leap : Bool) (month : Nat) : CodecResult Nat := do
  let days ← Guarded.item dateDays (month - 1)
  return days + (decide (month = 2) && leap).toNat

/-- The loop over the months before, with `turns` of them left from `month` on. -/
def dateMonths (leap : Bool) : Nat → Nat → Int → CodecResult Int
  | 0, _, total => .ok total
  | turns + 1, month, total => do
      let days ← dateMonth leap month
      let total ← signedResult 64 (total + days)
      dateMonths leap turns (month + 1) total

/-- The days of `total` before a year. -/
def dateYears (year : Int) : CodecResult Int := do
  let total ← signedResult 64 (365 * year)
  let fours ← signedResult 64 (year + 3)
  let total ← signedResult 64 (total + fours.tdiv 4)
  let hundreds ← signedResult 64 (year + 99)
  let total ← signedResult 64 (total - hundreds.tdiv 100)
  let fourHundreds ← signedResult 64 (year + 399)
  signedResult 64 (total + fourHundreds.tdiv 400)

/-- The `epoch` of `date_decode`. -/
def dateEpoch : Int :=
  365 * 1970 + (1970 + 3) / 4 - (1970 + 99) / 100 + (1970 + 399) / 400

/-- The seconds of `out.integer`. -/
def dateSeconds (total : Int) (time : Asn1GeneralizedTime) : CodecResult Int := do
  let days ← signedResult 64 (total - dateEpoch)
  let seconds ← signedResult 64 (days * 86400)
  let hours ← signedResult 32 (time.hour.toNat * 3600)
  let seconds ← signedResult 64 (seconds + hours)
  let minutes ← signedResult 32 (time.minute.toNat * 60)
  let seconds ← signedResult 64 (seconds + minutes)
  signedResult 64 (seconds + time.second.toNat)

/-- The arithmetic of `date_decode` on a time whose month exists. -/
def dateInteger (leap : Bool) (time : Asn1GeneralizedTime) : CodecResult Int := do
  let total ← dateYears time.year
  let total ← dateMonths leap (time.month.toNat - 1) 1 total
  let total ← signedResult 64 (total + (time.day.toNat - 1 : Int))
  dateSeconds total time

/-- `date_decode`. -/
def dateDecode (data : Bytes) (capacity : Nat) : CodecResult Int := do
  let time ← decodeGeneralizedTime data capacity
  if time.fractionDigits.length ≠ 0 then .error (.code .invalidValue)
  else if time.month = 0 ∨ time.month > 12 ∨ time.day = 0 then .error (.code .invalidValue)
  else do
    let leap := dateLeap time.year
    let days ← dateMonth leap time.month.toNat
    if time.day.toNat > days then .error (.code .invalidValue)
    else dateInteger leap time

theorem signed_result_ok {width : Nat} {number : Int} (hlow : -2 ^ (width - 1) ≤ number)
    (hhigh : number < 2 ^ (width - 1)) : signedResult width number = .ok number :=
  if_pos ⟨hlow, hhigh⟩

/-- A program goes on with a result that does not overflow. -/
theorem signed_result_bind {α : Type} {width : Nat} {number : Int} {next : Int → CodecResult α}
    (hlow : -2 ^ (width - 1) ≤ number) (hhigh : number < 2 ^ (width - 1)) :
    (signedResult width number >>= next) = next number := by
  rw [signed_result_ok hlow hhigh]
  rfl

theorem result_bind {α β : Type} (value : α) (next : α → CodecResult β) :
    ((.ok value : CodecResult α) >>= next) = next value :=
  rfl

/-- The leap test of the code is the one of the calendar. -/
theorem date_leap_eq {year : Int} (h : 0 ≤ year) : dateLeap year = isLeapYear year := by
  unfold dateLeap isLeapYear
  rw [Int.tmod_eq_emod_of_nonneg h, Int.tmod_eq_emod_of_nonneg h, Int.tmod_eq_emod_of_nonneg h]

/-- The month table gives the calendar's lengths. -/
theorem date_month_eq {year : Int} {month : Nat} (hlow : 1 ≤ month) (hhigh : month ≤ 12) :
    dateMonth (isLeapYear year) month = .ok (monthLength year month) := by
  unfold monthLength
  interval_cases month
  all_goals
    first
    | rfl
    | (cases isLeapYear year <;> rfl)

theorem month_length_le (year : Int) (month : Nat) : monthLength year month ≤ 31 := by
  unfold monthLength
  split_ifs <;> omega

/-- The loop adds the days of the months before. -/
theorem date_months_eq {year : Int} (turns : Nat) {month : Nat} {total : Int}
    (hmonth : 1 ≤ month) (hlast : month + turns ≤ 12)
    (htotal : 0 ≤ total ∧ total + 31 * turns ≤ 2 ^ 32) :
    dateMonths (isLeapYear year) turns month total =
      .ok (total + (CivilDate.daysBeforeMonth year (month + turns) -
        CivilDate.daysBeforeMonth year month)) := by
  induction turns generalizing month total with
  | zero =>
    show Except.ok total = _
    rw [Nat.add_zero, Int.sub_self, Int.add_zero]
  | succ turns ih =>
    have hlength := month_length_le year month
    obtain ⟨hlow, hhigh⟩ := htotal
    push_cast at hhigh
    show (dateMonth (isLeapYear year) month >>= fun days => signedResult 64 (total + days) >>=
      fun total => dateMonths (isLeapYear year) turns (month + 1) total) = _
    rw [date_month_eq hmonth (by omega)]
    show (signedResult 64 (total + monthLength year month) >>= _) = _
    rw [signed_result_bind (by omega) (by norm_num; omega)]
    show dateMonths (isLeapYear year) turns (month + 1) (total + monthLength year month) = _
    rw [ih (by omega) (by omega) ⟨by omega, by omega⟩, CivilDate.days_before_month_succ _ hmonth,
      show month + 1 + turns = month + (turns + 1) by omega]
    congr 1
    ring

/-- The days before a year, for years from zero on. -/
theorem date_years_eq {year : Int} (hlow : 0 ≤ year) (hhigh : year ≤ 9999) :
    dateYears year = .ok (CivilDate.daysBeforeYear year) := by
  unfold dateYears
  rw [signed_result_bind (by norm_num; omega) (by norm_num; omega),
    signed_result_bind (by norm_num; omega) (by norm_num; omega),
    Int.tdiv_eq_ediv_of_nonneg (by omega : 0 ≤ year + 3),
    signed_result_bind (by norm_num; omega) (by norm_num; omega),
    signed_result_bind (by norm_num; omega) (by norm_num; omega),
    Int.tdiv_eq_ediv_of_nonneg (by omega : 0 ≤ year + 99),
    signed_result_bind (by norm_num; omega) (by norm_num; omega),
    signed_result_bind (by norm_num; omega) (by norm_num; omega),
    Int.tdiv_eq_ediv_of_nonneg (by omega : 0 ≤ year + 399)]
  exact signed_result_ok (by norm_num; omega) (by norm_num; omega)

/-- The seconds of a number of days and a time of day. -/
theorem date_seconds_eq {total : Int} {time : Asn1GeneralizedTime}
    (htotal : 0 ≤ total ∧ total ≤ 2 ^ 32) :
    dateSeconds total time = .ok ((total - CivilDate.daysBeforeYear 1970) * 86400 +
      time.hour.toNat * 3600 + time.minute.toNat * 60 + time.second.toNat) := by
  have hepoch : CivilDate.daysBeforeYear 1970 = 719528 := by
    norm_num [CivilDate.daysBeforeYear]
  have hvalue : dateEpoch = 719528 := by
    norm_num [dateEpoch]
  have := time.hour.toNat_lt
  have := time.minute.toNat_lt
  have := time.second.toNat_lt
  obtain ⟨hlow, hhigh⟩ := htotal
  rw [hepoch]
  unfold dateSeconds
  rw [hvalue, signed_result_bind (by norm_num; omega) (by norm_num; omega),
    signed_result_bind (by norm_num; omega) (by norm_num; omega),
    signed_result_bind (by norm_num; omega) (by norm_num; omega),
    signed_result_bind (by norm_num; omega) (by norm_num; omega),
    signed_result_bind (by norm_num; omega) (by norm_num; omega),
    signed_result_bind (by norm_num; omega) (by norm_num; omega)]
  exact signed_result_ok (by norm_num; omega) (by norm_num; omega)

/-- A time that the calendar has, as the codec decodes it. -/
def CivilTime.fields (time : CivilTime) : Asn1GeneralizedTime :=
  ⟨time.date.year, UInt8.ofNat time.date.month, UInt8.ofNat time.date.day, UInt8.ofNat time.hour,
    UInt8.ofNat time.minute, UInt8.ofNat time.second, .null 0⟩

/-- The content `YYYYMMDDHHMMSSZ` of a time. -/
def CivilTime.content (time : CivilTime) : Bytes :=
  generalizedTimeDigits time.fields ++ [0x5A]

/-- A time whose year has four digits. -/
def CivilTime.FourDigits (time : CivilTime) : Prop :=
  0 ≤ time.date.year ∧ time.date.year ≤ 9999

/-- A time of a four-digit year passes the checks of its fields. -/
theorem civil_fields_admitted {time : CivilTime} (h : time.FourDigits) :
    time.fields.Admitted := by
  have hday := time.date.day_le.trans (month_length_le _ _)
  have hmonth := time.date.month_le
  have := time.hour_lt
  have := time.minute_lt
  have := time.second_lt
  refine ⟨h, (calendar_iff _ _ _ _ _).mpr ?_, rfl, ?_⟩
  · show (1 ≤ (UInt8.ofNat time.date.month).toNat ∧ (UInt8.ofNat time.date.month).toNat ≤ 12 ∧
      1 ≤ (UInt8.ofNat time.date.day).toNat ∧ (UInt8.ofNat time.date.day).toNat ≤ 31) ∧
        (UInt8.ofNat time.hour).toNat ≤ 23 ∧ (UInt8.ofNat time.minute).toNat ≤ 59 ∧
          (UInt8.ofNat time.second).toNat ≤ 59
    have := time.date.month_pos
    have := time.date.day_pos
    simp only [UInt8.toNat_ofNat']
    omega
  · show FractionValid []
    exact ⟨fun _ h => absurd h List.not_mem_nil, by decide⟩

/-- Both sides of the decoder, for times without a fraction. -/
theorem decode_content {time : CivilTime} (h : time.FourDigits) (capacity : Nat) :
    decodeGeneralizedTime time.content capacity = asn1Store 32 capacity time.fields := by
  have hadmitted := civil_fields_admitted h
  have hoctets : time.fields.octets = time.content := rfl
  obtain ⟨hvalid, hread⟩ := generalized_time_octets hadmitted
  obtain ⟨decoded, hdecoded, hsame, hcontent⟩ := hread 32 (le_refl 32)
  obtain ⟨input, hinput, -, hstore⟩ := decode_generalized_time_valid hvalid
  rw [hstore] at hdecoded
  have hequal := asn1_store_ok hdecoded
  have hspan : input.fractionDigits = .null 0 := by
    rw [hinput.span, hequal, hcontent]
    rfl
  rw [← hoctets, hstore, hequal, hsame, ← hequal, hspan]
  rfl

/-- The conversion behind the decoder. -/
theorem date_decode_bind {data : Bytes} {capacity : Nat} {input : Asn1GeneralizedTime}
    (h : decodeGeneralizedTime data capacity = .ok input)
    (hfraction : input.fractionDigits.length = 0) : dateDecode data capacity =
      if input.day.toNat > monthLength input.year input.month.toNat then
        .error (.code .invalidValue)
      else dateInteger (isLeapYear input.year) input := by
  obtain ⟨hadmitted, -⟩ := decode_generalized_time_ok h
  obtain ⟨⟨hmonth, hmonth', hday, -⟩, -⟩ := (calendar_iff _ _ _ _ _).mp hadmitted.calendar
  have hexists : ¬ (input.month = 0 ∨ input.month > 12 ∨ input.day = 0) := by
    simp only [gt_iff_lt, UInt8.lt_iff_toNat_lt, ← UInt8.toNat_inj, UInt8.reduceToNat]
    show ¬ (input.month.toNat = 0 ∨ 12 < input.month.toNat ∨ input.day.toNat = 0)
    omega
  show (decodeGeneralizedTime data capacity >>= fun time =>
    if time.fractionDigits.length ≠ 0 then .error (.code .invalidValue)
    else if time.month = 0 ∨ time.month > 12 ∨ time.day = 0 then .error (.code .invalidValue)
    else dateMonth (dateLeap time.year) time.month.toNat >>= fun days =>
      if time.day.toNat > days then .error (.code .invalidValue)
      else dateInteger (dateLeap time.year) time) = _
  rw [h]
  show (if input.fractionDigits.length ≠ 0 then _ else _) = _
  rw [if_neg (not_not.mpr hfraction), if_neg hexists, date_leap_eq hadmitted.year.1,
    date_month_eq hmonth hmonth']
  rfl

/-- The arithmetic counts the seconds of the calendar. -/
theorem date_integer_eq {time : CivilTime} (h : time.FourDigits) :
    dateInteger (isLeapYear time.date.year) time.fields = .ok time.seconds := by
  obtain ⟨hlow, hhigh⟩ := h
  have hday := time.date.day_le.trans (month_length_le _ _)
  have hmonth := time.date.month_le
  have := time.hour_lt
  have := time.minute_lt
  have := time.second_lt
  have := time.date.month_pos
  have := time.date.day_pos
  obtain ⟨hstart, hend⟩ := time.date.day_of_year
  have hyear : 0 ≤ CivilDate.daysBeforeYear time.date.year ∧
      CivilDate.daysBeforeYear (time.date.year + 1) ≤ 2 ^ 22 := by
    unfold CivilDate.daysBeforeYear
    omega
  have hmono := CivilDate.days_before_year_mono (by omega : time.date.year ≤ time.date.year + 1)
  have hmonthField : time.fields.month.toNat = time.date.month := by
    show (UInt8.ofNat time.date.month).toNat = _
    rw [UInt8.toNat_ofNat']
    omega
  have hdayField : (time.fields.day.toNat - 1 : Int) = (time.date.day - 1 : Nat) := by
    show (((UInt8.ofNat time.date.day).toNat : Int) - 1) = _
    rw [UInt8.toNat_ofNat']
    omega
  have hhourField : time.fields.hour.toNat = time.hour := by
    show (UInt8.ofNat time.hour).toNat = _
    rw [UInt8.toNat_ofNat']
    omega
  have hminuteField : time.fields.minute.toNat = time.minute := by
    show (UInt8.ofNat time.minute).toNat = _
    rw [UInt8.toNat_ofNat']
    omega
  have hsecondField : time.fields.second.toNat = time.second := by
    show (UInt8.ofNat time.second).toNat = _
    rw [UInt8.toNat_ofNat']
    omega
  have hsum : 1 + (time.date.month - 1) = time.date.month := by omega
  show (dateYears time.date.year >>= fun total =>
    dateMonths (isLeapYear time.date.year) (time.fields.month.toNat - 1) 1 total >>= fun total =>
      signedResult 64 (total + (time.fields.day.toNat - 1 : Int)) >>= fun total =>
        dateSeconds total time.fields) = _
  rw [hmonthField, hdayField, date_years_eq hlow hhigh, result_bind,
    date_months_eq _ (le_refl 1) (by omega) ⟨by omega, by omega⟩, hsum,
    CivilDate.days_before_month_one, result_bind,
    signed_result_bind (by norm_num; omega) (by norm_num; omega),
    date_seconds_eq ⟨by omega, by omega⟩, hhourField, hminuteField, hsecondField]
  have hcount : (CivilDate.daysBeforeYear time.date.year +
      (CivilDate.daysBeforeMonth time.date.year time.date.month - 0) + (time.date.day - 1 : Nat) -
        CivilDate.daysBeforeYear 1970) = time.date.dayNumber := by
    unfold CivilDate.dayNumber
    rw [Int.sub_zero]
  rw [hcount]
  rfl

/-- A decoded time without a fraction either names a day that does not exist, or a time of the
calendar. -/
theorem admitted_cases {input : Asn1GeneralizedTime} (h : input.Admitted)
    (hfraction : input.fractionDigits.length = 0) :
    monthLength input.year input.month.toNat < input.day.toNat ∨
      ∃ time : CivilTime, time.FourDigits ∧ time.fields = input := by
  obtain ⟨⟨hmonth, hmonth', hday, -⟩, hhour, hminute, hsecond⟩ :=
    (calendar_iff _ _ _ _ _).mp h.calendar
  by_cases hexists : input.day.toNat ≤ monthLength input.year input.month.toNat
  · right
    have hspan : input.fractionDigits = .null 0 := by
      have hspan := h.span
      unfold fractionSpan at hspan
      split at hspan
      · exact hspan
      · rename_i hnonempty
        rw [hspan] at hfraction
        exact absurd (List.length_eq_zero_iff.mp hfraction) hnonempty
    refine ⟨⟨⟨input.year, input.month.toNat, input.day.toNat, hmonth, hmonth', hday, hexists⟩,
      input.hour.toNat, input.minute.toNat, input.second.toNat, by omega, by omega, by omega⟩,
      h.year, ?_⟩
    unfold CivilTime.fields
    simp only [UInt8.ofNat_toNat]
    rw [← hspan]
  · left
    omega

/-- A time of four digits is converted when the scratch memory has room for its fields. -/
theorem date_decode_content {time : CivilTime} (h : time.FourDigits) {capacity : Nat}
    (hcapacity : 32 ≤ capacity) : dateDecode time.content capacity = .ok time.seconds := by
  have hread := decode_content h capacity
  rw [asn1_store_of_le _ hcapacity] at hread
  have hday := time.date.day_le
  have hlength := hday.trans (month_length_le _ _)
  have hmonth := time.date.month_le
  rw [date_decode_bind hread rfl, if_neg]
  · exact date_integer_eq h
  · show ¬ (UInt8.ofNat time.date.day).toNat >
      monthLength time.date.year (UInt8.ofNat time.date.month).toNat
    rw [UInt8.toNat_ofNat', UInt8.toNat_ofNat', Nat.mod_eq_of_lt (by omega),
      Nat.mod_eq_of_lt (by omega)]
    omega

/-- What the conversion does with any content. -/
theorem date_decode_cases (data : Bytes) (capacity : Nat) :
    (∃ status, dateDecode data capacity = .error (.code status)) ∨
      (32 ≤ capacity ∧ ∃ time : CivilTime, time.FourDigits ∧ data = time.content ∧
        dateDecode data capacity = .ok time.seconds) := by
  cases hvalid : validateGeneralizedTime data with
  | false =>
    left
    refine ⟨.invalidValue, ?_⟩
    unfold dateDecode decodeGeneralizedTime
    rw [hvalid]
    rfl
  | true =>
    obtain ⟨input, hadmitted, hoctets, hread⟩ := decode_generalized_time_valid hvalid
    by_cases hcapacity : 32 ≤ capacity
    · have hinput := hread capacity
      rw [asn1_store_of_le _ hcapacity] at hinput
      by_cases hfraction : input.fractionDigits.length = 0
      · rcases admitted_cases hadmitted hfraction with hnone | ⟨time, hdigits, rfl⟩
        · left
          exact ⟨.invalidValue, by rw [date_decode_bind hinput hfraction, if_pos hnone]⟩
        · right
          have hcontent : data = time.content := hoctets.symm
          exact ⟨hcapacity, time, hdigits, hcontent, by
            rw [hcontent, date_decode_content hdigits hcapacity]⟩
      · left
        refine ⟨.invalidValue, ?_⟩
        unfold dateDecode
        rw [hinput, result_bind, if_pos hfraction]
    · left
      refine ⟨.bufferTooShort, ?_⟩
      unfold dateDecode
      rw [hread, asn1Store, if_pos (by omega)]
      rfl

open CivilTime in
/-- The conversion is exact: it accepts the times of the calendar whose years have four digits,
each with the number of seconds that lead from the start of 1970 to it, and it overflows
nowhere. -/
theorem date_decode_exact :
    (∀ data capacity, dateDecode data capacity ≠ .error .fault) ∧
    (∀ data capacity number, dateDecode data capacity = .ok number ↔
      32 ≤ capacity ∧ ∃ time : CivilTime, time.FourDigits ∧ data = time.content ∧
        tick^[number.toNat] epoch = tick^[(-number).toNat] time) ∧
    (∀ (time other : CivilTime) (capacity room : Nat) (number count : Int),
      time.FourDigits → other.FourDigits → dateDecode time.content capacity = .ok number →
        dateDecode other.content room = .ok count →
          (number < count ↔ time.key < other.key) ∧ (number = count ↔ time = other)) ∧
    ∀ data capacity fields, decodeGeneralizedTime data capacity = .ok fields →
      monthLength fields.year fields.month.toNat < fields.day.toNat →
        dateDecode data capacity = .error (.code .invalidValue) := by
  have hexact : ∀ (time : CivilTime) (capacity : Nat) (number : Int), time.FourDigits →
      dateDecode time.content capacity = .ok number → number = time.seconds := by
    intro time capacity number hdigits h
    rcases date_decode_cases time.content capacity with ⟨status, herror⟩ | ⟨hcapacity, -⟩
    · rw [h] at herror
      cases herror
    · rw [date_decode_content hdigits hcapacity] at h
      exact (Except.ok.inj h).symm
  refine ⟨fun data capacity h => ?_, fun data capacity number => ⟨fun h => ?_, fun h => ?_⟩,
    fun time other capacity room number count htime hother h h' => ?_,
    fun data capacity fields hread hday => ?_⟩
  · rcases date_decode_cases data capacity with ⟨status, herror⟩ | ⟨-, time, -, -, hok⟩
    · rw [herror] at h
      cases h
    · rw [hok] at h
      cases h
  · rcases date_decode_cases data capacity with ⟨status, herror⟩ | ⟨hcapacity, time, hdigits,
      hdata, hok⟩
    · rw [herror] at h
      cases h
    · rw [hok] at h
      exact ⟨hcapacity, time, hdigits, hdata, seconds_eq_iff.mp (Except.ok.inj h)⟩
  · obtain ⟨hcapacity, time, hdigits, rfl, hticks⟩ := h
    rw [date_decode_content hdigits hcapacity, seconds_eq_iff.mpr hticks]
  · rw [hexact time capacity number htime h, hexact other room count hother h']
    exact ⟨seconds_lt_iff, seconds_inj, fun h => by rw [h]⟩
  · by_cases hfraction : fields.fractionDigits.length = 0
    · rw [date_decode_bind hread hfraction, if_pos hday]
    · unfold dateDecode
      rw [hread, result_bind, if_pos hfraction]

/-- The last second of a leap day. -/
def leapSecond : CivilTime :=
  ⟨⟨2000, 2, 29, by decide, by decide, by decide, by decide⟩, 23, 59, 59, by decide, by decide,
    by decide⟩

/-- It is one second before the first of March. -/
theorem date_decode_exact_leap :
    dateDecode leapSecond.content 32 = .ok 951868799 ∧
      dateDecode leapSecond.tick.content 32 = .ok 951868800 ∧ leapSecond.key < leapSecond.tick.key ∧
        ∃ time : CivilTime, leapSecond.content = time.content ∧
          CivilTime.tick^[(951868799 : Int).toNat] CivilTime.epoch = time := by
  have hleap : dateDecode leapSecond.content 32 = .ok 951868799 := by decide +kernel
  have hnext : dateDecode leapSecond.tick.content 32 = .ok 951868800 := by decide +kernel
  obtain ⟨-, hiff, horder, -⟩ := date_decode_exact
  refine ⟨hleap, hnext, ?_, ?_⟩
  · have hdigits : leapSecond.FourDigits := ⟨by decide, by decide⟩
    have htick : leapSecond.tick.FourDigits := ⟨by decide, by decide⟩
    exact (horder _ _ _ _ _ _ hdigits htick hleap hnext).1.mp (by decide)
  · obtain ⟨-, time, -, hcontent, hticks⟩ := (hiff _ _ _).mp hleap
    exact ⟨time, hcontent, hticks⟩

end OpenTlv
