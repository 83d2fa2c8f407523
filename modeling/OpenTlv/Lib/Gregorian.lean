import Mathlib.Tactic
import Mathlib.Logic.Function.Iterate

/-!
# The proleptic Gregorian calendar

Dates and times of day that exist, with the calendar given by what the next day and the next
second are. `dayNumber` and `seconds` count them from the start of 1970. A count belongs to one
time, and it grows with the time.
-/

namespace OpenTlv

/-- The leap years. -/
def isLeapYear (year : Int) : Bool :=
  year % 4 = 0 && (year % 100 ≠ 0 || year % 400 = 0)

/-- The number of days of a month. -/
def monthLength (year : Int) (month : Nat) : Nat :=
  if month = 2 then if isLeapYear year then 29 else 28
  else if month = 4 ∨ month = 6 ∨ month = 9 ∨ month = 11 then 30
  else 31

/-- A day that exists. -/
structure CivilDate where
  year : Int
  month : Nat
  day : Nat
  month_pos : 1 ≤ month
  month_le : month ≤ 12
  day_pos : 1 ≤ day
  day_le : day ≤ monthLength year month
  deriving DecidableEq

theorem month_length_pos (year : Int) (month : Nat) : 1 ≤ monthLength year month := by
  unfold monthLength
  split_ifs <;> omega

namespace CivilDate

/-- The next day. -/
def next (date : CivilDate) : CivilDate :=
  if hday : date.day < monthLength date.year date.month then
    { date with day := date.day + 1, day_pos := by omega, day_le := hday }
  else if hmonth : date.month < 12 then
    ⟨date.year, date.month + 1, 1, by omega, hmonth, le_refl 1, month_length_pos _ _⟩
  else ⟨date.year + 1, 1, 1, le_refl 1, by omega, le_refl 1, month_length_pos _ _⟩

/-- The days from the start of year zero to the start of a year. -/
def daysBeforeYear (year : Int) : Int :=
  365 * year + (year + 3) / 4 - (year + 99) / 100 + (year + 399) / 400

/-- The days of a year before a month. -/
def daysBeforeMonth (year : Int) (month : Nat) : Int :=
  ((List.range (month - 1)).map fun i => (monthLength year (i + 1) : Int)).sum

/-- The number of a day, which is zero for the first day of 1970. -/
def dayNumber (date : CivilDate) : Int :=
  daysBeforeYear date.year + daysBeforeMonth date.year date.month + (date.day - 1 : Nat) -
    daysBeforeYear 1970

/-- A year has 365 days, and one more when it is a leap year. -/
theorem days_before_year_succ (year : Int) : daysBeforeYear (year + 1) =
    daysBeforeYear year + 365 + if isLeapYear year then 1 else 0 := by
  unfold daysBeforeYear isLeapYear
  by_cases hfour : year % 4 = 0
  · by_cases hhundred : year % 100 = 0
    · by_cases hfourHundred : year % 400 = 0
      · simp only [hfour, hhundred, hfourHundred, decide_true, Bool.or_true, Bool.and_true, if_true]
        omega
      · simp only [hfour, hhundred, hfourHundred, decide_true, ne_eq, not_true_eq_false,
          decide_false, Bool.or_self, Bool.and_false, Bool.false_eq_true, if_false]
        omega
    · simp only [hfour, hhundred, decide_true, ne_eq, not_false_eq_true, Bool.true_or,
        Bool.and_true, if_true]
      omega
  · simp only [hfour, decide_false, Bool.false_and, Bool.false_eq_true, if_false]
    omega

theorem days_before_month_one (year : Int) : daysBeforeMonth year 1 = 0 := rfl

/-- A month adds its length to the days before it. -/
theorem days_before_month_succ (year : Int) {month : Nat} (h : 1 ≤ month) :
    daysBeforeMonth year (month + 1) = daysBeforeMonth year month + monthLength year month := by
  obtain ⟨before, rfl⟩ : ∃ before, month = before + 1 := ⟨month - 1, by omega⟩
  unfold daysBeforeMonth
  rw [Nat.add_sub_cancel, Nat.add_sub_cancel, List.range_succ, List.map_append, List.sum_append]
  simp

/-- The months of a year make up the year. -/
theorem days_before_month_end (year : Int) : daysBeforeMonth year 12 + monthLength year 12 =
    daysBeforeYear (year + 1) - daysBeforeYear year := by
  rw [days_before_year_succ]
  have hfebruary : daysBeforeMonth year 12 = 306 + monthLength year 2 := by
    show (31 : Int) + (monthLength year 2 + _) = 306 + monthLength year 2
    show (31 : Int) + (monthLength year 2 + (31 + (30 + (31 + (30 + (31 + (31 + (30 + (31 +
      (30 + 0)))))))))) = _
    ring
  have hdecember : monthLength year 12 = 31 := rfl
  have hlength : (monthLength year 2 : Int) = 28 + if isLeapYear year then 1 else 0 := by
    show ((if isLeapYear year then 29 else 28 : Nat) : Int) = _
    cases isLeapYear year <;> rfl
  rw [hfebruary, hdecember, hlength]
  omega

/-- The number of the next day is the next number. -/
theorem day_number_next (date : CivilDate) : date.next.dayNumber = date.dayNumber + 1 := by
  have hpositive := date.day_pos
  unfold next
  by_cases hday : date.day < monthLength date.year date.month
  · rw [dif_pos hday]
    show daysBeforeYear date.year + daysBeforeMonth date.year date.month +
      (date.day + 1 - 1 : Nat) - _ = daysBeforeYear date.year +
        daysBeforeMonth date.year date.month + (date.day - 1 : Nat) - _ + 1
    omega
  · have hlast : date.day = monthLength date.year date.month := by
      have := date.day_le
      omega
    rw [dif_neg hday]
    by_cases hmonth : date.month < 12
    · rw [dif_pos hmonth]
      show daysBeforeYear date.year + daysBeforeMonth date.year (date.month + 1) + (1 - 1 : Nat) -
        _ = daysBeforeYear date.year + daysBeforeMonth date.year date.month +
          (date.day - 1 : Nat) - _ + 1
      rw [days_before_month_succ _ date.month_pos]
      omega
    · have htwelve : date.month = 12 := by
        have := date.month_le
        omega
      have hyear := days_before_month_end date.year
      rw [dif_neg hmonth]
      show daysBeforeYear (date.year + 1) + daysBeforeMonth (date.year + 1) 1 + (1 - 1 : Nat) -
        _ = daysBeforeYear date.year + daysBeforeMonth date.year date.month +
          (date.day - 1 : Nat) - _ + 1
      rw [days_before_month_one]
      rw [htwelve] at hlast ⊢
      omega

theorem days_before_year_mono {year other : Int} (h : year ≤ other) :
    daysBeforeYear year ≤ daysBeforeYear other := by
  unfold daysBeforeYear
  omega

theorem days_before_month_mono (year : Int) {month other : Nat} (hpositive : 1 ≤ month)
    (h : month ≤ other) : daysBeforeMonth year month ≤ daysBeforeMonth year other := by
  induction other, h using Nat.le_induction with
  | base => exact le_refl _
  | succ other hle ih =>
    rw [days_before_month_succ year (by omega)]
    omega

/-- The day of a year lies behind its month and in front of the next one. -/
theorem day_of_month (date : CivilDate) :
    daysBeforeMonth date.year date.month ≤
        daysBeforeMonth date.year date.month + (date.day - 1 : Nat) ∧
      daysBeforeMonth date.year date.month + (date.day - 1 : Nat) <
        daysBeforeMonth date.year (date.month + 1) := by
  have := date.day_pos
  have := date.day_le
  rw [days_before_month_succ _ date.month_pos]
  omega

/-- A day lies inside of its year. -/
theorem day_of_year (date : CivilDate) :
    0 ≤ daysBeforeMonth date.year date.month + (date.day - 1 : Nat) ∧
      daysBeforeMonth date.year date.month + (date.day - 1 : Nat) <
        daysBeforeYear (date.year + 1) - daysBeforeYear date.year := by
  obtain ⟨hlow, hhigh⟩ := date.day_of_month
  have hfirst := days_before_month_mono date.year (le_refl 1) date.month_pos
  have hlast := days_before_month_mono date.year (by omega : 1 ≤ date.month + 1)
    (Nat.succ_le_succ date.month_le)
  rw [days_before_month_one] at hfirst
  rw [days_before_month_succ date.year (by omega : 1 ≤ 12), days_before_month_end] at hlast
  exact ⟨by omega, by omega⟩

/-- The year, the month and the day. -/
def key (date : CivilDate) : List Int :=
  [date.year, date.month, date.day]

/-- Earlier days have smaller numbers. -/
theorem day_number_lt {date other : CivilDate} (h : date.key < other.key) :
    date.dayNumber < other.dayNumber := by
  simp only [key, List.cons_lt_cons_iff, List.lt_irrefl, and_false, or_false] at h
  unfold dayNumber
  obtain hyear | ⟨hyear, hmonth | ⟨hmonth, hday⟩⟩ := h
  · have hmono := days_before_year_mono (by omega : date.year + 1 ≤ other.year)
    have := date.day_of_year
    have := other.day_of_year
    omega
  · have hmono := days_before_month_mono other.year (by omega : 1 ≤ date.month + 1)
      (by omega : date.month + 1 ≤ other.month)
    have hearlier := date.day_of_month
    have := other.day_of_month
    rw [hyear] at hearlier ⊢
    omega
  · have hsame : date.month = other.month := by omega
    have := date.day_pos
    rw [hyear, hsame]
    omega

end CivilDate

/-- A second of a day that exists. -/
structure CivilTime where
  date : CivilDate
  hour : Nat
  minute : Nat
  second : Nat
  hour_lt : hour < 24
  minute_lt : minute < 60
  second_lt : second < 60
  deriving DecidableEq

namespace CivilTime

/-- The start of 1970. -/
def epoch : CivilTime :=
  ⟨⟨1970, 1, 1, by decide, by decide, by decide, by decide⟩, 0, 0, 0, by decide, by decide,
    by decide⟩

/-- The next second. -/
def tick (time : CivilTime) : CivilTime :=
  if hsecond : time.second + 1 < 60 then
    { time with second := time.second + 1, second_lt := hsecond }
  else if hminute : time.minute + 1 < 60 then
    { time with
      minute := time.minute + 1, second := 0, minute_lt := hminute, second_lt := by decide }
  else if hhour : time.hour + 1 < 24 then
    ⟨time.date, time.hour + 1, 0, 0, hhour, by decide, by decide⟩
  else ⟨time.date.next, 0, 0, 0, by decide, by decide, by decide⟩

/-- The number of a second, which is zero for the start of 1970. -/
def seconds (time : CivilTime) : Int :=
  time.date.dayNumber * 86400 + time.hour * 3600 + time.minute * 60 + time.second

@[simp] theorem seconds_epoch : epoch.seconds = 0 := by
  decide

/-- The number of the next second is the next number. -/
@[simp] theorem seconds_tick (time : CivilTime) : time.tick.seconds = time.seconds + 1 := by
  have := time.second_lt
  have := time.minute_lt
  have := time.hour_lt
  unfold tick seconds
  split_ifs with hsecond hminute hhour
  · dsimp only
    omega
  · dsimp only
    omega
  · dsimp only
    omega
  · dsimp only
    rw [CivilDate.day_number_next]
    omega

/-- Each tick adds one second. -/
theorem seconds_iterate (time : CivilTime) (count : Nat) :
    (tick^[count] time).seconds = time.seconds + count := by
  induction count with
  | zero => simp
  | succ count ih =>
    rw [Function.iterate_succ_apply', seconds_tick, ih]
    push_cast
    ring

/-- The fields of a time, from the year to the second. -/
def key (time : CivilTime) : List Int :=
  time.date.key ++ [(time.hour : Int), (time.minute : Int), (time.second : Int)]

/-- Earlier times have smaller numbers. -/
theorem seconds_lt {time other : CivilTime} (h : time.key < other.key) :
    time.seconds < other.seconds := by
  have := time.second_lt
  have := time.minute_lt
  have := time.hour_lt
  have hdays : time.date.key = other.date.key → time.date.dayNumber = other.date.dayNumber := by
    intro hkey
    simp only [CivilDate.key, List.cons.injEq, Nat.cast_inj, and_true] at hkey
    obtain ⟨hyear, hmonth, hday⟩ := hkey
    unfold CivilDate.dayNumber
    rw [hyear, hmonth, hday]
  have hcases : time.date.key < other.date.key ∨ (time.date.key = other.date.key ∧
      [(time.hour : Int), (time.minute : Int), (time.second : Int)] <
        [(other.hour : Int), (other.minute : Int), (other.second : Int)]) := by
    simp only [key, CivilDate.key, List.cons_append, List.nil_append, List.cons_lt_cons_iff,
      List.lt_irrefl, and_false, or_false, List.cons.injEq, and_true] at h ⊢
    tauto
  unfold seconds
  cases hcases with
  | inl hdate =>
    have hnumber := CivilDate.day_number_lt hdate
    omega
  | inr hsame =>
    obtain ⟨hdate, hclock⟩ := hsame
    rw [hdays hdate]
    simp only [List.cons_lt_cons_iff, List.lt_irrefl, and_false, or_false] at hclock
    omega

/-- The fields tell a time from every other one. -/
theorem key_inj {time other : CivilTime} (h : time.key = other.key) : time = other := by
  simp only [key, CivilDate.key, List.cons_append, List.nil_append, List.cons.injEq,
    Nat.cast_inj, and_true] at h
  obtain ⟨hyear, hmonth, hday, hhour, hminute, hsecond⟩ := h
  obtain ⟨⟨year, month, day, _, _, _, _⟩, hour, minute, second, _, _, _⟩ := time
  obtain ⟨⟨_, _, _, _, _, _, _⟩, _, _, _, _, _, _⟩ := other
  dsimp only at hyear hmonth hday hhour hminute hsecond
  subst hyear hmonth hday hhour hminute hsecond
  rfl

/-- Seconds order times as their fields do. -/
theorem seconds_lt_iff {time other : CivilTime} :
    time.seconds < other.seconds ↔ time.key < other.key := by
  refine ⟨fun h => ?_, seconds_lt⟩
  by_contra hle
  rcases eq_or_ne time.key other.key with hsame | hne
  · rw [key_inj hsame] at h
    omega
  · have := seconds_lt (lt_of_le_of_ne (not_lt.mp hle) (Ne.symm hne))
    omega

/-- Different times have different seconds. -/
theorem seconds_inj {time other : CivilTime} (h : time.seconds = other.seconds) :
    time = other := by
  by_contra hne
  have hkey : time.key ≠ other.key := fun hsame => hne (key_inj hsame)
  by_cases hlt : time.key < other.key
  · have := seconds_lt hlt
    omega
  · have := seconds_lt (lt_of_le_of_ne (not_lt.mp hlt) (Ne.symm hkey))
    omega

/-- A number belongs to the time that as many ticks away from the start of 1970 come to, forward
or back. -/
theorem seconds_eq_iff {time : CivilTime} {number : Int} : time.seconds = number ↔
    tick^[number.toNat] epoch = tick^[(-number).toNat] time := by
  constructor
  · intro h
    apply seconds_inj
    rw [seconds_iterate, seconds_iterate, seconds_epoch, h]
    omega
  · intro h
    have hseconds := congrArg seconds h
    rw [seconds_iterate, seconds_iterate, seconds_epoch] at hseconds
    omega

end CivilTime

end OpenTlv
