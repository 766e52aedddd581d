import Mathlib.Data.List.Lex
import Mathlib.Data.UInt
import UBoot.Verification.Calendar

/-!
# Date and time of the real-time clock

`to_tm`, `GregorianDay` and `mktime` of `drivers/rtc/date.c`. A `long` and an
`int` have 32 bits; none of the signed computations leaves them. The table of
the month lengths is static data, which `to_tm` changes and changes back.
-/

namespace UBoot.Rtc

open Verification

/-- The fields of `struct rtc_time` that are filled in. -/
structure RtcTime where
  sec : Int
  min : Int
  hour : Int
  mday : Int
  mon : Int
  year : Int
  wday : Int
deriving DecidableEq

/-- `SECDAY` -/
def secday : Int := 86400

/-- `leapyear` -/
def leapyear (year : Int) : Prop := year.tmod 4 = 0

instance : DecidablePred leapyear := fun _ => inferInstanceAs (Decidable (_ = _))

/-- `days_in_year` -/
def daysInYear (a : Int) : Int := if leapyear a then 366 else 365

/-- The initial contents of `month_days`. -/
def initialMonthDays : List Int := [31, 28, 31, 30, 31, 30, 31, 31, 30, 31, 30, 31]

/-- `MonthOffset` -/
def monthOffset : List Int := [0, 31, 59, 90, 120, 151, 181, 212, 243, 273, 304, 334]

/-- `GregorianDay`, unless the month is outside of the table. -/
def gregorianDay (tm : RtcTime) : Option RtcTime := do
  let lastYear := tm.year - 1
  let leapsToDate := lastYear.tdiv 4 - lastYear.tdiv 100 + lastYear.tdiv 400
  let leap := tm.year.tmod 4 = 0 ∧ (tm.year.tmod 100 ≠ 0 ∨ tm.year.tmod 400 = 0)
  let day := if leap ∧ tm.mon > 2 then 1 else 0
  let offset ← if tm.mon < 1 then none else monthOffset[(tm.mon - 1).toNat]?
  let day := day + (lastYear * 365 + leapsToDate + offset + tm.mday)
  some { tm with wday := day.tmod 7 }

theorem daysInYear_pos (a : Int) : 0 < daysInYear a := by
  rw [daysInYear]
  split_ifs <;> decide

/-- The loop of `to_tm` that counts the years. -/
def countYears (i day : Int) : Int × Int :=
  if day ≥ daysInYear i then countYears (i + 1) (day - daysInYear i) else (i, day)
termination_by day.toNat
decreasing_by
  have := daysInYear_pos i
  omega

/-- The loop of `to_tm` that counts the months, over what is left of the table. -/
def countMonths : List Int → Int → Int → Option (Int × Int)
  | [], _, _ => none
  | n :: rest, i, day => if day ≥ n then countMonths rest (i + 1) (day - n) else some (i, day)

/-- `to_tm`, with `month_days` before and after the call. -/
def toTm (monthDays : List Int) (tim : Int) : Option (RtcTime × List Int) := do
  let day := tim.tdiv secday
  let hms := tim.tmod secday
  let (year, day) := countYears 1970 day
  let monthDays := if leapyear year then monthDays.set 1 29 else monthDays
  let (mon, day) ← countMonths monthDays 1 day
  let monthDays := monthDays.set 1 28
  let tm ← gregorianDay
    { hour := hms.tdiv 3600
      min := (hms.tmod 3600).tdiv 60
      sec := (hms.tmod 3600).tmod 60
      year := year
      mon := mon
      mday := day + 1
      wday := 0 }
  some (tm, monthDays)

/-- The year and the month of `mktime` when the year starts in March. -/
def fromMarch (year mon : UInt32) : UInt32 × UInt32 :=
  let mon := mon - 2
  if 0 ≥ mon.toInt32 then (year - 1, mon + 12) else (year, mon)

/-- `mktime` -/
def mktime (year mon day hour min sec : UInt32) : UInt32 :=
  let (year, mon) := fromMarch year mon
  (((year / 4 - year / 100 + year / 400 + 367 * mon / 12 + day + year * 365 - 719499) * 24 + hour) *
    60 + min) * 60 + sec

/-- `mktime` of the fields of a time. -/
def RtcTime.mktime (tm : RtcTime) : UInt32 :=
  Rtc.mktime (UInt32.ofInt tm.year) (UInt32.ofInt tm.mon) (UInt32.ofInt tm.mday)
    (UInt32.ofInt tm.hour) (UInt32.ofInt tm.min) (UInt32.ofInt tm.sec)

/-- The fields of a date and a time of day. The week starts on Sunday, and
1 January 1970 was a Thursday. -/
def rtcTime (d : Date) (c : Clock) : RtcTime where
  sec := c.sec
  min := c.min
  hour := c.hour
  mday := d.day
  mon := d.month
  year := d.year
  wday := ((d.number 1970 + 4) % 7 : Nat)

/-- The seconds from the beginning of 1970. -/
def seconds (d : Date) (c : Clock) : Nat := d.number 1970 * 86400 + c.seconds

/-! ### Counting years and months -/

theorem leapyear_iff {year : Nat} (h1 : 1900 < year) (h2 : year < 2100) :
    leapyear year ↔ Leap year := by
  rw [leapyear, Leap, Int.tmod_eq_emod_of_nonneg (Int.natCast_nonneg year)]
  omega

theorem daysInYear_eq {year : Nat} (h1 : 1900 < year) (h2 : year < 2100) :
    daysInYear year = yearLength year := by
  simp only [daysInYear, yearLength, leapyear_iff h1 h2]
  split_ifs <;> rfl

theorem countYears_yearDays (n : Nat) {year rest : Nat} (h1 : 1900 < year) (h2 : year + n < 2100)
    (hrest : rest < yearLength (year + n)) :
    countYears year ((yearDays year n + rest : Nat) : Int) =
      (((year + n : Nat) : Int), (rest : Int)) := by
  induction n generalizing year with
  | zero =>
    rw [Nat.add_zero] at hrest
    rw [countYears, daysInYear_eq h1 (by omega), yearDays, Nat.zero_add, if_neg (by omega)]
    rfl
  | succ n ih =>
    have hnext : ((yearDays year (n + 1) + rest : Nat) : Int) - yearLength year =
        ((yearDays (year + 1) n + rest : Nat) : Int) := by
      rw [yearDays]
      omega
    have hge : ((yearDays year (n + 1) + rest : Nat) : Int) ≥ yearLength year := by
      rw [yearDays]
      omega
    have hsum : year + 1 + n = year + (n + 1) := by omega
    rw [countYears, daysInYear_eq h1 (by omega), if_pos hge, hnext, ← hsum]
    exact @ih (year + 1) (Nat.lt_succ_of_lt h1) (by omega) (by rwa [hsum])

/-- The table while it is used. -/
theorem monthDays_table {year : Nat} (h1 : 1900 < year) (h2 : year < 2100) :
    (if leapyear year then initialMonthDays.set 1 29 else initialMonthDays) =
      (monthLengths year).map Int.ofNat := by
  by_cases h : Leap year
  · rw [if_pos ((leapyear_iff h1 h2).mpr h), monthLengths, if_pos h]
    rfl
  · rw [if_neg (mt (leapyear_iff h1 h2).mp h), monthLengths, if_neg h]
    rfl

theorem countMonths_sum (lengths : List Nat) {k rest : Nat} (i : Int) (hk : k < lengths.length)
    (hrest : rest < lengths.getD k 0) :
    countMonths (lengths.map Int.ofNat) i (((lengths.take k).sum + rest : Nat) : Int) =
      some (i + k, (rest : Int)) := by
  induction lengths generalizing k i with
  | nil => exact absurd hk (Nat.not_lt_zero k)
  | cons n lengths ih =>
    cases k with
    | zero =>
      have hlt : ¬((rest : Int) ≥ (n : Int)) := by
        simp only [List.getD_cons_zero] at hrest
        omega
      simp only [List.map_cons, countMonths, List.take_zero, List.sum_nil, Nat.zero_add,
        Int.ofNat_eq_natCast, if_neg hlt]
      simp
    | succ k =>
      have hsub : (((n :: lengths).take (k + 1)).sum + rest : Nat) - (n : Int) =
          (((lengths.take k).sum + rest : Nat) : Int) := by
        rw [List.take_succ_cons, List.sum_cons]
        omega
      have hge : ((((n :: lengths).take (k + 1)).sum + rest : Nat) : Int) ≥ n := by
        rw [List.take_succ_cons, List.sum_cons]
        omega
      rw [List.map_cons, countMonths, Int.ofNat_eq_natCast, if_pos hge, hsub,
        ih (i + 1) (Nat.lt_of_succ_lt_succ hk) (by simpa using hrest)]
      congr 2
      omega

/-! ### The day of the week -/

/-- The offset of a month, without the leap day. -/
theorem exists_monthOffset (year : Nat) {month : Nat} (h1 : 1 ≤ month) (h12 : month ≤ 12) :
    ∃ offset, monthOffset[month - 1]? = some offset ∧
      (monthDays year month : Int) = (if Leap year ∧ month > 2 then 1 else 0) + offset := by
  by_cases h : Leap year
  · interval_cases month
    all_goals exact ⟨_, rfl, by simp [monthDays, monthLengths, h]⟩
  · interval_cases month
    all_goals exact ⟨_, rfl, by simp [monthDays, monthLengths, h]⟩

/-- `GregorianDay` counts from the beginning of the year 1. -/
theorem gregorianDay_rtcTime (d : Date) (c : Clock) (wday : Int) (h : 1970 ≤ d.year) :
    gregorianDay { rtcTime d c with wday := wday } = some (rtcTime d c) := by
  obtain ⟨offset, hoffset, hmonth⟩ := exists_monthOffset d.year d.month_pos d.month_le
  have hnumber : d.number 1970 = yearDays 1970 (d.year - 1970) + monthDays d.year d.month +
      (d.day - 1) := rfl
  have hyears := yearDays_eq 1970 (d.year - 1970) (by decide)
  have hpos := d.day_pos
  have hindex : ((d.month : Int) - 1).toNat = d.month - 1 := by omega
  have hmon : ¬(d.month : Int) < 1 := by
    have := d.month_pos
    omega
  have hleap : (((d.year : Int).tmod 4 = 0 ∧
      ((d.year : Int).tmod 100 ≠ 0 ∨ (d.year : Int).tmod 400 = 0)) ∧ (d.month : Int) > 2) ↔
      (Leap d.year ∧ d.month > 2) := by
    simp only [Leap, Int.tmod_eq_emod_of_nonneg (Int.natCast_nonneg d.year)]
    omega
  have hlast : 0 ≤ (d.year : Int) - 1 := by omega
  simp only [gregorianDay, rtcTime, hindex, if_neg hmon, hoffset, hleap, Option.bind_eq_bind,
    Option.bind_some, Int.tdiv_eq_ediv_of_nonneg hlast, Option.some.injEq, RtcTime.mk.injEq,
    true_and]
  have hsum : (if Leap d.year ∧ d.month > 2 then (1 : Int) else 0) +
      (((d.year : Int) - 1) * 365 + (((d.year : Int) - 1) / 4 - ((d.year : Int) - 1) / 100 +
        ((d.year : Int) - 1) / 400) + offset + d.day) = ((d.number 1970 + 719163 : Nat) : Int) := by
    omega
  rw [hsum, Int.tmod_eq_emod_of_nonneg (Int.natCast_nonneg _)]
  omega

/-! ### From seconds to a date -/

theorem clock_fields (c : Clock) :
    (c.seconds : Int).tdiv 3600 = c.hour ∧ ((c.seconds : Int).tmod 3600).tdiv 60 = c.min ∧
      ((c.seconds : Int).tmod 3600).tmod 60 = c.sec := by
  have hmin := c.min_lt
  have hsec := c.sec_lt
  have hmod : 0 ≤ (c.seconds : Int) % 3600 := Int.emod_nonneg _ (by decide)
  rw [Int.tmod_eq_emod_of_nonneg (Int.natCast_nonneg _), Int.tmod_eq_emod_of_nonneg hmod,
    Int.tdiv_eq_ediv_of_nonneg (Int.natCast_nonneg _), Int.tdiv_eq_ediv_of_nonneg hmod,
    Clock.seconds]
  omega

theorem year_lt {d : Date} {c : Clock} (hlt : seconds d c < 2 ^ 31) : d.year < 2100 := by
  have hyears := yearDays_eq 1970 (d.year - 1970) (by decide)
  simp only [seconds, Date.number] at hlt
  omega

theorem countYears_number (d : Date) (h1 : 1970 ≤ d.year) (h2 : d.year < 2100) :
    countYears 1970 (d.number 1970 : Nat) =
      ((d.year : Int), ((monthDays d.year d.month + (d.day - 1) : Nat) : Int)) := by
  have hsum : 1970 + (d.year - 1970) = d.year := Nat.add_sub_cancel' h1
  have hcount := countYears_yearDays (d.year - 1970) (by decide : 1900 < 1970) (by omega)
    (hsum.symm ▸ d.dayOfYear_lt)
  rw [hsum, ← Nat.add_assoc] at hcount
  exact hcount

theorem countMonths_number (d : Date) :
    countMonths ((monthLengths d.year).map Int.ofNat) 1
        ((monthDays d.year d.month + (d.day - 1) : Nat) : Int) =
      some ((d.month : Int), ((d.day - 1 : Nat) : Int)) := by
  have hpos := d.month_pos
  have hmonth : d.month - 1 < (monthLengths d.year).length := by
    have := d.month_le
    rw [length_monthLengths]
    omega
  have hday : d.day - 1 < (monthLengths d.year).getD (d.month - 1) 0 := by
    have h1 := d.day_pos
    have h2 := d.day_le
    rw [monthLength] at h2
    omega
  have hcount := countMonths_sum (monthLengths d.year) 1 hmonth hday
  rw [show (1 : Int) + ((d.month - 1 : Nat) : Int) = d.month by omega] at hcount
  exact hcount

/-- `to_tm` finds the date and the time of a number of seconds. -/
theorem toTm_seconds (d : Date) (c : Clock) (h : 1970 ≤ d.year) (hlt : seconds d c < 2 ^ 31) :
    toTm initialMonthDays (seconds d c) = some (rtcTime d c, initialMonthDays) := by
  have hc := c.seconds_lt
  have hday : ((seconds d c : Nat) : Int).tdiv secday = (d.number 1970 : Nat) := by
    rw [secday, Int.tdiv_eq_ediv_of_nonneg (Int.natCast_nonneg _), seconds]
    omega
  have hhms : ((seconds d c : Nat) : Int).tmod secday = c.seconds := by
    rw [secday, Int.tmod_eq_emod_of_nonneg (Int.natCast_nonneg _), seconds]
    omega
  obtain ⟨hhour, hmin, hsec⟩ := clock_fields c
  have hmday : ((d.day - 1 : Nat) : Int) + 1 = d.day := by
    have := d.day_pos
    omega
  have htable := monthDays_table (Nat.lt_of_lt_of_le (by decide) h) (year_lt hlt)
  have hrestore : ((monthLengths d.year).map Int.ofNat).set 1 28 = initialMonthDays := rfl
  have hweekday := gregorianDay_rtcTime d c 0 h
  rw [rtcTime] at hweekday
  rw [toTm, hday, hhms]
  simp only [countYears_number d h (year_lt hlt), htable, countMonths_number d, hrestore,
    hhour, hmin, hsec, hmday, Option.bind_eq_bind, Option.bind_some, hweekday]
  rfl

/-! ### From a date to seconds -/

/-- The month of a year that starts in March, and the year it belongs to. -/
theorem fromMarch_ofNat (year : UInt32) {month : Nat} (h1 : 1 ≤ month) (h12 : month ≤ 12) :
    fromMarch year (UInt32.ofNat month) =
      if month ≤ 2 then (year - 1, UInt32.ofNat (month + 10))
      else (year, UInt32.ofNat (month - 2)) := by
  interval_cases month
  all_goals rfl

/-- The days before a month, in a year that starts in March. -/
theorem monthDays_march (year : Nat) {month : Nat} (h1 : 1 ≤ month) (h12 : month ≤ 12) :
    if month ≤ 2 then monthDays year month + 336 = 367 * (month + 10) / 12
    else monthDays year month = 367 * (month - 2) / 12 + 29 + if Leap year then 1 else 0 := by
  by_cases h : Leap year
  · interval_cases month
    all_goals simp [monthDays, monthLengths, h]
  · interval_cases month
    all_goals simp [monthDays, monthLengths, h]

/-- The days of `mktime`, which start before the epoch. -/
def marchDays (year month day : Nat) : Nat :=
  year / 4 - year / 100 + year / 400 + 367 * month / 12 + day + year * 365

theorem marchDays_number (d : Date) (h : 1970 ≤ d.year) :
    (if d.month ≤ 2 then marchDays (d.year - 1) (d.month + 10) d.day
      else marchDays d.year (d.month - 2) d.day) = d.number 1970 + 719499 := by
  have hyears := yearDays_eq 1970 (d.year - 1970) (by decide)
  have hmonth := monthDays_march d.year d.month_pos d.month_le
  have hpos := d.day_pos
  rw [Nat.add_sub_cancel' h] at hyears
  by_cases hearly : d.month ≤ 2
  · rw [if_pos hearly] at hmonth
    rw [if_pos hearly, marchDays, Date.number]
    omega
  · rw [if_neg hearly] at hmonth
    rw [if_neg hearly, marchDays, Date.number]
    by_cases hleap : Leap d.year
    · rw [if_pos hleap] at hmonth
      rw [Leap] at hleap
      omega
    · rw [if_neg hleap] at hmonth
      rw [Leap] at hleap
      omega

theorem ofNat_div {a k : Nat} (ha : a < 2 ^ 32) (hk : k < 2 ^ 32) :
    UInt32.ofNat a / UInt32.ofNat k = UInt32.ofNat (a / k) := by
  apply UInt32.toNat_inj.mp
  rw [UInt32.toNat_div, UInt32.toNat_ofNat', UInt32.toNat_ofNat', UInt32.toNat_ofNat',
    Nat.mod_eq_of_lt ha, Nat.mod_eq_of_lt hk,
    Nat.mod_eq_of_lt (Nat.lt_of_le_of_lt (Nat.div_le_self a k) ha)]

/-- The sums of `mktime` do not wrap. -/
theorem marchDays_ofNat {year month day n : Nat} (hyear : year < 2100) (hmonth : month ≤ 12)
    (hn : marchDays year month day = n + 719499) :
    UInt32.ofNat year / 4 - UInt32.ofNat year / 100 + UInt32.ofNat year / 400 +
        367 * UInt32.ofNat month / 12 + UInt32.ofNat day + UInt32.ofNat year * 365 - 719499 =
      UInt32.ofNat n := by
  have h4 : UInt32.ofNat year / 4 = UInt32.ofNat (year / 4) := ofNat_div (by omega) (by decide)
  have h100 : UInt32.ofNat year / 100 = UInt32.ofNat (year / 100) :=
    ofNat_div (by omega) (by decide)
  have h400 : UInt32.ofNat year / 400 = UInt32.ofNat (year / 400) :=
    ofNat_div (by omega) (by decide)
  have h12 : 367 * UInt32.ofNat month / 12 = UInt32.ofNat (367 * month / 12) := by
    rw [← ofNat_div (by omega) (by decide), UInt32.ofNat_mul]
    rfl
  have hsum : UInt32.ofNat (marchDays year month day) = UInt32.ofNat n + 719499 := by
    rw [hn, UInt32.ofNat_add]
    rfl
  rw [h4, h100, h400, h12, sub_eq_iff_eq_add, ← hsum, marchDays,
    ← UInt32.ofNat_sub (Nat.div_le_div_left (by decide) (by decide))]
  simp only [UInt32.ofNat_add, UInt32.ofNat_mul]
  rfl

theorem ofInt_natCast (n : Nat) : UInt32.ofInt n = UInt32.ofNat n := by
  apply UInt32.toNat_inj.mp
  rw [UInt32.ofInt, UInt32.toNat_ofNat', UInt32.toNat_ofNat']
  omega

/-- `mktime` counts the seconds. -/
theorem mktime_rtcTime (d : Date) (c : Clock) (h : 1970 ≤ d.year) (hlt : d.year < 2100) :
    (rtcTime d c).mktime = UInt32.ofNat (seconds d c) := by
  have hmonth := d.month_le
  have hnumber := marchDays_number d h
  have hdays : ∀ year month : Nat, year < 2100 → month ≤ 12 →
      marchDays year month d.day = d.number 1970 + 719499 →
      (((UInt32.ofNat year / 4 - UInt32.ofNat year / 100 + UInt32.ofNat year / 400 +
        367 * UInt32.ofNat month / 12 + UInt32.ofNat d.day + UInt32.ofNat year * 365 - 719499) *
          24 + UInt32.ofNat c.hour) * 60 + UInt32.ofNat c.min) * 60 + UInt32.ofNat c.sec =
        UInt32.ofNat (seconds d c) := by
    intro year month hyear hmonth hsum
    rw [marchDays_ofNat hyear hmonth hsum, show seconds d c =
      ((d.number 1970 * 24 + c.hour) * 60 + c.min) * 60 + c.sec by rw [seconds, Clock.seconds]; omega]
    simp only [UInt32.ofNat_add, UInt32.ofNat_mul]
    rfl
  simp only [RtcTime.mktime, rtcTime, mktime, ofInt_natCast,
    fromMarch_ofNat _ d.month_pos hmonth]
  by_cases hearly : d.month ≤ 2
  · rw [if_pos hearly] at hnumber
    rw [if_pos hearly]
    have hlast : UInt32.ofNat (d.year - 1) = UInt32.ofNat d.year - 1 :=
      UInt32.ofNat_sub (Nat.le_trans (by decide) h)
    rw [← hlast]
    exact hdays _ _ (by omega) (by omega) hnumber
  · rw [if_neg hearly] at hnumber
    rw [if_neg hearly]
    exact hdays _ _ hlt (by omega) hnumber

/-! ### The round trip -/

/-- The order of dates and times: the first difference decides. -/
theorem cons_le_cons_cases {a b : Nat} {l l' : List Nat} (h : a :: l ≤ b :: l') :
    a < b ∨ a = b ∧ l ≤ l' := by
  obtain hlt | rfl | hgt := Nat.lt_trichotomy a b
  · exact .inl hlt
  · refine .inr ⟨rfl, ?_⟩
    by_contra hnot
    exact not_lt_of_ge h (List.Lex.cons (not_le.mp hnot))
  · exact absurd (List.Lex.rel hgt) (not_lt_of_ge h)

/-- The times up to 2038-01-19 03:14:07 are those with a signed number of seconds. -/
theorem seconds_lt {d : Date} {c : Clock}
    (h : [d.year, d.month, d.day, c.hour, c.min, c.sec] ≤ [2038, 1, 19, 3, 14, 7]) :
    seconds d c < 2 ^ 31 := by
  have hday := d.dayOfYear_lt
  have hclock := c.seconds_lt
  have hyears := yearDays_eq 1970 (d.year - 1970) (by decide)
  have hlength : yearLength d.year ≤ 366 := by
    rw [yearLength]
    split_ifs <;> decide
  obtain hearlier | ⟨hyear, h⟩ := cons_le_cons_cases h
  · rw [seconds, Date.number]
    omega
  · have hpos := d.month_pos
    obtain hearlier | ⟨hone, h⟩ := cons_le_cons_cases h
    · omega
    have hday' : d.day < 19 ∨ d.day = 19 ∧ (c.hour < 3 ∨ c.hour = 3 ∧
        (c.min < 14 ∨ c.min = 14 ∧ c.sec ≤ 7)) := by
      refine (cons_le_cons_cases h).imp_right fun hd => ⟨hd.1, ?_⟩
      refine (cons_le_cons_cases hd.2).imp_right fun hh => ⟨hh.1, ?_⟩
      refine (cons_le_cons_cases hh.2).imp_right fun hm => ⟨hm.1, ?_⟩
      obtain hs | ⟨hs, -⟩ := cons_le_cons_cases hm.2
      · exact hs.le
      · exact hs.le
    have hzero : monthDays d.year d.month = 0 := by
      rw [hone]
      exact monthDays_one d.year
    have hhour := c.hour_lt
    have hmin := c.min_lt
    have hsec := c.sec_lt
    have hdpos := d.day_pos
    rw [seconds, Date.number, hzero, Clock.seconds]
    omega

/-- Every second before 2^31 is a date with its time of day and its day of the week,
whose seconds are counted back by `mktime`; and every date up to 2038-01-19 03:14:07
is found again in the seconds that `mktime` counts. -/
theorem toTm_mktime (tim : Int) (d : Date) (c : Clock) :
    (0 ≤ tim → tim < 2 ^ 31 → ∃ d c, toTm initialMonthDays tim =
      some (rtcTime d c, initialMonthDays) ∧ ((rtcTime d c).mktime.toNat : Int) = tim) ∧
    (1970 ≤ d.year →
      [d.year, d.month, d.day, c.hour, c.min, c.sec] ≤ [2038, 1, 19, 3, 14, 7] →
      toTm initialMonthDays (rtcTime d c).mktime.toNat =
        some (rtcTime d c, initialMonthDays)) := by
  have hround : ∀ d c, 1970 ≤ d.year → seconds d c < 2 ^ 31 →
      (rtcTime d c).mktime.toNat = seconds d c := by
    intro d c hyear hlt
    rw [mktime_rtcTime d c hyear (year_lt hlt), UInt32.toNat_ofNat']
    omega
  refine ⟨fun hnonneg hlt => ?_, fun hyear hlast => ?_⟩
  · obtain ⟨n, rfl⟩ := Int.eq_ofNat_of_zero_le hnonneg
    obtain ⟨d, hyear, hd⟩ := Date.exists_number 1970 (n / 86400)
    obtain ⟨c, hc⟩ := Clock.exists_seconds (Nat.mod_lt n (by decide : 86400 > 0))
    have hn : seconds d c = n := by
      rw [seconds, hd, hc]
      omega
    have hlt' : seconds d c < 2 ^ 31 := by omega
    refine ⟨d, c, ?_, ?_⟩
    · rw [← hn, toTm_seconds d c hyear hlt']
    · rw [hround d c hyear hlt', hn]
  · have hlt := seconds_lt hlast
    rw [hround d c hyear hlt, toTm_seconds d c hyear hlt]

/-- The leap day of the year 2000, which is one of a century. -/
def leapDay : Date where
  year := 2000
  month := 2
  day := 29
  month_pos := by decide
  month_le := by decide
  day_pos := by decide
  day_le := by decide

def lastSecond : Clock where
  hour := 23
  min := 59
  sec := 59
  hour_lt := by decide
  min_lt := by decide
  sec_lt := by decide

theorem toTm_mktime_leapDay :
    (∃ d c, toTm initialMonthDays 951868799 = some (rtcTime d c, initialMonthDays) ∧
      ((rtcTime d c).mktime.toNat : Int) = 951868799) ∧
    toTm initialMonthDays (rtcTime leapDay lastSecond).mktime.toNat =
      some (rtcTime leapDay lastSecond, initialMonthDays) :=
  ⟨(toTm_mktime 951868799 leapDay lastSecond).1 (by decide) (by decide),
    (toTm_mktime 0 leapDay lastSecond).2 (by decide) (by decide)⟩

end UBoot.Rtc
