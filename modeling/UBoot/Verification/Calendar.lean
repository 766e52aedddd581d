import Mathlib.Algebra.Order.BigOperators.Group.List
import Mathlib.Algebra.Order.Group.Nat
import Mathlib.Tactic.Common
import Mathlib.Tactic.IntervalCases

/-!
# The Gregorian calendar

The lengths of years and months, valid dates, and the number of a day, counted
from the first day of some year.
-/

namespace Verification

/-- Every fourth year but three of four centuries. -/
def Leap (year : Nat) : Prop := year % 4 = 0 ∧ (year % 100 ≠ 0 ∨ year % 400 = 0)

instance : DecidablePred Leap := fun _ => inferInstanceAs (Decidable (_ ∧ _))

def yearLength (year : Nat) : Nat := if Leap year then 366 else 365

/-- The days of the twelve months. -/
def monthLengths (year : Nat) : List Nat :=
  [31, if Leap year then 29 else 28, 31, 30, 31, 30, 31, 31, 30, 31, 30, 31]

/-- The days of month `month`, from 1 to 12. -/
def monthLength (year month : Nat) : Nat := (monthLengths year).getD (month - 1) 0

def yearDays : Nat → Nat → Nat
  | _, 0 => 0
  | year, n + 1 => yearLength year + yearDays (year + 1) n

def monthDays (year month : Nat) : Nat := ((monthLengths year).take (month - 1)).sum

/-- A date of the Gregorian calendar. -/
structure Date where
  year : Nat
  month : Nat
  day : Nat
  month_pos : 1 ≤ month
  month_le : month ≤ 12
  day_pos : 1 ≤ day
  day_le : day ≤ monthLength year month
deriving DecidableEq

/-- The days from the first day of the year `epoch` to the date. -/
def Date.number (epoch : Nat) (d : Date) : Nat :=
  yearDays epoch (d.year - epoch) + monthDays d.year d.month + (d.day - 1)

theorem yearDays_succ (year n : Nat) :
    yearDays year (n + 1) = yearDays year n + yearLength (year + n) := by
  induction n generalizing year with
  | zero => rw [yearDays, yearDays, yearDays, Nat.zero_add, Nat.add_zero, Nat.add_zero]
  | succ n ih =>
    rw [yearDays, ih (year + 1), yearDays, Nat.add_assoc, Nat.add_assoc, Nat.add_comm 1 n]

theorem yearDays_eq (year n : Nat) (h : 0 < year) :
    yearDays year n + (year - 1) * 365 + (year - 1) / 4 + (year - 1) / 400 + (year + n - 1) / 100 =
      (year + n - 1) * 365 + (year + n - 1) / 4 + (year + n - 1) / 400 + (year - 1) / 100 := by
  induction n with
  | zero => simp only [yearDays, Nat.add_zero]; omega
  | succ n ih =>
    rw [yearDays_succ, yearLength]
    by_cases hleap : Leap (year + n)
    · rw [if_pos hleap]
      rw [Leap] at hleap
      omega
    · rw [if_neg hleap]
      rw [Leap] at hleap
      omega

@[simp] theorem length_monthLengths (year : Nat) : (monthLengths year).length = 12 := rfl

theorem monthDays_one (year : Nat) : monthDays year 1 = 0 := rfl

theorem monthDays_succ (year : Nat) {month : Nat} (h1 : 1 ≤ month) (h12 : month ≤ 12) :
    monthDays year (month + 1) = monthDays year month + monthLength year month := by
  obtain ⟨k, rfl⟩ := Nat.exists_eq_add_of_le' h1
  have hk : k < (monthLengths year).length := by
    rw [length_monthLengths]
    omega
  rw [monthDays, monthDays, monthLength, Nat.add_sub_cancel, Nat.add_sub_cancel,
    List.sum_take_succ _ _ hk, List.getD_eq_getElem?_getD, List.getElem?_eq_getElem hk,
    Option.getD_some]

theorem monthDays_thirteen (year : Nat) : monthDays year 13 = yearLength year := by
  rw [monthDays, yearLength]
  by_cases h : Leap year
  · simp [monthLengths, h]
  · simp [monthLengths, h]

theorem monthLength_pos (year : Nat) {month : Nat} (h1 : 1 ≤ month) (h12 : month ≤ 12) :
    1 ≤ monthLength year month := by
  obtain rfl | hne := eq_or_ne month 2
  · change 1 ≤ if Leap year then 29 else 28
    split_ifs <;> decide
  · interval_cases month
    all_goals first | exact Nat.le_of_ble_eq_true rfl | exact absurd rfl hne

theorem monthDays_le (year : Nat) {month : Nat} (h1 : 1 ≤ month) (h12 : month ≤ 12) :
    monthDays year month + monthLength year month ≤ yearLength year := by
  rw [← monthDays_succ year h1 h12, ← monthDays_thirteen]
  exact (List.take_sublist_take_left (by omega)).sum_le_sum (fun x _ => Nat.zero_le x)

/-- The first day of a year. -/
def Date.first (year : Nat) : Date where
  year := year
  month := 1
  day := 1
  month_pos := Nat.le_refl 1
  month_le := by decide
  day_pos := Nat.le_refl 1
  day_le := by
    change 1 ≤ 31
    decide

/-- After every day comes another one. -/
theorem Date.exists_next (epoch : Nat) (d : Date) (h : epoch ≤ d.year) :
    ∃ next : Date, epoch ≤ next.year ∧ next.number epoch = d.number epoch + 1 := by
  obtain ⟨year, month, day, month_pos, month_le, day_pos, day_le⟩ := d
  obtain ⟨n, rfl⟩ := Nat.exists_eq_add_of_le h
  simp only [Date.number, Nat.add_sub_cancel_left]
  by_cases hday : day < monthLength (epoch + n) month
  · refine ⟨⟨epoch + n, month, day + 1, month_pos, month_le, by omega, hday⟩, h, ?_⟩
    simp only [Nat.add_sub_cancel_left]
    omega
  · have hend := monthDays_succ (epoch + n) month_pos month_le
    by_cases hmonth : month < 12
    · refine ⟨⟨epoch + n, month + 1, 1, by omega, hmonth, Nat.le_refl 1,
        monthLength_pos _ (by omega) hmonth⟩, h, ?_⟩
      simp only [Nat.add_sub_cancel_left, hend]
      omega
    · obtain rfl : month = 12 := by omega
      rw [monthDays_thirteen] at hend
      refine ⟨Date.first (epoch + n + 1), Nat.le_succ_of_le h, ?_⟩
      simp only [Date.first, monthDays_one]
      rw [show epoch + n + 1 - epoch = n + 1 by omega, yearDays_succ]
      omega

theorem Date.exists_number (epoch n : Nat) : ∃ d : Date, epoch ≤ d.year ∧ d.number epoch = n := by
  induction n with
  | zero =>
    refine ⟨Date.first epoch, Nat.le_refl epoch, ?_⟩
    simp only [Date.number, Date.first, Nat.sub_self, yearDays, monthDays_one]
  | succ n ih =>
    obtain ⟨d, hyear, hnumber⟩ := ih
    obtain ⟨next, hnext, hsucc⟩ := d.exists_next epoch hyear
    exact ⟨next, hnext, by rw [hsucc, hnumber]⟩

/-- The day of the year, counted from zero. -/
theorem Date.dayOfYear_lt (d : Date) :
    monthDays d.year d.month + (d.day - 1) < yearLength d.year := by
  have hle := monthDays_le d.year d.month_pos d.month_le
  have h1 := d.day_pos
  have h2 := d.day_le
  omega

/-- A time of day. -/
structure Clock where
  hour : Nat
  min : Nat
  sec : Nat
  hour_lt : hour < 24
  min_lt : min < 60
  sec_lt : sec < 60
deriving DecidableEq

def Clock.seconds (c : Clock) : Nat := (c.hour * 60 + c.min) * 60 + c.sec

theorem Clock.seconds_lt (c : Clock) : c.seconds < 86400 := by
  have h1 := c.hour_lt
  have h2 := c.min_lt
  have h3 := c.sec_lt
  rw [Clock.seconds]
  omega

/-- Every number of seconds of a day is a time of day. -/
theorem Clock.exists_seconds {n : Nat} (h : n < 86400) : ∃ c : Clock, c.seconds = n := by
  refine ⟨⟨n / 3600, n / 60 % 60, n % 60, by omega, by omega, by omega⟩, ?_⟩
  simp only [Clock.seconds]
  omega

end Verification
