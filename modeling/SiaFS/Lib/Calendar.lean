/-
Days of the Gregorian calendar since the first of January 1970.

`Date.dayNumber` counts the days of the years and of the months before a date, and
`posixDays` is the closed expression of POSIX for them.
-/
import Mathlib.Algebra.GroupWithZero.Nat

namespace Calendar

def isLeap (year : Nat) : Bool := year % 4 == 0 && (year % 100 != 0 || year % 400 == 0)

def daysInYear (year : Nat) : Nat := if isLeap year then 366 else 365

/-- The days of a month, in a leap year or not. -/
def daysInMonth (leap : Bool) : Nat → Nat
  | 2 => if leap then 29 else 28
  | 4 | 6 | 9 | 11 => 30
  | _ => 31

structure Date where
  year : Nat
  month : Nat
  day : Nat
  month_pos : 1 ≤ month
  month_le : month ≤ 12
  day_pos : 1 ≤ day
  day_le : day ≤ daysInMonth (isLeap year) month

/-- The days from the first of January 1970 to a date. -/
def Date.dayNumber (d : Date) : Nat :=
  ((List.range' 1970 (d.year - 1970)).map daysInYear).sum +
    ((List.range' 1 (d.month - 1)).map (daysInMonth (isLeap d.year))).sum + (d.day - 1)

/-- The days of a common year before each month. -/
def monthStarts : List Nat := [0, 31, 59, 90, 120, 151, 181, 212, 243, 273, 304, 334]

/-- The day of the year, from zero. -/
def yday (leap : Bool) (month day : Nat) : Nat :=
  monthStarts.getD (month - 1) 0 + (if leap && 2 < month then 1 else 0) + (day - 1)

/-- The days of `Seconds Since the Epoch`, where years are counted from 1900. -/
def posixDays (year month day : Nat) : Int :=
  let tm_year : Int := year - 1900
  yday (isLeap year) month day + 365 * (tm_year - 70) + (tm_year - 69) / 4 - (tm_year - 1) / 100 +
    (tm_year + 299) / 400

/-- Every fourth year is a leap year, but for the centuries that four does not divide. -/
theorem daysInYear_eq (year : Nat) : (daysInYear year : Int) =
    365 + (if year % 4 = 0 then 1 else 0) - (if year % 100 = 0 then 1 else 0) +
      (if year % 400 = 0 then 1 else 0) := by
  have hleap : isLeap year = true ↔ year % 4 = 0 ∧ (year % 100 ≠ 0 ∨ year % 400 = 0) := by
    unfold isLeap
    simp
  unfold daysInYear
  simp only [hleap]
  by_cases h4 : year % 4 = 0
  · by_cases h100 : year % 100 = 0
    · by_cases h400 : year % 400 = 0 <;> simp [h4, h100, h400]
    · have h400 : year % 400 ≠ 0 := by omega
      simp [h4, h100, h400]
  · have h100 : year % 100 ≠ 0 := by omega
    have h400 : year % 400 ≠ 0 := by omega
    simp [h4, h100, h400]

theorem daysInYear_sum (n : Nat) : (((List.range' 1970 n).map daysInYear).sum : Int) =
    365 * n + ((n : Int) + 1) / 4 - ((n : Int) + 69) / 100 + ((n : Int) + 369) / 400 := by
  induction n with
  | zero => rfl
  | succ n ih =>
    -- each quotient steps where its divisor divides the year
    have h4 : (n + 1 + 1 : Int) / 4 = (n + 1) / 4 + if (1970 + n) % 4 = 0 then 1 else 0 := by
      split <;> omega
    have h100 : (n + 1 + 69 : Int) / 100 =
        (n + 69) / 100 + if (1970 + n) % 100 = 0 then 1 else 0 := by
      split <;> omega
    have h400 : (n + 1 + 369 : Int) / 400 =
        (n + 369) / 400 + if (1970 + n) % 400 = 0 then 1 else 0 := by
      split <;> omega
    rw [List.range'_concat, Nat.one_mul, List.map_append, List.sum_append, Int.natCast_add, ih,
      List.map_singleton, List.sum_singleton, daysInYear_eq, Int.natCast_succ, h4, h100, h400]
    omega

theorem daysInMonth_sum {month : Nat} (hpos : 1 ≤ month) (hle : month ≤ 12) (leap : Bool) :
    ((List.range' 1 (month - 1)).map (daysInMonth leap)).sum =
      monthStarts.getD (month - 1) 0 + if leap && 2 < month then 1 else 0 := by
  have hall : ∀ m < 12, ((List.range' 1 m).map (daysInMonth leap)).sum =
      monthStarts.getD m 0 + if leap && 2 < m + 1 then 1 else 0 := by
    cases leap <;> decide
  have h := hall (month - 1) (by omega)
  rwa [Nat.sub_add_cancel hpos] at h

/-- The expression of POSIX counts the days of every date from 1970 on. -/
theorem posixDays_eq (d : Date) (h : 1970 ≤ d.year) :
    posixDays d.year d.month d.day = d.dayNumber := by
  have hyears := daysInYear_sum (d.year - 1970)
  have hmonths := daysInMonth_sum d.month_pos d.month_le (isLeap d.year)
  unfold posixDays Date.dayNumber yday
  dsimp only
  rw [← hmonths]
  omega

end Calendar
