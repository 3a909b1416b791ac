/-
The civil calendar from 1970 on, and the instants of its dates in seconds.
Months and weekdays count from 0, days of a month from 1.
-/
import Mathlib.Algebra.BigOperators.Group.List.Basic
import Mathlib.Data.List.Range
import Mathlib.Tactic.IntervalCases

namespace Libcad

def IsLeapYear (year : Nat) : Prop :=
  year % 4 = 0 ∧ (year % 100 ≠ 0 ∨ year % 400 = 0)

instance (year : Nat) : Decidable (IsLeapYear year) :=
  inferInstanceAs (Decidable (_ ∧ _))

def yearLength (year : Nat) : Nat := if IsLeapYear year then 366 else 365

def monthLength (year month : Nat) : Nat :=
  match month with
  | 1 => if IsLeapYear year then 29 else 28
  | 3 | 5 | 8 | 10 => 30
  | _ => 31

/-- The days from the first day of 1970 to the first day of a year. -/
def yearStart (year : Nat) : Nat :=
  ((List.range (year - 1970)).map fun i => yearLength (1970 + i)).sum

/-- The days from the first day of a year to the first day of a month. -/
def monthStart (year month : Nat) : Nat :=
  ((List.range month).map (monthLength year)).sum

theorem yearStart_succ {year : Nat} (h : 1970 ≤ year) :
    yearStart (year + 1) = yearStart year + yearLength year := by
  have hcount : year + 1 - 1970 = year - 1970 + 1 := by omega
  have hyear : 1970 + (year - 1970) = year := by omega
  rw [yearStart, yearStart, hcount, List.range_succ, List.map_append,
    List.sum_append, List.map_singleton, List.sum_singleton, hyear]

theorem monthStart_succ (year month : Nat) :
    monthStart year (month + 1) =
      monthStart year month + monthLength year month := by
  rw [monthStart, monthStart, List.range_succ, List.map_append,
    List.sum_append, List.map_singleton, List.sum_singleton]

/-- Every year has 365 days, and the leap years before it one more. -/
theorem yearStart_eq {year : Nat} (h : 1970 ≤ year) :
    yearStart year + 719162 + (year - 1) / 100 =
      365 * (year - 1) + (year - 1) / 4 + (year - 1) / 400 := by
  induction year, h using Nat.le_induction with
  | base => decide
  | succ year h ih =>
      rw [yearStart_succ h, yearLength]
      split
      next hleap =>
        obtain ⟨hfour, hcentury⟩ := hleap
        omega
      next hleap =>
        rw [IsLeapYear] at hleap
        omega

/-- A day of the calendar. -/
structure CivilDate where
  year : Nat
  month : Nat
  day : Nat
  epoch_le : 1970 ≤ year
  month_lt : month < 12
  day_pos : 1 ≤ day
  day_le : day ≤ monthLength year month

/-- A second of a day of the calendar. -/
structure CivilTime extends CivilDate where
  hour : Nat
  minute : Nat
  second : Nat
  hour_lt : hour < 24
  minute_lt : minute < 60
  second_lt : second < 60

def CivilDate.dayNumber (date : CivilDate) : Nat :=
  yearStart date.year + monthStart date.year date.month + (date.day - 1)

/-- The first day of 1970 was a Thursday, day 4 of the week. -/
def CivilDate.weekday (date : CivilDate) : Nat := (date.dayNumber + 4) % 7

/-- The seconds from the first one of 1970 on. -/
def CivilTime.instant (time : CivilTime) : Nat :=
  ((time.dayNumber * 24 + time.hour) * 60 + time.minute) * 60 + time.second

end Libcad
