import Mathlib.Order.Lattice

namespace LogCache.CivilTime

def isLeap (year : Nat) : Bool :=
  decide (year % 4 = 0) && (decide (year % 100 ≠ 0) || decide (year % 400 = 0))

def daysIn (year : Nat) : Nat → Nat
  | 2 => if isLeap year then 29 else 28
  | 4 | 6 | 9 | 11 => 30
  | _ => 31

def daysBeforeMonth (year : Nat) : Nat → Nat
  | 0 => 0
  | months + 1 => daysBeforeMonth year months + daysIn year (months + 1)

def daysBeforeYear : Nat → Nat
  | 0 => 0
  | year + 1 => daysBeforeYear year + if isLeap year then 366 else 365

theorem daysIn_le (year month : Nat) : daysIn year month ≤ 31 := by
  unfold daysIn
  split
  · split_ifs <;> omega
  all_goals omega

theorem daysBeforeMonth_le (year months : Nat) : daysBeforeMonth year months ≤ 31 * months := by
  induction months with
  | zero => exact le_rfl
  | succ months ih =>
      have := daysIn_le year (months + 1)
      rw [daysBeforeMonth]
      omega

theorem daysBeforeYear_bounds (year : Nat) :
    365 * year ≤ daysBeforeYear year ∧ daysBeforeYear year ≤ 366 * year := by
  induction year with
  | zero => exact ⟨le_rfl, le_rfl⟩
  | succ year ih =>
      rw [daysBeforeYear]
      split_ifs <;> omega

/-- A date and a time of day with an offset from UTC in minutes, as written
with four digits for the year and two for the other numbers. -/
structure DateTime where
  year : Nat
  month : Nat
  day : Nat
  hour : Nat
  minute : Nat
  second : Nat
  nanosecond : Nat
  offset : Int
  year_le : year ≤ 9999
  month_pos : 1 ≤ month
  month_le : month ≤ 12
  day_pos : 1 ≤ day
  day_le : day ≤ daysIn year month
  hour_lt : hour < 24
  minute_lt : minute < 60
  second_lt : second < 60
  nanosecond_lt : nanosecond < 1000000000
  offset_le : offset ≤ 99 * 60 + 99
  le_offset : -(99 * 60 + 99) ≤ offset

namespace DateTime

def unixDays (t : DateTime) : Int :=
  daysBeforeYear t.year - daysBeforeYear 1970 + daysBeforeMonth t.year (t.month - 1) + t.day - 1

def unixSeconds (t : DateTime) : Int :=
  ((t.unixDays * 24 + t.hour) * 60 + t.minute - t.offset) * 60 + t.second

theorem unixDays_bounds (t : DateTime) :
    365 * t.year - 366 * 1970 ≤ t.unixDays ∧ t.unixDays ≤ 366 * t.year + 372 - 365 * 1970 := by
  have hyear := daysBeforeYear_bounds t.year
  have hepoch := daysBeforeYear_bounds 1970
  have hmonth := daysBeforeMonth_le t.year (t.month - 1)
  have hday := t.day_le.trans (daysIn_le _ _)
  have := t.day_pos
  have := t.month_le
  have := t.month_pos
  rw [unixDays]
  omega

theorem unixSeconds_bounds (t : DateTime) :
    (t.unixDays - 5) * 86400 ≤ t.unixSeconds ∧ t.unixSeconds ≤ (t.unixDays + 6) * 86400 := by
  have := t.hour_lt
  have := t.minute_lt
  have := t.second_lt
  have := t.offset_le
  have := t.le_offset
  rw [unixSeconds]
  omega

end DateTime

end LogCache.CivilTime
