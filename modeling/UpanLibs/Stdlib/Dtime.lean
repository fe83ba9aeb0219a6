import Mathlib.Algebra.Order.Ring.Int
import Mathlib.Data.List.Basic
import Mathlib.Tactic.Common

/-!
`gmtime_r`. An `int` that leaves its 32 bits makes the result undefined, as does the
negation of the least `time_t`.
-/
namespace Dtime

def SECONDS_IN_NON_LEAP_YEAR : Int := 31536000
def SECONDS_IN_LEAP_YEAR : Int := 31622400
def SECONDS_IN_DAY : Int := 86400

def DAYS_IN_A_MONTH : List Int := [31, 28, 31, 30, 31, 30, 31, 31, 30, 31, 30, 31]

structure Tm where
  tm_sec : Int
  tm_min : Int
  tm_hour : Int
  tm_wday : Int
  tm_mday : Int
  tm_mon : Int
  tm_year : Int
  tm_yday : Int
  deriving DecidableEq, Repr

def int32 (n : Int) : Option Int := if -2 ^ 31 ≤ n ∧ n < 2 ^ 31 then some n else none

theorem int32_some {n m : Int} (fits : int32 n = some m) : m = n ∧ -2 ^ 31 ≤ n ∧ n < 2 ^ 31 := by
  unfold int32 at fits
  split at fits
  next bounds => exact ⟨(Option.some.inj fits).symm, bounds⟩
  · cases fits

theorem int32_fits {n : Int} (low : -2 ^ 31 ≤ n) (high : n < 2 ^ 31) : int32 n = some n :=
  if_pos ⟨low, high⟩

theorem int32_iff {n m : Int} : int32 n = some m ↔ (-2 ^ 31 ≤ n ∧ n < 2 ^ 31) ∧ m = n := by
  constructor
  · intro fits
    exact ⟨(int32_some fits).2, (int32_some fits).1⟩
  · rintro ⟨bounds, rfl⟩
    exact int32_fits bounds.1 bounds.2

def isLeapYear (year : Int) : Bool := year % 4 = 0

def yearSeconds (year : Int) : Int :=
  if isLeapYear year then SECONDS_IN_LEAP_YEAR else SECONDS_IN_NON_LEAP_YEAR

/-- The loop over the years: what is left of the time, the year and the days before it. -/
def yearLoop (negativeTime : Bool) : Nat → Int → Int → Int → Option (Int × Int × Int)
  | 0, _, _, _ => none
  | fuel + 1, t, year, totalDays =>
      if t < yearSeconds year then some (t, year, totalDays)
      else do
        let year' ← int32 (if negativeTime then year - 1 else year + 1)
        let totalDays ← int32 (totalDays + if isLeapYear year then 366 else 365)
        yearLoop negativeTime fuel (t - yearSeconds year) year' totalDays

def monthDays (leap : Bool) (month : Nat) : Int :=
  let days := DAYS_IN_A_MONTH.getD month 0
  if leap ∧ month = 1 then days + 1 else days

/-- The loop over the months, of which `12 - n` are behind. -/
def monthLoop (leap : Bool) : Nat → Nat → Int → Int → Nat × Int × Int
  | 0, month, t, dayOfTheYear => (month, t, dayOfTheYear)
  | n + 1, month, t, dayOfTheYear =>
      let secondsInMonth := monthDays leap month * SECONDS_IN_DAY
      if t < secondsInMonth then (month, t, dayOfTheYear)
      else monthLoop leap n (month + 1) (t - secondsInMonth) (dayOfTheYear + monthDays leap month)

def dayLoop : Nat → Int → Int → Int → Int × Int × Int
  | 0, t, dayOfTheMonth, dayOfTheYear => (t, dayOfTheMonth, dayOfTheYear)
  | fuel + 1, t, dayOfTheMonth, dayOfTheYear =>
      if t ≥ SECONDS_IN_DAY then
        dayLoop fuel (t - SECONDS_IN_DAY) (dayOfTheMonth + 1) (dayOfTheYear + 1)
      else (t, dayOfTheMonth, dayOfTheYear)

def weekday (negativeTime : Bool) (totalDays : Int) : Option Int :=
  if negativeTime then
    (int32 (4 - totalDays)).map fun w => if w.tmod 7 < 0 then w.tmod 7 + 7 else w.tmod 7
  else (int32 (totalDays + 4)).map fun w => w.tmod 7

/-- The part of `gmtime_r` behind the loop over the years. -/
def fields (negativeTime : Bool) (t year totalDays : Int) : Option Tm := do
  let leap := isLeapYear year
  let t := if negativeTime then yearSeconds year - t else t
  let (month, t, dayOfTheYear) := monthLoop leap 12 0 t 0
  let (t, dayOfTheMonth, dayOfTheYear) := dayLoop t.toNat t 1 dayOfTheYear
  let totalDays ← int32 (totalDays +
    if negativeTime then (if leap then 366 else 365) - dayOfTheYear else dayOfTheYear)
  let wday ← weekday negativeTime totalDays
  let tm_year ← int32 (year - 1900)
  pure
    { tm_sec := t.tmod 60
      tm_min := (t.tmod 3600).tdiv 60
      tm_hour := t.tdiv 3600
      tm_wday := wday
      tm_mday := dayOfTheMonth
      tm_mon := month
      tm_year := tm_year
      tm_yday := dayOfTheYear }

/-- A year has no less than `SECONDS_IN_NON_LEAP_YEAR`: the loop ends within the fuel. -/
def gmtime_r (t : Int) : Option Tm :=
  let negativeTime : Bool := t < 0
  if negativeTime ∧ ¬ -t < 2 ^ 63 then none
  else
    let t := if negativeTime then -t else t
    let year := if negativeTime then 1969 else 1970
    (yearLoop negativeTime (t.toNat / 31536000 + 1) t year 0).bind fun (t, year, totalDays) =>
      fields negativeTime t year totalDays

end Dtime
