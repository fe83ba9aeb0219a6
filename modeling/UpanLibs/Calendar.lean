import Mathlib.Algebra.Order.Ring.Int
import Mathlib.Data.List.Basic
import Mathlib.Tactic.Common

/-!
Calendars that differ in their leap years, and what broken-down fields say of an
instant. Days are counted from 1970-01-01, a Thursday.
-/

structure Calendar where
  leap : Int → Bool
  daysTo : Int → Int
  epoch : daysTo 1970 = 0
  next : ∀ year, daysTo (year + 1) = daysTo year + if leap year then 366 else 365

namespace Calendar

def monthLengths (leap : Bool) : List Int :=
  [31, if leap then 29 else 28, 31, 30, 31, 30, 31, 31, 30, 31, 30, 31]

def daysBefore (leap : Bool) (month : Nat) : Int := ((monthLengths leap).take month).sum

/-- The calendar in which every fourth year is a leap year. -/
def everyFourth : Calendar where
  leap year := year % 4 = 0
  daysTo year := 365 * (year - 1970) + ((year - 1) / 4 - 492)
  epoch := by decide
  next year := by
    simp only [decide_eq_true_eq]
    split <;> omega

def gregorian : Calendar where
  leap year := year % 4 = 0 ∧ (year % 100 ≠ 0 ∨ year % 400 = 0)
  daysTo year :=
    365 * (year - 1970) + ((year - 1) / 4 - 492) - ((year - 1) / 100 - 19) + ((year - 1) / 400 - 4)
  epoch := by decide
  next year := by
    simp only [decide_eq_true_eq]
    split <;> omega

structure Fields where
  sec : Int
  min : Int
  hour : Int
  wday : Int
  mday : Int
  mon : Int
  year : Int
  yday : Int

/-- The fields are in range, agree with one another, and stand for the instant `t`. -/
structure Encodes (c : Calendar) (t : Int) (f : Fields) : Prop where
  sec : 0 ≤ f.sec ∧ f.sec ≤ 59
  min : 0 ≤ f.min ∧ f.min ≤ 59
  hour : 0 ≤ f.hour ∧ f.hour ≤ 23
  mon : 0 ≤ f.mon ∧ f.mon ≤ 11
  mday : 1 ≤ f.mday ∧ f.mday ≤ (monthLengths (c.leap f.year)).getD f.mon.toNat 0
  yearDay : 0 ≤ f.yday ∧ f.yday < if c.leap f.year then 366 else 365
  yday : f.yday = daysBefore (c.leap f.year) f.mon.toNat + f.mday - 1
  instant : t = (c.daysTo f.year + daysBefore (c.leap f.year) f.mon.toNat + f.mday - 1) * 86400 +
    f.hour * 3600 + f.min * 60 + f.sec
  weekday : 0 ≤ f.wday ∧ f.wday ≤ 6
  wday : f.wday = (t / 86400 + 4) % 7

theorem daysBefore_succ (leap : Bool) {month : Nat} (inside : month < 12) :
    daysBefore leap (month + 1) = daysBefore leap month + (monthLengths leap).getD month 0 := by
  have length : (monthLengths leap).length = 12 := rfl
  unfold daysBefore
  rw [List.take_add_one, List.sum_append, List.getD_eq_getElem?_getD,
    List.getElem?_eq_getElem (by omega)]
  simp

theorem daysBefore_twelve (leap : Bool) : daysBefore leap 12 = if leap then 366 else 365 := by
  cases leap <;> decide

theorem monthLengths_pos (leap : Bool) {month : Nat} (inside : month < 12) :
    28 ≤ (monthLengths leap).getD month 0 ∧ (monthLengths leap).getD month 0 ≤ 31 := by
  have all : ∀ leap, ∀ month < 12,
      28 ≤ (monthLengths leap).getD month 0 ∧ (monthLengths leap).getD month 0 ≤ 31 := by decide
  exact all leap month inside

theorem daysBefore_mono (leap : Bool) {month month' : Nat} (ordered : month ≤ month')
    (inside : month' ≤ 12) : daysBefore leap month ≤ daysBefore leap month' := by
  induction ordered with
  | refl => exact Int.le_refl _
  | step ordered ih =>
    have length := monthLengths_pos leap inside
    have rest := ih (by omega)
    rw [daysBefore_succ leap (by omega)]
    omega

theorem daysTo_same {year : Int} :
    everyFourth.daysTo year = gregorian.daysTo year ↔ 1901 ≤ year ∧ year ≤ 2100 := by
  simp only [everyFourth, gregorian]
  omega

theorem leap_same {year : Int} (early : 1901 ≤ year) (late : year < 2100) :
    gregorian.leap year = everyFourth.leap year := by
  simp only [everyFourth, gregorian, decide_eq_decide]
  omega

end Calendar
