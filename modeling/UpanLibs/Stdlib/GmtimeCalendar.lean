import UpanLibs.Calendar
import UpanLibs.Stdlib.Dtime
import Mathlib.Tactic.Ring

/-!
What `gmtime_r` computes, in the calendar in which every fourth year is a leap year,
and for which instants that is the Gregorian calendar.
-/
namespace Dtime

open Calendar

/-- The fields of the result; the year is counted from 1900. -/
def Tm.fields (tm : Tm) : Fields :=
  ⟨tm.tm_sec, tm.tm_min, tm.tm_hour, tm.tm_wday, tm.tm_mday, tm.tm_mon, tm.tm_year + 1900,
    tm.tm_yday⟩

def passed (negativeTime : Bool) (year : Int) : Int :=
  if negativeTime then -everyFourth.daysTo (year + 1) else everyFourth.daysTo year

theorem daysTo_eq (year : Int) :
    everyFourth.daysTo year = 365 * (year - 1970) + ((year - 1) / 4 - 492) := rfl

theorem yearDays_eq (year : Int) :
    (if isLeapYear year then (366 : Int) else 365) =
      everyFourth.daysTo (year + 1) - everyFourth.daysTo year := by
  have next := everyFourth.next year
  have same : everyFourth.leap year = isLeapYear year := rfl
  rw [same] at next
  omega

theorem yearSeconds_eq (year : Int) :
    yearSeconds year = 86400 * (everyFourth.daysTo (year + 1) - everyFourth.daysTo year) := by
  rw [← yearDays_eq]
  unfold yearSeconds SECONDS_IN_LEAP_YEAR SECONDS_IN_NON_LEAP_YEAR
  split <;> rfl

theorem passed_step (negativeTime : Bool) (year : Int) :
    passed negativeTime (if negativeTime then year - 1 else year + 1) =
      passed negativeTime year + if isLeapYear year then 366 else 365 := by
  rw [yearDays_eq]
  cases negativeTime <;> simp only [passed, if_true, Bool.false_eq_true, if_false]
  · omega
  · rw [Int.sub_add_cancel]
    omega

theorem yearLoop_some {negativeTime : Bool} {fuel : Nat} {t year t' year' total' : Int}
    (nonneg : 0 ≤ t)
    (done : yearLoop negativeTime fuel t year (passed negativeTime year) = some (t', year', total')) :
    0 ≤ t' ∧ t' < yearSeconds year' ∧ total' = passed negativeTime year' ∧
      t' + 86400 * passed negativeTime year' = t + 86400 * passed negativeTime year := by
  induction fuel generalizing t year with
  | zero => cases done
  | succ fuel ih =>
    rw [yearLoop] at done
    split at done
    next short =>
      cases done
      exact ⟨nonneg, short, rfl, rfl⟩
    next long =>
      obtain ⟨y, stepped, done⟩ := Option.bind_eq_some_iff.mp done
      obtain ⟨days, counted, done⟩ := Option.bind_eq_some_iff.mp done
      have step := passed_step negativeTime year
      rw [← (int32_some stepped).1] at step
      rw [(int32_some counted).1, ← step] at done
      obtain ⟨low, high, total, kept⟩ := ih (by omega) done
      refine ⟨low, high, total, ?_⟩
      rw [yearSeconds_eq, ← yearDays_eq] at kept
      omega

theorem yearLoop_defined {negativeTime : Bool} {fuel : Nat} {t year : Int} (nonneg : 0 ≤ t)
    (enough : t < 31536000 * fuel) (counted : 0 ≤ passed negativeTime year)
    (fits : (t + 86400 * passed negativeTime year) / 86400 < 2 ^ 31) :
    ∃ r, yearLoop negativeTime fuel t year (passed negativeTime year) = some r := by
  induction fuel generalizing t year with
  | zero => omega
  | succ fuel ih =>
    rw [yearLoop]
    split
    · exact ⟨_, rfl⟩
    next long =>
      have seconds := yearSeconds_eq year
      have step := passed_step negativeTime year
      have length : (if isLeapYear year then (366 : Int) else 365) = 365 ∨
          (if isLeapYear year then (366 : Int) else 365) = 366 := by split <;> simp
      rw [← yearDays_eq] at seconds
      generalize (if isLeapYear year then (366 : Int) else 365) = days at seconds step length
      have days_fit := int32_fits (n := passed negativeTime year + days) (by omega) (by omega)
      have year_fit : int32 (if negativeTime then year - 1 else year + 1) =
          some (if negativeTime then year - 1 else year + 1) := by
        rw [← step] at days_fit
        have bounds := (int32_some days_fit).2
        revert counted bounds
        cases negativeTime <;> simp only [passed, daysTo_eq, if_true, Bool.false_eq_true, if_false] <;>
          intro counted bounds <;> apply int32_fits <;> omega
      rw [year_fit, Option.bind_eq_bind, Option.bind_some, days_fit, Option.bind_some, ← step]
      refine ih (by omega) ?_ (by omega) ?_
      · push_cast at enough
        omega
      · rw [step, seconds]
        omega

theorem monthDays_eq (leap : Bool) {month : Nat} (inside : month < 12) :
    monthDays leap month = (monthLengths leap).getD month 0 := by
  have all : ∀ leap, ∀ month < 12, monthDays leap month = (monthLengths leap).getD month 0 := by
    decide
  exact all leap month inside

theorem monthLoop_spec (leap : Bool) (n month : Nat) (counted : n + month = 12) {t : Int}
    (nonneg : 0 ≤ t) :
    ∃ month' t', monthLoop leap n month t (daysBefore leap month) =
        (month', t', daysBefore leap month') ∧ month' ≤ 12 ∧ 0 ≤ t' ∧
      t' + 86400 * daysBefore leap month' = t + 86400 * daysBefore leap month ∧
      (month' < 12 → t' < 86400 * (monthLengths leap).getD month' 0) := by
  induction n generalizing month t with
  | zero => exact ⟨month, t, rfl, by omega, nonneg, rfl, fun below => by omega⟩
  | succ n ih =>
    have inside : month < 12 := by omega
    have length := monthDays_eq leap inside
    have seconds : monthDays leap month * SECONDS_IN_DAY =
        86400 * (monthLengths leap).getD month 0 := by
      rw [length, Int.mul_comm]
      rfl
    simp only [monthLoop]
    split
    next short => exact ⟨month, t, rfl, by omega, nonneg, rfl, fun _ => seconds ▸ short⟩
    next long =>
      obtain ⟨month', t', done, last, low, kept, high⟩ :=
        ih (month + 1) (by omega) (t := t - monthDays leap month * SECONDS_IN_DAY)
          (by omega)
      rw [daysBefore_succ leap inside, ← length] at done kept
      exact ⟨month', t', done, last, low, by omega, high⟩

theorem dayLoop_spec {fuel : Nat} {t : Int} (nonneg : 0 ≤ t) (enough : t < 86400 * (fuel + 1))
    (mday yday : Int) :
    dayLoop fuel t mday yday = (t % 86400, mday + t / 86400, yday + t / 86400) := by
  induction fuel generalizing t mday yday with
  | zero =>
    rw [Int.emod_eq_of_lt nonneg (by omega), Int.ediv_eq_zero_of_lt nonneg (by omega)]
    simp [dayLoop]
  | succ fuel ih =>
    have seconds : SECONDS_IN_DAY = 86400 := rfl
    simp only [dayLoop]
    split
    next long =>
      rw [ih (by omega) (by push_cast at enough; omega), seconds]
      refine Prod.ext ?_ (Prod.ext ?_ ?_) <;> simp only <;> omega
    next short =>
      rw [Int.emod_eq_of_lt nonneg (by omega), Int.ediv_eq_zero_of_lt nonneg (by omega)]
      simp

theorem tmod_seven (n : Int) : (if n.tmod 7 < 0 then n.tmod 7 + 7 else n.tmod 7) = n % 7 := by
  rw [Int.tmod_eq_emod]
  by_cases whole : 0 ≤ n ∨ 7 ∣ n
  · rw [if_pos whole]
    split <;> omega
  · rw [if_neg whole]
    split <;> omega

def sinceNewYear (negativeTime : Bool) (t year : Int) : Int :=
  if negativeTime then yearSeconds year - t else t

theorem dayOfTheYear_spec (leap : Bool) {s : Int} (nonneg : 0 ≤ s) :
    ∃ month mday, (dayLoop (monthLoop leap 12 0 s 0).2.1.toNat (monthLoop leap 12 0 s 0).2.1 1
        (monthLoop leap 12 0 s 0).2.2 = (s % 86400, mday, s / 86400)) ∧
      (monthLoop leap 12 0 s 0).1 = month ∧ month ≤ 12 ∧ 1 ≤ mday ∧
      s / 86400 = daysBefore leap month + mday - 1 ∧
      (month < 12 → mday ≤ (monthLengths leap).getD month 0) := by
  obtain ⟨month, t, done, last, low, kept, high⟩ :=
    monthLoop_spec leap 12 0 rfl nonneg
  have start : daysBefore leap 0 = 0 := rfl
  rw [start] at done kept
  rw [done]
  simp only
  rw [dayLoop_spec low (by omega)]
  refine ⟨month, 1 + t / 86400, ?_, rfl, last, by omega, by omega, fun below => ?_⟩
  · refine Prod.ext ?_ (Prod.ext rfl ?_) <;> simp only <;> omega
  · have := high below
    omega

/-- The days from the epoch to the day, or back to it, and its weekday fit an `int`. -/
def Counted (negativeTime : Bool) (day : Int) : Prop :=
  (-2 ^ 31 ≤ (if negativeTime then -day else day) ∧
    (if negativeTime then -day else day) < 2 ^ 31) ∧
  -2 ^ 31 ≤ day + 4 ∧ day + 4 < 2 ^ 31

theorem weekday_iff {negativeTime : Bool} {day wday : Int} :
    weekday negativeTime (if negativeTime then -day else day) = some wday ↔
      (-2 ^ 31 ≤ day + 4 ∧ day + 4 < 2 ^ 31) ∧
      wday = if negativeTime then (day + 4) % 7 else (day + 4).tmod 7 := by
  cases negativeTime
  · simp only [weekday, Bool.false_eq_true, if_false, Option.map_eq_some_iff, int32_iff]
    constructor
    · rintro ⟨_, ⟨fits, rfl⟩, rfl⟩
      exact ⟨fits, rfl⟩
    · rintro ⟨fits, rfl⟩
      exact ⟨_, ⟨fits, rfl⟩, rfl⟩
  · simp only [weekday, if_true, Option.map_eq_some_iff, int32_iff, tmod_seven, Int.sub_neg,
      Int.add_comm 4 day]
    constructor
    · rintro ⟨_, ⟨fits, rfl⟩, rfl⟩
      exact ⟨fits, rfl⟩
    · rintro ⟨fits, rfl⟩
      exact ⟨_, ⟨fits, rfl⟩, rfl⟩

theorem fields_iff {negativeTime : Bool} {t year : Int}
    (nonneg : 0 ≤ sinceNewYear negativeTime t year) :
    let s := sinceNewYear negativeTime t year
    let day := everyFourth.daysTo year + s / 86400
    ∃ (month : Nat) (mday : Int), month ≤ 12 ∧ 1 ≤ mday ∧
      s / 86400 = daysBefore (isLeapYear year) month + mday - 1 ∧
      (month < 12 → mday ≤ (monthLengths (isLeapYear year)).getD month 0) ∧
      ∀ tm, fields negativeTime t year (passed negativeTime year) = some tm ↔
        Counted negativeTime day ∧ (-2 ^ 31 ≤ year - 1900 ∧ year - 1900 < 2 ^ 31) ∧
        tm =
          { tm_sec := (s % 86400).tmod 60
            tm_min := ((s % 86400).tmod 3600).tdiv 60
            tm_hour := (s % 86400).tdiv 3600
            tm_wday := if negativeTime then (day + 4) % 7 else (day + 4).tmod 7
            tm_mday := mday
            tm_mon := month
            tm_year := year - 1900
            tm_yday := s / 86400 } := by
  intro s day
  obtain ⟨month, mday, counted, sameMonth, last, first, days, high⟩ :=
    dayOfTheYear_spec (isLeapYear year) nonneg
  refine ⟨month, mday, last, first, days, high, fun tm => ?_⟩
  have total : passed negativeTime year +
      (if negativeTime then (if isLeapYear year then (366 : Int) else 365) - s / 86400
        else s / 86400) = if negativeTime then -day else day := by
    rw [yearDays_eq]
    cases negativeTime
    · rfl
    · simp only [passed, if_true, day]
      omega
  have unfolded : fields negativeTime t year (passed negativeTime year) =
      (int32 (if negativeTime then -day else day)).bind fun totalDays =>
        (weekday negativeTime totalDays).bind fun wday =>
          (int32 (year - 1900)).bind fun tm_year => some
            { tm_sec := (s % 86400).tmod 60
              tm_min := ((s % 86400).tmod 3600).tdiv 60
              tm_hour := (s % 86400).tdiv 3600
              tm_wday := wday
              tm_mday := mday
              tm_mon := month
              tm_year := tm_year
              tm_yday := s / 86400 } := by
    have folded : (if negativeTime then yearSeconds year - t else t) =
        sinceNewYear negativeTime t year := rfl
    rw [← total]
    simp only [fields, folded, counted, sameMonth]
    rfl
  rw [unfolded]
  simp only [Option.bind_eq_some_iff, int32_iff]
  constructor
  · rintro ⟨_, ⟨dayFits, rfl⟩, wday, week, _, ⟨yearFits, rfl⟩, made⟩
    obtain ⟨weekFits, rfl⟩ := weekday_iff.mp week
    cases made
    exact ⟨⟨dayFits, weekFits⟩, yearFits, rfl⟩
  · rintro ⟨⟨dayFits, weekFits⟩, yearFits, rfl⟩
    exact ⟨_, ⟨dayFits, rfl⟩, _, weekday_iff.mpr ⟨weekFits, rfl⟩, _, ⟨yearFits, rfl⟩, rfl⟩

/-- The day and its weekday can be counted in an `int`. -/
def InRange (t : Int) : Prop := -2 ^ 31 < t / 86400 ∧ t / 86400 + 4 < 2 ^ 31

def NewYear (t : Int) : Prop := ∃ year, t = 86400 * everyFourth.daysTo year

/-- The time is counted back from the epoch, and is the first second of a year. -/
def Backward (t : Int) : Prop := t < 0 ∧ NewYear t

theorem passed_start (t : Int) :
    passed (t < 0) (if t < 0 then 1969 else 1970) = 0 := by
  by_cases negative : t < 0 <;> simp [passed, negative] <;> decide

structure Stopped (t rest year : Int) : Prop where
  nonneg : 0 ≤ sinceNewYear (t < 0) rest year
  inside : sinceNewYear (t < 0) rest year ≤ yearSeconds year
  exact : sinceNewYear (t < 0) rest year = yearSeconds year → t < 0
  positive : t < 0 → 0 < sinceNewYear (t < 0) rest year
  instant : t = sinceNewYear (t < 0) rest year + 86400 * everyFourth.daysTo year

/-- The loop over the years as `gmtime_r` starts it. -/
def years (t : Int) : Option (Int × Int × Int) :=
  yearLoop (t < 0) ((if t < 0 then -t else t).toNat / 31536000 + 1)
    (if t < 0 then -t else t) (if t < 0 then 1969 else 1970)
    (passed (t < 0) (if t < 0 then 1969 else 1970))

theorem gmtime_r_eq {t : Int} (fits : t < 0 → -t < 2 ^ 63) :
    gmtime_r t = (years t).bind fun r => fields (t < 0) r.1 r.2.1 r.2.2 := by
  have whole : ¬(decide (t < 0) = true ∧ ¬-t < 2 ^ 63) := by
    rintro ⟨negative, large⟩
    exact large (fits (of_decide_eq_true negative))
  rw [years, passed_start]
  simp only [gmtime_r, if_neg whole]
  simp only [decide_eq_true_eq]

theorem years_stopped {t rest year total : Int} (done : years t = some (rest, year, total)) :
    Stopped t rest year ∧ total = passed (t < 0) year := by
  have start := passed_start t
  have seconds := yearSeconds_eq year
  obtain ⟨low, high, rfl, kept⟩ := yearLoop_some (by split <;> omega) done
  refine ⟨?_, rfl⟩
  rw [start] at kept
  by_cases negative : t < 0
  · simp only [negative, decide_true, if_true, passed] at kept
    refine ⟨?_, ?_, fun _ => negative, fun _ => ?_, ?_⟩ <;>
      (simp only [sinceNewYear, negative, decide_true, if_true]; omega)
  · simp only [negative, decide_false, Bool.false_eq_true, if_false, passed] at kept
    refine ⟨?_, ?_, ?_, fun _ => ?_, ?_⟩ <;>
      (simp only [sinceNewYear, negative, decide_false, Bool.false_eq_true, if_false]; omega)

theorem gmtime_r_some {t : Int} {tm : Tm} (done : gmtime_r t = some tm) :
    ∃ rest year, Stopped t rest year ∧ fields (t < 0) rest year (passed (t < 0) year) = some tm := by
  have fits : t < 0 → -t < 2 ^ 63 := by
    intro negative
    by_contra large
    have undefined : gmtime_r t = none := if_pos ⟨decide_eq_true negative, large⟩
    rw [undefined] at done
    cases done
  rw [gmtime_r_eq fits] at done
  obtain ⟨⟨rest, year, total⟩, looped, made⟩ := Option.bind_eq_some_iff.mp done
  obtain ⟨stopped, rfl⟩ := years_stopped looped
  exact ⟨rest, year, stopped, made⟩

theorem gmtime_r_spec {t : Int} {tm : Tm} (done : gmtime_r t = some tm) :
    InRange t ∧ tm.tm_wday = (t / 86400 + 4) % 7 ∧ (Backward t → tm.tm_mon = 12) ∧
      (¬ Backward t → Encodes everyFourth t tm.fields) := by
  obtain ⟨rest, year, stopped, made⟩ := gmtime_r_some done
  obtain ⟨month, mday, last, first, days, high, iff⟩ := fields_iff stopped.nonneg
  obtain ⟨counted, yearFits, rfl⟩ := (iff tm).mp made
  have leap : everyFourth.leap year = isLeapYear year := rfl
  have length := yearSeconds_eq year
  have twelve := daysBefore_twelve (isLeapYear year)
  rw [yearDays_eq] at twelve
  obtain ⟨nonneg, inside, exact, positive, instant⟩ := stopped
  generalize sinceNewYear (t < 0) rest year = s at *
  have day : t / 86400 = everyFourth.daysTo year + s / 86400 := by omega
  have back : Backward t ↔ s = yearSeconds year := by
    constructor
    · rintro ⟨negative, other, newYear⟩
      have later := positive negative
      have start := daysTo_eq year
      have stop := daysTo_eq (year + 1)
      have here := daysTo_eq other
      rcases Int.lt_or_le year other with after | before
      · omega
      · omega
    · intro full
      exact ⟨exact full, year + 1, by omega⟩
  have december : s = yearSeconds year ↔ month = 12 := by
    constructor
    · intro full
      by_contra other
      have below : month < 12 := by omega
      have length := high below
      have year := daysBefore_mono (isLeapYear year) (by omega : month + 1 ≤ 12) (Nat.le_refl 12)
      rw [daysBefore_succ _ below] at year
      omega
    · rintro rfl
      omega
  have week : (if decide (t < 0) = true then (t / 86400 + 4) % 7 else (t / 86400 + 4).tmod 7) =
      (t / 86400 + 4) % 7 := by
    split
    · rfl
    next forward =>
      rw [decide_eq_true_eq] at forward
      exact Int.tmod_eq_emod_of_nonneg (by omega)
  rw [← day] at counted
  refine ⟨?_, ?_, ?_, ?_⟩
  · obtain ⟨counted, -, week⟩ := counted
    refine ⟨?_, week⟩
    split at counted
    · omega
    next forward =>
      rw [decide_eq_true_eq] at forward
      omega
  · simp only [← day, week]
  · intro backward
    simp only [december.mp (back.mp backward)]
    rfl
  · intro forward
    have below : month < 12 := by
      have other : month ≠ 12 := fun same => forward (back.mpr (december.mpr same))
      omega
    have short := high below
    have order := daysBefore_mono (isLeapYear year) (by omega : month + 1 ≤ 12) (Nat.le_refl 12)
    rw [daysBefore_succ _ below] at order
    have sameYear : year - 1900 + 1900 = year := by omega
    have start : 0 ≤ daysBefore (isLeapYear year) month :=
      daysBefore_mono (isLeapYear year) (Nat.zero_le month) (by omega)
    have clock : ∀ n : Int, 0 ≤ n → n < 86400 →
        0 ≤ n.tmod 60 ∧ n.tmod 60 ≤ 59 ∧ 0 ≤ (n.tmod 3600).tdiv 60 ∧ (n.tmod 3600).tdiv 60 ≤ 59 ∧
        0 ≤ n.tdiv 3600 ∧ n.tdiv 3600 ≤ 23 ∧
        n = n.tdiv 3600 * 3600 + (n.tmod 3600).tdiv 60 * 60 + n.tmod 60 := by
      intro n low high
      rw [Int.tmod_eq_emod_of_nonneg low, Int.tmod_eq_emod_of_nonneg low,
        Int.tdiv_eq_ediv_of_nonneg low, Int.tdiv_eq_ediv_of_nonneg (by omega)]
      omega
    obtain ⟨sec, sec', min, min', hour, hour', whole⟩ := clock (s % 86400) (by omega) (by omega)
    refine ⟨⟨sec, sec'⟩, ⟨min, min'⟩, ⟨hour, hour'⟩, ?_, ?_, ?_, ?_, ?_, ?_, ?_⟩
    all_goals simp only [Tm.fields, sameYear, leap, Int.toNat_natCast, ← day, week, yearDays_eq]
    · omega
    · exact ⟨first, short⟩
    · omega
    · omega
    · omega
    · omega

theorem gmtime_r_defined {t : Int} (range : InRange t) : ∃ tm, gmtime_r t = some tm := by
  obtain ⟨low, high⟩ := range
  obtain ⟨⟨rest, year, total⟩, looped⟩ : ∃ r, years t = some r := by
    refine yearLoop_defined (by split <;> omega) ?_ (by rw [passed_start]) ?_
    · push_cast
      split <;> omega
    · rw [passed_start]
      split <;> omega
  obtain ⟨stopped, rfl⟩ := years_stopped looped
  have instant := stopped.instant
  have nonneg := stopped.nonneg
  have inside := stopped.inside
  have start := daysTo_eq year
  have stop := daysTo_eq (year + 1)
  have seconds := yearSeconds_eq year
  rw [gmtime_r_eq (by omega), looped, Option.bind_some]
  obtain ⟨month, mday, -, -, -, -, iff⟩ := fields_iff nonneg
  generalize sinceNewYear (t < 0) rest year = s at *
  have day : t / 86400 = everyFourth.daysTo year + s / 86400 := by omega
  rw [← day] at iff
  refine ⟨_, (iff _).mpr ⟨⟨?_, ?_⟩, ?_, rfl⟩⟩
  · split <;> omega
  · omega
  · omega

/-- The fields are normalised and encode the instant unless it is a new year counted back
    from the epoch, or too far from it; the weekday goes on across the epoch. -/
theorem gmtime_r_normalised (t : Int) :
    ((∃ tm, gmtime_r t = some tm ∧ Encodes everyFourth t tm.fields) ↔
      InRange t ∧ ¬ Backward t) ∧
    ∀ tm tm', gmtime_r t = some tm → gmtime_r (t + 86400) = some tm' →
      tm'.tm_wday = (tm.tm_wday + 1) % 7 := by
  refine ⟨⟨?_, ?_⟩, ?_⟩
  · rintro ⟨tm, done, encodes⟩
    obtain ⟨range, -, december, -⟩ := gmtime_r_spec done
    refine ⟨range, fun backward => ?_⟩
    have month := encodes.mon.2
    simp only [Tm.fields, december backward] at month
    omega
  · rintro ⟨range, forward⟩
    obtain ⟨tm, done⟩ := gmtime_r_defined range
    exact ⟨tm, done, (gmtime_r_spec done).2.2.2 forward⟩
  · intro tm tm' done done'
    have today := (gmtime_r_spec done).2.1
    have tomorrow := (gmtime_r_spec done').2.1
    rw [today, tomorrow]
    omega

/-- The first second of 1969. -/
theorem gmtime_r_backward :
    gmtime_r (-31536000) = some ⟨0, 0, 0, 3, 1, 12, 68, 366⟩ ∧
      ¬ Encodes everyFourth (-31536000) (Tm.fields ⟨0, 0, 0, 3, 1, 12, 68, 366⟩) :=
  ⟨by decide, fun encodes => absurd encodes.mon.2 (by decide)⟩

theorem february (month : Nat) (inside : month ≤ 11) :
    (daysBefore true month = daysBefore false month ↔ month ≤ 1) ∧
      (2 ≤ month → 60 ≤ daysBefore true month) ∧
      (month = 0 → daysBefore true month = 0 ∧ daysBefore false month = 0 ∧
        (monthLengths false).getD month 0 = 31 ∧ (monthLengths true).getD month 0 = 31) ∧
      (month = 1 → daysBefore true month = 31 ∧ daysBefore false month = 31 ∧
        (monthLengths false).getD month 0 = 28) := by
  have all : ∀ month ≤ 11, (daysBefore true month = daysBefore false month ↔ month ≤ 1) ∧
      (2 ≤ month → 60 ≤ daysBefore true month) ∧
      (month = 0 → daysBefore true month = 0 ∧ daysBefore false month = 0 ∧
        (monthLengths false).getD month 0 = 31 ∧ (monthLengths true).getD month 0 = 31) ∧
      (month = 1 → daysBefore true month = 31 ∧ daysBefore false month = 31 ∧
        (monthLengths false).getD month 0 = 28) := by decide
  exact all month inside

theorem both_calendars {t : Int} {f : Fields} (fourth : Encodes everyFourth t f)
    (civil : Encodes gregorian t f) : -2177452800 ≤ t ∧ t < 4107542400 := by
  obtain ⟨sec, min, hour, mon, mday, yearDay, yday, instant, -, -⟩ := fourth
  obtain ⟨-, -, -, -, mday', yearDay', yday', instant', -, -⟩ := civil
  have start := daysTo_eq f.year
  have same : everyFourth.daysTo f.year = gregorian.daysTo f.year := by omega
  obtain ⟨early, late⟩ := daysTo_same.mp same
  refine ⟨by omega, ?_⟩
  by_cases last : f.year = 2100
  · have leap : everyFourth.leap f.year = true := by rw [last]; decide
    have common : gregorian.leap f.year = false := by rw [last]; decide
    have number : everyFourth.daysTo f.year = 47482 := by rw [last]; decide
    rw [leap] at yday instant
    rw [common] at yday' mday'
    obtain ⟨before, -, january, february⟩ := february f.mon.toNat (by omega)
    have winter := before.mp (by omega)
    rcases Nat.lt_or_ge 0 f.mon.toNat with second | first
    · have := february (by omega)
      omega
    · have := january (by omega)
      omega
  · have : f.yday < 366 := by
      have := yearDay.2
      split at this <;> omega
    omega

theorem encodes_gregorian {t : Int} {f : Fields} (fourth : Encodes everyFourth t f)
    (early : -2177452800 ≤ t) (late : t < 4107542400) : Encodes gregorian t f := by
  obtain ⟨sec, min, hour, mon, mday, yearDay, yday, instant, weekday, wday⟩ := fourth
  have start := daysTo_eq f.year
  have short : f.yday < 366 := by
    have := yearDay.2
    split at this <;> omega
  have first : 1901 ≤ f.year := by omega
  have last : f.year ≤ 2100 := by omega
  have same := daysTo_same.mpr ⟨first, last⟩
  by_cases common : f.year = 2100
  · have leap : everyFourth.leap f.year = true := by rw [common]; decide
    have ordinary : gregorian.leap f.year = false := by rw [common]; decide
    rw [leap] at yday instant mday
    have number : everyFourth.daysTo f.year = 47482 := by rw [common]; decide
    obtain ⟨-, spring, january, february⟩ := february f.mon.toNat (by omega)
    have winter : f.mon.toNat ≤ 1 := by
      by_contra other
      have := spring (by omega)
      omega
    have table : daysBefore false f.mon.toNat = daysBefore true f.mon.toNat ∧
        f.mday ≤ (monthLengths false).getD f.mon.toNat 0 := by
      rcases Nat.lt_or_ge 0 f.mon.toNat with second | first
      · have := february (by omega)
        omega
      · have := january (by omega)
        omega
    refine ⟨sec, min, hour, mon, ?_, ?_, ?_, ?_, weekday, wday⟩ <;> rw [ordinary]
    · exact ⟨mday.1, table.2⟩
    · exact ⟨yearDay.1, by simp only [Bool.false_eq_true, if_false]; omega⟩
    · omega
    · omega
  · have leap := leap_same first (by omega)
    refine ⟨sec, min, hour, mon, ?_, ?_, ?_, ?_, weekday, wday⟩ <;> rw [leap]
    · exact mday
    · exact yearDay
    · exact yday
    · rw [← same]
      exact instant

/-- The instants that `gmtime_r` dates as the Gregorian calendar does: from the second
    second of 1901 to the end of February 2100, without the new years before the epoch. -/
theorem gmtime_r_gregorian (t : Int) :
    (∃ tm, gmtime_r t = some tm ∧ Encodes gregorian t tm.fields) ↔
      0 ≤ t ∧ t < 4107542400 ∨ -2177452800 < t ∧ t < 0 ∧ ¬ NewYear t := by
  constructor
  · rintro ⟨tm, done, civil⟩
    obtain ⟨-, -, december, encodes⟩ := gmtime_r_spec done
    have forward : ¬ Backward t := by
      intro backward
      have month := civil.mon.2
      simp only [Tm.fields, december backward] at month
      omega
    obtain ⟨early, late⟩ := both_calendars (encodes forward) civil
    rcases Int.lt_or_le t 0 with negative | positive
    · refine .inr ⟨?_, negative, fun newYear => forward ⟨negative, newYear⟩⟩
      have other : t ≠ -2177452800 := by
        rintro rfl
        exact forward ⟨negative, 1901, by decide⟩
      omega
    · exact .inl ⟨positive, late⟩
  · intro condition
    have forward : ¬ Backward t := by
      rintro ⟨negative, newYear⟩
      rcases condition with ⟨positive, -⟩ | ⟨-, -, other⟩
      · omega
      · exact other newYear
    obtain ⟨tm, done⟩ := gmtime_r_defined (t := t) ⟨by omega, by omega⟩
    have encodes := (gmtime_r_spec done).2.2.2 forward
    exact ⟨tm, done, encodes_gregorian encodes (by omega) (by omega)⟩

/-- The first of March 2100 is dated as a 29th of February. -/
theorem gmtime_r_century :
    gmtime_r 4107542400 = some ⟨0, 0, 0, 1, 29, 1, 200, 59⟩ ∧
      ¬ Encodes gregorian 4107542400 (Tm.fields ⟨0, 0, 0, 1, 29, 1, 200, 59⟩) :=
  ⟨by decide +kernel, fun encodes => absurd encodes.mday.2 (by decide)⟩

end Dtime
