import StartOS.Os.Time

/-! # The clocks

`clock::getTimeVal` adds up the years with a table of the leap years that
`clock::initLeapYears` fills, `time::CurrentTimeSpec` asks `time::mktime`. Both
read the real time clock of the K210.
-/

namespace StartOS

/-- The parts of `struct tm` that the kernel reads. -/
structure Tm where
  sec : ℤ
  min : ℤ
  hour : ℤ
  mday : ℤ
  mon : ℤ
  year : ℤ
  yday : ℤ
  deriving DecidableEq

/-- `leapYears` after `clock::initLeapYears`. -/
def leapYears : ℕ → ℤ
  | 0 => 0
  | i + 1 =>
    let year : ℤ := (i + 1 : ℕ) + 1970
    if (year.tmod 4 = 0 ∧ year.tmod 100 ≠ 0) ∨ year.tmod 400 = 0 then leapYears i + 1 else leapYears i

/-- The seconds that `clock::getTimeVal` reports, when the year is one of the table. -/
def getTimeVal (tm : Tm) : Option ℕ :=
  let off := tm.year - 70
  if 0 ≤ off - 1 ∧ off - 1 < 100 then
    let leaps := leapYears (off - 1).toNat
    let days := toU64 (leaps * 366 + (off - leaps) * 365 + tm.yday)
    some (toU64 (days * 86400 + tm.hour * 3600 + tm.sec))
  else none

/-- `rtc_timer_get`, from the broken-down time of `rtc_timer_get_tm`. -/
def rtcTimerGet (tm : Tm) : ℤ × ℤ × ℤ × ℤ × ℤ × ℤ :=
  (tm.year + 1900, tm.mon + 1, tm.mday, tm.hour, tm.min, tm.sec)

/-- The seconds that `time::CurrentTimeSpec` reports. -/
def currentTimeSpec (tm : Tm) : ℕ :=
  let (year, month, day, hour, minute, second) := rtcTimerGet tm
  mktime (toU32 year) (toU32 month) (toU32 day) (toU32 hour) (toU32 minute) (toU32 second)

structure Reading where
  year : ℕ
  month : ℕ
  day : ℕ
  hour : ℕ
  minute : ℕ
  second : ℕ
  year_ge : 1971 ≤ year
  year_le : year ≤ 2069
  month_pos : 1 ≤ month
  month_le : month ≤ 12
  day_pos : 1 ≤ day
  day_le : day ≤ daysOfMonth year month
  hour_lt : hour < 24
  minute_lt : minute < 60
  second_lt : second < 60

def Reading.tm (r : Reading) : Tm where
  sec := r.second
  min := r.minute
  hour := r.hour
  mday := r.day
  mon := r.month - 1
  year := r.year - 1900
  yday := daysBefore r.year (r.month - 1) + (r.day - 1)

def rtcGetYday (year month day : ℕ) : ℕ :=
  let days :=
    if LeapYear year then [0, 0, 31, 60, 91, 121, 152, 182, 213, 244, 274, 305, 335]
    else [0, 0, 31, 59, 90, 120, 151, 181, 212, 243, 273, 304, 334]
  days.getD month 0 + day

variable {r : Reading}

theorem leapYears_eq (n : ℕ) :
    leapYears n = ((1970 + n) / 4 - (1970 + n) / 100 + (1970 + n) / 400 : ℤ) - 477 := by
  induction n with
  | zero => rfl
  | succ n ih =>
    rw [leapYears, ih]
    simp only [Int.tmod_eq_emod_of_nonneg (show (0 : ℤ) ≤ (n + 1 : ℕ) + 1970 by omega)]
    split <;> omega

theorem epochDays_eq_leapYears (n : ℕ) :
    (epochDays (n + 1) : ℤ) = leapYears n * 366 + ((n + 1 : ℕ) - leapYears n) * 365 := by
  have hdays := epochDays_eq (n + 1)
  rw [leapYears_eq]
  omega

theorem Reading.day_lt (r : Reading) : r.day < 32 := by
  have hle := r.day_le
  rw [daysOfMonth] at hle
  repeat' split at hle
  all_goals omega

def Reading.days (r : Reading) : ℕ :=
  epochDays (r.year - 1970) + daysBefore r.year (r.month - 1) + (r.day - 1)

theorem currentTimeSpec_eq (r : Reading) :
    currentTimeSpec r.tm = r.days * 86400 + r.hour * 3600 + r.minute * 60 + r.second := by
  have hyear := r.year_ge
  have hle := r.year_le
  have hpos := r.month_pos
  have hmonth := r.month_le
  have hday := r.day_lt
  have hhour := r.hour_lt
  have hminute := r.minute_lt
  have hsecond := r.second_lt
  have hu : ∀ n : ℕ, n < 2 ^ 16 → toU32 n = n := by
    intro n hn
    have := toU32_of_lt (Int.natCast_nonneg n) (by omega)
    omega
  have hyear' : r.tm.year + 1900 = r.year := Int.sub_add_cancel ..
  have hmonth' : r.tm.mon + 1 = r.month := Int.sub_add_cancel ..
  rw [currentTimeSpec]
  simp only [rtcTimerGet, hyear', hmonth']
  simp only [Reading.tm]
  rw [hu _ (by omega), hu _ (by omega), hu _ (by omega), hu _ (by omega), hu _ (by omega),
    hu _ (by omega)]
  exact mktime_eq (by omega) (by omega) hpos hmonth r.day_pos hday (by omega) (by omega) (by omega)

theorem getTimeVal_eq (r : Reading) {yday : ℤ} (h₁ : 0 ≤ yday) (h₂ : yday < 366) :
    getTimeVal { r.tm with yday := yday } =
      some (((epochDays (r.year - 1970) + yday) * 86400 + r.hour * 3600 + r.second).toNat) := by
  have hyear := r.year_ge
  have hle := r.year_le
  have hhour := r.hour_lt
  have hsecond := r.second_lt
  have hoff : (r.tm.year - 70 : ℤ) = (r.year - 1971 + 1 : ℕ) := by
    simp only [Reading.tm]
    omega
  have hindex : (((r.year - 1971 + 1 : ℕ) : ℤ) - 1).toNat = r.year - 1971 := by omega
  have hdays := epochDays_eq_leapYears (r.year - 1971)
  have hfew := epochDays_eq (r.year - 1971 + 1)
  rw [show r.year - 1970 = r.year - 1971 + 1 by omega]
  rw [getTimeVal]
  simp only [hoff, hindex, ← hdays]
  rw [if_pos (by omega), toU64, toU64]
  simp only [Reading.tm]
  rw [Option.some.injEq]
  omega

theorem Reading.dayOfYear_lt (r : Reading) : daysBefore r.year (r.month - 1) + (r.day - 1) < 366 := by
  have hday := r.day_pos
  have hday' := r.day_le
  have hsucc : daysBefore r.year (r.month - 1 + 1) =
      daysBefore r.year (r.month - 1) + daysOfMonth r.year (r.month - 1 + 1) := rfl
  rw [Nat.sub_add_cancel r.month_pos] at hsucc
  have hmono : Monotone (daysBefore r.year) := monotone_nat_of_le_succ fun _ => Nat.le_add_right _ _
  have hle := hmono r.month_le
  have htwelve : daysBefore r.year 12 ≤ 366 := by
    by_cases hleap : LeapYear r.year <;> simp [daysBefore, daysOfMonth, hleap]
  omega

/-- Both clocks agree exactly in the first minute of an hour. -/
theorem getTimeVal_eq_currentTimeSpec_iff (r : Reading) :
    getTimeVal r.tm = some (currentTimeSpec r.tm) ↔ r.minute = 0 := by
  have hday := r.day_pos
  have hlt := r.dayOfYear_lt
  have hval := getTimeVal_eq r (show (0 : ℤ) ≤ daysBefore r.year (r.month - 1) + (r.day - 1) by omega)
    (by omega)
  have hself : { r.tm with yday := daysBefore r.year (r.month - 1) + (r.day - 1) } = r.tm := rfl
  rw [hself] at hval
  rw [hval, currentTimeSpec_eq, Reading.days, Option.some.injEq]
  omega

/-- Half past noon of a summer day. -/
theorem getTimeVal_ne_currentTimeSpec :
    ∃ r : Reading, getTimeVal r.tm = some 1626696012 ∧ currentTimeSpec r.tm = 1626697812 :=
  ⟨⟨2021, 7, 19, 12, 30, 12, by decide, by decide, by decide, by decide, by decide, by decide, by decide,
    by decide, by decide⟩, by decide, by decide⟩

theorem rtcGetYday_eq {year month : ℕ} (day : ℕ) (hpos : 1 ≤ month) (hle : month ≤ 12) :
    rtcGetYday year month day = daysBefore year (month - 1) + day := by
  by_cases hleap : LeapYear year <;>
    interval_cases month <;>
      simp [rtcGetYday, daysBefore, daysOfMonth, hleap]

theorem getTimeVal_ne_of_rtcGetYday (r : Reading) :
    getTimeVal { r.tm with yday := (rtcGetYday r.year r.month r.day % 366 : ℕ) } ≠
      some (currentTimeSpec r.tm) := by
  have hday := r.day_pos
  have hlt := r.dayOfYear_lt
  have hminute := r.minute_lt
  rw [getTimeVal_eq r (by omega) (by omega), currentTimeSpec_eq, Reading.days, ne_eq, Option.some.injEq,
    rtcGetYday_eq r.day r.month_pos r.month_le]
  omega

end StartOS
