import StartOS.Fs.FatTime
import StartOS.Os.Task

/-! # The seconds of a date

`time::mktime` counts the days from March on with one division for the months.
It is compared with a calendar that adds up years and months, and then with the
conversion of the FAT time stamps.
-/

namespace StartOS

/-- The value of an `unsigned int` with the low bits of `x`. -/
def toU32 (x : ℤ) : ℕ := (x % 2 ^ 32).toNat

/-- The days in `time::mktime`, with March as the first month of the year. -/
def mktimeDays (year mon day : ℕ) : ℤ :=
  toU32 (year / 4 - year / 100 + year / 400 + toU32 (367 * mon) / 12 + day) + toU32 (year * 365) -
    719499

/-- `time::mktime`. The parts of the date are `unsigned int`, the seconds `unsigned long`. -/
def mktime (year0 mon0 day hour min sec : ℕ) : ℕ :=
  let mon := toU32 (mon0 - 2)
  let days :=
    if 0 ≥ toInt32 mon then mktimeDays (toU32 (year0 - 1)) (toU32 (mon + 12)) day
    else mktimeDays year0 mon day
  toU64 (((days * 24 + hour) * 60 + min) * 60 + sec)

theorem toU32_of_lt {x : ℤ} (h : 0 ≤ x) (h' : x < 2 ^ 32) : (toU32 x : ℤ) = x := by
  rw [toU32]
  omega

section Calendar

def LeapYear (year : ℕ) : Prop := year % 4 = 0 ∧ year % 100 ≠ 0 ∨ year % 400 = 0

instance (year : ℕ) : Decidable (LeapYear year) := inferInstanceAs (Decidable (_ ∨ _))

def daysOfMonth (year month : ℕ) : ℕ :=
  if month = 2 then (if LeapYear year then 29 else 28)
  else if month = 4 ∨ month = 6 ∨ month = 9 ∨ month = 11 then 30 else 31

/-- The days of a year before its month `n + 1`. -/
def daysBefore (year : ℕ) : ℕ → ℕ
  | 0 => 0
  | n + 1 => daysBefore year n + daysOfMonth year (n + 1)

/-- The days before the year `1970 + n`, from the first of January 1970 on. -/
def epochDays : ℕ → ℕ
  | 0 => 0
  | n + 1 => epochDays n + if LeapYear (1970 + n) then 366 else 365

variable {year month day hour min sec n y : ℕ}

theorem epochDays_eq (n : ℕ) :
    epochDays n + 477 = 365 * n + ((1969 + n) / 4 - (1969 + n) / 100 + (1969 + n) / 400) := by
  induction n with
  | zero => rfl
  | succ n ih =>
    rw [epochDays]
    by_cases hleap : LeapYear (1970 + n)
    · rw [if_pos hleap]
      unfold LeapYear at hleap
      omega
    · rw [if_neg hleap]
      unfold LeapYear at hleap
      omega

theorem daysBefore_eq (year : ℕ) (hpos : 1 ≤ month) (hle : month ≤ 12) :
    if month ≤ 2 then daysBefore year (month - 1) + 336 = 367 * (month + 10) / 12
    else daysBefore year (month - 1) + 30 =
      367 * (month - 2) / 12 + 59 + if LeapYear year then 1 else 0 := by
  by_cases hleap : LeapYear year <;>
    interval_cases month <;>
      simp [daysBefore, daysOfMonth, hleap]

theorem mktimeDays_eq {m : ℕ} (hyear : 1969 ≤ year) (hlt : year < 2 ^ 16) (hm : m ≤ 12)
    (hday : day < 32) :
    mktimeDays year m day =
      year / 4 - year / 100 + year / 400 + 367 * m / 12 + day + year * 365 - 719499 := by
  rw [mktimeDays, toU32_of_lt (show (0 : ℤ) ≤ 367 * m by omega) (by omega),
    toU32_of_lt (by omega) (by omega), toU32_of_lt (by omega) (by omega)]

theorem toU64_seconds {days : ℕ} (h : ((days * 24 + hour) * 60 + min) * 60 + sec < 2 ^ 64) :
    toU64 ((((days : ℤ) * 24 + hour) * 60 + min) * 60 + sec) =
      days * 86400 + hour * 3600 + min * 60 + sec := by
  rw [toU64]
  omega

/-- `mktime` gives the seconds from the first of January 1970 on. -/
theorem mktime_eq (hyear : 1970 ≤ year) (hlt : year < 2 ^ 16) (hpos : 1 ≤ month) (hle : month ≤ 12)
    (hday : 1 ≤ day) (hday' : day < 32) (hhour : hour < 32) (hmin : min < 64) (hsec : sec < 64) :
    mktime year month day hour min sec =
      (epochDays (year - 1970) + daysBefore year (month - 1) + (day - 1)) * 86400 + hour * 3600 +
        min * 60 + sec := by
  have hdays := epochDays_eq (year - 1970)
  have hbefore := daysBefore_eq year hpos hle
  rw [show 1969 + (year - 1970) = year - 1 by omega] at hdays
  by_cases hfirst : month ≤ 2
  · -- January and February belong to the year before
    rw [if_pos hfirst] at hbefore
    have hmon : 0 ≥ toInt32 (toU32 (month - 2)) ∧
        toU32 (toU32 (month - 2) + 12) = month + 10 := by
      interval_cases month <;> decide
    have hyear' : toU32 (year - 1) = year - 1 := by
      have := toU32_of_lt (show (0 : ℤ) ≤ year - 1 by omega) (by omega)
      omega
    have hcount : mktimeDays (year - 1) (month + 10) day =
        (epochDays (year - 1970) + daysBefore year (month - 1) + (day - 1) : ℕ) := by
      rw [mktimeDays_eq (by omega) (by omega) (by omega) hday']
      omega
    simp only [mktime, if_pos hmon.1, hmon.2, hyear', hcount]
    exact toU64_seconds (by omega)
  · rw [if_neg hfirst] at hbefore
    have hmon : toU32 (month - 2) = month - 2 := by
      have := toU32_of_lt (show (0 : ℤ) ≤ month - 2 by omega) (by omega)
      omega
    have hpos' : ¬0 ≥ toInt32 ((month - 2 : ℕ) : ℤ) := by
      rw [toInt32_of_lt (by omega) (by omega)]
      omega
    have hcount : mktimeDays year (month - 2) day =
        (epochDays (year - 1970) + daysBefore year (month - 1) + (day - 1) : ℕ) := by
      rw [mktimeDays_eq (by omega) hlt (by omega) hday']
      by_cases hleap : LeapYear year
      · rw [if_pos hleap] at hbefore
        unfold LeapYear at hleap
        omega
      · rw [if_neg hleap] at hbefore
        unfold LeapYear at hleap
        omega
    have hone : (if LeapYear year then 1 else 0) ≤ 1 := by split <;> omega
    simp only [mktime, hmon, if_neg hpos', hcount]
    exact toU64_seconds (by omega)

end Calendar

section Stamps

/-! ## The stamps of a FAT volume -/

theorem epochDays_add_ten {y : ℕ} (hy : y < 128) : epochDays (10 + y) = daysDelta + yearStart y := by
  have hdays := epochDays_eq (10 + y)
  rw [yearStart_eq, leapDay_eq, daysDelta]
  split <;> omega

theorem leapYear_iff {y : ℕ} (hy : y < 128) : LeapYear (1980 + y) ↔ IsLeapYear y := by
  rw [isLeapYear_iff, LeapYear]
  omega

theorem daysBefore_eq_monthStart {y : ℕ} (hy : y < 128) (n : ℕ) :
    daysBefore (1980 + y) n = monthStart y n := by
  induction n with
  | zero => rfl
  | succ n ih =>
    rw [daysBefore, monthStart, ih, daysOfMonth, monthLength]
    simp only [leapYear_iff hy]

variable {date time : ℕ}

/-- `FatTime2Unix` counts the days and the seconds of any two words; the first day of a month is
numbered 0, and so is not the day 0. -/
theorem fatTime2Unix_eq (hd : date < 2 ^ 16) (hm : (date >>> 5) &&& 0xf ≤ 12) :
    fatTime2Unix date time =
      (epochDays (10 + (date >>> 9)) + daysBefore (1980 + (date >>> 9))
      (max 1 ((date >>> 5) &&& 0xf) - 1) +
        if date &&& 0x1f = 0 then 1 else (date &&& 0x1f) - 1) * 86400 + (time >>> 11) * 3600 +
        ((time >>> 5) &&& 0x3f) * 60 + 2 * (time &&& 0x1f) := by
  obtain ⟨y, hy⟩ : ∃ y, y = date >>> 9 := ⟨_, rfl⟩
  obtain ⟨m, hm'⟩ : ∃ m, m = max 1 ((date >>> 5) &&& 0xf) := ⟨_, rfl⟩
  have hlt : y < 128 := by
    rw [hy, Nat.shiftRight_eq_div_pow]
    omega
  have hmonth : (if 1 > (date >>> 5) &&& 0xf then 1 else (date >>> 5) &&& 0xf) = m := by
    split <;> omega
  have hday : (if 1 > date &&& 0x1f then 1 else (date &&& 0x1f) - 1) =
      if date &&& 0x1f = 0 then 1 else (date &&& 0x1f) - 1 :=
    if_congr Nat.lt_one_iff rfl rfl
  rw [fatTime2Unix]
  simp only [hmonth, hday]
  rw [← hy, ← hm', epochDays_add_ten hlt, daysBefore_eq_monthStart hlt, yearStart_eq,
    monthStart_eq (by omega) (by omega), Nat.shiftLeft_eq]
  by_cases hleap : IsLeapYear y ∧ m > 2
  · rw [if_pos hleap, if_pos hleap]
    ring
  · rw [if_neg hleap, if_neg hleap]
    ring

/-- The two conversions agree exactly on the words with a day. -/
theorem fatTime2Unix_eq_mktime_iff (hd : date < 2 ^ 16) (ht : time < 2 ^ 16)
    (hm : (date >>> 5) &&& 0xf ≤ 12) :
    fatTime2Unix date time =
        mktime (1980 + (date >>> 9)) (max 1 ((date >>> 5) &&& 0xf)) (max 1 (date &&& 0x1f))
          (time >>> 11)
          ((time >>> 5) &&& 0x3f) (2 * (time &&& 0x1f)) ↔
      date &&& 0x1f ≠ 0 := by
  have hyear : date >>> 9 < 128 := by
    rw [Nat.shiftRight_eq_div_pow]
    omega
  have hhour : time >>> 11 < 32 := by
    rw [Nat.shiftRight_eq_div_pow]
    omega
  have hmin : (time >>> 5) &&& 0x3f < 64 := Nat.and_lt_two_pow _ (show 0x3f < 2 ^ 6 by decide)
  have hsec : time &&& 0x1f < 32 := Nat.and_lt_two_pow _ (show 0x1f < 2 ^ 5 by decide)
  have hday : date &&& 0x1f < 32 := Nat.and_lt_two_pow _ (show 0x1f < 2 ^ 5 by decide)
  rw [fatTime2Unix_eq hd hm, mktime_eq (by omega) (by omega) (by omega) (by omega) (by omega) (by omega)
    hhour hmin (by omega), show 1980 + (date >>> 9) - 1970 = 10 + (date >>> 9) by omega]
  by_cases hzero : date &&& 0x1f = 0
  · rw [if_pos hzero, hzero]
    omega
  · rw [if_neg hzero, Nat.max_eq_right (show 1 ≤ date &&& 0x1f by omega)]
    constructor
    · intro _
      exact hzero
    · intro _
      omega

theorem fatTime2Unix_eq_mktime_leapDay :
    fatTime2Unix 10333 0 = mktime (1980 + (10333 >>> 9)) (max 1 ((10333 >>> 5) &&& 0xf))
        (max 1 (10333 &&& 0x1f)) (0 >>> 11) ((0 >>> 5) &&& 0x3f) (2 * (0 &&& 0x1f)) ↔
      10333 &&& 0x1f ≠ 0 :=
  fatTime2Unix_eq_mktime_iff (by decide) (by decide) (by decide)

/-- The day 0 of January 1980 is the second of January for one of them. -/
theorem fatTime2Unix_dayZero :
    fatTime2Unix 32 0 = 315619200 ∧
      mktime (1980 + (32 >>> 9)) (max 1 ((32 >>> 5) &&& 0xf)) (max 1 (32 &&& 0x1f)) (0 >>> 11)
        ((0 >>> 5) &&& 0x3f) (2 * (0 &&& 0x1f)) = 315532800 := by
  decide

end Stamps

end StartOS
