import Mathlib.Data.Nat.Bitwise
import Mathlib.Tactic.IntervalCases
import Mathlib.Tactic.Ring

/-! # Times on a FAT volume

A time stamp of a directory entry is a date word and a time word that counts
every second second. The calendar is stated first; both conversions are then
compared with it.
-/

namespace StartOS

def unixSecs1980 : ℤ := 315532800

def unixSecs2108 : ℤ := 4354819200

/-- `DAYS_DELTA`: the days between 1970 and 1980. -/
def daysDelta : ℕ := 365 * 10 + 2

def year2100 : ℕ := 120

def IsLeapYear (y : ℕ) : Prop := y &&& 3 = 0 ∧ y ≠ year2100

instance (y : ℕ) : Decidable (IsLeapYear y) := inferInstanceAs (Decidable (_ ∧ _))

def daysInYear (month : ℕ) : ℕ :=
  [0, 0, 31, 59, 90, 120, 151, 181, 212, 243, 273, 304, 334, 0, 0, 0].getD month 0

def leapDay (year : ℕ) : ℕ :=
  let leapDay := (year + 3) / 4
  if year > year2100 then leapDay - 1 else leapDay

/-- `FatTime2Unix`. The macro `max` has no parentheses around it, so the day 0 stays 1. -/
def fatTime2Unix (date time : ℕ) : ℕ :=
  let year := date >>> 9
  let month := if 1 > (date >>> 5) &&& 0xf then 1 else (date >>> 5) &&& 0xf
  let day := if 1 > date &&& 0x1f then 1 else (date &&& 0x1f) - 1
  let leapDay := if IsLeapYear year ∧ month > 2 then leapDay year + 1 else leapDay year
  let second := (time &&& 0x1f) <<< 1
  let second := second + ((time >>> 5) &&& 0x3f) * 60
  let second := second + (time >>> 11) * (60 * 60)
  second + (year * 365 + leapDay + daysInYear month + day + daysDelta) * (60 * 60 * 24)

def monthOf (day : ℕ) : ℕ :=
  ((List.range' 1 11).find? fun month => daysInYear (month + 1) > day).getD 12

/-- `UnixTime2Fat`: the date word and the time word. -/
def unixTime2Fat (second : ℤ) : ℕ × ℕ :=
  if second < unixSecs1980 then (0 <<< 9 ||| 1 <<< 5 ||| 1, 0)
  else if second ≥ unixSecs2108 then
    (127 <<< 9 ||| 12 <<< 5 ||| 31, 23 <<< 11 ||| 59 <<< 5 ||| 29)
  else
    let second := second.toNat
    let day := second / (60 * 60 * 24) - daysDelta
    let year := day / 365
    let year := if year * 365 + leapDay year > day then year - 1 else year
    let day := day - (year * 365 + leapDay year)
    let (month, day) :=
      if IsLeapYear year ∧ day = daysInYear 3 then (2, day)
      else
        let day := if IsLeapYear year ∧ day > daysInYear 3 then day - 1 else day
        (monthOf day, day)
    let day := day - daysInYear month
    ((year <<< 9 ||| month <<< 5 ||| (day + 1)) % 2 ^ 16,
      ((second / (60 * 60) % 24) <<< 11 ||| (second / 60 % 60) <<< 5 ||| (second % 60) >>> 1) % 2 ^ 16)

section Calendar

def yearLength (y : ℕ) : ℕ := if IsLeapYear y then 366 else 365

def monthLength (y month : ℕ) : ℕ :=
  if month = 2 then (if IsLeapYear y then 29 else 28)
  else if month = 4 ∨ month = 6 ∨ month = 9 ∨ month = 11 then 30 else 31

def yearStart : ℕ → ℕ
  | 0 => 0
  | y + 1 => yearStart y + yearLength y

/-- The days of a year before its month `n + 1`. -/
def monthStart (y : ℕ) : ℕ → ℕ
  | 0 => 0
  | n + 1 => monthStart y n + monthLength y (n + 1)

structure Date where
  year : ℕ
  month : ℕ
  day : ℕ
  year_lt : year < 128
  month_pos : 1 ≤ month
  month_le : month ≤ 12
  day_pos : 1 ≤ day
  day_le : day ≤ monthLength year month

structure Clock where
  hour : ℕ
  minute : ℕ
  half : ℕ
  hour_lt : hour < 24
  minute_lt : minute < 60
  half_lt : half < 30

def Date.word (d : Date) : ℕ := d.year * 512 + d.month * 32 + d.day

def Date.number (d : Date) : ℕ := yearStart d.year + monthStart d.year (d.month - 1) + (d.day - 1)

def Clock.word (t : Clock) : ℕ := t.hour * 2048 + t.minute * 32 + t.half

def Clock.seconds (t : Clock) : ℕ := t.hour * 3600 + t.minute * 60 + t.half * 2

variable {y month day n r : ℕ}

theorem isLeapYear_iff : IsLeapYear y ↔ y % 4 = 0 ∧ y ≠ 120 := by
  rw [IsLeapYear, show (3 : ℕ) = 2 ^ 2 - 1 from rfl, Nat.and_two_pow_sub_one_eq_mod]
  rfl

theorem leapDay_eq : leapDay y = if 120 < y then (y + 3) / 4 - 1 else (y + 3) / 4 := rfl

theorem yearLength_eq : yearLength y = if y % 4 = 0 ∧ y ≠ 120 then 366 else 365 := by
  rw [yearLength, if_congr isLeapYear_iff rfl rfl]

theorem yearStart_eq (y : ℕ) : yearStart y = y * 365 + leapDay y := by
  induction y with
  | zero => rfl
  | succ y ih =>
    rw [yearStart, ih, leapDay_eq, leapDay_eq, yearLength_eq]
    split <;> split <;> split <;> omega

theorem yearStart_div {q : ℕ} (hr : r < yearLength y) (hy : y < 128)
    (hq : q = (yearStart y + r) / 365) :
    (if q * 365 + leapDay q > yearStart y + r then q - 1 else q) = y := by
  have hdays : leapDay y ≤ 32 := by
    rw [leapDay_eq]
    split <;> omega
  have hlt : r < 366 := by
    rw [yearLength_eq] at hr
    split at hr <;> omega
  rw [yearStart_eq] at hq ⊢
  obtain rfl | rfl : q = y ∨ q = y + 1 := by omega
  · rw [if_neg (by omega)]
  · -- the estimate counts the leap days as days of further years
    rw [if_pos, Nat.add_sub_cancel]
    rw [yearLength_eq] at hr
    rw [leapDay_eq, leapDay_eq]
    split at hr <;> split <;> split <;> omega

theorem exists_year (hn : n < yearStart 128) :
    ∃ y < 128, ∃ r < yearLength y, n = yearStart y + r := by
  have hsearch : ∀ k, n < yearStart k → ∃ y < k, ∃ r < yearLength y, n = yearStart y + r := by
    intro k
    induction k with
    | zero => exact fun h => absurd h (Nat.not_lt_zero n)
    | succ k ih =>
      intro h
      by_cases hk : n < yearStart k
      · obtain ⟨y, hy, hr⟩ := ih hk
        exact ⟨y, Nat.lt_succ_of_lt hy, hr⟩
      · refine ⟨k, Nat.lt_succ_self k, n - yearStart k, ?_, by omega⟩
        rw [yearStart] at h
        omega
  exact hsearch 128 hn

theorem monthStart_eq (hpos : 1 ≤ month) (hle : month ≤ 12) :
    monthStart y (month - 1) = daysInYear month + if IsLeapYear y ∧ 2 < month then 1 else 0 := by
  by_cases hleap : IsLeapYear y <;>
    interval_cases month <;>
      simp [monthStart, monthLength, daysInYear, hleap]

theorem exists_month (hr : r < yearLength y) : ∃ month day, 1 ≤ month ∧ month ≤ 12 ∧ 1 ≤ day ∧
    day ≤ monthLength y month ∧ r = monthStart y (month - 1) + (day - 1) := by
  have hsearch : ∀ k, r < monthStart y k → ∃ month day, 1 ≤ month ∧ month ≤ k ∧ 1 ≤ day ∧
      day ≤ monthLength y month ∧ r = monthStart y (month - 1) + (day - 1) := by
    intro k
    induction k with
    | zero => exact fun h => absurd h (Nat.not_lt_zero r)
    | succ k ih =>
      intro h
      by_cases hk : r < monthStart y k
      · obtain ⟨month, day, h₁, h₂, hrest⟩ := ih hk
        exact ⟨month, day, h₁, Nat.le_succ_of_le h₂, hrest⟩
      · rw [monthStart] at h
        refine ⟨k + 1, r - monthStart y k + 1, by omega, le_rfl, by omega, by omega, ?_⟩
        rw [Nat.add_sub_cancel, Nat.add_sub_cancel]
        omega
  refine hsearch 12 ?_
  rw [yearLength] at hr
  by_cases hleap : IsLeapYear y
  · simpa [monthStart, monthLength, hleap] using hr
  · simpa [monthStart, monthLength, hleap] using hr

theorem daysInYear_mono {m : ℕ} (hm : m ≤ month) (hle : month ≤ 12) :
    daysInYear m ≤ daysInYear month := by
  have hall : ∀ a ≤ 12, ∀ b ≤ a, daysInYear b ≤ daysInYear a := by decide
  exact hall month hle m hm

theorem monthOf_eq (hpos : 1 ≤ month) (hle : month ≤ 12) (h₁ : daysInYear month ≤ day)
    (h₂ : month < 12 → day < daysInYear (month + 1)) : monthOf day = month := by
  have hbefore : ∀ m, m < month → ¬daysInYear (m + 1) > day := by
    intro m hm
    have := daysInYear_mono (m := m + 1) hm hle
    omega
  rw [monthOf]
  by_cases h : month < 12
  · have hfind : (List.range' 1 11).find? (fun m => daysInYear (m + 1) > day) = some month := by
      rw [List.find?_range'_eq_some]
      refine ⟨decide_eq_true (h₂ h), List.mem_range'_1.mpr ⟨hpos, by omega⟩, fun m _ hm => ?_⟩
      rw [decide_eq_false (hbefore m hm)]
      rfl
    rw [hfind]
    rfl
  · have hfind : (List.range' 1 11).find? (fun m => daysInYear (m + 1) > day) = none := by
      rw [List.find?_eq_none]
      intro m hm
      rw [List.mem_range'_1] at hm
      rw [decide_eq_true_iff]
      exact hbefore m (by omega)
    rw [hfind]
    exact Nat.le_antisymm (Nat.not_lt.mp h) hle

end Calendar

section Words

variable {a b c i j x : ℕ}

theorem shiftLeft_or (hb : b < 2 ^ i) : a <<< i ||| b = a * 2 ^ i + b := by
  rw [← Nat.shiftLeft_add_eq_or_of_lt hb, Nat.shiftLeft_eq]

theorem fields_or (hb : b < 2 ^ j) (hc : c < 2 ^ i) :
    a <<< (i + j) ||| b <<< i ||| c = a * 2 ^ (i + j) + b * 2 ^ i + c := by
  have hlow : b <<< i ||| c < 2 ^ (i + j) := by
    rw [shiftLeft_or hc, pow_add]
    calc b * 2 ^ i + c < (b + 1) * 2 ^ i := by rw [Nat.succ_mul]; omega
      _ ≤ 2 ^ j * 2 ^ i := Nat.mul_le_mul_right _ hb
      _ = 2 ^ i * 2 ^ j := Nat.mul_comm _ _
  rw [Nat.lor_assoc, shiftLeft_or hlow, shiftLeft_or hc, Nat.add_assoc]

theorem shiftRight_and (x i j : ℕ) : (x >>> i) &&& (2 ^ j - 1) = x / 2 ^ i % 2 ^ j := by
  rw [Nat.and_two_pow_sub_one_eq_mod, Nat.shiftRight_eq_div_pow]

end Words

variable {s : ℤ} {date time : ℕ}

theorem monthLength_le (y month : ℕ) : monthLength y month ≤ 31 := by
  unfold monthLength
  split <;> split <;> omega

theorem Date.day_lt (d : Date) : d.day < 32 := by
  have := d.day_le
  have := monthLength_le d.year d.month
  omega

theorem Date.fields (d : Date) : d.word >>> 9 = d.year ∧ (d.word >>> 5) &&& 0xf = d.month ∧
    d.word &&& 0x1f = d.day := by
  have hm := d.month_le
  have hd := d.day_lt
  refine ⟨?_, ?_, ?_⟩
  · rw [Nat.shiftRight_eq_div_pow, Date.word]
    omega
  · rw [show (0xf : ℕ) = 2 ^ 4 - 1 from rfl, shiftRight_and, Date.word]
    omega
  · rw [show (0x1f : ℕ) = 2 ^ 5 - 1 from rfl, Nat.and_two_pow_sub_one_eq_mod, Date.word]
    omega

theorem Clock.fields (t : Clock) : t.word >>> 11 = t.hour ∧ (t.word >>> 5) &&& 0x3f = t.minute ∧
    t.word &&& 0x1f = t.half := by
  have hm := t.minute_lt
  have hh := t.half_lt
  refine ⟨?_, ?_, ?_⟩
  · rw [Nat.shiftRight_eq_div_pow, Clock.word]
    omega
  · rw [show (0x3f : ℕ) = 2 ^ 6 - 1 from rfl, shiftRight_and, Clock.word]
    omega
  · rw [show (0x1f : ℕ) = 2 ^ 5 - 1 from rfl, Nat.and_two_pow_sub_one_eq_mod, Clock.word]
    omega

theorem fatTime2Unix_word (d : Date) (t : Clock) :
    fatTime2Unix d.word t.word = (daysDelta + d.number) * 86400 + t.seconds := by
  obtain ⟨hyear, hmonth, hday⟩ := d.fields
  obtain ⟨hhour, hminute, hhalf⟩ := t.fields
  have hmonth_pos : ¬1 > d.month := Nat.not_lt.mpr d.month_pos
  have hday_pos : ¬1 > d.day := Nat.not_lt.mpr d.day_pos
  rw [fatTime2Unix]
  simp only [hyear, hmonth, hday, hhour, hminute, hhalf, if_neg hmonth_pos, if_neg hday_pos]
  rw [Nat.shiftLeft_eq, Date.number, yearStart_eq, monthStart_eq d.month_pos d.month_le,
    Clock.seconds]
  by_cases hleap : IsLeapYear d.year ∧ d.month > 2
  · rw [if_pos hleap, if_pos hleap]
    ring
  · rw [if_neg hleap, if_neg hleap]
    ring

theorem monthStart_mono (y : ℕ) : Monotone (monthStart y) :=
  monotone_nat_of_le_succ fun _ => Nat.le_add_right _ _

theorem monthStart_twelve (y : ℕ) : monthStart y 12 = yearLength y := by
  by_cases hleap : IsLeapYear y <;> simp [monthStart, monthLength, yearLength, hleap]

theorem Date.dayOfYear_lt (d : Date) :
    monthStart d.year (d.month - 1) + (d.day - 1) < yearLength d.year := by
  have hpos := d.month_pos
  have hday_pos := d.day_pos
  have hday_le := d.day_le
  have hsucc : monthStart d.year d.month =
      monthStart d.year (d.month - 1) + monthLength d.year d.month := by
    conv_lhs => rw [← Nat.sub_add_cancel hpos]
    rw [monthStart, Nat.sub_add_cancel hpos]
  have hle := monthStart_mono d.year d.month_le
  rw [monthStart_twelve] at hle
  omega

theorem yearStart_le (hy : y < 128) : yearStart y + yearLength y ≤ 46751 := by
  have hsucc : yearStart (y + 1) = yearStart y + yearLength y := rfl
  rw [← hsucc, yearStart_eq, leapDay_eq]
  split <;> omega

theorem Date.number_lt (d : Date) : d.number < 46751 := by
  have := d.dayOfYear_lt
  have := yearStart_le d.year_lt
  rw [Date.number]
  omega

theorem Clock.seconds_lt (t : Clock) : t.seconds + 1 < 86400 := by
  have := t.hour_lt
  have := t.minute_lt
  have := t.half_lt
  rw [Clock.seconds]
  omega

theorem daysInYear_lt (hpos : 1 ≤ month) (hlt : month < 12) (hday : day ≤ monthLength y month)
    (hday_pos : 1 ≤ day) (hnot : ¬(IsLeapYear y ∧ month = 2 ∧ day = 29)) :
    daysInYear month + (day - 1) < daysInYear (month + 1) := by
  by_cases hleap : IsLeapYear y <;>
    interval_cases month <;>
      simp [monthLength, daysInYear, hleap] at hday hnot ⊢ <;>
        omega

theorem month_of_dayOfYear (d : Date) {r : ℕ}
    (hr : r = monthStart d.year (d.month - 1) + (d.day - 1)) :
    (if IsLeapYear d.year ∧ r = daysInYear 3 then (2, r)
      else (monthOf (if IsLeapYear d.year ∧ r > daysInYear 3 then r - 1 else r),
        if IsLeapYear d.year ∧ r > daysInYear 3 then r - 1 else r)) =
      (d.month, daysInYear d.month + (d.day - 1)) := by
  have hpos := d.month_pos
  have hle := d.month_le
  have hday_pos := d.day_pos
  rw [monthStart_eq hpos hle] at hr
  have hthree : daysInYear 3 = 59 := rfl
  have hmonth : ∀ {k}, k = daysInYear d.month + (d.day - 1) →
      ¬(IsLeapYear d.year ∧ d.month = 2 ∧ d.day = 29) → monthOf k = d.month := by
    rintro k rfl hnot
    exact monthOf_eq hpos hle (Nat.le_add_right _ _) fun hlt =>
      daysInYear_lt hpos hlt d.day_le hday_pos hnot
  by_cases hleap : IsLeapYear d.year
  · by_cases hlate : 2 < d.month
    · have := daysInYear_mono (m := 3) hlate hle
      rw [if_pos ⟨hleap, hlate⟩] at hr
      have hr' : r - 1 = daysInYear d.month + (d.day - 1) := by omega
      rw [if_neg fun h => by omega, if_pos ⟨hleap, by omega⟩, hr', hmonth rfl fun h => by omega]
    · rw [if_neg fun h => hlate h.2, Nat.add_zero] at hr
      have hearly : r ≤ 59 ∧ (r = 59 ↔ d.month = 2 ∧ d.day = 29) := by
        have hday_le := d.day_le
        obtain h | h : d.month = 1 ∨ d.month = 2 := by omega
        · rw [h] at hday_le hr ⊢
          simp [monthLength, daysInYear] at hday_le hr
          omega
        · rw [h] at hday_le hr ⊢
          simp [monthLength, daysInYear, hleap] at hday_le hr
          omega
      by_cases h59 : r = 59
      · rw [if_pos ⟨hleap, h59⟩, (hearly.2.mp h59).1, hr, (hearly.2.mp h59).1]
      · rw [if_neg fun h => h59 h.2, if_neg fun h => by omega,
          hmonth hr fun h => h59 (hearly.2.mpr h.2), hr]
  · rw [if_neg fun h => hleap h.1] at hr
    rw [if_neg fun h => hleap h.1, if_neg fun h => hleap h.1]
    rw [hmonth hr fun h => hleap h.1, hr, Nat.add_zero]

theorem unixTime2Fat_eq (d : Date) (t : Clock) (odd : ℕ) (ho : odd < 2) :
    unixTime2Fat ((daysDelta + d.number) * 86400 + t.seconds + odd : ℕ) = (d.word, t.word) := by
  obtain ⟨s, hs⟩ : ∃ s, s = (daysDelta + d.number) * 86400 + t.seconds + odd := ⟨_, rfl⟩
  have hnumber := d.number_lt
  have hseconds := t.seconds_lt
  have hfirst : daysDelta = 3652 := rfl
  have hday : s / (60 * 60 * 24) - daysDelta = d.number := by omega
  obtain ⟨r, hr⟩ : ∃ r, r = monthStart d.year (d.month - 1) + (d.day - 1) := ⟨_, rfl⟩
  have hr_lt : r < yearLength d.year := hr ▸ d.dayOfYear_lt
  have hn : d.number = yearStart d.year + r := by rw [hr, ← Nat.add_assoc, Date.number]
  have hyear := yearStart_div hr_lt d.year_lt rfl
  have hrest : yearStart d.year + r - (d.year * 365 + leapDay d.year) = r := by
    rw [yearStart_eq, Nat.add_sub_cancel_left]
  have hmonth := month_of_dayOfYear d hr
  have hword : (d.year <<< 9 ||| d.month <<< 5 ||| (d.day - 1 + 1)) % 2 ^ 16 = d.word := by
    have := d.year_lt
    have := d.month_le
    have := d.day_lt
    have := d.day_pos
    rw [show (9 : ℕ) = 5 + 4 from rfl, fields_or (by omega) (by omega), Date.word]
    omega
  have hclock : ((s / (60 * 60) % 24) <<< 11 ||| (s / 60 % 60) <<< 5 ||| (s % 60) >>> 1) % 2 ^ 16 =
      t.word := by
    have := t.hour_lt
    have := t.minute_lt
    have := t.half_lt
    rw [Clock.seconds] at hs
    rw [show (11 : ℕ) = 5 + 6 from rfl, Nat.shiftRight_eq_div_pow, fields_or (by omega) (by omega),
      Clock.word]
    omega
  rw [← hs, unixTime2Fat, if_neg (by rw [unixSecs1980]; omega), if_neg (by rw [unixSecs2108]; omega)]
  simp only [Int.toNat_natCast, hday, hn, hyear, hrest, hmonth, Nat.add_sub_cancel_left, hword, hclock]

theorem exists_date_clock (h₁ : unixSecs1980 ≤ s) (h₂ : s < unixSecs2108) : ∃ (d : Date) (t : Clock),
    s - s % 2 = ((daysDelta + d.number) * 86400 + t.seconds : ℕ) := by
  obtain ⟨n, rfl⟩ := Int.eq_ofNat_of_zero_le (show 0 ≤ s by rw [unixSecs1980] at h₁; omega)
  rw [unixSecs1980] at h₁
  rw [unixSecs2108] at h₂
  have hfirst : daysDelta = 3652 := rfl
  have hlast : yearStart 128 = 46751 := by rw [yearStart_eq]; rfl
  obtain ⟨y, hy, r, hr, hday⟩ := exists_year (n := n / 86400 - 3652) (by omega)
  obtain ⟨month, day, hpos, hle, hday_pos, hday_le, rfl⟩ := exists_month hr
  refine ⟨⟨y, month, day, hy, hpos, hle, hday_pos, hday_le⟩,
    ⟨n % 86400 / 3600, n % 3600 / 60, n % 60 / 2, by omega, by omega, by omega⟩, ?_⟩
  rw [Date.number, Clock.seconds, hfirst]
  dsimp only
  push_cast
  omega

def IsDate (date : ℕ) : Prop := ∃ d : Date, d.word = date

def IsTime (time : ℕ) : Prop := ∃ t : Clock, t.word = time

/-- Both conversions are inverse to each other, up to the odd second. -/
theorem fatTime_roundTrip :
    (∀ s : ℤ, unixSecs1980 ≤ s → s < unixSecs2108 →
      IsDate (unixTime2Fat s).1 ∧ IsTime (unixTime2Fat s).2 ∧
        fatTime2Unix (unixTime2Fat s).1 (unixTime2Fat s).2 = s - s % 2) ∧
    ∀ date time, IsDate date → IsTime time →
      unixTime2Fat (fatTime2Unix date time) = (date, time) := by
  constructor
  · intro s h₁ h₂
    obtain ⟨d, t, hs⟩ := exists_date_clock h₁ h₂
    have hsum : s = ((daysDelta + d.number) * 86400 + t.seconds + (s % 2).toNat : ℕ) := by omega
    have he : unixTime2Fat s = (d.word, t.word) :=
      (congrArg unixTime2Fat hsum).trans (unixTime2Fat_eq d t _ (by omega))
    rw [he]
    refine ⟨⟨d, rfl⟩, ⟨t, rfl⟩, ?_⟩
    rw [fatTime2Unix_word, hs]
  · rintro date time ⟨d, rfl⟩ ⟨t, rfl⟩
    have he := unixTime2Fat_eq d t 0 Nat.two_pos
    rw [Nat.add_zero] at he
    rw [fatTime2Unix_word, he]

theorem fatTime_roundTrip_leapDay :
    (IsDate (unixTime2Fat 951782401).1 ∧ IsTime (unixTime2Fat 951782401).2 ∧
      fatTime2Unix (unixTime2Fat 951782401).1 (unixTime2Fat 951782401).2 =
        (951782401 - 951782401 % 2 : ℤ)) ∧
    unixTime2Fat (fatTime2Unix 10333 0) = (10333, 0) :=
  ⟨fatTime_roundTrip.1 951782401 (by decide) (by decide),
    fatTime_roundTrip.2 10333 0
      ⟨⟨20, 2, 29, by decide, by decide, by decide, by decide, by decide⟩, by decide⟩
      ⟨⟨0, 0, 0, by decide, by decide, by decide⟩, by decide⟩⟩

end StartOS
