import Unegg.Archive
import Unegg.Gregorian

/-!
# Unegg.Filetime

The times of a listing (`format_filetime` and `days_to_ymd` in `main.rs`).

The arithmetic is that of `u64`: an operation that leaves its range aborts
(`none`).  The calendar of the conversion is the proleptic Gregorian one
(`daysToYmd_exact`), and none of its operations leaves the range.
-/

namespace Unegg

open Gregorian

/-! ## `u64` -/

def add64 (a b : Nat) : Option Nat := if a + b < 2 ^ 64 then some (a + b) else none

def mul64 (a b : Nat) : Option Nat := if a * b < 2 ^ 64 then some (a * b) else none

def sub64 (a b : Nat) : Option Nat := if b ≤ a then some (a - b) else none

theorem add64_eq {a b : Nat} (h : a + b < 2 ^ 64) : add64 a b = some (a + b) := if_pos h

theorem mul64_eq {a b : Nat} (h : a * b < 2 ^ 64) : mul64 a b = some (a * b) := if_pos h

theorem sub64_eq {a b : Nat} (h : b ≤ a) : sub64 a b = some (a - b) := if_pos h

/-! ## the conversion -/

/-- The year, month and day of a day, counted from 1970-01-01. -/
def daysToYmd (days : Nat) : Option (Nat × Nat × Nat) := do
  let z ← add64 days 719468
  let era := z / 146097
  let doe ← sub64 z (← mul64 era 146097)
  let yoe := (← sub64 (← add64 (← sub64 doe (doe / 1460)) (doe / 36524)) (doe / 146096)) / 365
  let y ← add64 yoe (← mul64 era 400)
  let doy ← sub64 doe (← sub64 (← add64 (← mul64 365 yoe) (yoe / 4)) (yoe / 100))
  let mp := (← add64 (← mul64 5 doy) 2) / 153
  let d ← add64 (← sub64 doy ((← add64 (← mul64 153 mp) 2) / 5)) 1
  let m ← (if mp < 10 then add64 mp 3 else sub64 mp 9 : Option Nat)
  let y ← (if m ≤ 2 then add64 y 1 else some y : Option Nat)
  return (y, m, d)

/-- `{n:0width}`. -/
def zeroPadded (width n : Nat) : String :=
  let ds := Nat.toDigits 10 n
  String.ofList (List.replicate (width - ds.length) '0' ++ ds)

/-- `{year:04}-{month:02}-{day:02} {hours:02}:{minutes:02}:{seconds:02}`. -/
def timeText (year month day hours minutes seconds : Nat) : String :=
  zeroPadded 4 year ++ "-" ++ zeroPadded 2 month ++ "-" ++ zeroPadded 2 day ++ " " ++
    zeroPadded 2 hours ++ ":" ++ zeroPadded 2 minutes ++ ":" ++ zeroPadded 2 seconds

/-- The time of an entry in a listing; blank before 1970. -/
def formatFiletime (filetime : UInt64) : Option String :=
  if filetime.toNat < 11644473600 * 10000000 then some "                   "
  else do
    let unixSecs := filetime.toNat / 10000000 - 11644473600
    let days := unixSecs / 86400
    let timeOfDay := unixSecs % 86400
    let hours := timeOfDay / 3600
    let minutes := timeOfDay % 3600 / 60
    let seconds := timeOfDay % 60
    let (year, month, day) ← daysToYmd days
    return timeText year month day hours minutes seconds

/-! ## the year -/

/-- A day of a 400-year era, in centuries, leap cycles and years that begin in
March. -/
theorem era_split {doe : Nat} (h : doe < 146097) :
    ∃ c q s r, c ≤ 3 ∧ q ≤ 24 ∧ s ≤ 3 ∧ r ≤ 365 ∧ (r = 365 → s = 3 ∧ (q = 24 → c = 3)) ∧
      doe = 36524 * c + 1461 * q + 365 * s + r := by
  obtain ⟨c, hc⟩ : ∃ c, c = min (doe / 36524) 3 := ⟨_, rfl⟩
  obtain ⟨q, hq⟩ : ∃ q, q = (doe - 36524 * c) / 1461 := ⟨_, rfl⟩
  obtain ⟨s, hs⟩ : ∃ s, s = min ((doe - 36524 * c - 1461 * q) / 365) 3 := ⟨_, rfl⟩
  refine ⟨c, q, s, doe - 36524 * c - 1461 * q - 365 * s, ?_, ?_, ?_, ?_, ?_, ?_⟩ <;> omega

section Era

variable {c q s r doe : Nat} (hc : c ≤ 3) (hq : q ≤ 24) (hs : s ≤ 3) (hr : r ≤ 365)
  (hlast : r = 365 → s = 3 ∧ (q = 24 → c = 3))
  (hdoe : doe = 36524 * c + 1461 * q + 365 * s + r)
include hc hq hs hr hlast hdoe

/-- The corrections for leap days leave whole years of 365 days. -/
theorem year_of_era :
    (doe - doe / 1460 + doe / 36524 - doe / 146096) / 365 = 100 * c + 4 * q + s := by
  have hcycles : doe / 1460 =
      25 * c + q + if 1460 ≤ 24 * c + q + 365 * s + r then 1 else 0 := by
    split <;> omega
  have hcenturies : doe / 36524 = c + doe / 146096 := by
    interval_cases c <;> omega
  rw [hcycles, hcenturies]
  split <;> omega

end Era

/-- The days before a year of the century, counted from its leap years. -/
theorem start_of_year {c q s : Nat} (hq : q ≤ 24) (hs : s ≤ 3) :
    365 * (100 * c + 4 * q + s) + (100 * c + 4 * q + s) / 4 - (100 * c + 4 * q + s) / 100 =
      36524 * c + 1461 * q + 365 * s := by
  omega

/-- The days before a year that begins in March. -/
theorem daysBeforeYear_march (era : Nat) {c q s : Nat} (hq : q ≤ 24) (hs : s ≤ 3) (hc : c ≤ 3) :
    daysBeforeYear (400 * era + 100 * c + 4 * q + s + 1) =
      146097 * era + 36524 * c + 1461 * q + 365 * s + 366 := by
  have hclosed := daysBeforeYear_eq (400 * era + 100 * c + 4 * q + s + 1)
  omega

/-! ## the month -/

/-- The days of a year that begins in March before its month `mp`. -/
def marchOffset (mp : Nat) : Nat := (153 * mp + 2) / 5

/-- From March on the months lie where the formula puts them. -/
theorem daysBeforeMonth_march (y : Nat) {mp : Nat} (h : mp < 10) :
    daysBeforeMonth y (mp + 3) = 31 + monthLength y 2 + marchOffset mp := by
  interval_cases mp <;> simp [daysBeforeMonth, Finset.sum_range_succ, monthLength, marchOffset]

/-- From March to January a year has 337 days, whatever its February has. -/
theorem yearLength_march (y : Nat) : yearLength y = monthLength y 2 + 337 := by
  rw [yearLength, monthLength]
  split <;> rfl

/-- The length of a month is the distance to the next. -/
theorem monthLength_march (y : Nat) {mp : Nat} (h : mp < 10) :
    monthLength y (mp + 3) = marchOffset (mp + 1) - marchOffset mp := by
  interval_cases mp <;> rfl

/-- The month of a day, and the day in it. -/
theorem month_split {r : Nat} (hr : r ≤ 365) :
    (5 * r + 2) / 153 ≤ 11 ∧ marchOffset ((5 * r + 2) / 153) ≤ r ∧
      r < marchOffset ((5 * r + 2) / 153 + 1) := by
  rw [marchOffset, marchOffset]
  omega

/-- The last day of a leap year that begins in March is a 29 February. -/
theorem leap_march {era c q s : Nat} (hq : q ≤ 24) (hs : s = 3) (hlast : q = 24 → c = 3) :
    leap (400 * era + 100 * c + 4 * q + s + 1) := by
  simp only [leap, Bool.and_eq_true, Bool.or_eq_true, decide_eq_true_eq]
  omega

/-- The date of the `r`-th day of a year that begins in March. -/
theorem march_date (era : Nat) {c q s r : Nat} (hc : c ≤ 3) (hq : q ≤ 24) (hs : s ≤ 3) (hr : r ≤ 365)
    (hlast : r = 365 → s = 3 ∧ (q = 24 → c = 3)) :
    ∃ date : Date, date.ordinal = 146097 * era + 36524 * c + 1461 * q + 365 * s + 60 + r ∧
      date.month = (if (5 * r + 2) / 153 < 10 then (5 * r + 2) / 153 + 3
        else (5 * r + 2) / 153 - 9) ∧
      date.year = (if date.month ≤ 2 then 400 * era + 100 * c + 4 * q + s + 1
        else 400 * era + 100 * c + 4 * q + s) ∧
      date.day = r - marchOffset ((5 * r + 2) / 153) + 1 := by
  obtain ⟨y, hy⟩ : ∃ y, y = 400 * era + 100 * c + 4 * q + s := ⟨_, rfl⟩
  obtain ⟨mp, hmp⟩ : ∃ mp, mp = (5 * r + 2) / 153 := ⟨_, rfl⟩
  have hyear := daysBeforeYear_march era hq hs hc
  obtain ⟨hle, hlo, hhi⟩ := month_split hr
  rw [← hy] at hyear ⊢
  rw [← hmp] at hle hlo hhi ⊢
  by_cases h10 : mp < 10
  · have hlength := monthLength_march y h10
    have hbefore := daysBeforeMonth_march y h10
    have hnext := daysBeforeYear_succ y
    rw [yearLength_march] at hnext
    refine ⟨⟨y, mp + 3, r - marchOffset mp + 1, by omega, by omega, by omega, by omega⟩, ?_⟩
    rw [Date.ordinal, if_pos h10]
    simp only
    refine ⟨by omega, trivial, ?_, trivial⟩
    rw [if_neg (by omega)]
  · have hleap : r = 365 → leap (y + 1) := by
      intro h
      obtain ⟨hs, hq24⟩ := hlast h
      rw [hy]
      exact leap_march hq hs hq24
    have hmonth : mp = 10 ∨ mp = 11 := by omega
    rcases hmonth with rfl | rfl
    · refine ⟨⟨y + 1, 1, r - marchOffset 10 + 1, by omega, by omega, by omega, ?_⟩, ?_⟩
      · simp only [monthLength, marchOffset] at hlo hhi ⊢
        omega
      · simp only [Date.ordinal, daysBeforeMonth, marchOffset] at hlo hhi ⊢
        simp
        omega
    · refine ⟨⟨y + 1, 2, r - marchOffset 11 + 1, by omega, by omega, by omega, ?_⟩, ?_⟩
      · simp only [monthLength, marchOffset] at hlo hhi ⊢
        by_cases h365 : r = 365
        · rw [if_pos (hleap h365)]
          omega
        · split <;> omega
      · simp only [Date.ordinal, daysBeforeMonth, marchOffset] at hlo hhi ⊢
        simp [monthLength]
        omega

/-! ## the date -/

/-- The year of a day of an era, without an overflow. -/
theorem year_total {doe : Nat} (h : doe < 146097) : ∃ a₁ a₂ a₃,
    sub64 doe (doe / 1460) = some a₁ ∧ add64 a₁ (doe / 36524) = some a₂ ∧
      sub64 a₂ (doe / 146096) = some a₃ ∧
      a₃ / 365 = (doe - doe / 1460 + doe / 36524 - doe / 146096) / 365 :=
  ⟨_, _, _, sub64_eq (by omega), add64_eq (by omega), sub64_eq (by omega), rfl⟩

/-- The day in a year, without an overflow. -/
theorem day_total {doe r : Nat} (yoe : Nat) (hyoe : yoe ≤ 399)
    (hdoe : doe = 365 * yoe + yoe / 4 - yoe / 100 + r) : ∃ a₁ a₂ a₃,
    mul64 365 yoe = some a₁ ∧ add64 a₁ (yoe / 4) = some a₂ ∧ sub64 a₂ (yoe / 100) = some a₃ ∧
      sub64 doe a₃ = some r := by
  have hr : doe - (365 * yoe + yoe / 4 - yoe / 100) = r := by omega
  refine ⟨_, _, _, mul64_eq (by omega), add64_eq (by omega), sub64_eq (by omega), ?_⟩
  rw [sub64_eq (by omega), hr]

/-- The month of a day, without an overflow. -/
theorem month_total {r : Nat} (hr : r ≤ 365) :
    (∃ a₁ a₂, mul64 5 r = some a₁ ∧ add64 a₁ 2 = some a₂ ∧ a₂ / 153 = (5 * r + 2) / 153) ∧
      (∃ a₁ a₂, mul64 153 ((5 * r + 2) / 153) = some a₁ ∧ add64 a₁ 2 = some a₂ ∧
        sub64 r (a₂ / 5) = some (r - marchOffset ((5 * r + 2) / 153))) ∧
      add64 (r - marchOffset ((5 * r + 2) / 153)) 1 =
        some (r - marchOffset ((5 * r + 2) / 153) + 1) := by
  obtain ⟨hmp, hlo, -⟩ := month_split hr
  rw [marchOffset] at hlo ⊢
  exact ⟨⟨_, _, mul64_eq (by omega), add64_eq (by omega), rfl⟩,
    ⟨_, _, mul64_eq (by omega), add64_eq (by omega), sub64_eq hlo⟩, add64_eq (by omega)⟩

theorem bind_some_of {α β : Type} {o : Option α} {f : α → Option β} {a : α} {b : β}
    (ho : o = some a) (hf : f a = some b) : o >>= f = some b := by
  rw [ho]
  exact hf

/-- The steps of the conversion. -/
theorem daysToYmd_steps {n z a doe yoe b y doy mp d₁ d m y' : Nat} (h₁ : add64 n 719468 = some z)
    (h₂ : mul64 (z / 146097) 146097 = some a) (h₃ : sub64 z a = some doe)
    (h₄ : ∃ a₁ a₂ a₃, sub64 doe (doe / 1460) = some a₁ ∧ add64 a₁ (doe / 36524) = some a₂ ∧
      sub64 a₂ (doe / 146096) = some a₃ ∧ a₃ / 365 = yoe)
    (h₅ : mul64 (z / 146097) 400 = some b) (h₆ : add64 yoe b = some y)
    (h₇ : ∃ a₁ a₂ a₃, mul64 365 yoe = some a₁ ∧ add64 a₁ (yoe / 4) = some a₂ ∧
      sub64 a₂ (yoe / 100) = some a₃ ∧ sub64 doe a₃ = some doy)
    (h₈ : ∃ a₁ a₂, mul64 5 doy = some a₁ ∧ add64 a₁ 2 = some a₂ ∧ a₂ / 153 = mp)
    (h₉ : ∃ a₁ a₂, mul64 153 mp = some a₁ ∧ add64 a₁ 2 = some a₂ ∧ sub64 doy (a₂ / 5) = some d₁)
    (h₁₀ : add64 d₁ 1 = some d) (h₁₁ : (if mp < 10 then add64 mp 3 else sub64 mp 9) = some m)
    (h₁₂ : (if m ≤ 2 then add64 y 1 else some y) = some y') :
    daysToYmd n = some (y', m, d) := by
  obtain ⟨_, _, _, e₁, e₂, e₃, rfl⟩ := h₄
  obtain ⟨_, _, _, e₄, e₅, e₆, e₇⟩ := h₇
  obtain ⟨_, _, e₈, e₉, rfl⟩ := h₈
  obtain ⟨_, _, e₁₀, e₁₁, e₁₂⟩ := h₉
  exact bind_some_of h₁ (bind_some_of h₂ (bind_some_of h₃ (bind_some_of e₁ (bind_some_of e₂
    (bind_some_of e₃ (bind_some_of h₅ (bind_some_of h₆ (bind_some_of e₄ (bind_some_of e₅
    (bind_some_of e₆ (bind_some_of e₇ (bind_some_of e₈ (bind_some_of e₉ (bind_some_of e₁₀
    (bind_some_of e₁₁ (bind_some_of e₁₂ (bind_some_of h₁₀ (bind_some_of h₁₁
    (bind_some_of h₁₂ rfl)))))))))))))))))))

/-- The conversion gives a date, at the right distance, and nothing overflows. -/
theorem daysToYmd_ok {n : Nat} (h : n + 719468 < 2 ^ 64) :
    ∃ date : Date, daysToYmd n = some (date.year, date.month, date.day) ∧
      date.ordinal = n + 719528 := by
  obtain ⟨era, hera⟩ : ∃ era, (n + 719468) / 146097 = era := ⟨_, rfl⟩
  obtain ⟨doe, hdoe⟩ : ∃ doe, n + 719468 - era * 146097 = doe := ⟨_, rfl⟩
  have hlt : doe < 146097 := by omega
  obtain ⟨a₁, a₂, a₃, hcycles, hcenturies, hera400, hyoe⟩ := year_total hlt
  obtain ⟨c, q, s, r, hc, hq, hs, hr, hlast, hsplit⟩ := era_split hlt
  rw [year_of_era hc hq hs hr hlast hsplit] at hyoe
  obtain ⟨date, hordinal, hmonth, hyear, hday⟩ := march_date era hc hq hs hr hlast
  have hdoy := day_total (100 * c + 4 * q + s) (by omega)
    (hsplit.trans (by rw [start_of_year hq hs]))
  obtain ⟨hmp, hoffset, hd⟩ := month_total hr
  refine ⟨date, ?_, by omega⟩
  have hz : add64 n 719468 = some (n + 719468) := add64_eq h
  have hmul : mul64 ((n + 719468) / 146097) 146097 = some (era * 146097) := by
    rw [hera, mul64_eq (by omega)]
  have hsub : sub64 (n + 719468) (era * 146097) = some doe := by rw [sub64_eq (by omega), hdoe]
  have hmul400 : mul64 ((n + 719468) / 146097) 400 = some (era * 400) := by
    rw [hera, mul64_eq (by omega)]
  have hy : add64 (100 * c + 4 * q + s) (era * 400) =
      some (400 * era + 100 * c + 4 * q + s) := by
    rw [add64_eq (by omega), Option.some.injEq]
    omega
  refine daysToYmd_steps hz hmul hsub ⟨a₁, a₂, a₃, hcycles, hcenturies, hera400, hyoe⟩ hmul400 hy
    hdoy hmp hoffset (hday ▸ hd) ?_ ?_
  · rw [hmonth]
    split
    · exact add64_eq (by omega)
    · exact sub64_eq (by omega)
  · rw [hyear]
    split
    · exact add64_eq (by omega)
    · rfl

def unixEpoch : Date := { year := 1970, month := 1, day := 1 }

/-- The epoch is day 719528 of the calendar. -/
theorem ordinal_unixEpoch : unixEpoch.ordinal = 719528 := by
  have hyear := daysBeforeYear_eq 1970
  have hmonth : daysBeforeMonth 1970 1 = 0 := rfl
  simp only [unixEpoch, Date.ordinal, hmonth]
  omega

/-- The date of a day is the only one at its distance. -/
theorem daysToYmd_exact {n : Nat} (h : n + 719468 < 2 ^ 64) :
    ∃ date : Date, daysToYmd n = some (date.year, date.month, date.day) ∧
      unixEpoch.daysTo date = n ∧ ∀ date', unixEpoch.daysTo date' = n → date' = date := by
  obtain ⟨date, hrun, hordinal⟩ := daysToYmd_ok h
  refine ⟨date, hrun, ?_, fun date' hdate' => Date.ext_ordinal ?_⟩
  · rw [Date.daysTo, ordinal_unixEpoch, hordinal]
    omega
  · rw [Date.daysTo, ordinal_unixEpoch] at hdate'
    omega

/-- A later day has a later date. -/
theorem daysToYmd_lt {n n' : Nat} (hlt : n < n') (h : n' + 719468 < 2 ^ 64) :
    ∃ date date' : Date, daysToYmd n = some (date.year, date.month, date.day) ∧
      daysToYmd n' = some (date'.year, date'.month, date'.day) ∧ date.key < date'.key := by
  obtain ⟨date, hrun, hordinal⟩ := daysToYmd_ok (n := n) (by omega)
  obtain ⟨date', hrun', hordinal'⟩ := daysToYmd_ok h
  exact ⟨date, date', hrun, hrun', ordinal_lt_ordinal.mp (by omega)⟩

/-! ## Unix times -/

/-- A Unix time whose ticks fit 64 bits is converted without overflow. -/
theorem unixToFiletime_exact {s : UInt64} (h : (s.toNat + 11644473600) * 10 ^ 7 < 2 ^ 64) :
    (unixToFiletime s).toNat = (s.toNat + 11644473600) * 10 ^ 7 := by
  rw [unixToFiletime, filetimeEpochDiff, UInt64.toNat_ofNat']
  omega

/-- The day counts that `formatFiletime` converts. -/
theorem days_in_range (filetime : UInt64) :
    (filetime.toNat / 10000000 - 11644473600) / 86400 + 719468 < 2 ^ 64 := by
  have := filetime.toNat_lt
  omega

/-- Such a time is printed as the date and the time of day it is. -/
theorem formatFiletime_exact {s : UInt64} (h : (s.toNat + 11644473600) * 10 ^ 7 < 2 ^ 64) :
    ∃ (date : Date) (hours minutes seconds : Nat), hours < 24 ∧ minutes < 60 ∧ seconds < 60 ∧
      (s.toNat : ℤ) = unixEpoch.daysTo date * 86400 + hours * 3600 + minutes * 60 + seconds ∧
      formatFiletime (unixToFiletime s) =
        some (timeText date.year date.month date.day hours minutes seconds) := by
  have hfiletime := unixToFiletime_exact h
  have hunix : (unixToFiletime s).toNat / 10000000 - 11644473600 = s.toNat := by omega
  have hrange := days_in_range (unixToFiletime s)
  rw [hunix] at hrange
  obtain ⟨date, hrun, hdays, -⟩ := daysToYmd_exact hrange
  refine ⟨date, s.toNat % 86400 / 3600, s.toNat % 86400 % 3600 / 60, s.toNat % 86400 % 60,
    by omega, by omega, by omega, ?_, ?_⟩
  · rw [hdays]
    omega
  · rw [formatFiletime, if_neg (by omega), hunix]
    exact bind_some_of hrun rfl

/-- **The calendar is exact**: a Unix time in range is shown as its date and
time, every day has its date, and dates follow one another as the days do. -/
theorem calendar_exact :
    (∀ s : UInt64, (s.toNat + 11644473600) * 10 ^ 7 < 2 ^ 64 →
      (unixToFiletime s).toNat = (s.toNat + 11644473600) * 10 ^ 7 ∧
        ∃ (date : Date) (hours minutes seconds : Nat), hours < 24 ∧ minutes < 60 ∧ seconds < 60 ∧
          (s.toNat : ℤ) =
            unixEpoch.daysTo date * 86400 + hours * 3600 + minutes * 60 + seconds ∧
          formatFiletime (unixToFiletime s) =
            some (timeText date.year date.month date.day hours minutes seconds)) ∧
      (∀ filetime : UInt64,
        (filetime.toNat / 10000000 - 11644473600) / 86400 + 719468 < 2 ^ 64) ∧
      (∀ n, n + 719468 < 2 ^ 64 → ∃ date : Date,
        daysToYmd n = some (date.year, date.month, date.day) ∧
          unixEpoch.daysTo date = n ∧ ∀ date', unixEpoch.daysTo date' = n → date' = date) ∧
      ∀ n n', n < n' → n' + 719468 < 2 ^ 64 → ∃ date date' : Date,
        daysToYmd n = some (date.year, date.month, date.day) ∧
          daysToYmd n' = some (date'.year, date'.month, date'.day) ∧ date.key < date'.key :=
  ⟨fun _ h => ⟨unixToFiletime_exact h, formatFiletime_exact h⟩, days_in_range,
    fun _ h => daysToYmd_exact h, fun _ _ hlt h => daysToYmd_lt hlt h⟩

/-- The last day of February 2000. -/
theorem calendar_leapDay :
    formatFiletime (unixToFiletime 951782400) = some "2000-02-29 00:00:00" ∧
      (unixToFiletime 951782400).toNat = (951782400 + 11644473600) * 10 ^ 7 ∧
      ∃ date : Date, daysToYmd 11016 = some (date.year, date.month, date.day) ∧
        unixEpoch.daysTo date = 11016 :=
  ⟨by decide +kernel, (calendar_exact.1 951782400 (by decide)).1, by
    obtain ⟨date, hrun, hdays, -⟩ := calendar_exact.2.2.1 11016 (by decide)
    exact ⟨date, hrun, hdays⟩⟩

end Unegg
