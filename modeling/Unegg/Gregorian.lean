import Mathlib

/-!
# Gregorian

Dates of the proleptic Gregorian calendar and the days between them.

A `Date` is a year, a month and a day of that month.  Its place in the calendar
is counted in whole years, whole months and days (`Date.ordinal`), which orders
dates as year, month and day do (`ordinal_lt_ordinal`), so that a date is
known by its distance from another one (`Date.ext_ordinal`).
-/

namespace Gregorian

/-- Every fourth year, of the centuries every fourth. -/
def leap (y : Nat) : Bool := y % 4 = 0 && (y % 100 ≠ 0 || y % 400 = 0)

def yearLength (y : Nat) : Nat := if leap y then 366 else 365

def monthLength (y : Nat) : Nat → Nat
  | 2 => if leap y then 29 else 28
  | 4 | 6 | 9 | 11 => 30
  | _ => 31

/-- A year, a month and a day of it. -/
@[ext] structure Date where
  year : Nat
  month : Nat
  day : Nat
  month_pos : 1 ≤ month := by decide
  month_le : month ≤ 12 := by decide
  day_pos : 1 ≤ day := by decide
  day_le : day ≤ monthLength year month := by decide
  deriving Repr, DecidableEq

/-- The days of the years before `y`, from the year 0 on. -/
def daysBeforeYear (y : Nat) : Nat := ∑ i ∈ Finset.range y, yearLength i

/-- The days of the months before `m`. -/
def daysBeforeMonth (y m : Nat) : Nat := ∑ i ∈ Finset.range (m - 1), monthLength y (i + 1)

namespace Date

/-- The days before a date. -/
def ordinal (d : Date) : Nat := daysBeforeYear d.year + daysBeforeMonth d.year d.month + (d.day - 1)

/-- Year, month and day, the first that differs deciding. -/
def key (d : Date) : ℕ ×ₗ ℕ ×ₗ ℕ := toLex (d.year, toLex (d.month, d.day))

/-- The days from `d` to `d'`. -/
def daysTo (d d' : Date) : ℤ := (d'.ordinal : ℤ) - d.ordinal

end Date

/-! ## sums in closed form -/

theorem daysBeforeYear_succ (y : Nat) :
    daysBeforeYear (y + 1) = daysBeforeYear y + yearLength y := Finset.sum_range_succ _ _

theorem daysBeforeYear_eq (y : Nat) :
    daysBeforeYear y + (y + 99) / 100 = 365 * y + (y + 3) / 4 + (y + 399) / 400 := by
  induction y with
  | zero => rfl
  | succ y ih =>
      rw [daysBeforeYear_succ, yearLength]
      simp only [leap, Bool.and_eq_true, Bool.or_eq_true, decide_eq_true_eq]
      split <;> omega

theorem daysBeforeMonth_succ {y m : Nat} (h : 1 ≤ m) :
    daysBeforeMonth y (m + 1) = daysBeforeMonth y m + monthLength y m := by
  obtain ⟨k, rfl⟩ : ∃ k, m = k + 1 := ⟨m - 1, by omega⟩
  exact Finset.sum_range_succ _ _

theorem daysBeforeMonth_year (y : Nat) : daysBeforeMonth y 13 = yearLength y := by
  simp [daysBeforeMonth, Finset.sum_range_succ, monthLength, yearLength]
  split <;> rfl

/-! ## the order of dates -/

theorem daysBeforeMonth_mono (y : Nat) {m m' : Nat} (h : m ≤ m') :
    daysBeforeMonth y m ≤ daysBeforeMonth y m' :=
  Finset.sum_le_sum_of_subset (Finset.range_mono (by omega))

theorem daysBeforeYear_mono {y y' : Nat} (h : y ≤ y') : daysBeforeYear y ≤ daysBeforeYear y' :=
  Finset.sum_le_sum_of_subset (Finset.range_mono h)

/-- A date lies in its month. -/
theorem Date.ordinal_lt_month (d : Date) :
    d.ordinal < daysBeforeYear d.year + daysBeforeMonth d.year (d.month + 1) := by
  have hday := d.day_le
  have hpos := d.day_pos
  rw [daysBeforeMonth_succ d.month_pos, ordinal]
  omega

/-- A date lies in its year. -/
theorem Date.ordinal_lt_year (d : Date) : d.ordinal < daysBeforeYear (d.year + 1) := by
  have hmonth := d.ordinal_lt_month
  have hmono := daysBeforeMonth_mono d.year (show d.month + 1 ≤ 13 by have := d.month_le; omega)
  rw [daysBeforeMonth_year] at hmono
  rw [daysBeforeYear_succ]
  omega

theorem ordinal_lt_of_key_lt {d d' : Date} (h : d.key < d'.key) : d.ordinal < d'.ordinal := by
  simp only [Date.key, Prod.Lex.toLex_lt_toLex] at h
  rcases h with hyear | ⟨hyear, hmonth | ⟨hmonth, hday⟩⟩
  · have hlt := d.ordinal_lt_year
    have hmono := daysBeforeYear_mono (show d.year + 1 ≤ d'.year from hyear)
    rw [Date.ordinal, Date.ordinal] at *
    omega
  · have hlt := d.ordinal_lt_month
    have hmono := daysBeforeMonth_mono d.year (show d.month + 1 ≤ d'.month from hmonth)
    rw [Date.ordinal] at *
    rw [Date.ordinal, ← hyear]
    omega
  · have hpos := d.day_pos
    rw [Date.ordinal, Date.ordinal, ← hyear, ← hmonth]
    omega

/-- **Dates are ordered as their places in the calendar.** -/
theorem ordinal_lt_ordinal {d d' : Date} : d.ordinal < d'.ordinal ↔ d.key < d'.key := by
  refine ⟨fun h => ?_, ordinal_lt_of_key_lt⟩
  rcases lt_trichotomy d.key d'.key with hlt | heq | hgt
  · exact hlt
  · simp only [Date.key, EmbeddingLike.apply_eq_iff_eq, Prod.mk.injEq] at heq
    have : d = d' := Date.ext heq.1 heq.2.1 heq.2.2
    rw [this] at h
    exact absurd h (lt_irrefl _)
  · exact absurd (ordinal_lt_of_key_lt hgt) (by omega)

/-- A date is known by its place. -/
theorem Date.ext_ordinal {d d' : Date} (h : d.ordinal = d'.ordinal) : d = d' := by
  rcases lt_trichotomy d.key d'.key with hlt | heq | hgt
  · exact absurd (ordinal_lt_of_key_lt hlt) (by omega)
  · simp only [Date.key, EmbeddingLike.apply_eq_iff_eq, Prod.mk.injEq] at heq
    exact Date.ext heq.1 heq.2.1 heq.2.2
  · exact absurd (ordinal_lt_of_key_lt hgt) (by omega)

end Gregorian
