import Mathlib.Algebra.BigOperators.Group.Finset.Basic
import Mathlib.Algebra.Order.Interval.Finset.SuccPred
import Mathlib.Data.Int.Interval
import Mathlib.Data.Int.SuccPred

/-!
# The proleptic Gregorian calendar

Years are integers, the year 0 and the years before it included, and the leap rule holds in all of
them. `daysSince` counts the days between the first of January of one year and a date, summing the
lengths of the years and months between.

* `daysSince_unique`: a day count that grows by the length of each month from its first to the
  first of the next, and by one a day within a month, is `daysSince`.
-/

namespace Garret.Lib

/-- A leap year: a multiple of four, a century only when its number of centuries is one too. -/
def IsLeap (y : Int) : Prop := 4 ∣ y ∧ (100 ∣ y → 400 ∣ y)

instance (y : Int) : Decidable (IsLeap y) := inferInstanceAs (Decidable (_ ∧ _))

/-- The days of a year. -/
def yearLength (y : Int) : Int := if IsLeap y then 366 else 365

/-- The days of a month. -/
def monthLength (y m : Int) : Int :=
  if m = 2 then if IsLeap y then 29 else 28
  else if m = 4 ∨ m = 6 ∨ m = 9 ∨ m = 11 then 30
  else 31

/-- A date the calendar has. -/
structure IsDate (y m d : Int) : Prop where
  month : 1 ≤ m ∧ m ≤ 12
  day : 1 ≤ d ∧ d ≤ monthLength y m

instance (y m d : Int) : Decidable (IsDate y m d) :=
  decidable_of_iff ((1 ≤ m ∧ m ≤ 12) ∧ 1 ≤ d ∧ d ≤ monthLength y m)
    ⟨fun h => ⟨h.1, h.2⟩, fun h => ⟨h.month, h.day⟩⟩

/-- The year and the month after a month. -/
def nextMonth (y m : Int) : Int × Int := if m = 12 then (y + 1, 1) else (y, m + 1)

-- the order of the intervals below, whatever else is known of the integers
local instance (priority := 2000) intOrder : Preorder Int := Int.instLinearOrder.toPreorder

/-- The days from the first of January of `y₀` to a date; below zero before it. -/
def daysSince (y₀ y m d : Int) : Int :=
  ∑ k ∈ Finset.Ico y₀ y, yearLength k - ∑ k ∈ Finset.Ico y y₀, yearLength k
    + ∑ k ∈ Finset.Ico 1 m, monthLength y k + (d - 1)

theorem monthLength_bounds (y m : Int) : 28 ≤ monthLength y m ∧ monthLength y m ≤ 31 := by
  unfold monthLength
  split_ifs <;> omega

theorem nextMonth_last (y : Int) : nextMonth y 12 = (y + 1, 1) := rfl

theorem nextMonth_of_lt {m : Int} (h : m < 12) (y : Int) : nextMonth y m = (y, m + 1) :=
  if_neg (by omega)

/-- A sum over an interval, one longer. -/
theorem sum_Ico_add_one {a b : Int} (h : a ≤ b) (f : Int → Int) :
    ∑ k ∈ Finset.Ico a (b + 1), f k = ∑ k ∈ Finset.Ico a b, f k + f b := by
  rw [← Finset.insert_Ico_right_eq_Ico_add_one h, Finset.sum_insert Finset.right_notMem_Ico,
    add_comm]

theorem sum_Ico_of_lt {a b : Int} (h : a < b) (f : Int → Int) :
    ∑ k ∈ Finset.Ico a b, f k = f a + ∑ k ∈ Finset.Ico (a + 1) b, f k := by
  rw [← Finset.insert_Ico_add_one_left_eq_Ico h, Finset.sum_insert (by simp)]

/-- The months of a year make the year. -/
theorem sum_monthLength (y : Int) : ∑ k ∈ Finset.Ico 1 13, monthLength y k = yearLength y := by
  have hmonths : Finset.Ico (1 : Int) 13 = {1, 2, 3, 4, 5, 6, 7, 8, 9, 10, 11, 12} := by decide
  rw [hmonths]
  by_cases h : IsLeap y <;> simp [monthLength, yearLength, h]

/-- From year to year `daysSince` grows by the length of the year. -/
theorem daysSince_succ_year (y₀ y : Int) :
    daysSince y₀ (y + 1) 1 1 = daysSince y₀ y 1 1 + yearLength y := by
  unfold daysSince
  rcases le_or_gt y₀ y with h | h
  · rw [sum_Ico_add_one h, Finset.Ico_eq_empty_of_le h,
      Finset.Ico_eq_empty_of_le (by omega : y₀ ≤ y + 1)]
    simp
  · rw [sum_Ico_of_lt h yearLength, Finset.Ico_eq_empty_of_le h.le,
      Finset.Ico_eq_empty_of_le (by omega : y + 1 ≤ y₀)]
    simp

section Count

variable {f : Int → Int → Int → Int}
  (hmonth : ∀ y m, 1 ≤ m → m ≤ 12 →
    f (nextMonth y m).1 (nextMonth y m).2 1 = f y m 1 + monthLength y m)
include hmonth

/-- A day count reaches the first of a month by the months before it. -/
theorem count_month (y : Int) {m : Int} (h₁ : 1 ≤ m) (h₂ : m ≤ 12) :
    f y m 1 = f y 1 1 + ∑ k ∈ Finset.Ico 1 m, monthLength y k := by
  induction m, h₁ using Int.leInduction with
  | base => simp
  | succ m h₁ ih =>
    have hstep := hmonth y m h₁ (by omega)
    rw [nextMonth_of_lt (by omega)] at hstep
    rw [hstep, ih (by omega), sum_Ico_add_one h₁, add_assoc]

theorem count_year (y : Int) : f (y + 1) 1 1 = f y 1 1 + yearLength y := by
  have hlast := hmonth y 12 (by omega) (by omega)
  rw [nextMonth_last, count_month hmonth y (by omega) (by omega), add_assoc,
    ← sum_Ico_add_one (by omega) (monthLength y)] at hlast
  rw [← sum_monthLength y]
  exact hlast

theorem count_years (y₀ y : Int) : f y 1 1 = f y₀ 1 1 + daysSince y₀ y 1 1 := by
  -- from `y₀` forwards and from `y₀` backwards
  refine Int.inductionOn' y y₀ ?_ ?_ ?_
  · simp [daysSince]
  · intro k _ ih
    rw [count_year hmonth, ih, daysSince_succ_year, add_assoc]
  · intro k _ ih
    have hf := count_year hmonth (k - 1)
    have hd := daysSince_succ_year y₀ (k - 1)
    rw [sub_add_cancel] at hf hd
    omega

/-- **The calendar has one day count**: what follows its months and counts the days in each of them
is `daysSince`, up to the day it starts from. -/
theorem daysSince_unique (hday : ∀ y m d, f y m d = f y m 1 + (d - 1)) (y₀ y d : Int) {m : Int}
    (h₁ : 1 ≤ m) (h₂ : m ≤ 12) : f y m d = f y₀ 1 1 + daysSince y₀ y m d := by
  have hyears := count_years hmonth y₀ y
  have hmonths := count_month hmonth y h₁ h₂
  rw [hday, hmonths, hyears]
  simp only [daysSince, Finset.Ico_self, Finset.sum_empty]
  omega

end Count

end Garret.Lib
