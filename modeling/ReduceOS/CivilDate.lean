import Mathlib.Algebra.BigOperators.Group.Finset.Basic
import Mathlib.Algebra.Order.Group.Int
import Mathlib.Tactic.IntervalCases

/-!
The Gregorian calendar, extended to all years. Days are numbered from 1970-01-01, which is day
0; every number is the number of exactly one date.
-/
namespace ReduceOS.CivilDate

section Search

variable {f : ℤ → ℤ} {a b n i j : ℤ}

/-- Between two places where `f` is at most `n` and above it, it passes `n` in one step. -/
theorem exists_step (hab : a ≤ b) (ha : f a ≤ n) (hb : n < f b) :
    ∃ i, a ≤ i ∧ i < b ∧ f i ≤ n ∧ n < f (i + 1) := by
  induction b, hab using Int.leInduction with
  | base => omega
  | succ b hab ih =>
    by_cases hlow : n < f b
    · obtain ⟨i, hai, hib, hi⟩ := ih hlow
      exact ⟨i, hai, by omega, hi⟩
    · exact ⟨b, hab, by omega, by omega, hb⟩

theorem le_of_steps (hf : ∀ i, a ≤ i → i < b → f i ≤ f (i + 1)) (hab : a ≤ b) : f a ≤ f b := by
  induction b, hab using Int.leInduction with
  | base => exact le_rfl
  | succ b hab ih =>
    have hlast := hf b hab (by omega)
    have hfirst := ih fun i hai hib => hf i hai (by omega)
    omega

end Search

def IsLeap (year : ℤ) : Prop := year % 4 = 0 ∧ (year % 100 ≠ 0 ∨ year % 400 = 0)

instance (year : ℤ) : Decidable (IsLeap year) := inferInstanceAs (Decidable (_ ∧ (_ ∨ _)))

def daysInMonth (year month : ℤ) : ℤ :=
  if month = 2 then if IsLeap year then 29 else 28
  else if month = 4 ∨ month = 6 ∨ month = 9 ∨ month = 11 then 30
  else 31

def daysInYear (year : ℤ) : ℤ := if IsLeap year then 366 else 365

def daysBeforeYear (year : ℤ) : ℤ :=
  365 * (year - 1) + (year - 1) / 4 - (year - 1) / 100 + (year - 1) / 400

def daysBeforeMonth (year month : ℤ) : ℤ :=
  ∑ i ∈ Finset.range (month - 1).toNat, daysInMonth year (i + 1)

theorem daysBeforeYear_succ (year : ℤ) :
    daysBeforeYear (year + 1) = daysBeforeYear year + daysInYear year := by
  unfold daysBeforeYear daysInYear IsLeap
  split_ifs <;> omega

theorem daysBeforeMonth_one (year : ℤ) : daysBeforeMonth year 1 = 0 := rfl

theorem daysBeforeMonth_succ {year month : ℤ} (hmonth : 1 ≤ month) :
    daysBeforeMonth year (month + 1) = daysBeforeMonth year month + daysInMonth year month := by
  obtain ⟨k, rfl⟩ : ∃ k : ℕ, month = k + 1 := ⟨(month - 1).toNat, by omega⟩
  have hk : ((k : ℤ) + 1 - 1).toNat = k := by omega
  have hk' : ((k : ℤ) + 1 + 1 - 1).toNat = k + 1 := by omega
  rw [daysBeforeMonth, daysBeforeMonth, hk, hk', Finset.sum_range_succ]

theorem daysInMonth_pos (year month : ℤ) : 0 < daysInMonth year month := by
  unfold daysInMonth
  split_ifs <;> omega

theorem daysInYear_pos (year : ℤ) : 0 < daysInYear year := by
  unfold daysInYear
  split_ifs <;> omega

theorem daysInMonth_le (year month : ℤ) : daysInMonth year month ≤ 31 := by
  unfold daysInMonth
  split_ifs <;> omega

theorem daysInYear_le (year : ℤ) : daysInYear year ≤ 366 := by
  unfold daysInYear
  split_ifs <;> omega

theorem daysBeforeMonth_thirteen (year : ℤ) : daysBeforeMonth year 13 = daysInYear year := by
  change ∑ i ∈ Finset.range 12, daysInMonth year (i + 1) = _
  unfold daysInMonth daysInYear
  split_ifs <;> simp [Finset.sum_range_succ]

structure Date where
  year : ℤ
  month : ℤ
  day : ℤ
  month_pos : 1 ≤ month
  month_le : month ≤ 12
  day_pos : 1 ≤ day
  day_le : day ≤ daysInMonth year month

namespace Date

def dayOfYear (d : Date) : ℤ := daysBeforeMonth d.year d.month + (d.day - 1)

def newYear (year : ℤ) : ℤ := daysBeforeYear year - daysBeforeYear 1970

def dayNumber (d : Date) : ℤ := newYear d.year + d.dayOfYear

theorem newYear_succ (year : ℤ) : newYear (year + 1) = newYear year + daysInYear year := by
  rw [newYear, newYear, daysBeforeYear_succ]
  omega

theorem newYear_mono {y z : ℤ} (h : y ≤ z) : newYear y ≤ newYear z := by
  refine le_of_steps (fun i _ _ => ?_) h
  have := daysInYear_pos i
  rw [newYear_succ]
  omega

theorem daysBeforeMonth_le (year : ℤ) {m k : ℤ} (hm : 1 ≤ m) (h : m ≤ k) :
    daysBeforeMonth year m ≤ daysBeforeMonth year k := by
  refine le_of_steps (fun i hi _ => ?_) h
  have := daysInMonth_pos year i
  rw [daysBeforeMonth_succ (by omega)]
  omega

theorem dayOfYear_nonneg (d : Date) : 0 ≤ d.dayOfYear := by
  have := daysBeforeMonth_le d.year le_rfl d.month_pos
  have := d.day_pos
  rw [daysBeforeMonth_one] at *
  unfold dayOfYear
  omega

theorem dayOfYear_lt (d : Date) : d.dayOfYear < daysInYear d.year := by
  have hle := daysBeforeMonth_le d.year (m := d.month + 1) (k := 13)
    (by have := d.month_pos; omega) (by have := d.month_le; omega)
  have := d.day_le
  rw [daysBeforeMonth_thirteen, daysBeforeMonth_succ d.month_pos] at hle
  unfold dayOfYear
  omega

theorem newYear_le (d : Date) : newYear d.year ≤ d.dayNumber := by
  have := d.dayOfYear_nonneg
  unfold dayNumber
  omega

theorem lt_newYear (d : Date) : d.dayNumber < newYear (d.year + 1) := by
  have := d.dayOfYear_lt
  rw [newYear_succ, dayNumber]
  omega

theorem exists_dayNumber (n : ℤ) : ∃ d : Date, d.dayNumber = n := by
  obtain ⟨y, -, -, hlow, hhigh⟩ := exists_step (f := newYear) (n := n)
    (a := -|n|) (b := |n| + 1971) (by have := abs_nonneg n; omega)
    (by
      have := neg_abs_le n
      have := abs_nonneg n
      unfold newYear daysBeforeYear
      omega)
    (by
      have := le_abs_self n
      have := abs_nonneg n
      unfold newYear daysBeforeYear
      omega)
  rw [newYear_succ, ← daysBeforeMonth_thirteen] at hhigh
  obtain ⟨m, hm, hm', hbefore, hafter⟩ := exists_step (f := daysBeforeMonth y)
    (n := n - newYear y) (a := 1) (b := 13) (by omega)
    (by rw [daysBeforeMonth_one]; omega) (by omega)
  rw [daysBeforeMonth_succ hm] at hafter
  refine ⟨⟨y, m, n - newYear y - daysBeforeMonth y m + 1, hm, by omega, by omega, by omega⟩, ?_⟩
  simp only [dayNumber, dayOfYear]
  omega

end Date

def weekday (dayNumber : ℤ) : ℤ := (dayNumber + 4) % 7

example : (⟨2000, 2, 29, by decide, by decide, by decide, by decide⟩ : Date).dayNumber = 11016 := by
  decide

end ReduceOS.CivilDate
