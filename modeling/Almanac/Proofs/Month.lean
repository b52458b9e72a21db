import Mathlib.Algebra.Ring.Nat
import Mathlib.Data.Prod.Lex
import Almanac.Proofs.Order

/-! # Months of instants

A day lies in the year that starts at or before it and ends after it, and in one of the twelve
months of that year, so that its civil date leads back to it. Later days have later months, so that
the number of a month, its year and its place in the year tell the same order.
-/
namespace Almanac
set_option autoImplicit false

namespace Civil

theorem yearStart_lt {y z : Int} (h : y < z) : yearStart y < yearStart z := by
  rw [yearStart, yearStart]
  omega

/-- The mean length of a year misses the year of a day by one at most. -/
theorem yearOf_bounds (day : Int) :
    yearStart (yearOf day) ≤ day ∧ day < yearStart (yearOf day + 1) := by
  rw [yearOf]
  split
  · rename_i hBefore
    rw [Int.sub_add_cancel]
    refine ⟨?_, hBefore⟩
    rw [yearStart]
    omega
  · rename_i hStarted
    split
    · rename_i hEnded
      refine ⟨hEnded, ?_⟩
      rw [yearStart]
      omega
    · rename_i hGoing
      exact ⟨Int.not_lt.mp hStarted, Int.not_le.mp hGoing⟩

theorem yearOf_mono {d e : Int} (h : d ≤ e) : yearOf d ≤ yearOf e := by
  by_contra hLater
  have hStart := (yearOf_bounds d).1
  have hEnd := (yearOf_bounds e).2
  rcases Int.lt_or_eq_of_le (Int.add_one_le_iff.mpr (Int.not_le.mp hLater)) with hLt | hSame
  · have hYears := yearStart_lt hLt
    omega
  · rw [hSame] at hEnd
    omega

/-- The lengths of the months fill the year. -/
theorem sum_monthLengths (year : Int) :
    ((monthLengths (isLeap year)).sum : Int) = yearStart (year + 1) - yearStart year := by
  have hLength : ∀ leap, (monthLengths leap).sum = if leap then 366 else 365 := by decide
  rw [hLength, isLeap, yearStart, yearStart]
  split
  · rename_i hLeap
    simp only [Bool.and_eq_true, Bool.or_eq_true, decide_eq_true_eq] at hLeap
    omega
  · rename_i hCommon
    simp only [Bool.and_eq_true, Bool.or_eq_true, decide_eq_true_eq] at hCommon
    omega

section Month
variable {month elapsed elapsed' : Nat} {lengths : List Nat}

theorem le_month (month elapsed : Nat) (lengths : List Nat) :
    month ≤ (monthAndDay month elapsed lengths).1 := by
  induction lengths generalizing month elapsed with
  | nil => exact Nat.le_refl _
  | cons length lengths ih =>
    rw [monthAndDay]
    split
    · exact Nat.le_refl _
    · exact Nat.le_of_succ_le (ih _ _)

theorem month_lt (h : elapsed < lengths.sum) :
    (monthAndDay month elapsed lengths).1 < month + lengths.length := by
  induction lengths generalizing month elapsed with
  | nil => exact absurd h (Nat.not_lt_zero _)
  | cons length lengths ih =>
    rw [monthAndDay, List.length_cons]
    rw [List.sum_cons] at h
    split
    · exact Nat.lt_add_of_pos_right (Nat.succ_pos _)
    · have hRest := @ih (month + 1) (elapsed - length) (by omega)
      omega

theorem month_mono (h : elapsed ≤ elapsed') :
    (monthAndDay month elapsed lengths).1 ≤ (monthAndDay month elapsed' lengths).1 := by
  induction lengths generalizing month elapsed elapsed' with
  | nil => exact Nat.le_refl _
  | cons length lengths ih =>
    rw [monthAndDay, monthAndDay]
    split
    · split
      · exact Nat.le_refl _
      · exact Nat.le_of_succ_le (le_month _ _ _)
    · rw [if_neg (by omega)]
      exact ih (by omega)

/-- The month and the day in it count the days that went by. -/
theorem sum_take_monthAndDay (h : elapsed < lengths.sum) :
    (lengths.take ((monthAndDay month elapsed lengths).1 - month)).sum +
      (monthAndDay month elapsed lengths).2 = elapsed + 1 := by
  induction lengths generalizing month elapsed with
  | nil => exact absurd h (Nat.not_lt_zero _)
  | cons length lengths ih =>
    rw [List.sum_cons] at h
    rw [monthAndDay]
    split
    · simp
    · have hRest := @ih (month + 1) (elapsed - length) (by omega)
      have hLater := le_month (month + 1) (elapsed - length) lengths
      obtain ⟨more, hMore⟩ := Nat.exists_eq_add_of_le hLater
      rw [hMore] at hRest ⊢
      rw [Nat.add_sub_cancel_left] at hRest
      rw [show month + 1 + more - month = more + 1 by omega, List.take_succ_cons, List.sum_cons]
      omega

end Month

theorem elapsed_lt (day : Int) :
    (day - yearStart (yearOf day)).toNat < (monthLengths (isLeap (yearOf day))).sum := by
  obtain ⟨hStart, hEnd⟩ := yearOf_bounds day
  have hLength := sum_monthLengths (yearOf day)
  omega

theorem month_ofDay (day : Int) : (ofDay day).month = (monthAndDay 1
    (day - yearStart (yearOf day)).toNat (monthLengths (isLeap (yearOf day)))).1 := rfl

theorem month_ofDay_bounds (day : Int) : 1 ≤ (ofDay day).month ∧ (ofDay day).month ≤ 12 := by
  rw [month_ofDay]
  exact ⟨le_month _ _ _, Nat.le_of_lt_succ (month_lt (elapsed_lt day))⟩

theorem toDay_ofDay (day : Int) : (ofDay day).toDay = day := by
  have hStart := (yearOf_bounds day).1
  have hDays := @sum_take_monthAndDay 1 _ _ (elapsed_lt day)
  rw [List.sum_eq_foldl] at hDays
  simp only [CivilDate.toDay, ofDay]
  omega

/-- The years of days ascend, and within a year the months do. -/
theorem ofDay_mono {d e : Int} (h : d ≤ e) :
    toLex ((ofDay d).year, (ofDay d).month) ≤ toLex ((ofDay e).year, (ofDay e).month) := by
  rw [Prod.Lex.toLex_le_toLex]
  rcases Int.lt_or_eq_of_le (yearOf_mono h) with hLt | hSame
  · exact .inl hLt
  · refine .inr ⟨hSame, ?_⟩
    rw [month_ofDay, month_ofDay, hSame]
    exact month_mono (by omega)

end Civil

namespace Instant
variable {s t : Instant}

/-- The civil date of an instant determines its day. -/
theorem civil_eq_iff : s.civil = t.civil ↔ s.day = t.day := by
  constructor
  · intro h
    rw [← Civil.toDay_ofDay s.day, ← Civil.toDay_ofDay t.day]
    exact congrArg Civil.CivilDate.toDay h
  · exact congrArg Civil.ofDay

/-- The year of an instant and the month in it, a later year being greater whatever the month. -/
def yearMonth (t : Instant) : Int ×ₗ Nat := toLex (t.civil.year, t.civil.month)

theorem yearMonth_mono (h : s ≤ t) : s.yearMonth ≤ t.yearMonth :=
  Civil.ofDay_mono (Int.ediv_le_ediv (by decide) h)

/-- The number of a month tells the order of the months. -/
theorem month_lt_month_iff : s.month < t.month ↔ s.yearMonth < t.yearMonth := by
  have hs := Civil.month_ofDay_bounds s.day
  have ht := Civil.month_ofDay_bounds t.day
  rw [yearMonth, yearMonth, Prod.Lex.toLex_lt_toLex, month, month]
  change 1 ≤ s.civil.month ∧ s.civil.month ≤ 12 at hs
  change 1 ≤ t.civil.month ∧ t.civil.month ≤ 12 at ht
  omega

theorem month_eq_month_iff : s.month = t.month ↔ s.yearMonth = t.yearMonth := by
  rw [← not_iff_not, ← ne_eq, ← ne_eq, ne_iff_lt_or_gt, ne_iff_lt_or_gt]
  exact or_congr month_lt_month_iff month_lt_month_iff

/-- An instant in an earlier month is earlier. -/
theorem lt_of_month_lt (h : s.month < t.month) : s < t := by
  rw [month_lt_month_iff] at h
  exact not_le.mp fun hLe => (yearMonth_mono hLe).not_gt h

end Instant
end Almanac
