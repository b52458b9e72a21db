import Almanac.Proofs.Series.Sampling
import Almanac.Proofs.Series.Window

/-! # Regular samples

The grid of a regular sample starts with the unit that holds the first date of a series. Truncation
loses less than one unit, so that the first instant alone has to be moved up to that date, and every
date of the sample is reached by the series.
-/
namespace Almanac.Series
set_option autoImplicit false

variable {α : Type} {s : Series α} {first last d : Instant} {interval : Nat}

/-- An interval is a word of 32 bits, and a duration a signed word of milliseconds. -/
def intervalBound : Nat := .pow 2 32

def durationBound : Nat := .pow 2 63

/-- The time of an instant of the grid, whether the calendar holds it or not. -/
def gridNanos (first : Instant) (interval : Nat) (unit : TimeUnit) (k : Nat) : Int :=
  (unit.truncate first).nanos + k * (unit.step interval * nanosPerSecond)

section Grid
variable (unit : TimeUnit)

theorem step_lt_durationBound (hWord : interval < intervalBound) :
    unit.step interval * 1000 < durationBound := by
  change interval < 4294967296 at hWord
  change interval * unit.seconds * 1000 < 9223372036854775808
  cases unit <;> simp only [TimeUnit.seconds] <;> omega

theorem step_nanos (interval : Nat) :
    (unit.step interval : Int) * nanosPerSecond = interval * unit.nanos := by
  rw [TimeUnit.step, TimeUnit.nanos, Int.natCast_mul, Int.mul_assoc]

/-- The first instant of a grid alone lies at or before the date that it starts from. -/
theorem grid_le_first_iff (hPositive : 0 < interval) (first : Instant) (k : Nat) :
    gridNanos first interval unit k ≤ first.nanos ↔ k = 0 := by
  have hBefore : (unit.truncate first).nanos ≤ first.nanos := unit.truncate_le first
  have hUnit := unit.lt_truncate_add first
  rw [gridNanos, step_nanos, ← Int.mul_assoc]
  constructor
  · intro hLe
    by_contra hSteps
    have hOne : 1 ≤ (k : Int) * interval := by
      exact_mod_cast Nat.mul_pos (Nat.pos_of_ne_zero hSteps) hPositive
    have hMore := Int.mul_le_mul_of_nonneg_right hOne (Int.le_of_lt unit.nanos_pos)
    omega
  · rintro rfl
    simpa using hBefore

theorem step_pos (hPositive : 0 < interval) : 0 < unit.step interval :=
  Nat.mul_pos hPositive (by cases unit <;> decide)

theorem getElem?_intervalDates (hPositive : 0 < interval) (hLe : first ≤ last) {k : Nat} :
    (intervalDates first last interval unit)[k]? = some d ↔
      if k = 0 then d = first else d ≤ last ∧ d.nanos = gridNanos first interval unit k := by
  have hFirst := grid_le_first_iff unit hPositive first k
  rw [intervalDates, List.getElem?_map, Option.map_eq_some_iff]
  simp only [Instant.getElem?_grid (step_pos unit hPositive), ← gridNanos.eq_def]
  split
  · rename_i hStart
    subst hStart
    constructor
    · rintro ⟨t, ⟨-, hHere⟩, rfl⟩
      exact if_neg (Int.not_lt.mpr (hHere ▸ hFirst.mpr rfl))
    · rintro rfl
      have hBefore := unit.truncate_le d
      exact ⟨unit.truncate d, ⟨Instant.le_trans hBefore hLe, by simp [gridNanos]⟩,
        if_neg (Instant.not_lt.mpr hBefore)⟩
  · rename_i hLater
    rw [iff_false_right hLater, Int.not_le] at hFirst
    constructor
    · rintro ⟨t, ⟨hLast, hHere⟩, rfl⟩
      rw [← hHere] at hFirst
      rw [if_pos (show first < t from hFirst)]
      exact ⟨hLast, hHere⟩
    · rintro ⟨hLast, hHere⟩
      rw [← hHere] at hFirst
      exact ⟨d, ⟨hLast, hHere⟩, if_pos hFirst⟩

theorem first_le_of_mem_intervalDates (hPositive : 0 < interval) (hLe : first ≤ last)
    (hd : d ∈ intervalDates first last interval unit) : first ≤ d ∧ d ≤ last := by
  obtain ⟨k, hk⟩ := List.mem_iff_getElem?.mp hd
  have hFirst := grid_le_first_iff unit hPositive first k
  rw [getElem?_intervalDates unit hPositive hLe] at hk
  split at hk
  · subst hk
    exact ⟨Instant.le_refl d, hLe⟩
  · rename_i hLater
    rw [iff_false_right hLater, Int.not_le, ← hk.2] at hFirst
    exact ⟨Int.le_of_lt hFirst, hk.1⟩

theorem pairwise_intervalDates (hPositive : 0 < interval) (hLe : first ≤ last) :
    (intervalDates first last interval unit).Pairwise (· < ·) := by
  rw [List.pairwise_iff_getElem]
  intro i j hi hj hij
  have hEarlier := (getElem?_intervalDates unit hPositive hLe).mp (List.getElem?_eq_getElem hi)
  have hLater := (getElem?_intervalDates unit hPositive hLe).mp (List.getElem?_eq_getElem hj)
  rw [if_neg (Nat.ne_zero_of_lt hij)] at hLater
  change Instant.nanos _ < Instant.nanos _
  split at hEarlier
  · have hFirst := grid_le_first_iff unit hPositive first j
    rw [iff_false_right (Nat.ne_zero_of_lt hij), Int.not_le] at hFirst
    rw [hEarlier, hLater.2]
    exact hFirst
  · rw [hEarlier.2, hLater.2, gridNanos, gridNanos]
    have hStep := Instant.step_nanos_pos (step_pos unit hPositive)
    have hMore := Int.mul_lt_mul_of_pos_right (Int.ofNat_lt.mpr hij) hStep
    omega

end Grid

variable [Hole α]

/-- A regular sample holds the first date and the grid instants behind it up to the last date, each
with the value at the last position up to it. -/
theorem intervals_follow_grid (h : s.IndexedBut []) (hAscending : s.dates.Pairwise (· ≤ ·))
    (hSome : s.dates ≠ []) (unit : TimeUnit) (hPositive : 0 < interval)
    (hWord : interval < intervalBound) :
    let first := s.dates.head hSome
    let last := s.dates.getLast hSome
    unit.step interval * 1000 < durationBound ∧
    ∃ t, s.intervals interval unit = .ok t ∧
      (∀ k d, t.dates[k]? = some d ↔
        if k = 0 then d = first else d ≤ last ∧ d.nanos = gridNanos first interval unit k) ∧
      (∀ k, gridNanos first interval unit k ≤ first.nanos ↔ k = 0) ∧
      t.dates.Pairwise (· < ·) ∧ (∀ d ∈ t.dates, first ≤ d ∧ d ≤ last) ∧
      ∀ p ∈ t.points, s.ValueUpTo p.date p.value := by
  intro first last
  have hLe : first ≤ last := by
    apply le_of_getElem? hAscending (Nat.zero_le _)
    · exact (List.head?_eq_getElem?).symm.trans (List.head?_eq_some_head hSome)
    · exact List.getLast?_eq_getElem?.symm.trans (List.getLast?_eq_some_getLast hSome)
  have hIntervals : s.intervals interval unit =
      do return s.derived (← sample (intervalDates first last interval unit)
        (s.valueNear · .previous)) := by
    rw [intervals, checkPositive, if_pos hPositive, List.head?_eq_some_head hSome,
      List.getLast?_eq_some_getLast hSome]
    rfl
  obtain ⟨t, ht, hSampled⟩ := derived_sample_ok s (intervalDates first last interval unit)
    fun d _ => exists_valueNear h d
  refine ⟨step_lt_durationBound unit hWord, t, hIntervals.trans ht, ?_⟩
  rw [hSampled.dates]
  refine ⟨fun k d => getElem?_intervalDates unit hPositive hLe,
    grid_le_first_iff unit hPositive first, pairwise_intervalDates unit hPositive hLe,
    fun d hd => first_le_of_mem_intervalDates unit hPositive hLe hd, fun p hp => ?_⟩
  have hDate : p.date ∈ intervalDates first last interval unit :=
    hSampled.dates ▸ List.mem_map_of_mem hp
  have hReached : ¬ s.Unreached p.date :=
    reached_iff.mpr ⟨first, List.head?_eq_some_head hSome,
      (first_le_of_mem_intervalDates unit hPositive hLe hDate).1⟩
  have hValue := (valueNear_eq_ok_iff h hAscending).mp (hSampled.values p hp)
  exact hValue.resolve_right fun hNone => hReached hNone.1

/-- A first date that is not a whole hour, and the second of two points at it. -/
theorem first_hour_is_clamped :
    let first : Instant := ⟨1, by decide, by decide⟩
    let hour : Instant := ⟨3600 * nanosPerSecond, by decide, by decide⟩
    let s : Series Float := ofPoints default [⟨first, 1⟩, ⟨first, 2⟩, ⟨hour, 3⟩]
    s.IndexedBut [] ∧ s.dates.Pairwise (· ≤ ·) ∧ s.dates ≠ [] ∧ 0 < 1 ∧ 1 < intervalBound ∧
      ∃ t, s.intervals 1 .hour = .ok t ∧ t.dates[0]? = some first ∧ t.dates[1]? = some hour ∧
        t.dates[2]? = none := by
  intro first hour s
  have hIndexed : s.IndexedBut [] := (indexedBut_ofPoints _ _).of_real (by decide)
  have hAscending : s.dates.Pairwise (· ≤ ·) := by decide
  have hSome : s.dates ≠ [] := by decide
  have hWord : 1 < intervalBound := by decide
  obtain ⟨-, t, ht, hDates, -⟩ :=
    intervals_follow_grid hIndexed hAscending hSome .hour Nat.one_pos hWord
  have hHour : hour ≤ hour ∧ hour.nanos = gridNanos first 1 .hour 1 := by decide
  have hTwo : gridNanos first 1 .hour 2 = 2 * hour.nanos := by decide
  refine ⟨hIndexed, hAscending, hSome, Nat.one_pos, hWord, t, ht, (hDates 0 first).mpr rfl,
    (hDates 1 hour).mpr hHour, ?_⟩
  rw [Option.eq_none_iff_forall_ne_some]
  intro d hd
  obtain ⟨hLast, hHere⟩ : d ≤ hour ∧ d.nanos = gridNanos first 1 .hour 2 := (hDates 2 d).mp hd
  have hLe : d.nanos ≤ hour.nanos := hLast
  rw [hHere, hTwo] at hLe
  exact absurd hLe (by decide)

end Almanac.Series
