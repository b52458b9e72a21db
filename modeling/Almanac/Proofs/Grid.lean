import Almanac.Instant.Unit
import Almanac.Proofs.Order

/-! # Units and grids of instants

The unit that an instant lies in opens less than one unit before it. A grid holds the instants at
whole numbers of steps behind its start: the bound on its length never cuts it, and where the
calendar ends, so do the instants.
-/
namespace Almanac
set_option autoImplicit false

namespace Instant

theorem eq_of_nanos {s t : Instant} (h : s.nanos = t.nanos) : s = t := by
  cases s
  cases t
  simpa using h

theorem ofNanos?_eq_some_iff {n : Int} {t : Instant} : ofNanos? n = some t ↔ t.nanos = n := by
  rw [ofNanos?]
  constructor
  · intro h
    split at h
    · cases h
      rfl
    · cases h
  · rintro rfl
    rw [dif_pos ⟨t.least_le, t.le_greatest⟩]

theorem after?_eq_some_iff {t next : Instant} {seconds : Nat} :
    t.after? seconds = some next ↔ next.nanos = t.nanos + seconds * nanosPerSecond :=
  ofNanos?_eq_some_iff

theorem exists_between (s t : Instant) {n : Int} (hStart : s.nanos ≤ n) (hEnd : n ≤ t.nanos) :
    ∃ u : Instant, u.nanos = n :=
  ⟨⟨n, Int.le_trans s.least_le hStart, Int.le_trans hEnd t.le_greatest⟩, rfl⟩

/-- The calendar starts at a midnight, so the midnight that opens a day is an instant. -/
theorem exists_midnight (t : Instant) : ∃ u : Instant, u.nanos = t.day * nanosPerDay := by
  have hFirst : Civil.yearStart (-262143) ≤ t.day := Int.le_ediv_of_mul_le (by decide) t.least_le
  have hHere : t.day * nanosPerDay ≤ t.nanos := Int.ediv_mul_le _ (by decide)
  exact ⟨⟨_, Int.mul_le_mul_of_nonneg_right hFirst (by decide),
    Int.le_trans hHere t.le_greatest⟩, rfl⟩

end Instant

namespace TimeUnit
variable (unit : TimeUnit)

def nanos : Int := unit.seconds * nanosPerSecond

theorem nanos_pos : 0 < unit.nanos := by cases unit <;> decide

/-- What a unit clears of a time of day is the time since the unit opened. -/
theorem toNanos_clear {n : Nat} (hDay : (n : Int) < nanosPerDay) :
    ((unit.clear (.ofNanos n)).toNanos : Int) = n - n % unit.nanos := by
  rw [nanosPerDay, nanosPerSecond] at hDay
  rw [nanos, nanosPerSecond]
  cases unit <;>
    simp only [clear, Clock.ofNanos, Clock.midnight, Clock.toNanos, seconds] <;> omega

variable (t : Instant)

/-- Truncation goes back to where the unit of an instant opens, counted from midnight. -/
theorem nanos_truncate :
    (unit.truncate t).nanos = t.nanos - t.nanos % nanosPerDay % unit.nanos := by
  have hRest := Int.emod_nonneg t.nanos (show nanosPerDay ≠ 0 by decide)
  have hDay := Int.emod_lt_of_pos t.nanos (show 0 < nanosPerDay by decide)
  have hSplit := Int.ediv_mul_add_emod t.nanos nanosPerDay
  have hTime : ((t.nanos % nanosPerDay).toNat : Int) = t.nanos % nanosPerDay :=
    Int.toNat_of_nonneg hRest
  have hCleared := unit.toNanos_clear (hTime ▸ hDay)
  rw [hTime, ← Instant.clock] at hCleared
  have hBack := Int.emod_nonneg (t.nanos % nanosPerDay) (Int.ne_of_gt unit.nanos_pos)
  have hKept : t.nanos % nanosPerDay % unit.nanos ≤ t.nanos % nanosPerDay := by
    have hWhole := Int.mul_ediv_add_emod (t.nanos % nanosPerDay) unit.nanos
    have hUnits := Int.mul_nonneg (Int.le_of_lt unit.nanos_pos)
      (Int.ediv_nonneg hRest (Int.le_of_lt unit.nanos_pos))
    omega
  obtain ⟨midnight, hMidnight⟩ := t.exists_midnight
  obtain ⟨u, hu⟩ : ∃ u : Instant, u.nanos =
      t.day * nanosPerDay + (unit.clear t.clock).toNanos := by
    rw [Instant.day] at hMidnight ⊢
    exact Instant.exists_between midnight t (by omega) (by omega)
  rw [truncate, Instant.withClock, Instant.ofDayAndClock?, Instant.ofNanos?_eq_some_iff.mpr hu,
    Option.getD_some, hu, hCleared, Instant.day]
  omega

theorem truncate_le : unit.truncate t ≤ t := by
  have hBack := Int.emod_nonneg (t.nanos % nanosPerDay) (Int.ne_of_gt unit.nanos_pos)
  have hStart := unit.nanos_truncate t
  change (unit.truncate t).nanos ≤ t.nanos
  omega

theorem lt_truncate_add : t.nanos < (unit.truncate t).nanos + unit.nanos := by
  have hBack := Int.emod_lt_of_pos (t.nanos % nanosPerDay) unit.nanos_pos
  have hStart := unit.nanos_truncate t
  omega

end TimeUnit

namespace Instant

section Grid
variable {start last : Instant} {seconds : Nat}

theorem step_nanos_pos (hStep : 0 < seconds) : 0 < (seconds : Int) * nanosPerSecond :=
  Int.mul_pos (Int.natCast_pos.mpr hStep) (by decide)

/-- The bound on the length of a grid drops by one with each instant, and never cuts the grid. -/
theorem grid_eq (hStep : 0 < seconds) : start.grid last seconds =
    if start ≤ last then
      start :: ((start.after? seconds).map fun next => next.grid last seconds).getD []
    else [] := by
  have hNanos := step_nanos_pos hStep
  have hLength : start.grid last seconds = gridFrom last seconds
      ((last.nanos - start.nanos) / (seconds * nanosPerSecond) + 1).toNat start := rfl
  split
  · rename_i hLe
    obtain ⟨fuel, hFuel⟩ := Int.eq_ofNat_of_zero_le
      (Int.ediv_nonneg (Int.sub_nonneg_of_le hLe) (Int.le_of_lt hNanos))
    rw [hLength, hFuel, show ((fuel : Int) + 1).toNat = fuel + 1 from rfl, gridFrom, if_pos hLe]
    cases hNext : start.after? seconds with
    | none => rfl
    | some next =>
      have hLater : (last.nanos - next.nanos) / (seconds * nanosPerSecond) + 1 = fuel := by
        rw [after?_eq_some_iff.mp hNext, ← hFuel, ← Int.sub_sub,
          Int.sub_ediv_of_dvd _ (Int.dvd_refl _), Int.ediv_self (Int.ne_of_gt hNanos)]
        exact Int.sub_add_cancel _ 1
      simp only [Option.map_some, Option.getD_some, grid, hLater, Int.toNat_natCast]
  · rename_i hNot
    rw [hLength]
    cases ((last.nanos - start.nanos) / (seconds * nanosPerSecond) + 1).toNat with
    | zero => rfl
    | succ fuel => exact if_neg hNot

/-- A grid holds the instants up to its end that lie a whole number of steps behind its start. -/
theorem getElem?_grid (hStep : 0 < seconds) {k : Nat} {t : Instant} :
    (start.grid last seconds)[k]? = some t ↔
      t ≤ last ∧ t.nanos = start.nanos + k * (seconds * nanosPerSecond) := by
  have hNanos := step_nanos_pos hStep
  induction k generalizing start with
  | zero =>
    rw [grid_eq hStep]
    constructor
    · split
      · rintro ⟨⟩
        exact ⟨‹_›, by simp⟩
      · rintro ⟨⟩
    · rintro ⟨hLe, hHere⟩
      obtain rfl : t = start := eq_of_nanos (by simpa using hHere)
      rw [if_pos hLe]
      rfl
  | succ k ih =>
    have hSteps : ((k + 1 : Nat) : Int) * (seconds * nanosPerSecond) =
        seconds * nanosPerSecond + k * (seconds * nanosPerSecond) := by
      rw [Int.natCast_add, Int.add_mul, Int.natCast_one, Int.one_mul, Int.add_comm]
    have hWhole := Int.mul_nonneg (Int.natCast_nonneg k) (Int.le_of_lt hNanos)
    rw [grid_eq hStep, hSteps, ← Int.add_assoc]
    by_cases hLe : start ≤ last
    · rw [if_pos hLe, List.getElem?_cons_succ]
      cases hNext : start.after? seconds with
      | some next =>
        rw [← after?_eq_some_iff.mp hNext]
        exact ih
      | none =>
        -- The calendar ends less than a step behind the start, so no instant lies there.
        refine iff_of_false (by rintro ⟨⟩) ?_
        rintro ⟨-, hLater⟩
        obtain ⟨next, hHere⟩ : ∃ u : Instant, u.nanos = start.nanos + seconds * nanosPerSecond :=
          exists_between start t (by omega) (by omega)
        cases hNext.symm.trans (after?_eq_some_iff.mpr hHere)
    · rw [if_neg hLe]
      refine iff_of_false (by rintro ⟨⟩) ?_
      rintro ⟨hBefore, hLater⟩
      change ¬ start.nanos ≤ last.nanos at hLe
      change t.nanos ≤ last.nanos at hBefore
      omega

theorem mem_grid_iff (hStep : 0 < seconds) {t : Instant} : t ∈ start.grid last seconds ↔
    t ≤ last ∧ ∃ k : Nat, t.nanos = start.nanos + k * (seconds * nanosPerSecond) := by
  rw [List.mem_iff_getElem?]
  simp only [getElem?_grid hStep, exists_and_left]

theorem pairwise_grid (hStep : 0 < seconds) : (start.grid last seconds).Pairwise (· < ·) := by
  rw [List.pairwise_iff_getElem]
  intro i j hi hj hij
  have hFirst := ((getElem?_grid hStep).mp (List.getElem?_eq_getElem hi)).2
  have hSecond := ((getElem?_grid hStep).mp (List.getElem?_eq_getElem hj)).2
  have hMore : (i : Int) * (seconds * nanosPerSecond) < j * (seconds * nanosPerSecond) :=
    Int.mul_lt_mul_of_pos_right (Int.ofNat_lt.mpr hij) (step_nanos_pos hStep)
  change Instant.nanos _ < Instant.nanos _
  omega

end Grid
end Instant
end Almanac
