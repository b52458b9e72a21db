import Mathlib.Order.Bounds.Basic
import Almanac.Proofs.Grid
import Almanac.Proofs.Month

/-! # Truncation as a floor

Every unit divides the day, so that the instants at whole units after some midnight are those at
whole units on the line. Truncation is the greatest of them up to an instant, and its laws follow
from that alone.
-/
namespace Almanac
set_option autoImplicit false

namespace Instant
variable {s t : Instant}

theorem clock_eq_midnight_iff : t.clock = .midnight ↔ t.nanos % nanosPerDay = 0 := by
  have hRest := Int.emod_nonneg t.nanos (show nanosPerDay ≠ 0 by decide)
  obtain ⟨n, hn⟩ := Int.eq_ofNat_of_zero_le hRest
  rw [clock, hn, Int.toNat_natCast, Clock.midnight, Clock.ofNanos, Clock.mk.injEq]
  omega

/-- The instant that opens the day of another one. -/
def midnight (t : Instant) : Instant where
  nanos := t.day * nanosPerDay
  least_le := t.exists_midnight.elim fun u hu => hu ▸ u.least_le
  le_greatest := t.exists_midnight.elim fun u hu => hu ▸ u.le_greatest

/-- Midnight is the instant of the same civil date with the clock at zero. -/
theorem eq_midnight_iff : s = t.midnight ↔ s.civil = t.civil ∧ s.clock = .midnight := by
  have hSplit := Int.ediv_mul_add_emod s.nanos nanosPerDay
  rw [civil_eq_iff, clock_eq_midnight_iff]
  constructor
  · rintro rfl
    have hNanos : t.midnight.nanos = t.day * nanosPerDay := rfl
    rw [day, hNanos]
    exact ⟨Int.mul_ediv_cancel _ (by decide), Int.mul_emod_left _ _⟩
  · rintro ⟨hDay, hClock⟩
    apply eq_of_nanos
    rw [hClock, Int.add_zero] at hSplit
    rw [← hSplit]
    exact congrArg (· * nanosPerDay) hDay

end Instant

namespace TimeUnit
variable (unit : TimeUnit) {coarse fine : TimeUnit} {s t : Instant}

theorem nanos_dvd_day : unit.nanos ∣ nanosPerDay := by cases unit <;> decide

theorem nanos_dvd_of_le (h : fine.nanos ≤ coarse.nanos) : fine.nanos ∣ coarse.nanos := by
  revert h
  cases fine <;> cases coarse <;> decide

theorem dvd_nanos_truncate (t : Instant) : unit.nanos ∣ (unit.truncate t).nanos := by
  rw [nanos_truncate, Int.emod_emod_of_dvd _ unit.nanos_dvd_day]
  exact Int.dvd_self_sub_emod

/-- The instants at whole units that truncation does not exceed are those up to an instant. -/
theorem le_truncate_iff (hUnits : unit.nanos ∣ s.nanos) : s ≤ unit.truncate t ↔ s ≤ t := by
  constructor
  · intro h
    exact Instant.le_trans h (unit.truncate_le t)
  · intro h
    have hBefore : s.nanos ≤ t.nanos := h
    have hLess := unit.lt_truncate_add t
    obtain ⟨k, hk⟩ := hUnits
    obtain ⟨l, hl⟩ := unit.dvd_nanos_truncate t
    change s.nanos ≤ (unit.truncate t).nanos
    rw [hk] at hBefore ⊢
    rw [hl] at hLess ⊢
    have hSteps : unit.nanos * k < unit.nanos * (l + 1) := by
      rw [Int.mul_add, Int.mul_one]
      exact Int.lt_of_le_of_lt hBefore hLess
    have hStep : k < l + 1 := Int.lt_of_mul_lt_mul_left hSteps (Int.le_of_lt unit.nanos_pos)
    exact Int.mul_le_mul_of_nonneg_left (Int.lt_add_one_iff.mp hStep) (Int.le_of_lt unit.nanos_pos)

theorem truncate_mono (h : s ≤ t) : unit.truncate s ≤ unit.truncate t :=
  (unit.le_truncate_iff (unit.dvd_nanos_truncate s)).mpr (Instant.le_trans (unit.truncate_le s) h)

/-- A finer unit that is cleared before makes no difference. -/
theorem truncate_truncate (h : fine.nanos ≤ coarse.nanos) (t : Instant) :
    coarse.truncate (fine.truncate t) = coarse.truncate t := by
  have hUnits := coarse.dvd_nanos_truncate t
  apply Instant.le_antisymm
  · exact coarse.truncate_mono (fine.truncate_le t)
  · have hFineUnits := Int.dvd_trans (nanos_dvd_of_le h) hUnits
    rw [coarse.le_truncate_iff hUnits, fine.le_truncate_iff hFineUnits]
    exact coarse.truncate_le t

/-- The instants up to `t` at whole units behind the midnight of its day. -/
def openings (t : Instant) : Set Instant :=
  {s | s ≤ t ∧ ∃ k : Nat, s.nanos = t.midnight.nanos + k * unit.nanos}

theorem dvd_nanos_of_mem_openings (h : s ∈ unit.openings t) : unit.nanos ∣ s.nanos := by
  obtain ⟨-, k, hk⟩ := h
  rw [hk]
  exact Int.dvd_add (Int.dvd_trans unit.nanos_dvd_day (Int.dvd_mul_left _ _)) (Int.dvd_mul_left _ _)

theorem truncate_mem_openings (t : Instant) : unit.truncate t ∈ unit.openings t := by
  have hRest := Int.emod_nonneg t.nanos (show nanosPerDay ≠ 0 by decide)
  have hSplit := Int.ediv_mul_add_emod t.nanos nanosPerDay
  have hUnits := Int.ediv_mul_add_emod (t.nanos % nanosPerDay) unit.nanos
  obtain ⟨k, hk⟩ := Int.eq_ofNat_of_zero_le (Int.ediv_nonneg hRest (Int.le_of_lt unit.nanos_pos))
  refine ⟨unit.truncate_le t, k, ?_⟩
  rw [nanos_truncate, ← hk]
  change _ = t.nanos / nanosPerDay * nanosPerDay + _
  omega

theorem isGreatest_truncate (t : Instant) : IsGreatest (unit.openings t) (unit.truncate t) := by
  refine ⟨unit.truncate_mem_openings t, fun s hs => ?_⟩
  exact (unit.le_truncate_iff (unit.dvd_nanos_of_mem_openings hs)).mpr hs.1

end TimeUnit

/-- Truncation is the floor of an instant on the grid of its unit that starts at midnight, which is
the instant of the same civil date with the clock at zero. It loses less than a unit, keeps the
order, does nothing the second time, and nothing is gained by a truncation to a finer unit before
it. -/
theorem truncation_is_floor_from_midnight (unit fine : TimeUnit) (s t : Instant) :
    (∀ u, u = t.midnight ↔ u.civil = t.civil ∧ u.clock = .midnight) ∧
    IsGreatest (unit.openings t) (unit.truncate t) ∧
    t.nanos < (unit.truncate t).nanos + unit.nanos ∧
    (s ≤ t → unit.truncate s ≤ unit.truncate t) ∧
    unit.truncate (unit.truncate t) = unit.truncate t ∧
    (fine.nanos ≤ unit.nanos → unit.truncate (fine.truncate t) = unit.truncate t) :=
  ⟨fun _ => Instant.eq_midnight_iff, unit.isGreatest_truncate t, unit.lt_truncate_add t,
    unit.truncate_mono, TimeUnit.truncate_truncate (Int.le_refl _) t,
    fun h => TimeUnit.truncate_truncate h t⟩

/-- Two neighbouring days of a year before zero. -/
theorem truncation_before_year_zero :
    let s : Instant := ⟨-1382140800000000001, by decide, by decide⟩
    let t : Instant := ⟨-1382091727750000000, by decide, by decide⟩
    let unit := TimeUnit.hour
    (s.civil = ⟨-44, 3, 14⟩ ∧ s.clock = ⟨23, 59, 59, 999999999⟩) ∧
      (t.civil = ⟨-44, 3, 15⟩ ∧ t.clock = ⟨13, 37, 52, 250000000⟩) ∧
      ((unit.truncate t).civil = t.civil ∧ (unit.truncate t).clock = ⟨13, 0, 0, 0⟩) ∧
      s ≤ t ∧ unit.truncate s ≤ unit.truncate t ∧
      TimeUnit.minute.nanos ≤ unit.nanos ∧
      unit.truncate (TimeUnit.minute.truncate t) = unit.truncate t := by
  intro s t unit
  have hOrder : s ≤ t := by decide
  have hFiner : TimeUnit.minute.nanos ≤ unit.nanos := by decide
  obtain ⟨-, -, -, hMono, -, hTower⟩ := truncation_is_floor_from_midnight unit .minute s t
  exact ⟨by decide, by decide, by decide, hOrder, hMono hOrder, hFiner, hTower hFiner⟩

end Almanac
