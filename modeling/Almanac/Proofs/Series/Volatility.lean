import Mathlib.Algebra.Order.Field.Basic
import Mathlib.Algebra.Field.Rat
import Mathlib.Algebra.Order.Ring.Rat
import Almanac.Proofs.Gapped
import Almanac.Proofs.Order
import Almanac.Series.Summary

/-! # The time between two points of a volatility

The squared return of two points is divided by the time between them, which is counted in whole
seconds. On ascending dates it is therefore never negative, and it is positive exactly from a second
on. Where all observed pairs are a second apart, the volatility is the root of an average of terms
of which none is negative.
-/
namespace Almanac
set_option autoImplicit false

namespace Instant
variable {t earlier : Instant}

/-- The count of seconds loses less than one second. -/
theorem secondsSince_bounds (h : earlier ≤ t) : 0 ≤ t.secondsSince earlier ∧
    t.secondsSince earlier * nanosPerSecond ≤ t.nanos - earlier.nanos ∧
      t.nanos - earlier.nanos < (t.secondsSince earlier + 1) * nanosPerSecond := by
  have hLe : earlier.nanos ≤ t.nanos := h
  rw [secondsSince, Int.tdiv_eq_ediv_of_nonneg (by omega), nanosPerSecond]
  omega

theorem secondsSince_pos_iff (h : earlier ≤ t) :
    0 < t.secondsSince earlier ↔ earlier.nanos + nanosPerSecond ≤ t.nanos := by
  have hBounds := secondsSince_bounds h
  rw [nanosPerSecond] at hBounds ⊢
  omega

end Instant

namespace Series
variable {K : Type}

section Pairs
variable {α : Type} [Hole α] {s : Series α} {p q : Point α}

theorem mem_observedPairs_iff : (p, q) ∈ s.observedPairs ↔
    ∃ i, s.points[i]? = some p ∧ s.points[i + 1]? = some q ∧
      isHole p.value = false ∧ isHole q.value = false := by
  rw [observedPairs, List.mem_filter, List.mem_iff_getElem?, Bool.and_eq_true, Bool.not_eq_true',
    Bool.not_eq_true', ← exists_and_right]
  simp only [List.getElem?_zip_eq_some, List.getElem?_tail, and_assoc]

theorem date_lt_of_mem_observedPairs (hAscending : s.dates.Pairwise (· < ·))
    (h : (p, q) ∈ s.observedPairs) : p.date < q.date := by
  obtain ⟨i, hp, hq, -⟩ := mem_observedPairs_iff.mp h
  obtain ⟨hi, rfl⟩ := List.getElem?_eq_some_iff.mp hp
  obtain ⟨hNext, rfl⟩ := List.getElem?_eq_some_iff.mp hq
  rw [dates, List.pairwise_map, List.pairwise_iff_getElem] at hAscending
  exact hAscending i (i + 1) hi hNext (Nat.lt_succ_self i)

end Pairs

section Elapsed
variable [Field K] [LinearOrder K] [IsStrictOrderedRing K] {t earlier : Instant}

theorem daysSince_nonneg (h : earlier ≤ t) : 0 ≤ (daysSince t earlier : K) :=
  div_nonneg (Int.cast_nonneg (Instant.secondsSince_bounds h).1) (Nat.cast_nonneg _)

theorem daysSince_pos_iff (h : earlier ≤ t) :
    0 < (daysSince t earlier : K) ↔ earlier.nanos + nanosPerSecond ≤ t.nanos := by
  have hDay : 0 < (secondsPerDay : K) := Nat.cast_pos.mpr (by decide)
  rw [daysSince, div_pos_iff_of_pos_right hDay, Int.cast_pos, Instant.secondsSince_pos_iff h]

end Elapsed

section Terms
variable {s : Series (Gapped K)} {p q : Point (Gapped K)}

theorem mem_values_of_mem_observedPairs (h : (p, q) ∈ s.observedPairs) : p.value ∈ s.values := by
  obtain ⟨i, hp, -⟩ := mem_observedPairs_iff.mp h
  exact List.mem_map_of_mem (List.mem_of_getElem? hp)

variable [Field K]

/-- A squared ratio return for each trading year. -/
def returnPerYear (before now days : K) : K :=
  (now / before - 1) * (now / before - 1) / (days / (tradingDays : K))

/-- What two observed points add to a volatility: a squared return, divided by the days between
them. -/
structure Adds (p q : Point (Gapped K)) (x y days : K) : Prop where
  before : p.value = .exact x
  now : q.value = .exact y
  elapsed : daysSince q.date p.date = Gapped.exact days
  term : squaredReturn p q = .exact (returnPerYear x y days)

theorem exists_adds (h : (p, q) ∈ s.observedPairs) :
    ∃ x y, Adds p q x y (daysSince q.date p.date : K) := by
  obtain ⟨-, -, -, hp, hq⟩ := mem_observedPairs_iff.mp h
  have hBefore := Gapped.eq_exact_amount hp
  have hNow := Gapped.eq_exact_amount hq
  refine ⟨p.value.amount, q.value.amount, hBefore, hNow, rfl, ?_⟩
  rw [squaredReturn, hBefore, hNow]
  rfl

theorem annualVolatility_eq [Elementary (Gapped K)] {terms : List K}
    (h : (s.observedPairs.map fun pair => squaredReturn pair.1 pair.2) = terms.map .exact) :
    s.annualVolatility = sqrt (.exact (terms.sum / terms.length)) := by
  have hSum : (terms.map Gapped.exact).foldl (· + ·) 0 = .exact terms.sum := by
    rw [← zero_add terms.sum, ← Gapped.foldl_add_exact]
    rfl
  rw [annualVolatility, h, hSum]
  cases terms with
  | nil => rw [List.sum_nil, zero_div]; rfl
  | cons t terms => rw [List.length_map]; rfl

variable [LinearOrder K] [IsStrictOrderedRing K]

theorem returnPerYear_nonneg {x y days : K} (h : 0 ≤ days) : 0 ≤ returnPerYear x y days :=
  div_nonneg (mul_self_nonneg _) (div_nonneg h (Nat.cast_nonneg _))

end Terms

section Result
variable [Field K] [LinearOrder K] [IsStrictOrderedRing K] {s : Series (Gapped K)}

def SecondApart {α : Type} (p q : Point α) : Prop := p.date.nanos + nanosPerSecond ≤ q.date.nanos

/-- The days between two points, without a part of a second. -/
def CountsSeconds {α : Type} (p q : Point α) (days : K) : Prop :=
  ∃ seconds : Int, days = seconds / (secondsPerDay : K) ∧
    seconds * nanosPerSecond ≤ q.date.nanos - p.date.nanos ∧
    q.date.nanos - p.date.nanos < (seconds + 1) * nanosPerSecond

/-- On ascending dates the days between two observed points are counted in whole seconds. They are
never negative, and they are positive exactly if a second lies between the points. If this is so for
all observed pairs, then every term of the volatility is defined and none is negative. -/
theorem elapsed_pos_iff_second_apart (hAscending : s.dates.Pairwise (· < ·)) :
    (∀ p q, (p, q) ∈ s.observedPairs → ∃ x y days : K, Adds p q x y days ∧
      CountsSeconds p q days ∧ 0 ≤ days ∧ (0 < days ↔ SecondApart p q)) ∧
    ((∀ p q, (p, q) ∈ s.observedPairs → SecondApart p q) → (∀ x ∈ s.values, x ≠ 0) →
      (∀ p q, (p, q) ∈ s.observedPairs → ∃ x y days : K, Adds p q x y days ∧ x ≠ 0 ∧ 0 < days ∧
        0 ≤ returnPerYear x y days) ∧
      ∃ terms : List K, (∀ term ∈ terms, 0 ≤ term) ∧
        (s.observedPairs.map fun pair => squaredReturn pair.1 pair.2) = terms.map .exact ∧
        ∀ [Elementary (Gapped K)], s.annualVolatility = sqrt (.exact (terms.sum / terms.length))) := by
  have hOrder : ∀ p q, (p, q) ∈ s.observedPairs → p.date ≤ q.date :=
    fun p q h => Instant.le_of_lt (date_lt_of_mem_observedPairs hAscending h)
  refine ⟨fun p q h => ?_, fun hApart hNonzero => ⟨fun p q h => ?_, ?_⟩⟩
  · have hLe := hOrder p q h
    obtain ⟨x, y, hAdds⟩ := exists_adds h
    obtain ⟨-, hBounds⟩ := Instant.secondsSince_bounds hLe
    exact ⟨x, y, _, hAdds, ⟨_, rfl, hBounds⟩, daysSince_nonneg hLe, daysSince_pos_iff hLe⟩
  · obtain ⟨x, y, hAdds⟩ := exists_adds h
    have hPositive := (daysSince_pos_iff (K := K) (hOrder p q h)).mpr (hApart p q h)
    refine ⟨x, y, _, hAdds, ?_, hPositive, returnPerYear_nonneg (le_of_lt hPositive)⟩
    rintro rfl
    exact hNonzero _ (mem_values_of_mem_observedPairs h) hAdds.before
  · have hEach : ∀ pair ∈ s.observedPairs, ∃ term : K,
        squaredReturn pair.1 pair.2 = .exact term ∧ 0 ≤ term := by
      intro pair h
      obtain ⟨x, y, hAdds⟩ := exists_adds h
      exact ⟨_, hAdds.term, returnPerYear_nonneg (daysSince_nonneg (hOrder _ _ h))⟩
    obtain ⟨terms, hTerms, hNonneg⟩ := Gapped.exists_map_exact hEach
    exact ⟨terms, hNonneg, hTerms, annualVolatility_eq hTerms⟩

/-- Two equal values half a second apart, and two values a second apart. -/
theorem half_a_second_counts_as_none :
    let first : Instant := ⟨0, by decide, by decide⟩
    let half : Instant := ⟨500000000, by decide, by decide⟩
    let second : Instant := ⟨1000000000, by decide, by decide⟩
    let s : Series (Gapped ℚ) := ofPoints default [⟨first, .exact 1⟩, ⟨half, .exact 1⟩]
    let t : Series (Gapped ℚ) := ofPoints default [⟨first, .exact 1⟩, ⟨second, .exact 2⟩]
    s.dates.Pairwise (· < ·) ∧ (⟨first, .exact 1⟩, ⟨half, .exact 1⟩) ∈ s.observedPairs ∧
      (daysSince half first : Gapped ℚ) = .exact 0 ∧
      t.dates.Pairwise (· < ·) ∧ ∃ terms : List ℚ, (∀ term ∈ terms, 0 ≤ term) ∧
        ∀ [Elementary (Gapped ℚ)], t.annualVolatility = sqrt (.exact (terms.sum / terms.length)) := by
  intro first half second s t
  have hs : s.dates.Pairwise (· < ·) := by decide
  have ht : t.dates.Pairwise (· < ·) := by decide
  have hPair : (⟨first, .exact 1⟩, ⟨half, .exact 1⟩) ∈ s.observedPairs := List.mem_singleton_self _
  have hClose : ¬ first.nanos + nanosPerSecond ≤ half.nanos := by decide
  have hApart : ∀ p q, (p, q) ∈ t.observedPairs → SecondApart p q := by
    intro p q h
    cases List.mem_singleton.mp h
    rw [SecondApart]
    decide
  obtain ⟨hElapsed, -⟩ := elapsed_pos_iff_second_apart hs
  obtain ⟨x, y, days, hAdds, -, hNonneg, hPositive⟩ := hElapsed _ _ hPair
  have hZero : days = 0 := le_antisymm (not_lt.mp fun h => hClose (hPositive.mp h)) hNonneg
  obtain ⟨-, hDefined⟩ := elapsed_pos_iff_second_apart ht
  obtain ⟨-, terms, hTerms, -, hVolatility⟩ := hDefined hApart (by decide)
  exact ⟨hs, hPair, hZero ▸ hAdds.elapsed, ht, terms, hTerms, hVolatility⟩

end Result
end Series
end Almanac
