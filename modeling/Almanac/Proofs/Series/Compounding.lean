import Mathlib.Tactic.FieldSimp
import Mathlib.Tactic.Ring
import Almanac.Proofs.Gapped
import Almanac.Proofs.Series.Transform

/-! # Returns compound to prices

A return is made of a value and the one before it. In exact arithmetic the growths from the first
value up to a later one multiply to the ratio of the two, and the differences add up to their
difference.
-/
namespace Almanac.Series
set_option autoImplicit false

section Steps
variable {K : Type}

/-- A function of each entry and the one before it. -/
def steps (g : (before now : K) → K) (xs : List K) : List K := List.zipWith g xs xs.tail

/-- The steps up to a position join to the span from the first entry to the one there, if each step
joins with a span that starts where it ends. -/
theorem foldr_steps {g span join : K → K → K} {unit : K} {xs : List K}
    (hSelf : ∀ x ∈ xs, span x x = unit)
    (hJoin : ∀ x ∈ xs, ∀ y ∈ xs, ∀ z, join (g x y) (span z y) = span z x) {k : Nat} {x y : K}
    (hx : xs[0]? = some x) (hy : xs[k]? = some y) :
    ((steps g xs).take k).foldr join unit = span y x := by
  -- Behind the first step the span starts at the next entry, and the position is one less.
  induction xs generalizing x k with
  | nil => cases hx
  | cons first rest ih =>
    cases hx
    obtain ⟨hFirst, hSelfRest⟩ := List.forall_mem_cons.mp hSelf
    cases k with
    | zero =>
      cases hy
      exact hFirst.symm
    | succ k =>
      cases rest with
      | nil => cases hy
      | cons next rest =>
        have hSteps : steps g (first :: next :: rest) = g first next :: steps g (next :: rest) := rfl
        have hRest := ih hSelfRest (fun x hx y hy => hJoin x (List.mem_cons_of_mem _ hx) y
          (List.mem_cons_of_mem _ hy)) rfl hy
        rw [hSteps, List.take_succ_cons, List.foldr_cons, hRest]
        exact hJoin first List.mem_cons_self next (List.mem_cons_of_mem _ List.mem_cons_self) y

variable [Field K]

def growth (before now : K) : K := now / before - 1

def change (before now : K) : K := now - before

theorem prod_growths {xs : List K} (hNonzero : ∀ x ∈ xs, x ≠ 0) {k : Nat} {x y : K}
    (hx : xs[0]? = some x) (hy : xs[k]? = some y) :
    (((steps growth xs).take k).map (1 + ·)).prod = y / x := by
  rw [List.prod_eq_foldr, List.foldr_map]
  refine foldr_steps (fun x h => div_self (hNonzero x h)) (fun x h y h' z => ?_) hx hy
  have hBefore := hNonzero x h
  have hNow := hNonzero y h'
  rw [growth]
  field_simp
  ring

theorem sum_changes {xs : List K} {k : Nat} {x y : K} (hx : xs[0]? = some x)
    (hy : xs[k]? = some y) : ((steps change xs).take k).sum = y - x := by
  rw [List.sum_eq_foldr]
  refine foldr_steps (fun x _ => sub_self x) (fun x _ y _ z => ?_) hx hy
  rw [change]
  ring

end Steps

variable {K : Type} {s r : Series (Gapped K)} {xs : List K}

/-- The steps between the values of a series: they start on the second date, and each is made of the
value on its date and the one before it. -/
structure Steps (g : (before now : K) → K) (s r : Series (Gapped K)) : Prop where
  dates : r.dates = s.dates.tail
  count : r.count = s.count - 1
  options : r.options = s.options
  step : ∀ i before now, s.value? i = some (.exact before) → s.value? (i + 1) = some (.exact now) →
    r.value? i = some (.exact (g before now))

section Lagged
variable {f : (before now : Gapped K) → Gapped K} {g : (before now : K) → K}
  (hf : ∀ before now, f (.exact before) (.exact now) = .exact (g before now))
include hf

theorem steps_lagged (s : Series (Gapped K)) : Steps g s (s.lagged f) := by
  have hFits := s.fits_laggedDraft f
  have hDates : (s.lagged f).dates = s.dates.tail := by
    rw [lagged_eq, hFits.dates_series, laggedDraft, Draft.dates]
  refine ⟨hDates, ?_, options_ofPoints _ _, fun i before now hBefore hNow => ?_⟩
  · rw [← length_dates, hDates, List.length_tail, length_dates]
  · rw [value?_eq_getElem?] at hBefore hNow
    rw [value?_eq_getElem?, lagged_eq, hFits.values_series, laggedDraft, Draft.values,
      List.getElem?_zipWith, List.getElem?_tail, hBefore, hNow]
    exact congrArg some (hf before now)

theorem values_lagged (hValues : s.values = xs.map .exact) :
    (s.lagged f).values = (steps g xs).map .exact := by
  rw [lagged_eq, (s.fits_laggedDraft f).values_series, laggedDraft, Draft.values, hValues, steps,
    ← List.map_tail, List.zipWith_map, List.map_zipWith]
  simp only [hf]

end Lagged

variable [Field K]

/-- In exact arithmetic the returns of a series without holes compound: the growths up to a position
multiply to the ratio of the values, and the differences add up to their difference. -/
theorem returns_compound (hValues : s.values = xs.map .exact) (hNonzero : ∀ x ∈ xs, x ≠ 0) :
    Steps growth s s.ratioReturn ∧ Steps change s s.differenceReturn ∧
      ∃ ratios differences : List K, s.ratioReturn.values = ratios.map .exact ∧
        s.differenceReturn.values = differences.map .exact ∧
        ∀ k x y, xs[0]? = some x → xs[k]? = some y →
          ((ratios.take k).map (1 + ·)).prod = y / x ∧ (differences.take k).sum = y - x := by
  -- Results of exact arithmetic are finite, so that no return is replaced.
  have hGrowth : ∀ before now : K,
      finiteOr hole (Gapped.exact now / .exact before - 1) = .exact (growth before now) :=
    fun _ _ => rfl
  have hChange : ∀ before now : K,
      finiteOr 0 (Gapped.exact now - .exact before) = .exact (change before now) := fun _ _ => rfl
  refine ⟨steps_lagged hGrowth s, steps_lagged hChange s, steps growth xs, steps change xs,
    values_lagged hGrowth hValues, values_lagged hChange hValues, fun k x y hx hy => ?_⟩
  exact ⟨prod_growths hNonzero hx hy, sum_changes hx hy⟩

/-- The price rises by a tenth and falls by a tenth. -/
theorem returns_of_three_prices :
    let first : Instant := ⟨0, by decide, by decide⟩
    let between : Instant := ⟨1, by decide, by decide⟩
    let s : Series (Gapped ℚ) :=
      ofPoints default [⟨first, .exact 100⟩, ⟨between, .exact 110⟩, ⟨.latest, .exact 99⟩]
    s.ratioReturn.dates = [between, .latest] ∧
      s.differenceReturn.value? 1 = some (.exact (-11)) ∧
      ∃ ratios differences : List ℚ, s.ratioReturn.values = ratios.map .exact ∧
        s.differenceReturn.values = differences.map .exact ∧
        ((ratios.take 2).map (1 + ·)).prod = 99 / 100 ∧ (differences.take 2).sum = -1 := by
  intro first between s
  have hValues : s.values = [100, 110, 99].map Gapped.exact := rfl
  obtain ⟨hRatio, hDifference, ratios, differences, hRatios, hDifferences, hCompound⟩ :=
    returns_compound hValues (by decide)
  obtain ⟨hProduct, hSum⟩ := hCompound 2 100 99 rfl rfl
  refine ⟨hRatio.dates, ?_, ratios, differences, hRatios, hDifferences, hProduct, ?_⟩
  · rw [hDifference.step 1 110 99 rfl rfl]
    decide +kernel
  · rw [hSum]
    decide +kernel

end Almanac.Series
