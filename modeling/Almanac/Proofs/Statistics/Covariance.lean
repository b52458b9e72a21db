import Mathlib.Algebra.BigOperators.Ring.List
import Mathlib.Algebra.QuadraticDiscriminant
import Almanac.Proofs.Statistics.Moments
import Almanac.Statistics.Dependence

/-! # Covariance in exact arithmetic

The covariance sums the products of deviations from the means that one pass gives. In exact
arithmetic it is the bilinear form of which the sample variance is the square: it agrees with the
variance on the diagonal, scales with its arguments, and is bounded by the two variances.
-/
namespace Almanac.Statistics
set_option autoImplicit false

section Deviations
variable {K : Type} [Field K] {xs ys zs : List K}

/-- The sum of the products of deviations from two centers. -/
def jointDeviations (cx cy : K) (xs ys : List K) : K :=
  (List.zipWith (fun x y => (x - cx) * (y - cy)) xs ys).sum

def sampleCovariance (xs ys : List K) : K :=
  jointDeviations (average xs) (average ys) xs ys / (xs.length - 1)

theorem jointDeviations_cons (cx cy x y : K) (xs ys : List K) :
    jointDeviations cx cy (x :: xs) (y :: ys) =
      (x - cx) * (y - cy) + jointDeviations cx cy xs ys := by
  rw [jointDeviations, List.zipWith_cons_cons, List.sum_cons, jointDeviations]

theorem jointDeviations_comm (cx cy : K) (xs ys : List K) :
    jointDeviations cx cy xs ys = jointDeviations cy cx ys xs := by
  rw [jointDeviations, List.zipWith_comm, jointDeviations]
  simp only [mul_comm]

theorem jointDeviations_self (c : K) (xs : List K) :
    jointDeviations c c xs xs = squaredDeviations c xs := by
  rw [jointDeviations, List.zipWith_self, squaredDeviations]
  simp only [sq]

/-- The products of the values themselves, up to the shares of the centers. -/
theorem jointDeviations_eq (cx cy : K) (h : xs.length = ys.length) :
    jointDeviations cx cy xs ys =
      (List.zipWith (· * ·) xs ys).sum - cx * ys.sum - cy * xs.sum + xs.length * (cx * cy) := by
  induction xs generalizing ys with
  | nil =>
    obtain rfl := List.length_eq_zero_iff.mp h.symm
    simp [jointDeviations]
  | cons x xs ih =>
    cases ys with
    | nil => cases h
    | cons y ys =>
      rw [jointDeviations_cons, ih (Nat.succ.inj h), List.zipWith_cons_cons, List.sum_cons,
        List.sum_cons, List.sum_cons, List.length_cons, Nat.cast_succ]
      ring

theorem jointDeviations_affine (a b cx cy : K) (xs ys : List K) :
    jointDeviations (a * cx + b) cy (xs.map fun x => a * x + b) ys =
      a * jointDeviations cx cy xs ys := by
  induction xs generalizing ys with
  | nil => simp [jointDeviations]
  | cons x xs ih =>
    cases ys with
    | nil => simp [jointDeviations]
    | cons y ys =>
      rw [List.map_cons, jointDeviations_cons, ih, jointDeviations_cons]
      ring

theorem jointDeviations_add (cx cz cy : K) (h : zs.length = xs.length) :
    jointDeviations (cx + cz) cy (List.zipWith (· + ·) xs zs) ys =
      jointDeviations cx cy xs ys + jointDeviations cz cy zs ys := by
  induction xs generalizing ys zs with
  | nil =>
    obtain rfl := List.length_eq_zero_iff.mp h
    simp [jointDeviations]
  | cons x xs ih =>
    cases zs with
    | nil => cases h
    | cons z zs =>
      cases ys with
      | nil => simp [jointDeviations]
      | cons y ys =>
        rw [List.zipWith_cons_cons, jointDeviations_cons, ih (Nat.succ.inj h),
          jointDeviations_cons, jointDeviations_cons]
        ring

/-- The squared deviations of a combination are a quadratic form in its coefficient. -/
theorem squaredDeviations_combination (cx cy t : K) (h : xs.length = ys.length) :
    squaredDeviations (t * cx + cy) (List.zipWith (fun x y => t * x + y) xs ys) =
      squaredDeviations cx xs * (t * t) + 2 * jointDeviations cx cy xs ys * t +
        squaredDeviations cy ys := by
  induction xs generalizing ys with
  | nil =>
    obtain rfl := List.length_eq_zero_iff.mp h.symm
    simp [jointDeviations, squaredDeviations]
  | cons x xs ih =>
    cases ys with
    | nil => cases h
    | cons y ys =>
      rw [List.zipWith_cons_cons, squaredDeviations_cons, ih (Nat.succ.inj h),
        jointDeviations_cons, squaredDeviations_cons, squaredDeviations_cons]
      ring

theorem average_add (h : zs.length = xs.length) :
    average (List.zipWith (· + ·) xs zs) = average xs + average zs := by
  rw [average, average, average, ← List.sum_add_sum_eq_sum_zipWith_of_length_eq xs zs h.symm,
    List.length_zipWith, h, Nat.min_self, add_div]

theorem average_affine [CharZero K] (a b : K) (h : xs.length ≠ 0) :
    average (xs.map fun x => a * x + b) = a * average xs + b := by
  have hCount : (xs.length : K) ≠ 0 := Nat.cast_ne_zero.mpr h
  rw [average, average, List.sum_map_add, List.sum_map_mul_left, List.map_id', List.map_const',
    List.sum_replicate, nsmul_eq_mul, List.length_map]
  field_simp

variable [LinearOrder K] [IsStrictOrderedRing K]

/-- The quadratic form is nowhere negative, so that its discriminant is not positive. -/
theorem jointDeviations_sq_le (cx cy : K) (h : xs.length = ys.length) :
    jointDeviations cx cy xs ys ^ 2 ≤ squaredDeviations cx xs * squaredDeviations cy ys := by
  have hForm : ∀ t : K, 0 ≤ squaredDeviations cx xs * (t * t) +
      2 * jointDeviations cx cy xs ys * t + squaredDeviations cy ys := by
    intro t
    rw [← squaredDeviations_combination cx cy t h]
    exact squaredDeviations_nonneg _ _
  have hDiscriminant := discrim_le_zero hForm
  rw [discrim] at hDiscriminant
  linarith

end Deviations

section Samples
variable {K : Type} [Field K] {xs ys zs : List K}

theorem sampleCovariance_self (xs : List K) : sampleCovariance xs xs = sampleVariance xs := by
  rw [sampleCovariance, jointDeviations_self, sampleVariance]

theorem sampleCovariance_comm (h : xs.length = ys.length) :
    sampleCovariance xs ys = sampleCovariance ys xs := by
  rw [sampleCovariance, jointDeviations_comm, h, sampleCovariance]

theorem sampleCovariance_affine [CharZero K] (a b : K) (ys : List K) (h : xs.length ≠ 0) :
    sampleCovariance (xs.map fun x => a * x + b) ys = a * sampleCovariance xs ys := by
  rw [sampleCovariance, average_affine a b h, jointDeviations_affine, List.length_map,
    mul_div_assoc, sampleCovariance]

theorem sampleCovariance_add (ys : List K) (h : zs.length = xs.length) :
    sampleCovariance (List.zipWith (· + ·) xs zs) ys =
      sampleCovariance xs ys + sampleCovariance zs ys := by
  rw [sampleCovariance, average_add h, jointDeviations_add _ _ _ h, List.length_zipWith, h,
    Nat.min_self, add_div, sampleCovariance, sampleCovariance, h]

variable [LinearOrder K] [IsStrictOrderedRing K]

theorem sampleCovariance_eq_products (h : xs.length = ys.length) (hEnough : 2 ≤ xs.length) :
    (xs.length - 1) * sampleCovariance xs ys =
      (List.zipWith (· * ·) xs ys).sum - xs.length * average xs * average ys := by
  have hCount : (xs.length : K) ≠ 0 := Nat.cast_ne_zero.mpr (by omega)
  have hDivisor : (xs.length : K) - 1 ≠ 0 :=
    sub_ne_zero.mpr (ne_of_gt (Nat.one_lt_cast.mpr hEnough))
  rw [sampleCovariance, mul_div_cancel₀ _ hDivisor, jointDeviations_eq _ _ h, average, average, ← h]
  field_simp
  ring

theorem sampleCovariance_sq_le (h : xs.length = ys.length) :
    sampleCovariance xs ys ^ 2 ≤ sampleVariance xs * sampleVariance ys := by
  rw [sampleCovariance, sampleVariance, sampleVariance, div_pow, div_mul_div_comm, ← h, ← sq]
  exact div_le_div_of_nonneg_right (jointDeviations_sq_le _ _ h) (sq_nonneg _)

end Samples

section Answers

theorem covariance_of_length_ne {α : Type} [Zero α] [One α] [Add α] [Sub α] [Mul α] [Neg α]
    [Div α] [NatCast α] {xs ys : List α} (h : xs.length ≠ ys.length) :
    covariance xs ys = .error (.lengthMismatch xs.length ys.length) := by
  rw [covariance, checkPairs, checkPaired, if_neg h]
  rfl

variable {K : Type} [Field K] {xs ys : List K}

theorem total_eq_sum (xs : List K) : total xs = xs.sum := by
  rw [total, neg_zero, List.sum_eq_foldl]

theorem covariance_of_few (h : xs.length = ys.length) (hFew : xs.length < 2) :
    covariance xs ys = .error (.insufficientData 2 xs.length) := by
  rw [covariance, checkPairs, checkPaired, if_pos h, checkAtLeast, if_neg (Nat.not_le.mpr hFew)]
  rfl

variable [CharZero K]

theorem exact_ofList (xs : List K) : (Moments.ofList xs).Exact xs := Moments.exact_empty.extend xs

theorem mean_eq (h : xs.length ≠ 0) : mean xs = .ok (average xs) := by
  rw [mean, (exact_ofList xs).mean?_eq, if_neg h]

theorem variance_eq (h : 2 ≤ xs.length) : variance xs = .ok (sampleVariance xs) := by
  rw [variance, (exact_ofList xs).variance?_eq, if_neg (Nat.not_lt.mpr h)]

theorem covariance_eq (h : xs.length = ys.length) (hEnough : 2 ≤ xs.length) :
    covariance xs ys = .ok (sampleCovariance xs ys) := by
  rw [covariance, checkPairs, checkPaired, if_pos h, checkAtLeast, if_pos hEnough,
    mean_eq (by omega), mean_eq (by omega)]
  change Except.ok (total _ / _) = _
  rw [total_eq_sum]
  rfl

end Answers

section Result

/-- Lists of different lengths are refused as such, whatever the scalars are and however short the
lists. In exact arithmetic lists of one length have a covariance from two values on. It is symmetric,
linear in each list, and passes over a constant that is added. It is the variance of a list that is
paired with itself, and its square is at most the product of the variances; it can be had from the
products of the values and the means. -/
theorem covariance_obeys_laws {α : Type} [Zero α] [One α] [Add α] [Sub α] [Mul α] [Neg α] [Div α]
    [NatCast α] {K : Type} [Field K] [LinearOrder K] [IsStrictOrderedRing K] :
    (∀ xs ys : List α, xs.length ≠ ys.length →
      covariance xs ys = .error (.lengthMismatch xs.length ys.length)) ∧
    ∀ xs ys : List K, xs.length = ys.length →
      (xs.length < 2 → covariance xs ys = .error (.insufficientData 2 xs.length)) ∧
      (2 ≤ xs.length → ∃ c mx my vx vy : K,
        (covariance xs ys = .ok c ∧ covariance ys xs = .ok c) ∧
        (mean xs = .ok mx ∧ mean ys = .ok my) ∧
        (variance xs = .ok vx ∧ covariance xs xs = .ok vx) ∧
        (variance ys = .ok vy ∧ covariance ys ys = .ok vy) ∧
        (xs.length - 1) * c = (List.zipWith (· * ·) xs ys).sum - xs.length * mx * my ∧
        c ^ 2 ≤ vx * vy ∧
        (∀ a b : K, covariance (xs.map fun x => a * x + b) ys = .ok (a * c)) ∧
        ∀ zs : List K, zs.length = xs.length → ∃ d, covariance zs ys = .ok d ∧
          covariance (List.zipWith (· + ·) xs zs) ys = .ok (c + d)) := by
  refine ⟨fun xs ys => covariance_of_length_ne, fun xs ys h => ⟨covariance_of_few h, ?_⟩⟩
  intro hEnough
  have hEnough' : 2 ≤ ys.length := h ▸ hEnough
  have hOwn {zs : List K} (hz : 2 ≤ zs.length) : covariance zs zs = .ok (sampleVariance zs) := by
    rw [covariance_eq rfl hz, sampleCovariance_self]
  refine ⟨sampleCovariance xs ys, average xs, average ys, sampleVariance xs, sampleVariance ys,
    ⟨covariance_eq h hEnough, ?_⟩, ⟨mean_eq (by omega), mean_eq (by omega)⟩,
    ⟨variance_eq hEnough, hOwn hEnough⟩, ⟨variance_eq hEnough', hOwn hEnough'⟩,
    sampleCovariance_eq_products h hEnough, sampleCovariance_sq_le h, fun a b => ?_, fun zs hz => ?_⟩
  · rw [covariance_eq h.symm hEnough', sampleCovariance_comm h]
  · have hLength : (xs.map fun x => a * x + b).length = xs.length := List.length_map _
    rw [covariance_eq (hLength.trans h) (hLength ▸ hEnough), sampleCovariance_affine a b ys (by omega)]
  · have hLength : (List.zipWith (· + ·) xs zs).length = xs.length := by
      rw [List.length_zipWith, hz, Nat.min_self]
    refine ⟨sampleCovariance zs ys, covariance_eq (hz.trans h) (hz ▸ hEnough), ?_⟩
    rw [covariance_eq (hLength.trans h) (hLength ▸ hEnough), sampleCovariance_add ys hz]

/-- Three pairs, of which the first list is also scaled, and two doubles against none. -/
theorem covariance_of_three_pairs :
    let xs : List ℚ := [1, 2, 6]
    let ys : List ℚ := [3, 1, 5]
    covariance xs ys = .ok 4 ∧ covariance (xs.map fun x => 2 * x + 1) ys = .ok (2 * 4) ∧
      covariance ([1] : List ℚ) [2] = .error (.insufficientData 2 1) ∧
      covariance ([1] : List Float) [] = .error (.lengthMismatch 1 0) := by
  intro xs ys
  obtain ⟨hDifferent, hPaired⟩ := covariance_obeys_laws (α := Float) (K := ℚ)
  obtain ⟨-, hEnough⟩ := hPaired xs ys rfl
  obtain ⟨c, -, -, -, -, ⟨hPair, -⟩, -, -, -, -, -, hAffine, -⟩ := hEnough (by decide)
  have hFour : covariance xs ys = .ok 4 := by decide +kernel
  obtain rfl : c = 4 := Except.ok.inj (hPair.symm.trans hFour)
  exact ⟨hPair, hAffine 2 1, (hPaired [1] [2] rfl).1 (by decide), hDifferent [1] [] (by decide)⟩

end Result
end Almanac.Statistics
