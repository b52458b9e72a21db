import Mathlib.Algebra.Order.BigOperators.Group.List
import Mathlib.Algebra.Order.Ring.Rat
import Mathlib.Tactic.FieldSimp
import Mathlib.Tactic.Ring
import Almanac.Statistics.Moments

/-! # One pass against two

In exact arithmetic the accumulator holds the mean of the values it has taken in and the sum of
their squared deviations from it, however the values were handed over. Its mean and its variance are
therefore those of two passes over the list, and the order of the values does not count.
-/
namespace Almanac.Statistics
set_option autoImplicit false

section TwoPasses
variable {K : Type} [Field K]

def average (xs : List K) : K := xs.sum / xs.length

def squaredDeviations (center : K) (xs : List K) : K := (xs.map fun x => (x - center) ^ 2).sum

def sampleVariance (xs : List K) : K := squaredDeviations (average xs) xs / (xs.length - 1)

theorem squaredDeviations_concat (center : K) (xs : List K) (x : K) :
    squaredDeviations center (xs ++ [x]) = squaredDeviations center xs + (x - center) ^ 2 := by
  rw [squaredDeviations, List.map_append, List.sum_append, List.map_singleton, List.sum_singleton,
    squaredDeviations]

theorem squaredDeviations_cons (center x : K) (xs : List K) :
    squaredDeviations center (x :: xs) = (x - center) ^ 2 + squaredDeviations center xs := by
  rw [squaredDeviations, List.map_cons, List.sum_cons, squaredDeviations]

/-- The deviations from another center, where the first one is the mean. -/
theorem squaredDeviations_recenter {mean : K} {xs : List K} (h : mean * xs.length = xs.sum)
    (center : K) : squaredDeviations center xs =
      squaredDeviations mean xs + xs.length * (mean - center) ^ 2 := by
  have hSum : ∀ ys : List K, squaredDeviations center ys = squaredDeviations mean ys +
      (mean - center) * (2 * ys.sum - ys.length * (mean + center)) := by
    intro ys
    induction ys with
    | nil => simp [squaredDeviations]
    | cons y ys ih =>
      rw [squaredDeviations_cons, ih, squaredDeviations_cons, List.sum_cons, List.length_cons,
        Nat.cast_succ]
      ring
  rw [hSum, ← h]
  ring

section Order
variable {xs ys : List K} (h : xs.Perm ys)
include h

theorem average_perm : average xs = average ys := by
  rw [average, average, h.sum_eq, h.length_eq]

theorem sampleVariance_perm : sampleVariance xs = sampleVariance ys := by
  rw [sampleVariance, sampleVariance, average_perm h, h.length_eq, squaredDeviations,
    squaredDeviations, (h.map _).sum_eq]

end Order

variable [LinearOrder K] [IsStrictOrderedRing K]

theorem squaredDeviations_nonneg (center : K) (xs : List K) : 0 ≤ squaredDeviations center xs := by
  refine List.sum_nonneg fun y hy => ?_
  obtain ⟨x, -, rfl⟩ := List.mem_map.mp hy
  exact sq_nonneg _

theorem sampleVariance_nonneg {xs : List K} (h : 2 ≤ xs.length) : 0 ≤ sampleVariance xs := by
  have hDivisor : (1 : K) ≤ xs.length := Nat.one_le_cast.mpr (Nat.le_of_succ_le h)
  exact div_nonneg (squaredDeviations_nonneg _ _) (sub_nonneg.mpr hDivisor)

end TwoPasses

/-- A call that hands values over. -/
inductive Intake (α : Type) where
  | push (x : α)
  | extend (xs : List α)

namespace Intake
variable {α : Type}

def values : Intake α → List α
  | push x => [x]
  | extend xs => xs

def all (calls : List (Intake α)) : List α := calls.flatMap values

end Intake

namespace Moments

section Calls
variable {α : Type} [Add α] [Sub α] [Mul α] [Div α] [NatCast α]

def take (m : Moments α) : Intake α → Moments α
  | .push x => m.push x
  | .extend xs => m.extend xs

def takeAll (m : Moments α) (calls : List (Intake α)) : Moments α := calls.foldl take m

theorem extend_append (m : Moments α) (xs ys : List α) :
    m.extend (xs ++ ys) = (m.extend xs).extend ys := List.foldl_append

theorem take_eq_extend (m : Moments α) (call : Intake α) : m.take call = m.extend call.values := by
  cases call <;> rfl

/-- The values count, not the calls that hand them over. -/
theorem takeAll_eq_extend (m : Moments α) (calls : List (Intake α)) :
    m.takeAll calls = m.extend (Intake.all calls) := by
  induction calls generalizing m with
  | nil => rfl
  | cons call calls ih =>
    change (m.take call).takeAll calls = _
    rw [ih, take_eq_extend, ← extend_append]
    rfl

end Calls

section Exact
variable {K : Type} [Field K] {m : Moments K} {xs : List K}

/-- The accumulator after the values of a list. -/
structure Exact (m : Moments K) (xs : List K) : Prop where
  count : m.count = xs.length
  mean : m.mean * xs.length = xs.sum
  deviations : m.deviations = squaredDeviations m.mean xs

theorem exact_empty : (empty : Moments K).Exact [] := by
  refine ⟨rfl, ?_, rfl⟩
  rw [List.length_nil, Nat.cast_zero, mul_zero, List.sum_nil]

variable [CharZero K]

theorem Exact.push (h : m.Exact xs) (x : K) : (m.push x).Exact (xs ++ [x]) := by
  have hCount : ((xs.length : K) + 1) ≠ 0 := Nat.cast_add_one_ne_zero _
  have hMean : (m.push x).mean = m.mean + (x - m.mean) / (xs.length + 1) := by
    rw [Moments.push, h.count, Nat.cast_succ]
  refine ⟨?_, ?_, ?_⟩
  · rw [List.length_append, List.length_singleton, ← h.count]
    rfl
  · rw [hMean, List.length_append, List.length_singleton, Nat.cast_succ, List.sum_append,
      List.sum_singleton, ← h.mean]
    field_simp
    ring
  · -- The deviations move to the new mean, and the new value adds its own.
    have hDeviations : (m.push x).deviations =
        m.deviations + (x - m.mean) * (x - (m.push x).mean) := rfl
    rw [hDeviations, h.deviations, squaredDeviations_concat,
      squaredDeviations_recenter h.mean (m.push x).mean, hMean]
    field_simp
    ring

theorem Exact.extend (h : m.Exact xs) (ys : List K) : (m.extend ys).Exact (xs ++ ys) := by
  induction ys generalizing m xs with
  | nil =>
    rw [List.append_nil]
    exact h
  | cons y ys ih =>
    rw [List.append_cons]
    exact ih (h.push y)

theorem exact_takeAll (calls : List (Intake K)) :
    (empty.takeAll calls).Exact (Intake.all calls) := by
  rw [takeAll_eq_extend]
  exact exact_empty.extend _

theorem Exact.mean_eq (h : m.Exact xs) (hSome : xs.length ≠ 0) : m.mean = average xs := by
  rw [average, ← h.mean, mul_div_cancel_right₀ _ (Nat.cast_ne_zero.mpr hSome)]

theorem Exact.mean?_eq (h : m.Exact xs) :
    m.mean? = if xs.length = 0 then .error (.emptyCollection "data") else .ok (average xs) := by
  rw [mean?, h.count]
  split
  · rfl
  · rename_i hSome
    rw [h.mean_eq hSome]

theorem Exact.variance?_eq (h : m.Exact xs) : m.variance? =
    if xs.length < 2 then .error (.insufficientData 2 xs.length) else .ok (sampleVariance xs) := by
  rw [variance?, h.count, checkAtLeast]
  split
  · rename_i hEnough
    have hDivisor : ((xs.length - 1 : Nat) : K) = xs.length - 1 :=
      Nat.cast_pred (Nat.lt_of_lt_of_le Nat.zero_lt_two hEnough)
    rw [if_neg (Nat.not_lt.mpr hEnough), h.deviations, h.mean_eq (by omega), sampleVariance,
      hDivisor]
    rfl
  · rename_i hFew
    rw [if_pos (Nat.not_le.mp hFew)]
    rfl

end Exact

section Result
variable {K : Type} [Field K] [LinearOrder K] [IsStrictOrderedRing K]

/-- In exact arithmetic one pass over the values, handed over by any calls, gives the mean and the
sample variance of two passes. The variance is never negative, the order of the values does not
count, and there is a mean from one value and a variance from two values on. -/
theorem one_pass_is_exact (calls : List (Intake K)) :
    let xs := Intake.all calls
    let m := empty.takeAll calls
    m.Exact xs ∧
      m.mean? = (if xs.length = 0 then .error (.emptyCollection "data") else .ok (average xs)) ∧
      m.variance? = (if xs.length < 2 then .error (.insufficientData 2 xs.length)
        else .ok (sampleVariance xs)) ∧
      (∀ v, m.variance? = .ok v → 0 ≤ v) ∧
      (Statistics.mean xs = m.mean? ∧ Statistics.variance xs = m.variance?) ∧
      ∀ others : List (Intake K), (Intake.all others).Perm xs →
        (empty.takeAll others).mean? = m.mean? ∧ (empty.takeAll others).variance? = m.variance? := by
  intro xs m
  have h : m.Exact xs := exact_takeAll calls
  refine ⟨h, h.mean?_eq, h.variance?_eq, fun v hv => ?_, ?_, fun others hPerm => ?_⟩
  · rw [h.variance?_eq] at hv
    split at hv
    · cases hv
    · rename_i hEnough
      cases hv
      exact sampleVariance_nonneg (Nat.not_lt.mp hEnough)
  · have hList : m = ofList xs := takeAll_eq_extend empty calls
    rw [hList]
    exact ⟨rfl, rfl⟩
  · have hOthers := exact_takeAll others
    rw [hOthers.mean?_eq, h.mean?_eq, hOthers.variance?_eq, h.variance?_eq, hPerm.length_eq,
      average_perm hPerm, sampleVariance_perm hPerm]
    exact ⟨rfl, rfl⟩

/-- Four values by three calls, and in another order. -/
theorem moments_of_one_to_four :
    let calls : List (Intake ℚ) := [.push 1, .extend [2, 3], .push 4]
    let others : List (Intake ℚ) := [.extend [4, 2], .extend [], .extend [3, 1]]
    (Intake.all others).Perm (Intake.all calls) ∧
      (empty.takeAll others).mean? = .ok (5 / 2) ∧
      (empty.takeAll others).variance? = .ok (5 / 3) := by
  intro calls others
  have hPerm : (Intake.all others).Perm (Intake.all calls) := by decide
  have hAverage : average (Intake.all calls) = 5 / 2 := by decide +kernel
  have hSample : sampleVariance (Intake.all calls) = 5 / 3 := by decide +kernel
  obtain ⟨-, hMean, hVariance, -, -, hOrder⟩ := one_pass_is_exact calls
  obtain ⟨hSameMean, hSameVariance⟩ := hOrder others hPerm
  refine ⟨hPerm, ?_, ?_⟩
  · rw [hSameMean, hMean, hAverage]
    rfl
  · rw [hSameVariance, hVariance, hSample]
    rfl

end Result
end Moments
end Almanac.Statistics
