import Almanac.Scalar
import Almanac.Statistics.Error

/-! # Mean and variance in one pass

The accumulator keeps the mean and the sum of squared deviations from it. Each value moves the mean
by its share of the deviation, so no large sums cancel.
-/
namespace Almanac.Statistics
set_option autoImplicit false

structure Moments (α : Type) where
  count : Nat
  mean : α
  deviations : α
deriving Repr

namespace Moments
variable {α : Type}

def empty [Zero α] : Moments α := ⟨0, 0, 0⟩

section Push
variable [Add α] [Sub α] [Mul α] [Div α] [NatCast α]

def push (m : Moments α) (x : α) : Moments α :=
  let delta := x - m.mean
  let mean := m.mean + delta / ((m.count + 1 : Nat) : α)
  ⟨m.count + 1, mean, m.deviations + delta * (x - mean)⟩

def extend (m : Moments α) (xs : List α) : Moments α := xs.foldl push m

def ofList [Zero α] (xs : List α) : Moments α := extend empty xs

end Push

def mean? (m : Moments α) : Result α :=
  if m.count = 0 then .error (.emptyCollection "data") else .ok m.mean

/-- The sample variance, with one less than the count as divisor. -/
def variance? [Div α] [NatCast α] (m : Moments α) : Result α := do
  checkAtLeast 2 m.count
  return m.deviations / ((m.count - 1 : Nat) : α)

def standardDeviation? [Div α] [NatCast α] [Elementary α] (m : Moments α) : Result α := do
  return sqrt (← m.variance?)

end Moments

section Lists
variable {α : Type} [Zero α] [Add α] [Sub α] [Mul α] [Div α] [NatCast α]

def mean (xs : List α) : Result α := (Moments.ofList xs).mean?

def variance (xs : List α) : Result α := (Moments.ofList xs).variance?

def standardDeviation [Elementary α] (xs : List α) : Result α :=
  (Moments.ofList xs).standardDeviation?

end Lists
end Almanac.Statistics
