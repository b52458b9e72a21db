import Almanac.Scalar
import Almanac.Statistics.Error

/-! # Order statistics

Extremes pass over holes unless all values are holes; the median sorts by the total order of the
scalars.
-/
namespace Almanac.Statistics
set_option autoImplicit false

variable {α : Type}

section Extremes
variable [LT α] [DecidableLT α] [Hole α]

def extreme (pick : α → α → α) : List α → Result α
  | [] => .error (.emptyCollection "data")
  | x :: xs => .ok (xs.foldl pick x)

def maximum (xs : List α) : Result α := extreme larger xs

def minimum (xs : List α) : Result α := extreme smaller xs

end Extremes

section Median
variable [Zero α] [Add α] [Div α] [NatCast α] [Ranked α]

def median (xs : List α) : Result α :=
  if xs.isEmpty then .error (.emptyCollection "data")
  else
    let sorted := xs.mergeSort ranksUpTo
    let middle := sorted.length / 2
    .ok (if sorted.length % 2 = 0
      then (sorted.getD (middle - 1) 0 + sorted.getD middle 0) / ((2 : Nat) : α)
      else sorted.getD middle 0)

end Median
end Almanac.Statistics
