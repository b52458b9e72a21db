import Almanac.Statistics.Moments
import Almanac.Statistics.Order

/-! # Statistics of optional values

An entry that is not set is passed over; a hole that is set counts as a value.
-/
namespace Almanac.Statistics.Optional
set_option autoImplicit false

variable {α : Type}

def entries (xs : List (Option α)) : List α := xs.filterMap id

section Order
variable [LT α] [DecidableLT α] [Hole α]

def maximum (xs : List (Option α)) : Result α := extreme larger (entries xs)

def minimum (xs : List (Option α)) : Result α := extreme smaller (entries xs)

end Order

variable [Zero α] [Add α] [Div α] [NatCast α]

def median [Ranked α] (xs : List (Option α)) : Result α := Statistics.median (entries xs)

section Moments
variable [Sub α] [Mul α]

def moments (xs : List (Option α)) : Moments α :=
  xs.foldl (fun m x => x.elim m m.push) .empty

def mean (xs : List (Option α)) : Result α := (moments xs).mean?

def variance (xs : List (Option α)) : Result α := (moments xs).variance?

def standardDeviation [Elementary α] (xs : List (Option α)) : Result α :=
  (moments xs).standardDeviation?

end Moments
end Almanac.Statistics.Optional
