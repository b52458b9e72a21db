import Almanac.Series.Replacement
import Almanac.Statistics.Dependence
import Almanac.Statistics.Order

/-! # Summaries of a series

Statistics of the finite values, and the volatility of returns on an irregular calendar.
-/
namespace Almanac.Series
set_option autoImplicit false

variable {α : Type} [Hole α]

def finiteValues (s : Series α) : List α := s.finitePoints.map Point.value

section Order
variable [LT α] [DecidableLT α]

def maximum (s : Series α) : Statistics.Result α := Statistics.maximum s.finiteValues

def minimum (s : Series α) : Statistics.Result α := Statistics.minimum s.finiteValues

end Order

variable [Zero α] [Add α] [Sub α] [Mul α] [Div α] [NatCast α]

def median [Ranked α] (s : Series α) : Statistics.Result α := Statistics.median s.finiteValues

def mean (s : Series α) : Statistics.Result α := Statistics.mean s.finiteValues

def variance (s : Series α) : Statistics.Result α :=
  if s.finiteValues.length ≤ 1 then .ok 0 else Statistics.variance s.finiteValues

section Roots
variable [Elementary α]

def standardDeviation (s : Series α) : Statistics.Result α := do return sqrt (← s.variance)

def quadraticVariation [Neg α] (s : Series α) : Statistics.Result α :=
  Statistics.quadraticVariation s.finiteValues

def tradingDays : Nat := 252

def secondsPerDay : Nat := 86400

variable [One α] [IntCast α]

/-- The days from one instant to another, without a part of a second. -/
def daysSince (t earlier : Instant) : α := (t.secondsSince earlier : α) / (secondsPerDay : α)

/-- The squared ratio return of a pair of points for each trading year between them. -/
def squaredReturn (p q : Point α) : α :=
  let ratio := q.value / p.value - 1
  ratio * ratio / (daysSince q.date p.date / (tradingDays : α))

def observedPairs (s : Series α) : List (Point α × Point α) :=
  (List.zip s.points s.points.tail).filter fun pair =>
    !isHole pair.1.value && !isHole pair.2.value

def annualVolatility (s : Series α) : α :=
  let terms := s.observedPairs.map fun pair => squaredReturn pair.1 pair.2
  let sum := terms.foldl (· + ·) 0
  sqrt (if terms.isEmpty then sum else sum / (terms.length : α))

end Roots
end Almanac.Series
