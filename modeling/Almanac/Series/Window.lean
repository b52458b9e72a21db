import Almanac.Instant.Unit
import Almanac.Series.Replacement
import Almanac.Series.Lookup
import Almanac.Statistics.Order

/-! # Windows

A window is cut by dates or by positions, both ends included.
-/
namespace Almanac.Series
set_option autoImplicit false

variable {α : Type} [Hole α]

/-- The finite points in a window of dates, up to the first point after it. -/
def observedIn (s : Series α) (first last : Instant) : List (Point α) :=
  (s.points.takeWhile fun p => p.date ≤ last).filter fun p => first ≤ p.date && isFinite p.value

/-- A point a day with the last value up to it, where that is finite. -/
def dailyIn (s : Series α) (first last : Instant) : Checked (List (Point α)) := do
  let points ← sample (first.grid last TimeUnit.day.seconds) (s.valueNear · .previous)
  return points.filter fun p => isFinite p.value

def range (s : Series α) (first last : Instant) (filling : Filling) : Checked (Series α) :=
  match filling with
  | .observed => .ok (s.derived (s.observedIn first last))
  | .daily => do return s.derived (← s.dailyIn first last)

def checkWindow (s : Series α) (first last : Nat) : Checked Unit := do
  if last < first then refuse (.invalidRange first last)
  checkIndex "end" last s.count

def slice (s : Series α) (first last : Nat) : List (Point α) :=
  (s.points.drop first).take (last + 1 - first)

def rangeByIndex (s : Series α) (first last : Nat) : Checked (Series α) := do
  s.checkWindow first last
  return s.derived (s.slice first last)

def observedValues (points : List (Point α)) : List α :=
  (points.map Point.value).filter fun x => !isHole x

def extremes [LT α] [DecidableLT α] (s : Series α) (first last : Nat) : Checked (α × α) := do
  s.checkWindow first last
  let observed := observedValues (s.slice first last)
  return (← measured (Statistics.maximum observed), ← measured (Statistics.minimum observed))

/-- The part of the observed values that does not exceed `x`. -/
def percentile [NatCast α] [Div α] [LE α] [DecidableLE α] (s : Series α) (x : α) : Checked α :=
  let observed := observedValues s.points
  if observed.isEmpty then refuse (.statistics (.emptyCollection "series"))
  else .ok ((observed.countP fun y => y ≤ x : Nat) / (observed.length : α))

end Almanac.Series
