import Almanac.Series.Window

/-! # Resampling

Month ends, a regular grid of dates, and points at a fixed distance from the last one.
-/
namespace Almanac.Series
set_option autoImplicit false

variable {α : Type}

/-- The point of the greatest date, the first of several. -/
def lastDated? : List (Point α) → Option (Point α)
  | [] => none
  | p :: points => some (points.foldl (fun best q => if best.date < q.date then q else best) p)

/-- The last dated point of each month, in the order of the months. -/
def monthEndPoints (points : List (Point α)) : List (Point α) :=
  let keyed := points.map fun p => (p.date.month, p)
  let months := ((keyed.map Prod.fst).mergeSort fun m n => m ≤ n).eraseReps
  months.filterMap fun month =>
    lastDated? (keyed.filterMap fun entry => if entry.1 = month then some entry.2 else none)

variable [Hole α]

def monthEnds (s : Series α) : Series α := s.derived (monthEndPoints s.points)

/-- The last values up to each instant of a grid. The grid starts with the first date cut to the
unit, and its first instant is moved up to that date. -/
def intervals (s : Series α) (interval : Nat) (unit : TimeUnit) : Checked (Series α) := do
  checkPositive "interval" interval
  match s.dates.head?, s.dates.getLast? with
  | some first, some last =>
    let grid := (unit.truncate first).grid last (unit.step interval)
    let dates := grid.map fun t => if first < t then t else first
    return s.derived (← sample dates (s.valueNear · .previous))
  | _, _ => return empty s.options

/-- Every so many entries of a list, the first being kept after `skip` others. -/
def thin {β : Type} (distance : Nat) : Nat → List β → List β
  | _, [] => []
  | 0, x :: xs => x :: thin distance (distance - 1) xs
  | skip + 1, _ :: xs => thin distance skip xs

/-- The points at a fixed distance from each other, counted back from the last one. -/
def sparseSubset (s : Series α) (distance : Nat) : Checked (Series α) := do
  checkPositive "distance" distance
  return s.derived (thin distance 0 s.points.reverse).reverse

end Almanac.Series
