import Almanac.Series.Basic

/-! # Lookup by date

An observed date has the position that the index gives. A date between two observations has a
neighbour on either side; a date before the first observation has none. The neighbours are searched
for by halving, also where the dates do not ascend.
-/
namespace Almanac.Series
set_option autoImplicit false

/-- Halves a range of positions, down to one: the later half is kept where the first position of it
satisfies `before`, else the earlier half. -/
def halve (before : Nat → Bool) (first size : Nat) : Nat :=
  if 1 < size then
    let middle := first + size / 2
    halve before (if before middle then middle else first) (size - size / 2)
  else if 0 < size ∧ before first then first + 1
  else first
termination_by size
decreasing_by omega

variable {α : Type} (s : Series α)

def contains (date : Instant) : Bool := s.index.contains date

def position? (date : Instant) : Option Nat := s.index[date]?

def isBefore (date : Instant) (i : Nat) : Bool := s.dates[i]?.any (· < date)

/-- Where the points split at a date: the number of points before it, where dates ascend. -/
def partitionPoint (date : Instant) : Nat := halve (s.isBefore date) 0 s.count

/-- The position of a date or of its neighbour, where dates ascend. -/
def closest? (date : Instant) (direction : Direction) : Checked (Option Nat) :=
  match s.position? date, s.dates.head?, s.dates.getLast? with
  | some position, _, _ => .ok (some position)
  | none, some first, some last =>
    if last ≤ date then .ok (some (s.count - 1))
    else if date < first then .ok none
    else
      match direction, s.partitionPoint date with
      | .previous, 0 => fault
      | .previous, before + 1 => .ok (some before)
      | .next, before => .ok (some before)
  | none, _, _ => .ok none

variable [Hole α]

def valueOrHole : Option Nat → Checked α
  | none => .ok hole
  | some position => s.valueAt position

def valueOn (date : Instant) : Checked α := s.valueOrHole (s.position? date)

/-- The value on a date or at its neighbour, or a hole. -/
def valueNear (date : Instant) (direction : Direction) : Checked α := do
  s.valueOrHole (← s.closest? date direction)

/-- A point for each date, with the value that a lookup gives it. -/
def sample (dates : Calendar) (look : Instant → Checked α) : Checked (List (Point α)) :=
  dates.mapM fun date => do return ⟨date, ← look date⟩

end Almanac.Series
