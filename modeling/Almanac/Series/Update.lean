import Almanac.Series.Lookup

/-! # Changes of a series

A new date takes the next spare slot at the end, whatever the order of the dates, and a known date
has its value replaced. A removed point leaves a blank spare slot behind.
-/
namespace Almanac.Series
set_option autoImplicit false

variable {α : Type}

/-- Replaces the value in a slot, spare slots being counted after the points. -/
def overwrite (s : Series α) (slot : Nat) (value : α) : Series α :=
  if slot < s.count then
    { s with points := s.points.modify slot fun p => { p with value } }
  else
    { s with spare := s.spare.modify (slot - s.count) fun p => { p with value } }

section Grow
variable [Hole α]

/-- The spare slots, after a chunk is added when there are none. -/
def grownSpare (s : Series α) : List (Point α) :=
  if s.spare.isEmpty then List.replicate s.options.growthChunk .blank else s.spare

def append (s : Series α) (date : Instant) (value : α) : Series α :=
  { s with
    points := s.points ++ [⟨date, value⟩]
    spare := s.grownSpare.tail
    index := s.index.insert date s.count }

def insert (s : Series α) (date : Instant) (value : α) : Series α :=
  match s.position? date with
  | some slot => s.overwrite slot value
  | none =>
    if s.isUninitialized then
      { s with points := [⟨date, value⟩], index := s.index.insert date 0 }
    else s.append date value

/-- Whether a point at a date takes no slot beyond those that the series has. -/
def hasRoom (s : Series α) (date : Instant) : Bool :=
  s.contains date || s.isUninitialized || 0 < s.spareCapacity

/-- Faults when the chunk that the point needs does not fit the machine. -/
def insert? (s : Series α) (date : Instant) (value : α) : Checked (Series α) := do
  unless s.hasRoom date do checkAllocation (s.count + s.options.growthChunk)
  return s.insert date value

def insertAll? (s : Series α) (points : List (Point α)) : Checked (Series α) :=
  points.foldlM (fun s p => s.insert? p.date p.value) s

def collect? (points : List (Point α)) : Checked (Series α) := insertAll? (empty default) points

/-- Gives the points from `start` on their positions in an index. -/
def indexFrom (start : Nat) (points : List (Point α)) (index : Std.HashMap Instant Nat) :
    Std.HashMap Instant Nat :=
  ((points.drop start).zipIdx start).foldl
    (fun index entry => index.insert entry.1.date entry.2) index

/-- Removes the point at a date and tells whether there was one. -/
def remove (s : Series α) (date : Instant) : Checked (Bool × Series α) :=
  match s.position? date with
  | none => .ok (false, s)
  | some position =>
    if position < s.count then
      let points := s.points.eraseIdx position
      .ok (true, { s with
        points
        spare := .blank :: s.spare
        index := indexFrom position points (s.index.erase date) })
    else fault

end Grow

/-- Ascending dates; points at one date keep their order. -/
def sort (s : Series α) : Series α :=
  let points := s.points.mergeSort fun p q => p.date ≤ q.date
  { s with points, index := Calendar.positions (points.map Point.date) }

def setValue (s : Series α) (position : Nat) (value : α) : Checked (Series α) := do
  checkIndex "index" position s.count
  return s.overwrite position value

def setValueOn (s : Series α) (date : Instant) (value : α) : Checked (Series α) :=
  match s.position? date with
  | some slot => .ok (s.overwrite slot value)
  | none => refuse (.dateNotFound date)

def replaceAt (s : Series α) (position : Nat) (value : α) : Checked (Series α) :=
  if position < s.count then .ok (s.overwrite position value) else fault

end Almanac.Series
