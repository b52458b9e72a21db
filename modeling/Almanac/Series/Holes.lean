import Almanac.Series.Basic

/-! # Holes of a group

A position of a group of series is a gap when a member has a hole there or has ended before it.
Compaction drops the gaps from every member, so that the members meet on the dates where all are
observed. Restoring puts the gaps back as holes on the calendar of the longest member.
-/
namespace Almanac
set_option autoImplicit false

/-- The gaps of a group in ascending order, and the calendar that they lie in. -/
structure Holes where
  positions : List Nat
  calendar : Calendar
deriving DecidableEq

instance : Inhabited Holes := ⟨⟨[], []⟩⟩

namespace Holes
variable {α β : Type}

def isEmpty (holes : Holes) : Bool := holes.positions.isEmpty

def fullLength (holes : Holes) : Nat := holes.calendar.length

/-- The number of dates that are no gaps. -/
def keptLength (holes : Holes) : Nat := holes.fullLength - holes.positions.length

/-- Leaves out the entries of a list at ascending positions, the head being at `start`. -/
def dropAt (start : Nat) : List Nat → List β → List β
  | _, [] => []
  | [], entries => entries
  | gap :: gaps, entry :: entries =>
    if gap = start then dropAt (start + 1) gaps entries
    else entry :: dropAt (start + 1) (gap :: gaps) entries

/-- The values on a list of dates, the first being at `start`: a hole at every gap, and the kept
values in order at the other dates. -/
def refill [Hole α] (start : Nat) (gaps : List Nat) (kept : List α) :
    Calendar → List (Point α)
  | [] => []
  | date :: dates =>
    if gaps.head? = some start then ⟨date, hole⟩ :: refill (start + 1) gaps.tail kept dates
    else ⟨date, kept.headD hole⟩ :: refill (start + 1) gaps kept.tail dates

section Group
variable [Hole α]

/-- Whether a series has a hole at a position or has ended before it. -/
def isGap (position : Nat) (s : Series α) : Bool := (s.value? position).all isHole

/-- The first of the longest members. -/
def longest? : List (Series α) → Option (Series α)
  | [] => none
  | s :: group => some (group.foldl (fun best t => if best.count < t.count then t else best) s)

def ofGroup (group : List (Series α)) : Holes :=
  match longest? group with
  | none => default
  | some longest =>
    ⟨(List.range longest.count).filter fun position => group.any (isGap position), longest.dates⟩

def keptDates (holes : Holes) : Calendar := dropAt 0 holes.positions holes.calendar

/-- The member of a group without the gaps, on the dates that are kept. -/
def compact (holes : Holes) (s : Series α) : Series α :=
  s.derived (List.zipWith Point.mk holes.keptDates (dropAt 0 holes.positions s.values))

/-- A compacted series on the full calendar again. -/
def restore (holes : Holes) (s : Series α) : Series α :=
  s.derived (refill 0 holes.positions s.values holes.calendar)

end Group
end Holes

namespace Series
variable {α : Type} [Hole α]

/-- The members of a group on the dates where all are observed, and the record of the gaps. -/
def removeHoles (group : List (Series α)) : List (Series α) × Holes :=
  let holes := Holes.ofGroup group
  (group.map holes.compact, holes)

def addHoles (s : Series α) (holes : Holes) : Checked (Series α) :=
  if s.count = holes.keptLength then .ok (holes.restore s)
  else refuse (.lengthMismatch holes.keptLength s.count)

end Series
end Almanac
