import Almanac.Calendar
import Almanac.Scalar
import Almanac.Series.Options

/-! # Series

A series is a list of dated values with an index from dates to positions. A hole is a value that
marks a missing observation at its date. Behind the points lie spare slots that appends use up; a
blank slot is a hole at the sentinel. The index leaves the sentinel out when a series is built, and
of several points at one date it names the last.
-/
namespace Almanac
set_option autoImplicit false

structure Point (α : Type) where
  date : Instant
  value : α
deriving DecidableEq

def Point.blank {α : Type} [Hole α] : Point α := ⟨.sentinel, hole⟩

structure Series (α : Type) where
  points : List (Point α)
  spare : List (Point α)
  index : Std.HashMap Instant Nat
  options : Series.Options

namespace Series
variable {α : Type}

section Read
variable (s : Series α)

def dates : Calendar := s.points.map Point.date

def values : List α := s.points.map Point.value

def count : Nat := s.points.length

def isEmpty : Bool := s.points.isEmpty

def spareCapacity : Nat := s.spare.length

def date? (position : Nat) : Option Instant := s.points[position]?.map Point.date

def value? (position : Nat) : Option α := s.points[position]?.map Point.value

/-- The value at a position that the caller has checked. -/
def valueAt (position : Nat) : Checked α := present (s.value? position)

/-- One blank point alone: the state of a new series. -/
def isUninitialized : Bool :=
  match s.points with
  | [p] => p.date = .sentinel
  | _ => false

end Read

section Build
variable [Hole α]

def uninitialized (options : Options) : Series α := ⟨[.blank], [], ∅, options⟩

def empty (options : Options) : Series α := ⟨[], [.blank], ∅, options⟩

instance : Inhabited (Series α) := ⟨uninitialized default⟩

def ofPoints (options : Options) (points : List (Point α)) : Series α :=
  if points.isEmpty then empty options
  else ⟨points, [], Calendar.positions (points.map Point.date), options⟩

@[simp] theorem points_ofPoints (options : Options) (points : List (Point α)) :
    (ofPoints options points).points = points := by
  cases points <;> rfl

@[simp] theorem index_ofPoints (options : Options) (points : List (Point α)) :
    (ofPoints options points).index = Calendar.positions (points.map Point.date) := by
  cases points <;> rfl

@[simp] theorem options_ofPoints (options : Options) (points : List (Point α)) :
    (ofPoints options points).options = options := by
  cases points <;> rfl

@[simp] theorem spareCapacity_ofPoints (options : Options) (points : List (Point α)) :
    (ofPoints options points).spareCapacity = if points = [] then 1 else 0 := by
  cases points <;> rfl

def derived (s : Series α) (points : List (Point α)) : Series α := ofPoints s.options points

/-- Values on the leading dates of a calendar. -/
def ofCalendar? (calendar : Calendar) (values : List α) : Checked (Series α) :=
  if calendar.length < values.length then
    refuse (.calendarTooShort calendar.length values.length)
  else .ok (ofPoints default (List.zipWith Point.mk calendar values))

/-- Holes on the leading dates of a calendar. -/
def ofSize? (size : Nat) (calendar : Calendar) : Checked (Series α) :=
  if calendar.length < size then refuse (.calendarTooShort calendar.length size)
  else .ok (ofPoints default ((calendar.take size).map fun date => ⟨date, hole⟩))

end Build

/-- Equal calendars and equal values, with a hole equal to a hole alone. -/
def same [Hole α] [BEq α] (s t : Series α) : Bool :=
  s.dates == t.dates &&
    (List.zipWith (fun x y => x == y || (isHole x && isHole y)) s.values t.values).all id

instance [Hole α] [BEq α] : BEq (Series α) := ⟨same⟩

end Series
end Almanac
