import Std.Data.HashMap
import Almanac.Instant.Basic
import Almanac.Outcome

/-! # Calendars

A calendar is a list of dates in any order, repeats allowed. A blank slot holds the sentinel. The
index of a calendar gives the last position of each date and leaves the sentinel out.
-/
namespace Almanac
set_option autoImplicit false

abbrev Calendar := List Instant

namespace Calendar
variable {ε : Type}

def blank? (length : Nat) : Outcome ε Calendar := do
  checkAllocation length
  return List.replicate length .sentinel

/-- Whether no date is greater than the one after it. -/
def isAscending (c : Calendar) : Bool :=
  (List.zipWith (fun d e : Instant => decide (d ≤ e)) c c.tail).all id

def sorted (c : Calendar) : Calendar := c.mergeSort fun d e => d ≤ e

/-- The date at a position that the caller has checked. -/
def dateAt (dates : Calendar) (position : Nat) : Outcome ε Instant := present dates[position]?

def replaceAt (c : Calendar) (position : Nat) (date : Instant) : Outcome ε Calendar :=
  if position < c.length then .ok (c.set position date) else fault

/-- The last position that holds a date, the first one being counted as `start`. -/
def lastPositionFrom? (date : Instant) (start : Nat) : Calendar → Option Nat
  | [] => none
  | d :: rest =>
    (lastPositionFrom? date (start + 1) rest).or (if d = date then some start else none)

def lastPosition? (c : Calendar) (date : Instant) : Option Nat := lastPositionFrom? date 0 c

/-- Notes the position of a date unless it is the sentinel. -/
def note (index : Std.HashMap Instant Nat) (entry : Instant × Nat) : Std.HashMap Instant Nat :=
  if entry.1 = .sentinel then index else index.insert entry.1 entry.2

def positions (c : Calendar) : Std.HashMap Instant Nat := c.zipIdx.foldl note ∅

theorem getElem?_foldl_note (c : Calendar) (start : Nat) (index : Std.HashMap Instant Nat)
    (date : Instant) (hDate : date ≠ .sentinel) :
    ((c.zipIdx start).foldl note index)[date]? =
      (lastPositionFrom? date start c).or index[date]? := by
  induction c generalizing start index with
  | nil => rfl
  | cons d rest ih =>
    rw [List.zipIdx_cons, List.foldl_cons, ih, lastPositionFrom?, Option.or_assoc]
    congr 1
    by_cases hSentinel : d = .sentinel
    · subst hSentinel
      simp [note, Ne.symm hDate]
    · by_cases hEq : d = date
      · subst hEq
        simp [note, hSentinel]
      · simp [note, hSentinel, hEq, Std.HashMap.getElem?_insert]

theorem getElem?_foldl_note_sentinel (c : Calendar) (start : Nat)
    (index : Std.HashMap Instant Nat) :
    ((c.zipIdx start).foldl note index)[Instant.sentinel]? = index[Instant.sentinel]? := by
  induction c generalizing start index with
  | nil => rfl
  | cons d rest ih =>
    rw [List.zipIdx_cons, List.foldl_cons, ih]
    by_cases hSentinel : d = .sentinel
    · simp [note, hSentinel]
    · simp [note, hSentinel, Std.HashMap.getElem?_insert]

theorem getElem?_positions (c : Calendar) (date : Instant) :
    c.positions[date]? = if date = .sentinel then none else c.lastPosition? date := by
  by_cases hDate : date = .sentinel
  · subst hDate
    simp [positions, getElem?_foldl_note_sentinel]
  · simp [positions, getElem?_foldl_note c 0 ∅ date hDate, lastPosition?, hDate]

def earliest? : Calendar → Option Instant
  | [] => none
  | date :: dates => some (dates.foldl (fun best d => if d < best then d else best) date)

end Calendar
end Almanac
