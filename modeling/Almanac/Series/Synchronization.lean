import Almanac.Series.Lookup

/-! # Synchronization

A series is put on the calendar of another one, or on the common calendar of a group. The dates of a
calendar are those that its index holds; lookups between dates need ascending dates.
-/
namespace Almanac.Series
set_option autoImplicit false

variable {α : Type}

def observedDates (s : Series α) : Calendar := s.dates.filter s.contains

/-- The dates that all series observe, in the order of their first occurrence in the first. -/
def commonDates (s : Series α) (others : List (Series α)) : Calendar :=
  (s.observedDates.filter fun date => others.all (·.contains date)).eraseDups

/-- The dates of a group from `first` on, ascending and each once. -/
def groupCalendar (first : Instant) (group : List (Series α)) : Calendar :=
  (Calendar.sorted ((group.flatMap observedDates).filter fun date => first ≤ date)).eraseReps

variable [Hole α]

/-- The values of `other` on the calendar of `s`, or on the dates that the two share. -/
def synchronize (s other : Series α) (method : SyncMethod) : Checked (Series α) :=
  match method with
  | .exact => do return s.derived (← sample s.dates other.valueOn)
  | .latest => do return s.derived (← sample s.dates (other.valueNear · .previous))
  | .union => do return s.derived (← sample (s.commonDates [other]) other.valueOn)

/-- The values of `s` on the dates that a group shares, or on all dates of the group from the first
shared one on. -/
def synchronizeMany (s : Series α) (others : List (Series α)) (method : SyncMethod) :
    Checked (Series α) :=
  let common := s.commonDates others
  match method, common.earliest? with
  | .union, _ => do return s.derived (← sample common s.valueOn)
  | _, none => .ok (empty s.options)
  | .exact, some first => do
    return s.derived (← sample (groupCalendar first (s :: others)) s.valueOn)
  | .latest, some first => do
    return s.derived (← sample (groupCalendar first (s :: others)) (s.valueNear · .previous))

end Almanac.Series
