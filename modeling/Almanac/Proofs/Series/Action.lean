import Almanac.Proofs.Run
import Almanac.Series.Update

/-! # Actions on a series

The ways to make a series and to change it, as data, so that a history is a list. A refused action
is answered with its reason and leaves the series as it is; a fault has no answer.
-/
namespace Almanac.Series
set_option autoImplicit false

inductive Origin (α : Type) where
  | uninitialized (options : Options)
  | empty
  | ofSize (size : Nat) (calendar : Calendar)
  | ofCalendar (calendar : Calendar) (values : List α)
  | collect (points : List (Point α))

inductive Action (α : Type) where
  | add (date : Instant) (value : α)
  | extend (points : List (Point α))
  | remove (date : Instant)
  | setValue (position : Nat) (value : α)
  | setValueOn (date : Instant) (value : α)
  | sort

/-- What an action answers: nothing, whether it has found a point, or why it is refused. -/
inductive Answer where
  | done
  | removed (found : Bool)
  | refused (reason : Error)
deriving DecidableEq

variable {α : Type}

/-- The dates that an origin puts on its points. -/
def Origin.dates : Origin α → Calendar
  | uninitialized _ | empty => []
  | ofSize size calendar => calendar.take size
  | ofCalendar calendar values => calendar.take values.length
  | collect points => points.map Point.date

def Action.dates : Action α → Calendar
  | add date _ | remove date | setValueOn date _ => [date]
  | extend points => points.map Point.date
  | setValue .. | sort => []

variable [Hole α]

def Origin.make? : Origin α → Checked (Series α)
  | uninitialized options => .ok (.uninitialized options)
  | empty => .ok (.empty default)
  | ofSize size calendar => Series.ofSize? size calendar
  | ofCalendar calendar values => Series.ofCalendar? calendar values
  | collect points => Series.collect? points

def perform (s : Series α) : Action α → Checked (Answer × Series α)
  | .add date value => return (.done, ← s.insert? date value)
  | .extend points => return (.done, ← s.insertAll? points)
  | .remove date => do
    let (found, rest) ← s.remove date
    return (.removed found, rest)
  | .setValue position value => return (.done, ← s.setValue position value)
  | .setValueOn date value => return (.done, ← s.setValueOn date value)
  | .sort => return (.done, s.sort)

def step (s : Series α) (action : Action α) : Option (Answer × Series α) :=
  match s.perform action with
  | .ok result => some result
  | .error (.refused reason) => some (.refused reason, s)
  | .error .fault => none

def run : Series α → List (Action α) → Option (List Answer × Series α) := runBy step

end Almanac.Series
