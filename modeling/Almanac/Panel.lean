import Almanac.Series.Update

/-! # Panels

A panel is a row of named series of one length, with a calendar once there is one: the calendar that
it was made with, or that of the first member. A name is taken once.
-/
namespace Almanac
set_option autoImplicit false

structure Member (α : Type) where
  name : String
  series : Series α

structure Panel (α : Type) where
  members : List (Member α)
  calendar : Option Calendar

namespace Panel
variable {α : Type}

abbrev Change (α : Type) := Edit Series.Error (Panel α)

def empty : Panel α := ⟨[], none⟩

section Read
variable (panel : Panel α)

def size : Nat := panel.members.length

def names : List String := panel.members.map Member.name

def series? (position : Nat) : Option (Series α) := panel.members[position]?.map Member.series

def position? (name : String) : Option Nat := panel.members.findIdx? fun m => m.name = name

def named? (name : String) : Option (Series α) := panel.position? name >>= panel.series?

def value? (position time : Nat) : Option α := panel.series? position >>= (·.value? time)

def length : Nat := (panel.members.head?.map (·.series.count)).getD 0

/-- One row a position in time, up to the length of the first member, and one column a member. -/
def table : Series.Checked (List (List α)) :=
  (List.range panel.length).mapM fun time => panel.members.mapM (·.series.valueAt time)

def checkName (name : String) : Series.Checked Unit :=
  if (panel.position? name).isSome then refuse (.duplicateName name) else .ok ()

def checkLength (s : Series α) : Series.Checked Unit :=
  match panel.members.head? with
  | some first =>
    if s.count = first.series.count then .ok ()
    else refuse (.lengthMismatch first.series.count s.count)
  | none => .ok ()

end Read

def add (name : String) (s : Series α) : Change α Unit := do
  let panel ← Edit.current
  Edit.require (panel.checkName name)
  Edit.require (panel.checkLength s)
  Edit.write fun panel =>
    ⟨panel.members ++ [⟨name, s⟩], panel.calendar.orElse fun _ => some s.dates⟩

def withSeries (panel : Panel α) (position : Nat) (s : Series α) : Panel α :=
  { panel with members := panel.members.modify position fun m => { m with series := s } }

def withNamed (panel : Panel α) (name : String) (s : Series α) : Panel α :=
  match panel.position? name with
  | some position => panel.withSeries position s
  | none => panel

def setValue (position time : Nat) (x : α) : Change α Unit := do
  let panel ← Edit.current
  Edit.require (Series.checkIndex "index" position panel.size)
  match panel.series? position with
  | some s =>
    let s ← liftM (s.setValue time x)
    Edit.write (·.withSeries position s)
  | none => return

/-- A number of members on one calendar that hold nothing yet, named by their positions. -/
def ofCalendar? [Hole α] (calendar : Calendar) (size : Nat) : Series.Checked (Panel α) :=
  Edit.result empty do
    (List.range size).forM fun position => do
      add (toString position) (← liftM (Series.ofSize? (α := α) calendar.length calendar))
    Edit.write fun panel => { panel with calendar := some calendar }

end Panel
end Almanac
