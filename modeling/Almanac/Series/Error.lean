import Almanac.Instant.Text
import Almanac.Linear.Error
import Almanac.Statistics.Error

/-! # Refusals of series -/
namespace Almanac.Series
set_option autoImplicit false

inductive Error where
  | calendarTooShort (dates size : Nat)
  | notPositive (parameter : String)
  | indexOutOfRange (parameter : String) (index bound : Nat)
  | invalidRange (first last : Nat)
  | dateNotFound (date : Instant)
  | lengthMismatch (expected found : Nat)
  | duplicateName (name : String)
  | linear (reason : Linear.Error)
  | statistics (reason : Statistics.Error)
deriving DecidableEq

def Error.reason : Error → String
  | calendarTooShort dates size =>
    s!"date list contains fewer dates ({dates}) than number of points ({size})."
  | notPositive parameter => "`" ++ parameter ++ "` must be strictly positive."
  | indexOutOfRange parameter index bound =>
    "`" ++ parameter ++ s!"` = {index} is out of range (bound {bound})."
  | invalidRange first last => s!"range start {first} is after range end {last}."
  | dateNotFound date => "no observation at " ++ date.text ++ "."
  | lengthMismatch expected found => s!"expected {expected} points, found {found}."
  | duplicateName name => "a series named `" ++ name ++ "` already exists."
  | linear reason => reason.message
  | statistics reason => reason.message

def Error.message (e : Error) : String := "Series Error: " ++ e.reason

/-- The kind of a reason from below carries the name of where it arose. -/
def Error.kind : Error → String
  | calendarTooShort .. => "CalendarTooShort"
  | notPositive _ => "NotPositive"
  | indexOutOfRange .. => "IndexOutOfRange"
  | invalidRange .. => "InvalidRange"
  | dateNotFound _ => "DateNotFound"
  | lengthMismatch .. => "LengthMismatch"
  | duplicateName _ => "DuplicateName"
  | linear e => "Linalg." ++ e.kind
  | statistics e => "Stats." ++ e.kind

instance : Reason Error := ⟨Error.kind, Error.message⟩

abbrev Checked := Outcome Error

def checkIndex (parameter : String) (index bound : Nat) : Checked Unit :=
  if index < bound then .ok () else refuse (.indexOutOfRange parameter index bound)

def checkPositive (parameter : String) (value : Nat) : Checked Unit :=
  if 0 < value then .ok () else refuse (.notPositive parameter)

/-- A result of statistics, with its reason as a series gives it. -/
def measured {α : Type} (result : Statistics.Result α) : Checked α :=
  withReason Error.statistics (outcomeOf result)

end Almanac.Series
