import Almanac.Outcome

/-! # Refusals of statistics -/
namespace Almanac.Statistics
set_option autoImplicit false

inductive Error where
  | emptyCollection (parameter : String)
  | insufficientData (needed found : Nat)
  | lengthMismatch (left right : Nat)
deriving DecidableEq, Repr

def Error.reason : Error → String
  | emptyCollection parameter => "`" ++ parameter ++ "` contains no values."
  | insufficientData needed found => s!"need at least {needed} observations, found {found}."
  | lengthMismatch left right => s!"paired inputs differ in length ({left} vs {right})."

def Error.message (e : Error) : String := "Statistics Error: " ++ e.reason

def Error.kind : Error → String
  | emptyCollection _ => "EmptyCollection"
  | insufficientData .. => "InsufficientData"
  | lengthMismatch .. => "LengthMismatch"

instance : Reason Error := ⟨Error.kind, Error.message⟩

abbrev Result := Except Error

def checkAtLeast (needed found : Nat) : Result Unit :=
  if needed ≤ found then .ok () else .error (.insufficientData needed found)

def checkPaired {α : Type} (xs ys : List α) : Result Unit :=
  if xs.length = ys.length then .ok () else .error (.lengthMismatch xs.length ys.length)

end Almanac.Statistics
