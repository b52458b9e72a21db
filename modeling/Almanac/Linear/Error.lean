import Almanac.Outcome

/-! # Refusals of linear algebra

The reasons for which a vector or matrix operation is refused, their wording, and the checks of
lengths, positions and windows that give rise to them.
-/
namespace Almanac.Linear
set_option autoImplicit false

/-- Rows and columns. -/
abbrev Shape := Nat × Nat

inductive Error where
  | notPositive (parameter : String)
  | raggedRows (row expected found : Nat)
  | notConformable (parameter : String) (expected found : Shape)
  | resultNotConformable (parameter : String) (expected found : Shape)
  | arrayNotConformable (parameter : String) (expected found : Nat)
  | notSquare (shape : Shape)
  | indexOutOfRange (parameter : String) (index bound : Nat)
  | singular
  | notPositiveDefinite
  | noConvergence (algorithm : String)
  | invalidNorm (order : Nat)
deriving DecidableEq, Repr

def shapeText (shape : Shape) : String := toString shape.1 ++ "x" ++ toString shape.2

def quoted (parameter : String) : String := "`" ++ parameter ++ "`"

def Error.reason : Error → String
  | notPositive parameter => quoted parameter ++ " must be strictly positive."
  | raggedRows row expected found =>
    s!"row arrays have differing lengths (row {row} has {found}, expected {expected})."
  | notConformable parameter expected found =>
    quoted parameter ++ " operand shape does not conform to the operation (expected " ++
      shapeText expected ++ ", found " ++ shapeText found ++ ")."
  | resultNotConformable parameter expected found =>
    quoted parameter ++ " result buffer has incorrect dimensions (expected " ++
      shapeText expected ++ ", found " ++ shapeText found ++ ")."
  | arrayNotConformable parameter expected found =>
    quoted parameter ++
      s!" array length does not conform to the target (expected {expected}, found {found})."
  | notSquare shape => "matrix must be square (found " ++ shapeText shape ++ ")."
  | indexOutOfRange parameter index bound =>
    quoted parameter ++ s!" index is out of range (index {index}, bound {bound})."
  | singular => "matrix is singular."
  | notPositiveDefinite => "matrix is not positive definite."
  | noConvergence algorithm => algorithm ++ " decomposition did not converge."
  | invalidNorm order => s!"p-norm order must be at least 1 (found {order})."

def Error.message (e : Error) : String := "Linalg Error: " ++ e.reason

def Error.kind : Error → String
  | notPositive _ => "NotPositive"
  | raggedRows .. => "RaggedRows"
  | notConformable .. => "NotConformable"
  | resultNotConformable .. => "ResultNotConformable"
  | arrayNotConformable .. => "ArrayNotConformable"
  | notSquare _ => "NotSquare"
  | indexOutOfRange .. => "IndexOutOfRange"
  | singular => "Singular"
  | notPositiveDefinite => "NotPositiveDefinite"
  | noConvergence _ => "NoConvergence"
  | invalidNorm _ => "InvalidNorm"

instance : Reason Error := ⟨Error.kind, Error.message⟩

abbrev Checked := Outcome Error

def checkPositive (parameter : String) (n : Nat) : Checked Unit :=
  if n = 0 then refuse (.notPositive parameter) else .ok ()

def checkIndex (parameter : String) (index bound : Nat) : Checked Unit :=
  if index < bound then .ok () else refuse (.indexOutOfRange parameter index bound)

/-- A window holds at least one element and ends within the bound. The position that a refusal names
is the last one of the window, or the greatest word where that is no word. -/
def checkWindow (parameter : String) (start length bound : Nat) : Checked Unit := do
  checkPositive parameter length
  checkIndex parameter start bound
  if start + length < wordBound ∧ start + length ≤ bound then .ok ()
  else refuse (.indexOutOfRange parameter (min (start + (length - 1)) (wordBound - 1)) bound)

/-- The sum of two words: none where it wraps, which shows in that it is below the first of them. -/
def addChecked (x y : UInt64) : Option UInt64 :=
  if x + y < x then none else some (x + y)

def addSaturating (x y : UInt64) : UInt64 := (addChecked x y).getD (.ofNat (wordBound - 1))

/-- The check of a window as it is computed with words. -/
def checkWindowOfWords (parameter : String) (start length bound : UInt64) : Checked Unit :=
  if length = 0 then refuse (.notPositive parameter)
  else if bound ≤ start then refuse (.indexOutOfRange parameter start.toNat bound.toNat)
  else if (addChecked start length).any (· ≤ bound) then .ok ()
  else refuse (.indexOutOfRange parameter (addSaturating start (length - 1)).toNat bound.toNat)

def checkCount (parameter : String) (expected found : Nat) : Checked Unit :=
  if expected = found then .ok () else refuse (.notConformable parameter (expected, 1) (found, 1))

def checkResultCount (expected found : Nat) : Checked Unit :=
  if expected = found then .ok ()
  else refuse (.resultNotConformable "result" (expected, 1) (found, 1))

def checkShape (parameter : String) (expected found : Shape) : Checked Unit :=
  if expected = found then .ok () else refuse (.notConformable parameter expected found)

def checkResultShape (expected found : Shape) : Checked Unit :=
  if expected = found then .ok () else refuse (.resultNotConformable "result" expected found)

def checkLength (parameter : String) (expected found : Nat) : Checked Unit :=
  if expected = found then .ok () else refuse (.arrayNotConformable parameter expected found)

def checkSquare (shape : Shape) : Checked Unit :=
  if shape.1 = shape.2 then .ok () else refuse (.notSquare shape)

end Almanac.Linear
