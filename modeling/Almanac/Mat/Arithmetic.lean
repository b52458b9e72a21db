import Almanac.Mat.Basic

/-! # Elementwise matrix arithmetic

Sums, differences, products and multiples, in place or into a result of the same shape, and copies.
When all participants are dense the blocks are combined whole, and otherwise element by element; the
shapes are checked before anything is written.
-/
namespace Almanac.Mat
set_option autoImplicit false
open Linear

variable {α : Type}

section Block

def mapBlock (f : α → α) (A : Mat α) : Mat α :=
  { A with data := A.data.map f, size_eq := by simpa using A.size_eq }

def zipBlock (op : α → α → α) (A B : Mat α) : Mat α :=
  if h : B.data.size = A.data.size then
    { A with data := A.data.zipWith op B.data, size_eq := by simp [h, A.size_eq] }
  else A

/-- Puts the block of a matrix of the same shape in place of the one of `A`. -/
def withBlock (A source : Mat α) : Mat α :=
  if h : source.data.size = A.data.size then
    { A with data := source.data, size_eq := by simp [h, A.size_eq] }
  else A

end Block

variable [Zero α]

section Combination
variable (op : α → α → α)

def combineElements (other : Mat α) : Change α Unit := do
  let A ← Edit.current
  Edit.require (checkShape "other" A.shape other.shape)
  Edit.write fun A => A.sweep fun B r c => op (B.entry r c) (other.entry r c)

def combine (other : Mat α) : Change α Unit := do
  let A ← Edit.current
  match A.storage with
  | .scattered => combineElements op other
  | .dense =>
    Edit.require (checkShape "other" A.shape other.shape)
    match other.storage with
    | .dense => Edit.write fun A => A.zipBlock op other
    | .scattered => combineElements op other

/-- The result is the state. -/
def combineElementsInto (A other : Mat α) : Change α Unit := do
  Edit.require (checkShape "other" A.shape other.shape)
  let result ← Edit.current
  Edit.require (checkResultShape A.shape result.shape)
  Edit.write fun result =>
    result.writeWindow 0 0 A.rows A.columns fun r c => op (A.entry r c) (other.entry r c)

def combineInto (A other : Mat α) : Change α Unit := do
  match A.storage with
  | .scattered => combineElementsInto op A other
  | .dense =>
    Edit.require (checkShape "other" A.shape other.shape)
    let result ← Edit.current
    Edit.require (checkResultShape A.shape result.shape)
    match other.storage, result.storage with
    | .dense, .dense => Edit.write fun result => result.withBlock (A.zipBlock op other)
    | _, _ => combineElementsInto op A other

end Combination

section Mapping
variable (f : α → α)

def mapElements (A : Mat α) : Mat α := A.sweep fun B r c => f (B.entry r c)

def mapEntries (A : Mat α) : Mat α :=
  match A.storage with
  | .dense => A.mapBlock f
  | .scattered => A.mapElements f

def mapInto (A : Mat α) : Change α Unit := do
  let result ← Edit.current
  Edit.require (checkResultShape A.shape result.shape)
  Edit.write fun result => result.writeWindow 0 0 A.rows A.columns fun r c => f (A.entry r c)

end Mapping

def cleared (A : Mat α) : Mat α :=
  match A.storage with
  | .dense => A.mapBlock fun _ => 0
  | .scattered => A.sweep fun _ _ _ => 0

def clear : Change α Unit := Edit.write cleared

def copyTo (A : Mat α) : Change α Unit := do
  match A.storage with
  | .scattered => A.mapInto id
  | .dense =>
    let target ← Edit.current
    Edit.require (checkResultShape A.shape target.shape)
    match target.storage with
    | .dense => Edit.write fun target => target.withBlock A
    | .scattered => A.mapInto id

section Sum
variable [Add α] [Sub α] [Neg α]

def addAssign (other : Mat α) : Change α Unit := combine (· + ·) other

def subtractAssign (other : Mat α) : Change α Unit := combine (· - ·) other

def addInto (A other : Mat α) : Change α Unit := combineInto (· + ·) A other

def subtractInto (A other : Mat α) : Change α Unit := combineInto (· - ·) A other

def addScalar (x : α) : Change α Unit := Edit.write fun A => A.mapEntries (· + x)

def subtractScalar (x : α) : Change α Unit := addScalar (-x)

def addScalarInto (A : Mat α) (x : α) : Change α Unit := A.mapInto (· + x)

def subtractScalarInto (A : Mat α) (x : α) : Change α Unit := A.addScalarInto (-x)

end Sum

section Product
variable [Mul α] [Div α] [One α] [Neg α] [BEq α]

def multiplyScalar (x : α) : Change α Unit :=
  Edit.write fun A => if x == 1 then A else A.mapEntries (· * x)

def divideScalar (x : α) : Change α Unit := multiplyScalar (1 / x)

def negate : Change α Unit := multiplyScalar (-1)

def multiplyScalarInto (A : Mat α) (x : α) : Change α Unit := A.mapInto (· * x)

def divideScalarInto (A : Mat α) (x : α) : Change α Unit := A.multiplyScalarInto (1 / x)

def negateInto (A : Mat α) : Change α Unit := A.multiplyScalarInto (-1)

def pointwiseMultiplyInto (A other : Mat α) : Change α Unit := combineInto (· * ·) A other

def pointwiseMultiply (A other : Mat α) : Checked (Mat α) := do
  Edit.result (← zeros? A.rows A.columns) (A.pointwiseMultiplyInto other)

end Product

/-- Elementwise equality; a hole differs from every scalar. -/
def equals [BEq α] (A other : Mat α) : Bool :=
  A.shape == other.shape &&
    (columnwise A.rows A.columns).all fun p => A.entry p.1 p.2 == other.entry p.1 p.2

def sameBlock [BEq α] (A other : Mat α) : Bool :=
  A.rows == other.rows && A.columns == other.columns && A.data == other.data

def reverse (A : Mat α) : Mat α :=
  { A with data := A.data.reverse, size_eq := by simpa using A.size_eq }

end Almanac.Mat
