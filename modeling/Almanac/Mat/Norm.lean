import Almanac.Mat.Region
import Almanac.Vec.Norm

/-! # Trace, norms and hash of a matrix -/
namespace Almanac.Mat
set_option autoImplicit false
open Linear

variable {α : Type} [Zero α]

section Sum
variable [Add α] [Neg α]

def trace (A : Mat α) : Checked α := do
  checkSquare A.shape
  return total ((List.range A.rows).map fun i => A.entry i i)

variable [Magnitude α] [LT α] [DecidableLT α] [Hole α]

def columnMagnitude (A : Mat α) (c : Nat) : α :=
  total ((List.range A.rows).map fun r => abs (A.entry r c))

def rowMagnitude (A : Mat α) (r : Nat) : α :=
  total ((List.range A.columns).map fun c => abs (A.entry r c))

def columnNorm (A : Mat α) : α :=
  ((List.range A.columns).map A.columnMagnitude).foldl larger 0

def rowNorm (A : Mat α) : α :=
  ((List.range A.rows).map A.rowMagnitude).foldl larger 0

end Sum

section Norm
variable [Add α] [Neg α] [Mul α] [Div α] [One α] [NatCast α] [BEq α] [Magnitude α] [Elementary α]

def frobeniusNorm (A : Mat α) : α :=
  sqrt ((columnwise A.rows A.columns).foldl
    (fun sum p => sum + A.entry p.1 p.2 * A.entry p.1 p.2) 0)

/-- A dense copy with every column divided by its norm. -/
def normalizeColumns (p : Nat) (A : Mat α) : Checked (Mat α) :=
  (List.range A.columns).foldlM (fun result c => do
    let norm ← (← A.column c).norm p
    return result.writeWindow 0 c A.rows 1 fun r _ => A.entry r c / norm) A.toDense

/-- A dense copy with every row divided by its norm. -/
def normalizeRows (p : Nat) (A : Mat α) : Checked (Mat α) :=
  (List.range A.rows).foldlM (fun result r => do
    let norm ← (← A.row r).norm p
    return result.writeWindow r 0 1 A.columns fun _ c => A.entry r c / norm) A.toDense

end Norm

/-- The number of leading elements, column by column, that the hash takes in. -/
def hashSpan : Nat := 25

def hashCode [Bits α] (A : Mat α) : Int :=
  Vec.hashOfWords ((List.range (min (A.rows * A.columns) hashSpan)).map fun i =>
    bits (A.entry (i % A.rows) (i / A.rows)))

end Almanac.Mat
