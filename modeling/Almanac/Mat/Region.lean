import Almanac.Mat.Arithmetic
import Almanac.Vec.Transfer

/-! # Rows, columns, diagonals, windows and triangles

Reading and writing parts of a matrix. A setter writes its own part only, after its checks; a reader
gives a dense vector or matrix.
-/
namespace Almanac.Mat
set_option autoImplicit false
open Linear

variable {α : Type} [Zero α]

section Columns

def checkColumnWindow (A : Mat α) (index row length : Nat) : Checked Unit := do
  checkIndex "index" index A.columns
  checkWindow "row_index" row length A.rows

/-- Reads a part of a column one by one; the result is the state. -/
def columnElementsInto (A : Mat α) (index row length : Nat) : Vec.Change α Unit := do
  Edit.require (A.checkColumnWindow index row length)
  let result ← Edit.current
  Edit.require (checkResultCount length result.count)
  Edit.write fun result => result.writeFrom 0 length fun i => A.entry (row + i) index

def columnInto (A : Mat α) (index row length : Nat) : Vec.Change α Unit := do
  match A.storage with
  | .scattered => A.columnElementsInto index row length
  | .dense =>
    Edit.require (A.checkColumnWindow index row length)
    let result ← Edit.current
    Edit.require (checkResultCount length result.count)
    let start := A.offset row index
    let part := A.data.extract start (start + length)
    Edit.write fun result =>
      match result.storage with
      | .dense => result.spliceBlock 0 part
      | .scattered => result.writeFrom 0 part.size fun i => part.getD i 0

def columnRange (A : Mat α) (index row length : Nat) : Checked (Vec α) := do
  Edit.result (← Vec.zeros? length) (A.columnInto index row length)

def column (A : Mat α) (index : Nat) : Checked (Vec α) := A.columnRange index 0 A.rows

def setColumn (index : Nat) (column : Vec α) : Change α Unit := do
  let A ← Edit.current
  Edit.require (checkIndex "index" index A.columns)
  Edit.require (checkCount "column" A.rows column.count)
  Edit.write fun A => A.writeWindow 0 index A.rows 1 fun r _ => column.entry r

/-- The block of `A` with the column replaced. -/
def spliceColumn (A : Mat α) (index : Nat) (column : Array α) : Mat α :=
  let start := index * A.rows
  let data := A.data.extract 0 start ++ column ++ A.data.extract (start + A.rows) A.data.size
  if h : data.size = A.rows * A.columns then { A with data := data, size_eq := h } else A

def setColumnValues (index : Nat) (column : List α) : Change α Unit := do
  let A ← Edit.current
  Edit.require (checkIndex "index" index A.columns)
  Edit.require (checkLength "column" A.rows column.length)
  Edit.write fun A =>
    match A.storage with
    | .dense => A.spliceColumn index column.toArray
    | .scattered => A.writeWindow 0 index column.length 1 fun r _ => column.getD r 0

/-- A copy with a column before the one at `index`, or behind the last one. -/
def insertColumn (A : Mat α) (index : Nat) (column : Vec α) : Checked (Mat α) := do
  checkIndex "index" index (A.columns + 1)
  checkCount "column" A.rows column.count
  let start ← zeros? A.rows (A.columns + 1)
  return start.writeWindow 0 0 A.rows (A.columns + 1) fun r c =>
    if c < index then A.entry r c else if c = index then column.entry r else A.entry r (c - 1)

end Columns

section Rows

def rowInto (A : Mat α) (index column length : Nat) : Vec.Change α Unit := do
  Edit.require (checkIndex "index" index A.rows)
  Edit.require (checkWindow "column_index" column length A.columns)
  let result ← Edit.current
  Edit.require (checkResultCount length result.count)
  Edit.write fun result => result.writeFrom 0 length fun i => A.entry index (column + i)

def rowRange (A : Mat α) (index column length : Nat) : Checked (Vec α) := do
  Edit.result (← Vec.zeros? length) (A.rowInto index column length)

def row (A : Mat α) (index : Nat) : Checked (Vec α) := A.rowRange index 0 A.columns

def setRow (index : Nat) (row : Vec α) : Change α Unit := do
  let A ← Edit.current
  Edit.require (checkIndex "index" index A.rows)
  Edit.require (checkCount "row" A.columns row.count)
  Edit.write fun A => A.writeWindow index 0 1 A.columns fun _ c => row.entry c

def setRowValues (index : Nat) (row : List α) : Change α Unit := do
  let A ← Edit.current
  Edit.require (checkIndex "index" index A.rows)
  Edit.require (checkLength "row" A.columns row.length)
  Edit.write fun A => A.writeWindow index 0 1 row.length fun _ c => row.getD c 0

/-- A copy with a row before the one at `index`, or below the last one. -/
def insertRow (A : Mat α) (index : Nat) (row : Vec α) : Checked (Mat α) := do
  checkIndex "index" index (A.rows + 1)
  checkCount "row" A.columns row.count
  let start ← zeros? (A.rows + 1) A.columns
  return start.writeWindow 0 0 (A.rows + 1) A.columns fun r c =>
    if r < index then A.entry r c else if r = index then row.entry c else A.entry (r - 1) c

end Rows

section Diagonal

def order (A : Mat α) : Nat := min A.rows A.columns

def diagonal (A : Mat α) : Vec α :=
  Vec.ofList ((List.range A.order).map fun i => A.entry i i) (by
    simpa [order] using Nat.lt_min.mpr ⟨A.rows_pos, A.columns_pos⟩)

def writeDiagonal (A : Mat α) (length : Nat) (f : Nat → α) : Mat α :=
  (List.range length).foldl (fun A i => A.put i i (f i)) A

def setDiagonal (diagonal : Vec α) : Change α Unit := do
  let A ← Edit.current
  Edit.require (checkCount "diagonal" A.order diagonal.count)
  Edit.write fun A => A.writeDiagonal diagonal.count diagonal.entry

def setDiagonalValues (diagonal : List α) : Change α Unit := do
  let A ← Edit.current
  Edit.require (checkLength "diagonal" A.order diagonal.length)
  Edit.write fun A => A.writeDiagonal diagonal.length fun i => diagonal.getD i 0

end Diagonal

section Window

def subMatrix (A : Mat α) (row rows column columns : Nat) : Checked (Mat α) := do
  checkWindow "row_index" row rows A.rows
  checkWindow "column_index" column columns A.columns
  ofTable? rows columns fun r c => A.entry (row + r) (column + c)

def setSubMatrix (row column : Nat) (block : Mat α) : Change α Unit := do
  let A ← Edit.current
  Edit.require (checkWindow "row_index" row block.rows A.rows)
  Edit.require (checkWindow "column_index" column block.columns A.columns)
  Edit.write fun A => A.writeWindow row column block.rows block.columns block.entry

end Window

section Triangle

/-- The part of a square that a triangle keeps, from the row and the column. -/
inductive Triangle where
  | lower
  | strictlyLower
  | upper
  | strictlyUpper
deriving DecidableEq, Repr

def Triangle.keeps : Triangle → Nat → Nat → Bool
  | lower, r, c => c ≤ r
  | strictlyLower, r, c => c < r
  | upper, r, c => r ≤ c
  | strictlyUpper, r, c => r < c

/-- The kept part, with zeros elsewhere. -/
def triangle (part : Triangle) (A : Mat α) : Mat α :=
  tabulate A.rows A.columns A.rows_pos A.columns_pos fun r c =>
    if part.keeps r c then A.entry r c else 0

def triangleInto (part : Triangle) (A : Mat α) : Change α Unit := do
  let result ← Edit.current
  Edit.require (checkResultShape A.shape result.shape)
  Edit.write fun result => result.writeWindow 0 0 A.rows A.columns fun r c =>
    if part.keeps r c then A.entry r c else 0

end Triangle

section Walk

def indexedRows (A : Mat α) : List (Nat × List α) :=
  (List.range A.rows).map fun r => (r, (List.range A.columns).map fun c => A.entry r c)

def columnList (A : Mat α) (c : Nat) : List α :=
  match A.storage with
  | .dense => (A.data.extract (c * A.rows) ((c + 1) * A.rows)).toList
  | .scattered => (List.range A.rows).map fun r => A.entry r c

def indexedColumns (A : Mat α) : List (Nat × List α) :=
  (List.range A.columns).map fun c => (c, A.columnList c)

end Walk
end Almanac.Mat
