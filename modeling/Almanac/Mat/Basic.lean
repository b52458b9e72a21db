import Almanac.Vec.Basic

/-! # Matrices

A matrix has at least one row and one column. A dense one keeps its elements column by column in a
block that bulk operations read and write whole; a scattered one keeps them row by row and gives
access to single elements only. Traversals run column by column.
-/
namespace Almanac
set_option autoImplicit false
open Linear

structure Mat (α : Type) where
  storage : Storage
  rows : Nat
  columns : Nat
  data : Array α
  rows_pos : 0 < rows
  columns_pos : 0 < columns
  size_eq : data.size = rows * columns

namespace Mat
variable {α : Type}

abbrev Change (α β : Type) := Edit Error (Mat α) β

/-- The positions of a matrix, column by column. -/
def columnwise (rows columns : Nat) : List (Nat × Nat) :=
  (List.range columns).flatMap fun c => (List.range rows).map fun r => (r, c)

/-- The positions of a matrix, row by row. -/
def rowwise (rows columns : Nat) : List (Nat × Nat) :=
  (List.range rows).flatMap fun r => (List.range columns).map fun c => (r, c)

theorem length_columnwise (rows columns : Nat) :
    (columnwise rows columns).length = rows * columns := by
  simp [columnwise, List.length_flatMap, List.map_const', Nat.mul_comm]

theorem size_map_columnwise {β : Type} (rows columns : Nat) (f : Nat → Nat → β) :
    ((columnwise rows columns).map fun p => f p.1 p.2).toArray.size = rows * columns := by
  rw [List.size_toArray, List.length_map, length_columnwise]

theorem length_rowwise (rows columns : Nat) :
    (rowwise rows columns).length = rows * columns := by
  simp [rowwise, List.length_flatMap, List.map_const']

def shape (A : Mat α) : Shape := (A.rows, A.columns)

def isSquare (A : Mat α) : Bool := A.rows == A.columns

/-- Where the element at a row and a column is kept. -/
def offset (A : Mat α) (r c : Nat) : Nat :=
  match A.storage with
  | .dense => c * A.rows + r
  | .scattered => r * A.columns + c

section Access
variable [Zero α]

/-- The element at a position inside the shape. -/
def entry (A : Mat α) (r c : Nat) : α := A.data.getD (A.offset r c) 0

/-- Writes the element at a position inside the shape. -/
def put (A : Mat α) (r c : Nat) (x : α) : Mat α :=
  { A with data := A.data.setIfInBounds (A.offset r c) x, size_eq := by simpa using A.size_eq }

/-- Writes `f` of the matrix so far at every position, one by one. -/
def sweep (A : Mat α) (f : Mat α → Nat → Nat → α) : Mat α :=
  (columnwise A.rows A.columns).foldl (fun B p => B.put p.1 p.2 (f B p.1 p.2)) A

/-- Writes `f r c` at the positions `(row + r, column + c)` of a window, one by one. -/
def writeWindow (A : Mat α) (row column rows columns : Nat) (f : Nat → Nat → α) : Mat α :=
  (columnwise rows columns).foldl (fun B p => B.put (row + p.1) (column + p.2) (f p.1 p.2)) A

/-- Unchecked access: a place outside the buffer is a fault. -/
def valueAt (A : Mat α) (r c : Nat) : Checked α := present A.data[A.offset r c]?

def lookup (A : Mat α) (r c : Nat) : Checked α := do
  checkIndex "row" r A.rows
  checkIndex "column" c A.columns
  A.valueAt r c

/-- Unchecked write: a place outside the buffer is a fault. -/
def setValueAt (r c : Nat) (x : α) : Change α Unit := do
  let A ← Edit.current
  Edit.require (if A.offset r c < A.data.size then .ok () else fault)
  Edit.write fun A => A.put r c x

def assign (r c : Nat) (x : α) : Change α Unit := do
  let A ← Edit.current
  Edit.require (checkIndex "row" r A.rows)
  Edit.require (checkIndex "column" c A.columns)
  setValueAt r c x

/-- Access that answers inside the shape only. -/
def index (A : Mat α) (r c : Nat) : Checked α :=
  if r < A.rows ∧ c < A.columns then A.valueAt r c else fault

def setIndex (r c : Nat) (x : α) : Change α Unit := do
  let A ← Edit.current
  Edit.require (if r < A.rows ∧ c < A.columns then .ok () else fault)
  setValueAt r c x

end Access

section Construction

/-- The dense matrix with `f r c` at row `r` and column `c`. -/
def tabulate (rows columns : Nat) (hRows : 0 < rows) (hColumns : 0 < columns)
    (f : Nat → Nat → α) : Mat α where
  storage := .dense
  rows := rows
  columns := columns
  data := ((columnwise rows columns).map fun p => f p.1 p.2).toArray
  rows_pos := hRows
  columns_pos := hColumns
  size_eq := size_map_columnwise rows columns f

def fill (rows columns : Nat) (hRows : 0 < rows) (hColumns : 0 < columns) (x : α) : Mat α where
  storage := .dense
  rows := rows
  columns := columns
  data := Array.replicate (rows * columns) x
  rows_pos := hRows
  columns_pos := hColumns
  size_eq := by simp

def fill? (rows columns : Nat) (x : α) : Checked (Mat α) :=
  if hRows : 0 < rows then
    if hColumns : 0 < columns then do
      checkAllocation (rows * columns)
      return fill rows columns hRows hColumns x
    else refuse (.notPositive "columns")
  else refuse (.notPositive "rows")

def zeros? [Zero α] (rows columns : Nat) : Checked (Mat α) := fill? rows columns 0

def identity? [Zero α] [One α] (n : Nat) : Checked (Mat α) := do
  let start ← zeros? n n
  return (List.range n).foldl (fun A i => A.put i i 1) start

/-- The number of elements of a shape, which has to be a word. -/
def area (rows columns : Nat) : Checked Nat :=
  if rows * columns < wordBound then .ok (rows * columns) else fault

def ofColumnMajor? (rows columns : Nat) (data : List α) : Checked (Mat α) :=
  if hRows : 0 < rows then
    if hColumns : 0 < columns then do
      let expected ← area rows columns
      if h : data.length = rows * columns then
        return ⟨.dense, rows, columns, data.toArray, hRows, hColumns, by simpa using h⟩
      else refuse (.arrayNotConformable "data" expected data.length)
    else refuse (.notPositive "columns")
  else refuse (.notPositive "rows")

def ofRowMajor? [Zero α] (rows columns : Nat) (data : List α) : Checked (Mat α) :=
  if hRows : 0 < rows then
    if hColumns : 0 < columns then do
      let expected ← area rows columns
      if data.length = rows * columns then
        let source := data.toArray
        return tabulate rows columns hRows hColumns fun r c => source.getD (r * columns + c) 0
      else refuse (.arrayNotConformable "data" expected data.length)
    else refuse (.notPositive "columns")
  else refuse (.notPositive "rows")

def raggedRow? (expected : Nat) (rows : List (List α)) : Option (Nat × Nat) :=
  (rows.zipIdx.find? fun p => p.1.length ≠ expected).map fun p => (p.2, p.1.length)

def ofRows? [Zero α] (rows : List (List α)) : Checked (Mat α) :=
  if hRows : 0 < rows.length then
    let columns := (rows.headD []).length
    if hColumns : 0 < columns then
      match raggedRow? columns rows with
      | some (row, found) => refuse (.raggedRows row columns found)
      | none =>
        .ok (tabulate rows.length columns hRows hColumns fun r c => (rows.getD r []).getD c 0)
    else refuse (.notPositive "columns")
  else refuse (.notPositive "rows")

def ofTable? (rows columns : Nat) (table : Nat → Nat → α) : Checked (Mat α) :=
  if hRows : 0 < rows then
    if hColumns : 0 < columns then .ok (tabulate rows columns hRows hColumns table)
    else refuse (.notPositive "columns")
  else refuse (.notPositive "rows")

end Construction

section Export
variable [Zero α]

def columnElements (A : Mat α) : List α :=
  (columnwise A.rows A.columns).map fun p => A.entry p.1 p.2

/-- The elements column by column: the block itself, or element by element. -/
def toColumnMajor (A : Mat α) : List α :=
  match A.storage with
  | .dense => A.data.toList
  | .scattered => A.columnElements

theorem length_toColumnMajor (A : Mat α) : A.toColumnMajor.length = A.rows * A.columns := by
  unfold toColumnMajor
  split
  · simpa using A.size_eq
  · simp [columnElements, length_columnwise]

def toRowMajor (A : Mat α) : List α :=
  (rowwise A.rows A.columns).map fun p => A.entry p.1 p.2

def toRows (A : Mat α) : List (List α) :=
  (List.range A.rows).map fun r => (List.range A.columns).map fun c => A.entry r c

def toDense (A : Mat α) : Mat α :=
  match A.storage with
  | .dense => A
  | .scattered =>
    ⟨.dense, A.rows, A.columns, A.toColumnMajor.toArray, A.rows_pos, A.columns_pos,
      by simpa using A.length_toColumnMajor⟩

/-- The elements of the block of a dense matrix, as a table without storage. -/
def toTable (A : Mat α) (r c : Nat) : α := A.data.getD (c * A.rows + r) 0

/-- The same elements, kept row by row with access to single ones only. -/
def scatter (A : Mat α) : Mat α :=
  ⟨.scattered, A.rows, A.columns, A.toRowMajor.toArray, A.rows_pos, A.columns_pos,
    by simp [toRowMajor, length_rowwise]⟩

end Export
end Mat
end Almanac
