import Almanac.Mat.Arithmetic

/-! # Matrices made of blocks

Side by side, one above the other, along the diagonal, the Kronecker product, the outer product of
two vectors, and the transpose. Every builder that fills a result of a given shape checks the shape
before it writes.
-/
namespace Almanac.Mat
set_option autoImplicit false
open Linear

variable {α : Type} [Zero α]

/-- Copies a block to the place with the top left corner at a row and a column. -/
def writeBlock (result : Mat α) (block : Mat α) (row column : Nat) : Mat α :=
  result.writeWindow row column block.rows block.columns block.entry

def writeBeside (A right result : Mat α) : Mat α :=
  (result.writeBlock A 0 0).writeBlock right 0 A.columns

def checkRight (A right : Mat α) : Checked Unit :=
  checkShape "right" (A.rows, right.columns) right.shape

def appendElementsInto (A right : Mat α) : Change α Unit := do
  Edit.require (checkRight A right)
  let result ← Edit.current
  Edit.require (checkResultShape (A.rows, A.columns + right.columns) result.shape)
  Edit.write (A.writeBeside right)

/-- Blocks by columns follow each other. -/
def joinBlocks (result A right : Mat α) : Mat α :=
  if h : A.data.size + right.data.size = result.data.size then
    { result with data := A.data ++ right.data, size_eq := by simp [h, result.size_eq] }
  else result

/-- `[A | right]`. -/
def appendInto (A right : Mat α) : Change α Unit := do
  match A.storage with
  | .scattered => A.appendElementsInto right
  | .dense =>
    Edit.require (checkRight A right)
    let result ← Edit.current
    Edit.require (checkResultShape (A.rows, A.columns + right.columns) result.shape)
    match right.storage, result.storage with
    | .dense, .dense => Edit.write fun result => result.joinBlocks A right
    | _, _ => Edit.write (A.writeBeside right)

def append (A right : Mat α) : Checked (Mat α) := do
  Edit.result (← zeros? A.rows (A.columns + right.columns)) (A.appendInto right)

/-- `A` above `lower`. -/
def stackInto (A lower : Mat α) : Change α Unit := do
  Edit.require (checkShape "lower" (lower.rows, A.columns) lower.shape)
  let result ← Edit.current
  Edit.require (checkResultShape (A.rows + lower.rows, A.columns) result.shape)
  Edit.write fun result => (result.writeBlock A 0 0).writeBlock lower A.rows 0

def stack (A lower : Mat α) : Checked (Mat α) := do
  Edit.result (← zeros? (A.rows + lower.rows) A.columns) (A.stackInto lower)

/-- `A` and `lower` along the diagonal, with zeros elsewhere. -/
def diagonalStackInto (A lower : Mat α) : Change α Unit := do
  let result ← Edit.current
  Edit.require (checkResultShape (A.rows + lower.rows, A.columns + lower.columns) result.shape)
  clear
  Edit.write fun result => (result.writeBlock A 0 0).writeBlock lower A.rows A.columns

def diagonalStack (A lower : Mat α) : Checked (Mat α) := do
  Edit.result (← zeros? (A.rows + lower.rows) (A.columns + lower.columns))
    (A.diagonalStackInto lower)

section Product
variable [Mul α]

/-- The block at `(i, j)` is `A i j` times the other matrix. -/
def kroneckerInto (A other : Mat α) : Change α Unit := do
  let result ← Edit.current
  Edit.require (checkResultShape (A.rows * other.rows, A.columns * other.columns) result.shape)
  Edit.write fun result =>
    (columnwise A.rows A.columns).foldl (fun result p =>
      let factor := A.entry p.1 p.2
      result.writeWindow (p.1 * other.rows) (p.2 * other.columns) other.rows other.columns
        fun k l => factor * other.entry k l) result

def kronecker (A other : Mat α) : Checked (Mat α) := do
  Edit.result (← zeros? (A.rows * other.rows) (A.columns * other.columns))
    (A.kroneckerInto other)

/-- The product of a column `u` and a row `v`. -/
def outerInto (u v : Vec α) : Change α Unit := do
  let result ← Edit.current
  Edit.require (checkResultShape (u.count, v.count) result.shape)
  Edit.write fun result =>
    result.writeWindow 0 0 u.count v.count fun r c => u.entry r * v.entry c

def outer (u v : Vec α) : Checked (Mat α) := do
  Edit.result (← zeros? u.count v.count) (outerInto u v)

end Product

def transposeInto (A : Mat α) : Change α Unit := do
  let result ← Edit.current
  Edit.require (checkResultShape (A.columns, A.rows) result.shape)
  Edit.write fun result =>
    (columnwise A.rows A.columns).foldl (fun B p => B.put p.2 p.1 (A.entry p.1 p.2)) result

/-- The elements row by row are the block of the transpose. -/
def transposeElements (A : Mat α) : Mat α :=
  ⟨.dense, A.columns, A.rows, A.toRowMajor.toArray, A.columns_pos, A.rows_pos,
    by simp [toRowMajor, length_rowwise, Nat.mul_comm]⟩

omit [Zero α] in
theorem size_foldl_set {β : Type} (ps : List β) (place : β → Nat) (f : β → α) (data : Array α) :
    (ps.foldl (fun data p => data.setIfInBounds (place p) (f p)) data).size = data.size := by
  induction ps generalizing data with
  | nil => rfl
  | cons p ps ih => rw [List.foldl_cons, ih, Array.size_setIfInBounds]

/-- Moves the element at `c * rows + r` of the block to `r * columns + c`. -/
def transposeBlock (A : Mat α) : Mat α where
  storage := .dense
  rows := A.columns
  columns := A.rows
  data := (columnwise A.rows A.columns).foldl (fun data p =>
    data.setIfInBounds (p.1 * A.columns + p.2) (A.data.getD (p.2 * A.rows + p.1) 0))
    (Array.replicate (A.rows * A.columns) 0)
  rows_pos := A.columns_pos
  columns_pos := A.rows_pos
  size_eq := by
    rw [size_foldl_set (columnwise A.rows A.columns) (fun p : Nat × Nat => p.1 * A.columns + p.2)
      (fun p : Nat × Nat => A.data.getD (p.2 * A.rows + p.1) 0), Array.size_replicate, Nat.mul_comm]

def transpose (A : Mat α) : Mat α :=
  match A.storage with
  | .dense => A.transposeBlock
  | .scattered => A.transposeElements

end Almanac.Mat
