import Almanac.Mat.Basic

/-! # Blocks of a factorization library

A library of factorizations has matrices of its own, which keep their elements column by column. The
block of a dense matrix or vector is copied whole, and a scattered one is read element by element;
what the library gives back becomes dense.
-/
namespace Almanac
set_option autoImplicit false
open Linear

structure Block (α : Type) where
  rows : Nat
  columns : Nat
  data : Array α
  size_eq : data.size = rows * columns

namespace Block
variable {α : Type}

/-- The block with `f r c` at row `r` and column `c`. -/
def ofFn (rows columns : Nat) (f : Nat → Nat → α) : Block α where
  rows := rows
  columns := columns
  data := ((Mat.columnwise rows columns).map fun p => f p.1 p.2).toArray
  size_eq := Mat.size_map_columnwise rows columns f

/-- The element at a position inside the shape. -/
def entry [Zero α] (M : Block α) (r c : Nat) : α := M.data.getD (c * M.rows + r) 0

/-- A dense copy; nothing without elements is a matrix. -/
def toMat (M : Block α) : Checked (Mat α) :=
  if h : 0 < M.rows ∧ 0 < M.columns then
    .ok ⟨.dense, M.rows, M.columns, M.data, h.1, h.2, M.size_eq⟩
  else fault

/-- The elements as a dense vector. -/
def toVec (M : Block α) : Checked (Vec α) :=
  if h : 0 < M.data.size then .ok ⟨.dense, M.data, h⟩ else fault

end Block

variable {α : Type} [Zero α]

def Mat.toBlock (A : Mat α) : Block α :=
  match A.storage with
  | .dense => ⟨A.rows, A.columns, A.data, A.size_eq⟩
  | .scattered => .ofFn A.rows A.columns A.entry

/-- A vector is a block with one column. -/
def Vec.toBlock (v : Vec α) : Block α :=
  match v.storage with
  | .dense => ⟨v.count, 1, v.entries, (Nat.mul_one v.count).symm⟩
  | .scattered => .ofFn v.count 1 fun i _ => v.entry i

end Almanac
