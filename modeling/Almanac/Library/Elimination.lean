import Almanac.Factor.Lu
import Almanac.Library.Triangular

/-! # Elimination with partial pivoting

The triangular factors that programs run with. In each column the first remaining entry of largest
magnitude is the pivot, and its row takes the place of the first remaining row. A column of zeros is
passed over, and then the factors are singular.
-/
namespace Almanac.Library
set_option autoImplicit false

/-- A row on its way through the elimination: the row of the matrix that it comes from, its
multipliers so far and what remains of it. -/
structure PartialRow (α : Type) where
  source : Nat
  lower : List α
  rest : List α
deriving Repr

/-- A finished row: `pivot` stands on the diagonal of the upper factor, and `upper` follows it. -/
structure PivotRow (α : Type) where
  source : Nat
  lower : List α
  pivot : α
  upper : List α
deriving Repr

/-- The factors, row by row, with the number of exchanges of rows. -/
structure Elimination (α : Type) where
  rows : List (PivotRow α)
  exchanges : Nat
deriving Repr

namespace Elimination
variable {α : Type}

section Pivot
variable [Zero α] [Magnitude α] [LT α] [DecidableLT α]

/-- The position of the first row whose leading entry has the largest magnitude. -/
def pivotPosition (rows : List (PartialRow α)) : Nat :=
  match rows.map fun row => abs (row.rest.headD 0) with
  | [] => 0
  | first :: others =>
    (others.zipIdx.foldl (fun best p => if best.2 < p.1 then (p.2 + 1, p.1) else best) (0, first)).1

end Pivot

/-- Takes the row at a position out; the first row takes its place. -/
def exchange {β : Type} (first : β) (others : List β) (position : Nat) : β × List β :=
  match position with
  | 0 => (first, others)
  | i + 1 => (others.getD i first, others.set i first)

variable [Zero α] [One α] [Add α] [Mul α] [Neg α] [Div α] [BEq α]

/-- Subtracts the multiple of the pivot row that clears the leading entry. -/
def clearLeading (pivot : α) (upper : List α) (row : PartialRow α) : PartialRow α :=
  let multiplier := row.rest.headD 0 * (1 / pivot)
  ⟨row.source, row.lower ++ [multiplier],
    List.zipWith (fun y u => -u * multiplier + y) row.rest.tail upper⟩

/-- Leaves a row as it is where the pivot is zero. -/
def passOver (row : PartialRow α) : PartialRow α :=
  ⟨row.source, row.lower ++ [row.rest.headD 0], row.rest.tail⟩

variable [Magnitude α] [LT α] [DecidableLT α]

/-- Eliminates one column after the other. -/
def run : Nat → List (PartialRow α) → Elimination α
  | columns + 1, first :: others =>
    let position := pivotPosition (first :: others)
    let (row, others) := exchange first others position
    let pivot := row.rest.headD 0
    if pivot == 0 then
      let done := run columns (others.map passOver)
      ⟨⟨row.source, row.lower, pivot, row.rest.tail⟩ :: done.rows, done.exchanges⟩
    else
      let done := run columns (others.map (clearLeading pivot row.rest.tail))
      ⟨⟨row.source, row.lower, pivot, row.rest.tail⟩ :: done.rows,
        done.exchanges + if position = 0 then 0 else 1⟩
  | _, _ => ⟨[], 0⟩

def ofBlock (M : Block α) : Elimination α :=
  run M.rows (M.toRows.zipIdx.map fun p => ⟨p.2, [], p.1⟩)

end Elimination

namespace Elimination
variable {α : Type}

def order (F : Elimination α) : Nat := F.rows.length

variable [Zero α] [One α] [Add α] [Mul α] [Neg α] [Div α] [BEq α]

def determinant (F : Elimination α) : α :=
  let product := F.rows.foldl (fun d row => d * row.pivot) 1
  if F.exchanges % 2 = 0 then product else product * -1

def isSingular (F : Elimination α) : Bool := F.rows.any fun row => row.pivot == 0

def substitute (F : Elimination α) (b : List α) : List α :=
  let lower := solveUnitLower (F.rows.map fun row => (row.lower, b.getD row.source 0))
  solveUpper (List.zipWith (fun row y => (row.pivot, row.upper, y)) F.rows lower)

/-- A solution unless a pivot is zero. -/
def solve? (F : Elimination α) (B : Block α) : Option (Block α) :=
  if F.isSingular then none else some (B.mapColumns F.substitute)

variable [Magnitude α] [LT α] [DecidableLT α]

abbrev method : LuMethod α where
  Factors := Elimination α
  factorize := ofBlock
  determinant := determinant
  inverse? F := F.solve? (.identity F.order)
  solve? := solve?

end Elimination

instance : LuMethod Float := Elimination.method

end Almanac.Library
