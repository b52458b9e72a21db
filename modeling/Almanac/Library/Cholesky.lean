import Almanac.Factor.Cholesky
import Almanac.Library.Triangular

/-! # Cholesky factors row by row

The Cholesky factors that programs run with. The rows of the lower factor come from the lower
triangle of a square block. A reduced diagonal entry that is not positive refuses the block. The
factor is kept in the place of the lower triangle, with the block's own elements above it.
-/
namespace Almanac.Library
set_option autoImplicit false

/-- A row of the factor: the entries before the diagonal, and the diagonal one. -/
structure FactorRow (α : Type) where
  before : List α
  diagonal : α
deriving Repr

structure Cholesky (α : Type) where
  source : Block α
  rows : List (FactorRow α)

namespace Cholesky
variable {α : Type}
variable [Zero α] [One α] [Add α] [Mul α] [Neg α] [Div α]

/-- The entries before the diagonal of the next row, from the rows above it. -/
def entriesBefore (above : List (FactorRow α)) (row : List α) : List α :=
  (List.zip above row).foldl (fun solved p =>
    solved ++ [reduceBy p.2 solved p.1.before / p.1.diagonal]) []

section Factor
variable [Elementary α] [LT α] [DecidableLT α]

/-- Factors the rows of a lower triangle below those that are done. -/
def extend (above : List (FactorRow α)) : List (List α) → Option (List (FactorRow α))
  | [] => some above
  | row :: rest =>
    let before := entriesBefore above row
    let reduced := reduceBy (row.getD above.length 0) before before
    if 0 < reduced then extend (above ++ [⟨before, sqrt reduced⟩]) rest else none

def ofBlock? (M : Block α) : Option (Cholesky α) := do
  return ⟨M, ← extend [] M.toRows⟩

end Factor

def order (F : Cholesky α) : Nat := F.rows.length

/-- The lower factor, with what `above` gives at the positions above the diagonal. -/
def lower (F : Cholesky α) (above : Nat → Nat → α) : Block α :=
  let table := (F.rows.map fun row => (row.before ++ [row.diagonal]).toArray).toArray
  .ofFn F.order F.order fun r c => if c ≤ r then (table.getD r #[]).getD c 0 else above r c

/-- The entries of the factor below a diagonal entry. -/
def below (F : Cholesky α) (i : Nat) : List α :=
  (F.rows.drop (i + 1)).map fun row => row.before.getD i 0

/-- Substitutes a right-hand side through the factor and its transpose. -/
def substitute (F : Cholesky α) (b : List α) : List α :=
  let lower := solveLower (List.zipWith (fun row x => (row.before, row.diagonal, x)) F.rows b)
  let upper := List.zipWith (fun row y => (row.1.diagonal, F.below row.2, y)) F.rows.zipIdx lower
  solveUpper upper

abbrev method [Elementary α] [LT α] [DecidableLT α] : CholeskyMethod α where
  Factor := Cholesky α
  factorize? := ofBlock?
  lower F := F.lower fun _ _ => 0
  dirty F := F.lower F.source.entry
  inverse F := (Block.identity F.order).mapColumns F.substitute
  solve F B := B.mapColumns F.substitute

end Cholesky

instance : CholeskyMethod Float := Cholesky.method

end Almanac.Library
