import Almanac.Factor.Block

/-! # Cholesky factors

Determinant, inverse and solutions of a symmetric matrix from its lower factor, `A = L * Lᵀ`. A
library makes the factor and substitutes through it, and nothing is assumed of it here. The
determinant is computed from the diagonal of the factor as the library keeps it, which has anything
above the diagonal.
-/
namespace Almanac
set_option autoImplicit false
open Linear

/-- The Cholesky factorization that a library has for square blocks. -/
class CholeskyMethod (α : Type) where
  Factor : Type
  factorize? : Block α → Option Factor
  /-- The factor, with zeros above the diagonal. -/
  lower : Factor → Block α
  /-- The factor as it is kept. -/
  dirty : Factor → Block α
  inverse : Factor → Block α
  solve : Factor → Block α → Block α

structure CholeskyFactor (α : Type) [CholeskyMethod α] where
  factors : CholeskyMethod.Factor α
  order : Nat

namespace CholeskyFactor
variable {α : Type} [CholeskyMethod α]

def factor (G : CholeskyFactor α) : Checked (Mat α) := (CholeskyMethod.lower G.factors).toMat

def inverse (G : CholeskyFactor α) : Checked (Mat α) := (CholeskyMethod.inverse G.factors).toMat

variable [Zero α]

def ofMat (A : Mat α) : Checked (CholeskyFactor α) := do
  checkSquare A.shape
  match CholeskyMethod.factorize? A.toBlock with
  | some factors => return ⟨factors, A.rows⟩
  | none => refuse .notPositiveDefinite

/-- The square of the product along the diagonal. -/
def determinant [One α] [Mul α] (G : CholeskyFactor α) : α :=
  let L := CholeskyMethod.dirty G.factors
  let product := (List.range G.order).foldl (fun d i => d * L.entry i i) 1
  product * product

def solve (G : CholeskyFactor α) (B : Mat α) : Checked (Mat α) := do
  checkShape "rhs" (G.order, B.columns) B.shape
  (CholeskyMethod.solve G.factors B.toBlock).toMat

def solveVector (G : CholeskyFactor α) (b : Vec α) : Checked (Vec α) := do
  checkCount "rhs" G.order b.count
  (CholeskyMethod.solve G.factors b.toBlock).toVec

end CholeskyFactor
end Almanac
