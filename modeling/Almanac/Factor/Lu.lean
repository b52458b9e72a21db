import Almanac.Factor.Block

/-! # Triangular factors

Determinant, inverse and solutions of a square matrix from its factors `P * A = L * U`. A library
makes the factors and substitutes through them, and nothing is assumed of it here.
-/
namespace Almanac
set_option autoImplicit false
open Linear

/-- The factorization with exchanges of rows that a library has for square blocks. It solves nothing
when a diagonal entry of `U` is zero. -/
class LuMethod (α : Type) where
  Factors : Type
  factorize : Block α → Factors
  determinant : Factors → α
  inverse? : Factors → Option (Block α)
  solve? : Factors → Block α → Option (Block α)

structure Lu (α : Type) [LuMethod α] where
  factors : LuMethod.Factors α
  order : Nat

namespace Lu
variable {α β : Type}

/-- What a library solved, as it goes out, or the refusal of a singular matrix. -/
def solved (out : Block α → Checked β) : Option (Block α) → Checked β
  | some X => out X
  | none => refuse .singular

variable [Zero α] [LuMethod α]

def ofMat (A : Mat α) : Checked (Lu α) := do
  checkSquare A.shape
  return ⟨LuMethod.factorize A.toBlock, A.rows⟩

def determinant (F : Lu α) : α := LuMethod.determinant F.factors

def inverse (F : Lu α) : Checked (Mat α) := solved Block.toMat (LuMethod.inverse? F.factors)

def solve (F : Lu α) (B : Mat α) : Checked (Mat α) := do
  checkShape "rhs" (F.order, B.columns) B.shape
  solved Block.toMat (LuMethod.solve? F.factors B.toBlock)

def solveVector (F : Lu α) (b : Vec α) : Checked (Vec α) := do
  checkCount "rhs" F.order b.count
  solved Block.toVec (LuMethod.solve? F.factors b.toBlock)

end Lu

namespace Mat
variable {α : Type} [Zero α] [LuMethod α]

def determinant (A : Mat α) : Checked α := do return (← Lu.ofMat A).determinant

def inverse (A : Mat α) : Checked (Mat α) := do (← Lu.ofMat A).inverse

def solve (A B : Mat α) : Checked (Mat α) := do (← Lu.ofMat A).solve B

def solveVector (A : Mat α) (b : Vec α) : Checked (Vec α) := do (← Lu.ofMat A).solveVector b

end Mat
end Almanac
