import Almanac.Factor.Block

/-! # Singular values

The singular values of a matrix, which a library computes in any order or not at all, from the
greatest to the least. The norm and the condition number are read off the ends.
-/
namespace Almanac
set_option autoImplicit false
open Linear

/-- The singular values that a library finds for a block, if it comes to an end. -/
class SingularMethod where
  values? : Block Float → Option (List Float)

structure Svd where
  singularValues : List Float

namespace Svd

def ofMat [SingularMethod] (A : Mat Float) : Checked Svd :=
  match SingularMethod.values? A.toBlock with
  | some values => .ok ⟨values.mergeSort fun a b => ranksUpTo b a⟩
  | none => refuse (.noConvergence "SVD")

/-- The greatest singular value. -/
def norm (D : Svd) : Float := D.singularValues.headD 0

/-- The ratio of the extreme singular values; infinite where the least one is not positive. -/
def conditionNumber (D : Svd) : Float :=
  match D.singularValues.head?, D.singularValues.getLast? with
  | some greatest, some least => if 0 < least then greatest / least else 1 / 0
  | _, _ => 1 / 0

end Svd

namespace Mat

def spectralNorm [SingularMethod] (A : Mat Float) : Checked Float := do
  return (← Svd.ofMat A).norm

def conditionNumber [SingularMethod] (A : Mat Float) : Checked Float := do
  return (← Svd.ofMat A).conditionNumber

end Mat
end Almanac
