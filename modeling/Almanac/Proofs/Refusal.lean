import Almanac.Mat.Block
import Almanac.Mat.Product
import Almanac.Mat.Region
import Almanac.Proofs.Edit

/-! # Refused requests

The operations that write into a vector or a matrix and may be refused, as data. Main statement: all
checks of a request come before its first write, so that a refused request leaves the elements, the
shape and the storage that it found, whatever the storage of its arguments.
-/
namespace Almanac
set_option autoImplicit false
open Linear Edit

variable {α : Type} [Zero α]

namespace Vec

/-- A request to a vector, which is changed in place or takes the result of an operation. -/
inductive Request (α : Type) where
  | assign (index : Nat) (x : α)
  | addAssign (other : Vec α)
  | subtractAssign (other : Vec α)
  | addScaled (scale : α) (other : Vec α)
  | setValues (values : List α)
  | addScalarInto (v : Vec α) (x : α)
  | subtractScalarInto (v : Vec α) (x : α)
  | multiplyScalarInto (v : Vec α) (x : α)
  | divideScalarInto (v : Vec α) (x : α)
  | negateInto (v : Vec α)
  | addInto (v other : Vec α)
  | subtractInto (v other : Vec α)
  | addScaledInto (v : Vec α) (scale : α) (other : Vec α)
  | pointwiseMultiplyInto (v other : Vec α)
  | copyTo (v : Vec α)
  | copyRangeTo (v : Vec α) (offset destination length : Nat)
  | columnInto (A : Mat α) (index row length : Nat)
  | rowInto (A : Mat α) (index column length : Nat)
  | multiplyVectorInto (A : Mat α) (v : Vec α)
  | multiplyVectorAssign (A : Mat α)
  | leftMultiplyInto (A : Mat α) (v : Vec α)

section Families
variable (op : α → α → α) (f : α → α) (v other w : Vec α)

theorem guarded_combineElements : GuardedAt w (combineElements op other) :=
  .current (.require (.write _))

theorem guarded_combine : GuardedAt w (combine op other) := by
  refine .current ?_
  split
  · exact .require (.write _)
  · exact guarded_combineElements op other w

theorem guarded_combineElementsInto : GuardedAt w (combineElementsInto op v other) :=
  .require (.current (.require (.write _)))

theorem guarded_combineInto : GuardedAt w (combineInto op v other) := by
  rw [combineInto]
  split
  · exact guarded_combineElementsInto op v other w
  · refine .require (.current (.require ?_))
    split
    · exact .write _
    · exact guarded_combineElementsInto op v other w

omit [Zero α] in
theorem guarded_assign (index : Nat) (x : α) : GuardedAt w (assign index x) := by
  refine .current (.require ?_)
  exact .current (.require (.write _))

theorem guarded_mapInto : GuardedAt w (v.mapInto f) := .current (.require (.write _))

theorem guarded_copyElementsTo : GuardedAt w v.copyElementsTo := .current (.require (.write _))

theorem guarded_copyTo : GuardedAt w v.copyTo := by
  rw [copyTo]
  split
  · exact guarded_copyElementsTo v w
  · refine .current (.require ?_)
    split
    · exact .write _
    · exact guarded_copyElementsTo v w

theorem guarded_copyRangeTo (offset destination length : Nat) :
    GuardedAt w (v.copyRangeTo offset destination length) := by
  rw [copyRangeTo]
  split
  · exact .require (.current (.require (.write _)))
  · refine .require (.current (.require ?_))
    split
    · exact .write _
    · exact .require (.current (.require (.write _)))

theorem guarded_columnInto (A : Mat α) (index row length : Nat) :
    GuardedAt w (A.columnInto index row length) := by
  rw [Mat.columnInto]
  split
  · exact .require (.current (.require (.write _)))
  · exact .require (.current (.require (.write _)))

theorem guarded_multiplyVectorInto [Add α] [Mul α] (A : Mat α) :
    GuardedAt w (A.multiplyVectorInto v) := .require (.current (.require (.write _)))

end Families

variable [One α] [Add α] [Sub α] [Mul α] [Div α] [Neg α]

def Request.perform : Request α → Change α Unit
  | assign index x => Vec.assign index x
  | addAssign other => Vec.addAssign other
  | subtractAssign other => Vec.subtractAssign other
  | addScaled scale other => Vec.addScaled scale other
  | setValues values => Vec.setValues values
  | addScalarInto v x => v.addScalarInto x
  | subtractScalarInto v x => v.subtractScalarInto x
  | multiplyScalarInto v x => v.multiplyScalarInto x
  | divideScalarInto v x => v.divideScalarInto x
  | negateInto v => v.negateInto
  | addInto v other => v.addInto other
  | subtractInto v other => v.subtractInto other
  | addScaledInto v scale other => v.addScaledInto scale other
  | pointwiseMultiplyInto v other => v.pointwiseMultiplyInto other
  | copyTo v => v.copyTo
  | copyRangeTo v offset destination length => v.copyRangeTo offset destination length
  | columnInto A index row length => A.columnInto index row length
  | rowInto A index column length => A.rowInto index column length
  | multiplyVectorInto A v => A.multiplyVectorInto v
  | multiplyVectorAssign A => A.multiplyVectorAssign
  | leftMultiplyInto A v => A.leftMultiplyInto v

theorem Request.guarded (request : Request α) (w : Vec α) : GuardedAt w request.perform := by
  cases request with
  | assign index x => exact guarded_assign w index x
  | addAssign other => exact guarded_combine (· + ·) other w
  | subtractAssign other => exact guarded_combine (· - ·) other w
  | addScaled scale other => exact guarded_combineElements (fun a b => a + scale * b) other w
  | setValues values => exact .current (.require (.write _))
  | addScalarInto v x => exact guarded_mapInto (· + x) v w
  | subtractScalarInto v x => exact guarded_mapInto (· + -x) v w
  | multiplyScalarInto v x => exact guarded_mapInto (· * x) v w
  | divideScalarInto v x => exact guarded_mapInto (· * (1 / x)) v w
  | negateInto v => exact guarded_mapInto (· * -1) v w
  | addInto v other => exact guarded_combineInto (· + ·) v other w
  | subtractInto v other => exact guarded_combineInto (· - ·) v other w
  | addScaledInto v scale other =>
    exact guarded_combineElementsInto (fun a b => a + scale * b) v other w
  | pointwiseMultiplyInto v other => exact guarded_combineInto (· * ·) v other w
  | copyTo v => exact guarded_copyTo v w
  | copyRangeTo v offset destination length =>
    exact guarded_copyRangeTo v w offset destination length
  | columnInto A index row length => exact guarded_columnInto w A index row length
  | rowInto A index column length => exact .require (.require (.current (.require (.write _))))
  | multiplyVectorInto A v => exact guarded_multiplyVectorInto v w A
  | multiplyVectorAssign A => exact .require (.current (guarded_multiplyVectorInto _ w A))
  | leftMultiplyInto A v => exact .require (.current (.require (.write _)))

end Vec

namespace Mat

/-- A request to a matrix, which is changed in place or takes the result of an operation. -/
inductive Request (α : Type) where
  | assign (r c : Nat) (x : α)
  | addAssign (other : Mat α)
  | subtractAssign (other : Mat α)
  | multiplyAssign (other : Mat α)
  | gemm (s : Scaling α) (sideA sideB : Side) (A B : Mat α)
  | gemmWith (s : Scaling α) (sideA sideB : Side) (a b : Operand α)
  | setColumn (index : Nat) (column : Vec α)
  | setColumnValues (index : Nat) (column : List α)
  | setRow (index : Nat) (row : Vec α)
  | setRowValues (index : Nat) (row : List α)
  | setDiagonal (diagonal : Vec α)
  | setDiagonalValues (diagonal : List α)
  | setSubMatrix (row column : Nat) (block : Mat α)
  | addScalarInto (A : Mat α) (x : α)
  | subtractScalarInto (A : Mat α) (x : α)
  | multiplyScalarInto (A : Mat α) (x : α)
  | divideScalarInto (A : Mat α) (x : α)
  | negateInto (A : Mat α)
  | addInto (A other : Mat α)
  | subtractInto (A other : Mat α)
  | pointwiseMultiplyInto (A other : Mat α)
  | copyTo (A : Mat α)
  | appendInto (A right : Mat α)
  | stackInto (A lower : Mat α)
  | diagonalStackInto (A lower : Mat α)
  | kroneckerInto (A other : Mat α)
  | outerInto (u v : Vec α)
  | transposeInto (A : Mat α)
  | multiplyInto (A B : Mat α)
  | triangleInto (part : Triangle) (A : Mat α)

section Families
variable (op : α → α → α) (f : α → α) (A other C : Mat α)

theorem guarded_combineElements : GuardedAt C (combineElements op other) :=
  .current (.require (.write _))

theorem guarded_combine : GuardedAt C (combine op other) := by
  refine .current ?_
  split
  · exact guarded_combineElements op other C
  · refine .require ?_
    split
    · exact .write _
    · exact guarded_combineElements op other C

theorem guarded_combineElementsInto : GuardedAt C (combineElementsInto op A other) :=
  .require (.current (.require (.write _)))

theorem guarded_combineInto : GuardedAt C (combineInto op A other) := by
  rw [combineInto]
  split
  · exact guarded_combineElementsInto op A other C
  · refine .require (.current (.require ?_))
    split
    · exact .write _
    · exact guarded_combineElementsInto op A other C

omit [Zero α] in
theorem guarded_assign (r c : Nat) (x : α) : GuardedAt C (assign r c x) := by
  refine .current (.require (.require ?_))
  exact .current (.require (.write _))

theorem guarded_mapInto : GuardedAt C (A.mapInto f) := .current (.require (.write _))

theorem guarded_copyTo : GuardedAt C A.copyTo := by
  rw [copyTo]
  split
  · exact guarded_mapInto id A C
  · refine .current (.require ?_)
    split
    · exact .write _
    · exact guarded_mapInto id A C

theorem guarded_appendInto : GuardedAt C (A.appendInto other) := by
  rw [appendInto]
  split
  · exact .require (.current (.require (.write _)))
  · refine .require (.current (.require ?_))
    split
    · exact .write _
    · exact .write _

section Product
variable [One α] [Add α] [Mul α] [Neg α] [BEq α]

theorem guarded_gemm (s : Scaling α) (sideA sideB : Side) (A B C : Mat α) :
    GuardedAt C (gemm s sideA sideB A B) := by
  refine .require (.current (.require ?_))
  split
  · exact .write _
  · split
    · dsimp only
      split
      · exact .write _
      · exact .check _
    · exact .write _

theorem guarded_gemmWith (s : Scaling α) (sideA sideB : Side) (a b : Operand α) (C : Mat α) :
    GuardedAt C (gemmWith s sideA sideB a b) := .current (guarded_gemm s sideA sideB _ _ C)

end Product

end Families

variable [One α] [Add α] [Sub α] [Mul α] [Div α] [Neg α] [BEq α]

def Request.perform : Request α → Change α Unit
  | assign r c x => Mat.assign r c x
  | addAssign other => Mat.addAssign other
  | subtractAssign other => Mat.subtractAssign other
  | multiplyAssign other => Mat.multiplyAssign other
  | gemm s sideA sideB A B => Mat.gemm s sideA sideB A B
  | gemmWith s sideA sideB a b => Mat.gemmWith s sideA sideB a b
  | setColumn index column => Mat.setColumn index column
  | setColumnValues index column => Mat.setColumnValues index column
  | setRow index row => Mat.setRow index row
  | setRowValues index row => Mat.setRowValues index row
  | setDiagonal diagonal => Mat.setDiagonal diagonal
  | setDiagonalValues diagonal => Mat.setDiagonalValues diagonal
  | setSubMatrix row column block => Mat.setSubMatrix row column block
  | addScalarInto A x => A.addScalarInto x
  | subtractScalarInto A x => A.subtractScalarInto x
  | multiplyScalarInto A x => A.multiplyScalarInto x
  | divideScalarInto A x => A.divideScalarInto x
  | negateInto A => A.negateInto
  | addInto A other => A.addInto other
  | subtractInto A other => A.subtractInto other
  | pointwiseMultiplyInto A other => A.pointwiseMultiplyInto other
  | copyTo A => A.copyTo
  | appendInto A right => A.appendInto right
  | stackInto A lower => A.stackInto lower
  | diagonalStackInto A lower => A.diagonalStackInto lower
  | kroneckerInto A other => A.kroneckerInto other
  | outerInto u v => Mat.outerInto u v
  | transposeInto A => A.transposeInto
  | multiplyInto A B => A.multiplyInto B
  | triangleInto part A => Mat.triangleInto part A

theorem Request.guarded (request : Request α) (C : Mat α) : GuardedAt C request.perform := by
  cases request with
  | assign r c x => exact guarded_assign C r c x
  | addAssign other => exact guarded_combine (· + ·) other C
  | subtractAssign other => exact guarded_combine (· - ·) other C
  | multiplyAssign other => exact guarded_gemmWith _ _ _ _ _ C
  | gemm s sideA sideB A B => exact guarded_gemm s sideA sideB A B C
  | gemmWith s sideA sideB a b => exact guarded_gemmWith s sideA sideB a b C
  | setColumn index column => exact .current (.require (.require (.write _)))
  | setColumnValues index column => exact .current (.require (.require (.write _)))
  | setRow index row => exact .current (.require (.require (.write _)))
  | setRowValues index row => exact .current (.require (.require (.write _)))
  | setDiagonal diagonal => exact .current (.require (.write _))
  | setDiagonalValues diagonal => exact .current (.require (.write _))
  | setSubMatrix row column block => exact .current (.require (.require (.write _)))
  | addScalarInto A x => exact guarded_mapInto (· + x) A C
  | subtractScalarInto A x => exact guarded_mapInto (· + -x) A C
  | multiplyScalarInto A x => exact guarded_mapInto (· * x) A C
  | divideScalarInto A x => exact guarded_mapInto (· * (1 / x)) A C
  | negateInto A => exact guarded_mapInto (· * -1) A C
  | addInto A other => exact guarded_combineInto (· + ·) A other C
  | subtractInto A other => exact guarded_combineInto (· - ·) A other C
  | pointwiseMultiplyInto A other => exact guarded_combineInto (· * ·) A other C
  | copyTo A => exact guarded_copyTo A C
  | appendInto A right => exact guarded_appendInto A right C
  | stackInto A lower => exact .require (.current (.require (.write _)))
  | diagonalStackInto A lower => exact .current (.require (.write_write _ _))
  | kroneckerInto A other => exact .current (.require (.write _))
  | outerInto u v => exact .current (.require (.write _))
  | transposeInto A => exact .current (.require (.write _))
  | multiplyInto A B => exact .require (.current (.require (guarded_gemm _ _ _ A B C)))
  | triangleInto part A => exact .current (.require (.write _))

end Mat

/-- A refused request to a vector or a matrix leaves it as it was. -/
theorem refused_request_changes_nothing [One α] [Add α] [Sub α] [Mul α] [Div α] [Neg α] [BEq α] :
    (∀ (request : Vec.Request α) (v w : Vec α) (reason : Linear.Error),
      runOn v request.perform = (.error (.refused reason), w) → w = v) ∧
    ∀ (request : Mat.Request α) (A B : Mat α) (reason : Linear.Error),
      runOn A request.perform = (.error (.refused reason), B) → B = A := by
  constructor
  · intro request v w reason hRun
    have hGuarded := request.guarded v reason
    rw [hRun] at hGuarded
    exact hGuarded rfl
  · intro request A B reason hRun
    have hGuarded := request.guarded A reason
    rw [hRun] at hGuarded
    exact hGuarded rfl

/-- A copy past the end, and a stack whose result has no room, although it clears what it fills. -/
theorem misfits_are_kept :
    let v : Vec Float := .fill 2 (by decide) 7
    let C : Mat Float := .fill 1 1 (by decide) (by decide) 7
    runOn v (Vec.Request.copyRangeTo v 0 1 2).perform =
        (.error (.refused (.indexOutOfRange "dest_offset" 2 2)), v) ∧
      runOn C (Mat.Request.diagonalStackInto C C).perform =
        (.error (.refused (.resultNotConformable "result" (2, 2) (1, 1))), C) := by
  intro v C
  obtain ⟨w, hCopy⟩ : ∃ w, runOn v (Vec.Request.copyRangeTo v 0 1 2).perform =
      (.error (.refused (.indexOutOfRange "dest_offset" 2 2)), w) := ⟨_, rfl⟩
  obtain ⟨D, hStack⟩ : ∃ D, runOn C (Mat.Request.diagonalStackInto C C).perform =
      (.error (.refused (.resultNotConformable "result" (2, 2) (1, 1))), D) := ⟨_, rfl⟩
  refine ⟨?_, ?_⟩
  · rw [hCopy, refused_request_changes_nothing.1 _ v w _ hCopy]
  · rw [hStack, refused_request_changes_nothing.2 _ C D _ hStack]

end Almanac
