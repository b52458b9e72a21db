import Mathlib.LinearAlgebra.Matrix.Block
import Mathlib.LinearAlgebra.Matrix.NonsingularInverse
import Almanac.Factor.Cholesky
import Almanac.Factor.Lu
import Almanac.Proofs.Factor.Block

/-! # Exact factorizations

What is relied on of a library of factorizations: the factors of every square block are exact, and
what it solves comes from substitution through them. Then the solutions satisfy the equations of the
block itself, and the diagonals of the factors make up its determinant.
-/
namespace Almanac
set_option autoImplicit false

namespace Factor
variable {α : Type} [Field α] {n k : Nat}

section Hypotheses
variable (L U : Matrix (Fin n) (Fin n) α) (R : Matrix (Fin n) (Fin k) α)

/-- A block comes from substitution through two triangles: `L * Y = R`, and then `U * X = Y`. -/
structure Substituted (X : Block α) : Prop where
  shape : X.HasShape n k
  through : ∃ Y, L * Y = R ∧ U * X.matrix n k = Y

/-- Substitution that fails exactly when a diagonal entry of `U` is zero. -/
structure SubstitutedUnlessZero (outcome : Option (Block α)) : Prop where
  none_iff : outcome = none ↔ ∃ i, U i i = 0
  substituted : ∀ X, outcome = some X → Substituted L U R X

/-- The factors `P * M = L * U` of a block, with ones on the diagonal of `L`, and what comes of
them. -/
structure LuFactored [LuMethod α] (M : Block α) (P : Equiv.Perm (Fin n)) : Prop where
  lower : L.IsLowerTriangular
  unit : ∀ i, L i i = 1
  upper : U.IsUpperTriangular
  product : (M.matrix n n).submatrix P id = L * U
  determinant : LuMethod.determinant (LuMethod.factorize M) = Equiv.Perm.sign P * ∏ i, U i i
  inverse : SubstitutedUnlessZero L U ((1 : Matrix (Fin n) (Fin n) α).submatrix P id)
    (LuMethod.inverse? (LuMethod.factorize M))
  solve : ∀ (k : Nat) (B : Block α), B.HasShape n k →
    SubstitutedUnlessZero L U ((B.matrix n k).submatrix P id)
      (LuMethod.solve? (LuMethod.factorize M) B)

/-- The factor of `M = L * Lᵀ`, read in the lower triangle, and what comes of it. The library keeps
the factor with anything above the diagonal. -/
structure CholeskyFactored [CholeskyMethod α] (M : Block α) (F : CholeskyMethod.Factor α) :
    Prop where
  triangular : L.IsLowerTriangular
  product : ∀ i j, j ≤ i → (L * L.transpose) i j = M.matrix n n i j
  lower_shape : (CholeskyMethod.lower F).HasShape n n
  lower : (CholeskyMethod.lower F).matrix n n = L
  dirty_shape : (CholeskyMethod.dirty F).HasShape n n
  dirty : ∀ i j, j ≤ i → (CholeskyMethod.dirty F).matrix n n i j = L i j
  inverse : Substituted L L.transpose (1 : Matrix (Fin n) (Fin n) α) (CholeskyMethod.inverse F)
  solve : ∀ (k : Nat) (B : Block α), B.HasShape n k →
    Substituted L L.transpose (B.matrix n k) (CholeskyMethod.solve F B)

variable (α)

/-- Every square block has exact factors. -/
def ExactLu [LuMethod α] : Prop :=
  ∀ (n : Nat) (M : Block α), M.HasShape n n →
    ∃ (P : Equiv.Perm (Fin n)) (L U : Matrix (Fin n) (Fin n) α), LuFactored L U M P

/-- Every factor of a square block is exact. -/
def ExactCholesky [CholeskyMethod α] : Prop :=
  ∀ (n : Nat) (M : Block α) (F : CholeskyMethod.Factor α), M.HasShape n n →
    CholeskyMethod.factorize? M = some F →
      ∃ L : Matrix (Fin n) (Fin n) α, CholeskyFactored L M F

end Hypotheses

section Lu
variable [LuMethod α] {M : Block α} {P : Equiv.Perm (Fin n)} {L U : Matrix (Fin n) (Fin n) α}

theorem LuFactored.determinant_eq (h : LuFactored L U M P) :
    LuMethod.determinant (LuMethod.factorize M) = (M.matrix n n).det := by
  have hProduct := congrArg Matrix.det h.product
  rw [Matrix.det_permute, Matrix.det_mul, Matrix.det_of_isLowerTriangular L h.lower,
    Matrix.det_of_isUpperTriangular h.upper, Finset.prod_eq_one fun i _ => h.unit i,
    one_mul] at hProduct
  have hSign : ((Equiv.Perm.sign P : ℤ) : α) * (Equiv.Perm.sign P : ℤ) = 1 := by
    rw [← Int.cast_mul, ← Units.val_mul, Int.units_mul_self, Units.val_one, Int.cast_one]
  rw [h.determinant, ← hProduct, ← mul_assoc, hSign, one_mul]

/-- The diagonal of `U` has a zero exactly when the determinant is zero. -/
theorem LuFactored.zero_iff (h : LuFactored L U M P) :
    (∃ i, U i i = 0) ↔ LuMethod.determinant (LuMethod.factorize M) = 0 := by
  have hSign : ((Equiv.Perm.sign P : ℤ) : α) ≠ 0 := by
    rcases Int.units_eq_one_or (Equiv.Perm.sign P) with hOne | hOne <;> simp [hOne]
  rw [h.determinant, mul_eq_zero_iff_left hSign, Finset.prod_eq_zero_iff]
  simp only [Finset.mem_univ, true_and]

/-- What is substituted through the factors solves the equations of the block. -/
theorem LuFactored.mul_eq (h : LuFactored L U M P) {R : Matrix (Fin n) (Fin k) α} {X : Block α}
    (hX : Substituted L U (R.submatrix P id) X) : M.matrix n n * X.matrix n k = R := by
  obtain ⟨Y, hLower, hUpper⟩ := hX.through
  have hPermuted : (M.matrix n n * X.matrix n k).submatrix P id = R.submatrix P id := by
    calc (M.matrix n n * X.matrix n k).submatrix P id
        = (M.matrix n n).submatrix P id * X.matrix n k := rfl
      _ = L * (U * X.matrix n k) := by rw [h.product, Matrix.mul_assoc]
      _ = R.submatrix P id := by rw [hUpper, hLower]
  ext i j
  simpa using congrFun₂ hPermuted (P.symm i) j

end Lu

section Cholesky
variable [CholeskyMethod α] {M : Block α} {F : CholeskyMethod.Factor α}
  {L : Matrix (Fin n) (Fin n) α}

/-- Where the block is symmetric the lower triangle is all that has to be read. -/
theorem CholeskyFactored.product_eq (h : CholeskyFactored L M F)
    (hSymmetric : (M.matrix n n).IsSymm) : L * L.transpose = M.matrix n n := by
  ext i j
  rcases le_total j i with hji | hij
  · exact h.product i j hji
  · have hProduct : (L * L.transpose).IsSymm := Matrix.isSymm_mul_transpose_self L
    rw [← hProduct.apply, ← hSymmetric.apply]
    exact h.product j i hij

theorem CholeskyFactored.det_eq (h : CholeskyFactored L M F)
    (hSymmetric : (M.matrix n n).IsSymm) :
    (M.matrix n n).det = (∏ i, L i i) * ∏ i, L i i := by
  rw [← h.product_eq hSymmetric, Matrix.det_mul, Matrix.det_transpose,
    Matrix.det_of_isLowerTriangular L h.triangular]

/-- A factor that gives an inverse has no zero on its diagonal. -/
theorem CholeskyFactored.det_ne_zero (h : CholeskyFactored L M F)
    (hSymmetric : (M.matrix n n).IsSymm) : (M.matrix n n).det ≠ 0 := by
  obtain ⟨Y, hInverse, -⟩ := h.inverse.through
  have hDet : L.det * Y.det = 1 := by rw [← Matrix.det_mul, hInverse, Matrix.det_one]
  rw [Matrix.det_of_isLowerTriangular L h.triangular] at hDet
  have hProduct := left_ne_zero_of_mul_eq_one hDet
  rw [h.det_eq hSymmetric]
  exact mul_ne_zero hProduct hProduct

theorem CholeskyFactored.mul_eq (h : CholeskyFactored L M F)
    (hSymmetric : (M.matrix n n).IsSymm) {R : Matrix (Fin n) (Fin k) α} {X : Block α}
    (hX : Substituted L L.transpose R X) : M.matrix n n * X.matrix n k = R := by
  obtain ⟨Y, hLower, hUpper⟩ := hX.through
  rw [← h.product_eq hSymmetric, Matrix.mul_assoc, hUpper, hLower]

end Cholesky

/-- The product along a diagonal, from first to last. -/
theorem foldl_range_mul (f : Nat → α) (n : Nat) :
    (List.range n).foldl (fun d i => d * f i) 1 = ∏ i : Fin n, f i := by
  induction n with
  | zero => rfl
  | succ n ih => rw [List.range_succ, List.foldl_concat, ih, Fin.prod_univ_castSucc]; rfl

/-- The equations of a block with a determinant other than zero have one solution. -/
theorem eq_of_mul_eq {M X X' : Block α} {R : Matrix (Fin n) (Fin k) α}
    (hDet : (M.matrix n n).det ≠ 0) (hShape : X.HasShape n k) (hShape' : X'.HasShape n k)
    (h : M.matrix n n * X.matrix n k = R) (h' : M.matrix n n * X'.matrix n k = R) : X = X' := by
  have hUnit : IsUnit (M.matrix n n).det := isUnit_iff_ne_zero.mpr hDet
  apply Block.eq_of_matrix hShape hShape'
  rw [← Matrix.nonsing_inv_mul_cancel_left (M.matrix n n) (X.matrix n k) hUnit, h, ← h',
    Matrix.nonsing_inv_mul_cancel_left _ _ hUnit]

end Factor
end Almanac
