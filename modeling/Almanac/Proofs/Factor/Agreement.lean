import Mathlib.Analysis.SpecialFunctions.Pow.Real
import Almanac.Proofs.Library.Cholesky
import Almanac.Proofs.Library.Pivoting
import Almanac.Proofs.Mat.Algebra
import Almanac.Proofs.Mat.Setter

/-! # Factorizations and products

With a library whose factors are exact the queries of a square matrix are answered as its own
products ask for, and the Cholesky factor of a symmetric matrix gives the same answers.

Main statement: `factorizations_agree_with_products`.
-/
namespace Almanac.Factor
set_option autoImplicit false
open Linear Mat

variable {α : Type} [Field α]

section Products
variable {A X : Mat α} {Y : Block α} {k : Nat}

/-- The sums of products of a square matrix and a block. -/
theorem sum_of_mul (hSquare : A.rows = A.columns) {R : Matrix (Fin A.rows) (Fin k) α}
    (hMul : A.toBlock.matrix A.rows A.rows * Y.matrix A.rows k = R) {i j : Nat} (hi : i < A.rows)
    (hj : j < k) :
    ∑ p ∈ Finset.range A.columns, A.entry i p * Y.entry p j = R ⟨i, hi⟩ ⟨j, hj⟩ := by
  have hSum := Fin.sum_univ_eq_sum_range (fun p => A.toBlock.entry i p * Y.entry p j) A.rows
  rw [← hMul, Matrix.mul_apply, ← hSquare]
  refine Eq.trans (Finset.sum_congr rfl fun p hp => ?_) hSum.symm
  rw [entry_toBlock hi (hSquare ▸ Finset.mem_range.mp hp)]

theorem multiply_of_mul [DecidableEq α] (hSquare : A.rows = A.columns) (hk : 0 < k)
    (hShape : X.shape = (A.rows, k)) (hEntry : ∀ r c, X.entry r c = Y.entry r c)
    {table : Nat → Nat → α} (hMul : A.toBlock.matrix A.rows A.rows * Y.matrix A.rows k =
      .of fun i j => table i j) :
    A.multiply X = (tabulate A.rows k A.rows_pos hk table).allocated := by
  obtain ⟨hRows, hColumns⟩ := Prod.mk.inj hShape
  rw [multiply_eq (hSquare.symm.trans hRows.symm)]
  refine congrArg allocated (tabulate_congr rfl hColumns fun i j hi hj => ?_)
  simp only [timesTable, hEntry]
  exact sum_of_mul hSquare hMul hi (hColumns ▸ hj)

theorem multiplyVector_of_mul (hSquare : A.rows = A.columns) {x : Vec α} (hCount : x.count = A.rows)
    (hEntry : ∀ i, x.entry i = Y.entry i 0) {f : Nat → α}
    (hMul : A.toBlock.matrix A.rows A.rows * Y.matrix A.rows 1 = .of fun i _ => f i) :
    A.multiplyVector x = (Vec.tabulate A.rows A.rows_pos f).allocated := by
  rw [multiplyVector_eq_times (hSquare.symm.trans hCount.symm)]
  refine congrArg Vec.allocated (Vec.tabulate_congr rfl fun i hi => ?_)
  simp only [hEntry]
  exact sum_of_mul hSquare hMul hi Nat.one_pos

theorem identity?_eq {n : Nat} (hn : 0 < n) : (identity? n : Checked (Mat α)) =
    (tabulate n n hn hn fun r c => if r = c then 1 else 0).allocated := by
  have hDiagonal := Setter.revised_writeDiagonal (fill n n hn hn (0 : α))
    (Nat.le_of_eq (Nat.min_self n).symm) fun _ => 1
  rw [identity?, zeros?_eq hn hn]
  refine bind_allocated rfl (congrArg Except.ok ?_)
  apply eq_tabulate hDiagonal.storage hDiagonal.shape
  intro r c hr hc
  rw [hDiagonal.entry r c hr hc, entry_fill hn hn 0 hr hc]
  exact if_congr (and_iff_left hr) rfl rfl

theorem of_identity (n : Nat) :
    (1 : Matrix (Fin n) (Fin n) α) = .of fun i j => if (i : Nat) = j then 1 else 0 := by
  ext i j
  simp [Matrix.one_apply, Fin.ext_iff]

end Products

section Refusals
variable [LuMethod α] [CholeskyMethod α]

/-- A matrix that is not square is reported, whatever the right-hand side is. -/
structure RefusedUnlessSquare (A : Mat α) : Prop where
  lu : Lu.ofMat A = refuse (.notSquare A.shape)
  cholesky : CholeskyFactor.ofMat A = refuse (.notSquare A.shape)
  determinant : A.determinant = refuse (.notSquare A.shape)
  inverse : A.inverse = refuse (.notSquare A.shape)
  solve : ∀ B, A.solve B = refuse (.notSquare A.shape)
  solveVector : ∀ b, A.solveVector b = refuse (.notSquare A.shape)

theorem refusedUnlessSquare {A : Mat α} (h : A.rows ≠ A.columns) : RefusedUnlessSquare A := by
  have hCheck : checkSquare A.shape = refuse (.notSquare A.shape) := if_neg h
  have hLu : Lu.ofMat A = refuse (.notSquare A.shape) := by
    rw [Lu.ofMat, hCheck]
    rfl
  constructor
  case lu => exact hLu
  case cholesky => rw [CholeskyFactor.ofMat, hCheck]; rfl
  case determinant => rw [Mat.determinant, hLu]; rfl
  case inverse => rw [Mat.inverse, hLu]; rfl
  case solve => intro B; rw [Mat.solve, hLu]; rfl
  case solveVector => intro b; rw [Mat.solveVector, hLu]; rfl

end Refusals

section Rhs
omit [Field α]
variable {A B : Mat α} {b : Vec α}

/-- A right-hand side with another number of rows than the matrix is reported. -/
structure RefusesOtherRows (A : Mat α) (solve : Mat α → Checked (Mat α))
    (solveVector : Vec α → Checked (Vec α)) : Prop where
  matrix : ∀ B, B.rows ≠ A.rows →
    solve B = refuse (.notConformable "rhs" (A.rows, B.columns) B.shape)
  vector : ∀ b, b.count ≠ A.rows →
    solveVector b = refuse (.notConformable "rhs" (A.rows, 1) (b.count, 1))

theorem refusesOtherRows (A : Mat α) (solve : Mat α → Checked (Mat α))
    (solveVector : Vec α → Checked (Vec α)) :
    RefusesOtherRows A (fun B => do checkShape "rhs" (A.rows, B.columns) B.shape; solve B)
      (fun b => do checkCount "rhs" A.rows b.count; solveVector b) := by
  refine ⟨fun B hRows => ?_, fun b hCount => ?_⟩
  · have hNot : (A.rows, B.columns) ≠ B.shape := fun hSame => hRows (congrArg Prod.fst hSame).symm
    rw [checkShape, if_neg hNot]
    rfl
  · rw [checkCount, if_neg (Ne.symm hCount)]
    rfl

theorem checkShape_rhs (hRows : B.rows = A.rows) :
    checkShape "rhs" (A.rows, B.columns) B.shape = .ok () :=
  if_pos (show (A.rows, B.columns) = B.shape from Prod.ext hRows.symm rfl)

theorem checkCount_rhs (hCount : b.count = A.rows) : checkCount "rhs" A.rows b.count = .ok () :=
  if_pos hCount.symm

end Rhs

section Answers
variable [LuMethod α]

/-- The queries of a matrix are those of its factors. -/
structure AnsweredBy (A : Mat α) (F : Lu α) : Prop where
  determinant : A.determinant = .ok F.determinant
  inverse : A.inverse = F.inverse
  solve : ∀ B, A.solve B = F.solve B
  solveVector : ∀ b, A.solveVector b = F.solveVector b

theorem answeredBy_of_ofMat {A : Mat α} {F : Lu α} (h : Lu.ofMat A = .ok F) : AnsweredBy A F := by
  constructor
  case determinant => rw [Mat.determinant, h]; rfl
  case inverse => rw [Mat.inverse, h]; rfl
  case solve => intro B; rw [Mat.solve, h]; rfl
  case solveVector => intro b; rw [Mat.solveVector, h]; rfl

variable [DecidableEq α]

/-- The answers of factors fit the products of a square matrix. -/
structure AgreesWithProducts (A : Mat α) (F : Lu α) : Prop where
  order : F.order = A.rows
  refuses : RefusesOtherRows A F.solve F.solveVector
  inverse_singular : F.inverse = refuse .singular ↔ F.determinant = 0
  solve_singular : ∀ B, B.rows = A.rows → (F.solve B = refuse .singular ↔ F.determinant = 0)
  solveVector_singular : ∀ b, b.count = A.rows →
    (F.solveVector b = refuse .singular ↔ F.determinant = 0)
  inverse : F.determinant ≠ 0 → ∃ X, F.inverse = .ok X ∧ A.multiply X = identity? A.rows
  solve : F.determinant ≠ 0 → ∀ B, B.rows = A.rows →
    ∃ X, F.solve B = .ok X ∧ A.multiply X = B.toDense.allocated
  solveVector : F.determinant ≠ 0 → ∀ b, b.count = A.rows →
    ∃ x, F.solveVector b = .ok x ∧ A.multiplyVector x = b.toDense.allocated

section Solved
variable {A : Mat α} {P : Equiv.Perm (Fin A.rows)} {L U : Matrix (Fin A.rows) (Fin A.rows) α}
  {k : Nat} {R : Matrix (Fin A.rows) (Fin k) α} {outcome : Option (Block α)}

omit [DecidableEq α] in
/-- What is solved with exact factors is refused exactly when the determinant is zero, and otherwise
solves the equations of the matrix. -/
theorem LuFactored.solved (h : LuFactored L U A.toBlock P)
    (hOutcome : SubstitutedUnlessZero L U (R.submatrix P id) outcome) {β : Type}
    {out : Block α → Checked β} {Solves : β → Prop} (hOut : ∀ X, X.HasShape A.rows k →
      A.toBlock.matrix A.rows A.rows * X.matrix A.rows k = R → ∃ y, out X = .ok y ∧ Solves y) :
    (Lu.solved out outcome = refuse .singular ↔
      LuMethod.determinant (LuMethod.factorize A.toBlock) = 0) ∧
    (LuMethod.determinant (LuMethod.factorize A.toBlock) ≠ 0 →
      ∃ y, Lu.solved out outcome = .ok y ∧ Solves y) := by
  cases hCase : outcome with
  | none =>
    have hZero := h.zero_iff.mp (hOutcome.none_iff.mp hCase)
    exact ⟨iff_of_true rfl hZero, fun hDet => absurd hZero hDet⟩
  | some X =>
    have hDet : LuMethod.determinant (LuMethod.factorize A.toBlock) ≠ 0 := fun hZero =>
      nomatch hCase.symm.trans (hOutcome.none_iff.mpr (h.zero_iff.mpr hZero))
    have hX := hOutcome.substituted X hCase
    obtain ⟨y, hy, hSolves⟩ := hOut X hX.shape (h.mul_eq hX)
    have hSolved : Lu.solved out (some X) = .ok y := hy
    rw [hSolved]
    exact ⟨iff_of_false nofun hDet, fun _ => ⟨y, rfl, hSolves⟩⟩

omit [DecidableEq α] in
/-- A block that satisfies the equations of a matrix whose determinant is not zero is what is
solved. -/
theorem LuFactored.outcome_eq (h : LuFactored L U A.toBlock P)
    (hDet : (A.toBlock.matrix A.rows A.rows).det ≠ 0) {X : Block α}
    (hOutcome : SubstitutedUnlessZero L U (R.submatrix P id) outcome) (hShape : X.HasShape A.rows k)
    (hMul : A.toBlock.matrix A.rows A.rows * X.matrix A.rows k = R) : outcome = some X := by
  cases hCase : outcome with
  | none =>
    have hZero := h.zero_iff.mp (hOutcome.none_iff.mp hCase)
    exact absurd (h.determinant_eq.symm.trans hZero) hDet
  | some Y =>
    have hY := hOutcome.substituted Y hCase
    exact congrArg some (eq_of_mul_eq hDet hY.shape hShape (h.mul_eq hY) hMul)

omit [LuMethod α] in
/-- A matrix of solutions comes out dense, and its product is the right-hand side. -/
theorem toMat_solves (hSquare : A.rows = A.columns) (hk : 0 < k) (table : Nat → Nat → α)
    (hTable : R = .of fun i j => table i j) {X : Block α} (hShape : X.HasShape A.rows k)
    (hMul : A.toBlock.matrix A.rows A.rows * X.matrix A.rows k = R) :
    ∃ Y, X.toMat = .ok Y ∧
      A.multiply Y = (tabulate A.rows k A.rows_pos hk table).allocated := by
  obtain ⟨Y, hOut, -, hShape, hEntry⟩ := Block.toMat_answers hShape A.rows_pos hk
  exact ⟨Y, hOut, multiply_of_mul hSquare hk hShape hEntry (hMul.trans hTable)⟩

omit [LuMethod α] [DecidableEq α] in
theorem toVec_solves (hSquare : A.rows = A.columns) {R : Matrix (Fin A.rows) (Fin 1) α}
    {f : Nat → α} (hTable : R = .of fun i _ => f i) {X : Block α} (hShape : X.HasShape A.rows 1)
    (hMul : A.toBlock.matrix A.rows A.rows * X.matrix A.rows 1 = R) :
    ∃ x, X.toVec = .ok x ∧
      A.multiplyVector x = (Vec.tabulate A.rows A.rows_pos f).allocated := by
  obtain ⟨x, hOut, -, hCount, hEntry⟩ := Block.toVec_answers hShape A.rows_pos
  exact ⟨x, hOut, multiplyVector_of_mul hSquare hCount hEntry (hMul.trans hTable)⟩

theorem LuFactored.agrees (hSquare : A.rows = A.columns) (h : LuFactored L U A.toBlock P) :
    AgreesWithProducts A ⟨LuMethod.factorize A.toBlock, A.rows⟩ := by
  have hInverse := h.solved h.inverse fun X hShape hMul =>
    toMat_solves hSquare A.rows_pos (fun i j => if i = j then 1 else 0) (of_identity A.rows)
      hShape hMul
  have hSolve := fun (B : Mat α) (hRows : B.rows = A.rows) =>
    h.solved (h.solve _ _ (hRows ▸ B.hasShape_toBlock)) fun X hShape hMul =>
      toMat_solves hSquare B.columns_pos B.entry (matrix_toBlock hRows rfl) hShape hMul
  have hVector := fun (b : Vec α) (hCount : b.count = A.rows) =>
    h.solved (h.solve _ _ (hCount ▸ b.hasShape_toBlock)) fun X hShape hMul =>
      toVec_solves hSquare (Vec.matrix_toBlock hCount) hShape hMul
  constructor
  case order => rfl
  case refuses => exact refusesOtherRows A _ _
  case inverse_singular => exact hInverse.1
  case solve_singular =>
    intro B hRows
    rw [Lu.solve, checkShape_rhs hRows]
    exact (hSolve B hRows).1
  case solveVector_singular =>
    intro b hCount
    rw [Lu.solveVector, checkCount_rhs hCount]
    exact (hVector b hCount).1
  case inverse =>
    intro hDet
    rw [identity?_eq A.rows_pos]
    exact hInverse.2 hDet
  case solve =>
    intro hDet B hRows
    obtain ⟨X, hX, hProduct⟩ := (hSolve B hRows).2 hDet
    rw [Lu.solve, checkShape_rhs hRows]
    refine ⟨X, hX, hProduct.trans ?_⟩
    rw [toDense_eq_tabulate]
    exact congrArg allocated (tabulate_congr hRows.symm rfl fun _ _ _ _ => rfl)
  case solveVector =>
    intro hDet b hCount
    obtain ⟨x, hx, hProduct⟩ := (hVector b hCount).2 hDet
    rw [Lu.solveVector, checkCount_rhs hCount]
    refine ⟨x, hx, hProduct.trans ?_⟩
    rw [Vec.toDense_eq_tabulate]
    exact congrArg Vec.allocated (Vec.tabulate_congr hCount.symm fun _ _ => rfl)

end Solved
end Answers

section Symmetric
variable [LuMethod α] [CholeskyMethod α]

/-- The elements of a matrix are the same on both sides of the diagonal. -/
def Symmetric (A : Mat α) : Prop :=
  ∀ r c, r < A.rows → c < A.rows → A.entry r c = A.entry c r

omit [LuMethod α] [CholeskyMethod α] in
theorem Symmetric.isSymm {A : Mat α} (hSquare : A.rows = A.columns) (h : Symmetric A) :
    (A.toBlock.matrix A.rows A.rows).IsSymm := by
  rw [matrix_toBlock rfl hSquare.symm]
  exact Matrix.IsSymm.ext fun i j => h j i j.isLt i.isLt

/-- Both factorizations give the same answers, and refuse alike. -/
structure SameAnswers (F : Lu α) (G : CholeskyFactor α) : Prop where
  order : G.order = F.order
  determinant : G.determinant = F.determinant
  inverse : G.inverse = F.inverse
  solve : ∀ B, G.solve B = F.solve B
  solveVector : ∀ b, G.solveVector b = F.solveVector b

variable {A : Mat α} {P : Equiv.Perm (Fin A.rows)} {L U L' : Matrix (Fin A.rows) (Fin A.rows) α}
  {factors : CholeskyMethod.Factor α}

omit [LuMethod α] in
/-- The determinant comes from the diagonal, whatever stands above it. -/
theorem CholeskyFactored.determinant_eq (h : CholeskyFactored L' A.toBlock factors)
    (hSymmetric : (A.toBlock.matrix A.rows A.rows).IsSymm) :
    CholeskyFactor.determinant ⟨factors, A.rows⟩ = (A.toBlock.matrix A.rows A.rows).det := by
  have hDiagonal : ∏ i : Fin A.rows, (CholeskyMethod.dirty factors).entry i i = ∏ i, L' i i :=
    Finset.prod_congr rfl fun i _ => h.dirty i i le_rfl
  rw [CholeskyFactor.determinant, foldl_range_mul, hDiagonal, h.det_eq hSymmetric]

omit [LuMethod α] in
/-- The factor that goes out is a lower triangle, and its product with its transpose is the
matrix. -/
theorem CholeskyFactored.factor_answers [DecidableEq α] (hSquare : A.rows = A.columns)
    (h : CholeskyFactored L' A.toBlock factors)
    (hSymmetric : (A.toBlock.matrix A.rows A.rows).IsSymm) :
    ∃ L, CholeskyFactor.factor ⟨factors, A.rows⟩ = .ok L ∧
      (∀ r c, r < c → c < A.rows → L.entry r c = 0) ∧
        L.multiply L.transpose = A.toDense.allocated := by
  obtain ⟨L, hOut, -, hShape, hEntry⟩ := Block.toMat_answers h.lower_shape A.rows_pos A.rows_pos
  obtain ⟨hRows, hColumns⟩ := Prod.mk.inj hShape
  have hLower : ∀ i j : Fin A.rows, L.entry i j = L' i j := fun i j =>
    (hEntry i j).trans (congrFun₂ h.lower i j)
  refine ⟨L, hOut, fun r c hrc hc => ?_, ?_⟩
  · exact (hLower ⟨r, hrc.trans hc⟩ ⟨c, hc⟩).trans (h.triangular hrc)
  · have hTransposed : ∀ i j : Fin A.rows, L.transpose.entry i j = L' j i := fun i j =>
      (entry_transpose L (Nat.lt_of_lt_of_eq i.isLt hColumns.symm)
        (Nat.lt_of_lt_of_eq j.isLt hRows.symm)).trans (hLower j i)
    rw [multiply_eq (rows_transpose L).symm, toDense_eq_tabulate]
    refine congrArg allocated (tabulate_congr hRows ?_ fun i j hi hj => ?_)
    · rw [columns_transpose, hRows, hSquare]
    rw [columns_transpose, hRows] at hj
    rw [hRows] at hi
    have hProduct := congrFun₂ (h.product_eq hSymmetric) ⟨i, hi⟩ ⟨j, hj⟩
    rw [matrix_toBlock rfl hSquare.symm, Matrix.mul_apply] at hProduct
    refine Eq.trans ?_ hProduct
    rw [timesTable, hColumns, ← Fin.sum_univ_eq_sum_range]
    refine Finset.sum_congr rfl fun p _ => ?_
    rw [hLower ⟨i, hi⟩ p, hTransposed p ⟨j, hj⟩]
    rfl

theorem LuFactored.sameAnswers (h : LuFactored L U A.toBlock P)
    (h' : CholeskyFactored L' A.toBlock factors)
    (hSymmetric : (A.toBlock.matrix A.rows A.rows).IsSymm) :
    SameAnswers ⟨LuMethod.factorize A.toBlock, A.rows⟩ ⟨factors, A.rows⟩ := by
  have hDet := h'.det_ne_zero hSymmetric
  have hRefuses : RefusesOtherRows A (Lu.solve ⟨LuMethod.factorize A.toBlock, A.rows⟩)
    (Lu.solveVector ⟨LuMethod.factorize A.toBlock, A.rows⟩) := refusesOtherRows A _ _
  have hRefuses' : RefusesOtherRows A (CholeskyFactor.solve ⟨factors, A.rows⟩)
    (CholeskyFactor.solveVector ⟨factors, A.rows⟩) := refusesOtherRows A _ _
  constructor
  case order => rfl
  case determinant => exact (h'.determinant_eq hSymmetric).trans h.determinant_eq.symm
  case inverse =>
    rw [Lu.inverse, h.outcome_eq hDet h.inverse h'.inverse.shape (h'.mul_eq hSymmetric h'.inverse)]
    rfl
  case solve =>
    intro B
    rcases eq_or_ne B.rows A.rows with hRows | hRows
    · have hB : B.toBlock.HasShape A.rows B.columns := hRows ▸ B.hasShape_toBlock
      have hX := h'.solve _ _ hB
      rw [Lu.solve, checkShape_rhs hRows,
        h.outcome_eq hDet (h.solve _ _ hB) hX.shape (h'.mul_eq hSymmetric hX),
        CholeskyFactor.solve, checkShape_rhs hRows]
      rfl
    · rw [hRefuses.matrix B hRows, hRefuses'.matrix B hRows]
  case solveVector =>
    intro b
    rcases eq_or_ne b.count A.rows with hCount | hCount
    · have hb : b.toBlock.HasShape A.rows 1 := hCount ▸ b.hasShape_toBlock
      have hX := h'.solve _ _ hb
      rw [Lu.solveVector, checkCount_rhs hCount,
        h.outcome_eq hDet (h.solve _ _ hb) hX.shape (h'.mul_eq hSymmetric hX),
        CholeskyFactor.solveVector, checkCount_rhs hCount]
      rfl
    · rw [hRefuses.vector b hCount, hRefuses'.vector b hCount]

end Symmetric

section Queries
variable [DecidableEq α] [LuMethod α] [CholeskyMethod α]

/-- What the queries of a matrix answer. -/
structure Queried (A : Mat α) : Prop where
  not_square : A.rows ≠ A.columns → RefusedUnlessSquare A
  square : A.rows = A.columns → ∃ F, Lu.ofMat A = .ok F ∧ AnsweredBy A F ∧
    AgreesWithProducts A F ∧ ∀ G, CholeskyFactor.ofMat A = .ok G →
      RefusesOtherRows A G.solve G.solveVector ∧ (Symmetric A → SameAnswers F G)

/-- With a library whose factors are exact every matrix is queried exactly: singular if and only if
its determinant is zero, and otherwise with solutions that its products confirm. -/
theorem factorizations_agree_with_products (hLu : ExactLu α) (hCholesky : ExactCholesky α)
    (A : Mat α) : Queried A where
  not_square := refusedUnlessSquare
  square hSquare := by
    have hShape : A.toBlock.HasShape A.rows A.rows := ⟨A.hasShape_toBlock.1,
      A.hasShape_toBlock.2.trans hSquare.symm⟩
    have hCheck : checkSquare A.shape = .ok () := if_pos hSquare
    obtain ⟨P, L, U, h⟩ := hLu A.rows A.toBlock hShape
    have hFactors : Lu.ofMat A = .ok ⟨LuMethod.factorize A.toBlock, A.rows⟩ := by
      rw [Lu.ofMat, hCheck]
      rfl
    refine ⟨_, hFactors, answeredBy_of_ofMat hFactors, h.agrees hSquare, fun G hG => ?_⟩
    rw [CholeskyFactor.ofMat, hCheck] at hG
    cases hAccepted : CholeskyMethod.factorize? A.toBlock with
    | none =>
      rw [hAccepted] at hG
      cases hG
    | some factors =>
      rw [hAccepted] at hG
      obtain rfl := Except.ok.inj hG
      obtain ⟨L', h'⟩ := hCholesky A.rows A.toBlock factors hShape hAccepted
      exact ⟨refusesOtherRows A _ _, fun hSymmetric =>
        h.sameAnswers h' (hSymmetric.isSymm hSquare)⟩

section Reals

noncomputable instance : Magnitude ℝ := ⟨fun x => |x|⟩

noncomputable instance : Elementary ℝ := ⟨Real.sqrt, Real.log, fun x y => x ^ y⟩

noncomputable instance : LuMethod ℝ := Library.Elimination.method

noncomputable instance : CholeskyMethod ℝ := Library.Cholesky.method

theorem sqrt_mul_sqrt (x : ℝ) (hx : 0 < x) : sqrt x * sqrt x = x := Real.mul_self_sqrt hx.le

theorem extend_pair : Library.Cholesky.extend [] [[2, 1], [1, 2]] =
    some [⟨[], sqrt (2 : ℝ)⟩, ⟨[1 / sqrt 2], sqrt (3 / 2)⟩] := by
  have hNone : Library.Cholesky.entriesBefore ([] : List (Library.FactorRow ℝ)) [2, 1] = [] := rfl
  have hFirst : Library.reduceBy (2 : ℝ) [] [] = 2 := rfl
  have hBefore : Library.Cholesky.entriesBefore [⟨[], sqrt (2 : ℝ)⟩] [1, 2] = [1 / sqrt 2] := rfl
  have hSecond : Library.reduceBy (2 : ℝ) [1 / sqrt 2] [1 / sqrt 2] = 3 / 2 := by
    change (2 : ℝ) + -(1 / sqrt 2) * (1 / sqrt 2) = 3 / 2
    rw [neg_mul, div_mul_div_comm, sqrt_mul_sqrt 2 two_pos]
    norm_num
  simp only [Library.Cholesky.extend, hNone, List.length_nil, List.getD_cons_zero, hFirst,
    List.nil_append, hBefore, List.length_singleton, List.getD_cons_succ, hSecond,
    List.singleton_append]
  rw [if_pos two_pos, if_pos (by norm_num)]

/-- A symmetric square of reals with twos on the diagonal is accepted by both factorizations, with
elimination and with the factoring of rows as the library. -/
theorem square_of_reals_is_inverted :
    let A : Mat ℝ := .tabulate 2 2 Nat.two_pos Nat.two_pos fun r c => if r = c then 2 else 1
    ExactLu ℝ ∧ ExactCholesky ℝ ∧ ∃ F G, Lu.ofMat A = .ok F ∧ AnsweredBy A F ∧
      CholeskyFactor.ofMat A = .ok G ∧ SameAnswers F G ∧ F.determinant = 3 ∧
        ∃ X, A.inverse = .ok X ∧ A.multiply X = Mat.identity? 2 := by
  intro A
  have hLu : ExactLu ℝ := Library.Elimination.exactLu fun _ => rfl
  have hCholesky : ExactCholesky ℝ := Library.Cholesky.exactCholesky sqrt_mul_sqrt
  obtain ⟨F, hF, hAnswered, hAgrees, hSame⟩ :=
    (factorizations_agree_with_products hLu hCholesky A).square rfl
  have hEntry : ∀ r c, r < 2 → c < 2 → A.toBlock.entry r c = if r = c then 2 else 1 :=
    fun r c hr hc => (entry_toBlock hr hc).trans (entry_tabulate hr hc)
  have hSymmetric : Symmetric A := by
    intro r c hr hc
    rw [← entry_toBlock hr hc, ← entry_toBlock hc hr, hEntry r c hr hc, hEntry c r hc hr]
    simp only [eq_comm]
  have hRows : A.toBlock.toRows = [[2, 1], [1, 2]] := by
    change (List.range 2).map (fun r => (List.range 2).map fun c => A.toBlock.entry r c) = _
    simp [List.range_succ, hEntry]
  obtain ⟨G, hG⟩ : ∃ G, CholeskyFactor.ofMat A = .ok G := by
    have hAccepted : CholeskyMethod.factorize? A.toBlock =
        some ⟨A.toBlock, [⟨[], sqrt (2 : ℝ)⟩, ⟨[1 / sqrt 2], sqrt (3 / 2)⟩]⟩ := by
      change Library.Cholesky.ofBlock? A.toBlock = _
      rw [Library.Cholesky.ofBlock?, hRows, extend_pair]
      rfl
    rw [CholeskyFactor.ofMat, hAccepted]
    exact ⟨_, rfl⟩
  have hDet : F.determinant = 3 := by
    obtain ⟨P, L, U, h⟩ := hLu 2 A.toBlock ⟨rfl, rfl⟩
    obtain rfl := Except.ok.inj hF
    refine h.determinant_eq.trans ?_
    rw [Matrix.det_fin_two]
    simp only [Block.matrix, Matrix.of_apply, Fin.val_zero, Fin.val_one]
    rw [hEntry 0 0, hEntry 1 1, hEntry 0 1, hEntry 1 0] <;> norm_num
  obtain ⟨X, hX, hProduct⟩ := hAgrees.inverse (hDet ▸ three_ne_zero)
  exact ⟨hLu, hCholesky, F, G, hF, hAnswered, hG, (hSame G hG).2 hSymmetric, hDet, X,
    hAnswered.inverse.trans hX, hProduct⟩

end Reals
end Queries
end Almanac.Factor
