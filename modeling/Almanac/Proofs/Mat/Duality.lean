import Almanac.Mat.Norm
import Almanac.Proofs.Double
import Almanac.Proofs.Mat.Table

/-! # Transposition

The transpose of what is built from matrices is what the opposite operation builds from their
transposes. The elements are moved and never combined in another order, so that nothing is asked of
the scalars until a product takes its factors the other way round.
-/
namespace Almanac.Mat
set_option autoImplicit false
open Linear

variable {α : Type} [Zero α]

/-- Two matrices are built, if the machine has room for them, and the second is the transpose of the
first. -/
def Mirrored (x y : Checked (Mat α)) : Prop :=
  ∃ C : Mat α, x = C.allocated ∧ y = C.transpose.allocated

section Building
variable {A B : Mat α} {m n : Nat}

theorem mirrored_of_tables {m' n' : Nat} {hm : 0 < m} {hn : 0 < n} {hm' : 0 < m'} {hn' : 0 < n'}
    {table table' : Nat → Nat → α} {x y : Checked (Mat α)}
    (hx : x = (tabulate m n hm hn table).allocated)
    (hy : y = (tabulate n' m' hn' hm' table').allocated)
    (hRows : m' = m) (hColumns : n' = n)
    (hSame : ∀ r c, r < n → c < m → table' r c = table c r) : Mirrored x y := by
  subst hRows hColumns
  refine ⟨_, hx, hy.trans (congrArg allocated ?_)⟩
  rw [transpose_tabulate]
  exact tabulate_congr rfl rfl hSame

theorem alike_transpose_transpose (A : Mat α) : A.transpose.transpose.Alike A := by
  constructor
  · simp
  · simp
  · intro r c hr hc
    rw [rows_transpose, columns_transpose] at hr
    rw [columns_transpose, rows_transpose] at hc
    rw [entry_transpose _ (by simpa using hr) (by simpa using hc), entry_transpose A hc hr]

theorem mirrored_append (h : B.rows = A.rows) :
    Mirrored (A.append B) (A.transpose.stack B.transpose) := by
  have hStack : B.transpose.columns = A.transpose.columns := by simpa using h
  apply mirrored_of_tables (append_eq h) (stack_eq hStack) (by simp) (by simp)
  intro r c hr hc
  rw [aboveTable, besideTable, rows_transpose]
  split
  · exact entry_transpose A ‹_› hc
  · exact entry_transpose B (by omega) (by omega)

theorem mirrored_stack (h : B.columns = A.columns) :
    Mirrored (A.stack B) (A.transpose.append B.transpose) := by
  have hAppend : B.transpose.rows = A.transpose.rows := by simpa using h
  apply mirrored_of_tables (stack_eq h) (append_eq hAppend) (by simp) (by simp)
  intro r c hr hc
  rw [aboveTable, besideTable, columns_transpose]
  split
  · exact entry_transpose A hr ‹_›
  · exact entry_transpose B (by omega) (by omega)

theorem mirrored_diagonalStack (A B : Mat α) :
    Mirrored (A.diagonalStack B) (A.transpose.diagonalStack B.transpose) := by
  apply mirrored_of_tables (diagonalStack_eq A B) (diagonalStack_eq _ _) (by simp) (by simp)
  intro r c hr hc
  simp only [diagonalTable, rows_transpose, columns_transpose, and_comm (a := c < _),
    and_comm (a := _ ≤ c)]
  split
  · rename_i hUpper
    exact entry_transpose A hUpper.1 hUpper.2
  split
  · exact entry_transpose B (by omega) (by omega)
  · rfl

theorem mirrored_kronecker [Mul α] (A B : Mat α) :
    Mirrored (A.kronecker B) (A.transpose.kronecker B.transpose) := by
  apply mirrored_of_tables (kronecker_eq A B) (kronecker_eq _ _) (by simp) (by simp)
  intro r c hr hc
  have hRow : r / B.columns < A.columns := Nat.div_lt_of_lt_mul (Nat.mul_comm .. ▸ hr)
  have hColumn : c / B.rows < A.rows := Nat.div_lt_of_lt_mul (Nat.mul_comm .. ▸ hc)
  rw [kroneckerTable, kroneckerTable, rows_transpose, columns_transpose,
    entry_transpose A hRow hColumn,
    entry_transpose B (Nat.mod_lt r B.columns_pos) (Nat.mod_lt c B.rows_pos)]

theorem mirrored_insertColumn {index : Nat} {v : Vec α} (hIndex : index ≤ A.columns)
    (hCount : v.count = A.rows) :
    Mirrored (A.insertColumn index v) (A.transpose.insertRow index v) := by
  have hRow : index ≤ A.transpose.rows := by simpa using hIndex
  have hLength : v.count = A.transpose.columns := by simpa using hCount
  apply mirrored_of_tables (insertColumn_eq hIndex hCount) (insertRow_eq hRow hLength)
    (by simp) (by simp)
  intro r c hr hc
  rw [insertRowTable, insertColumnTable]
  split
  · exact entry_transpose A (by omega) hc
  split
  · rfl
  · exact entry_transpose A (by omega) hc

/-- The part on the other side of the diagonal. -/
def Triangle.mirror : Triangle → Triangle
  | lower => upper
  | strictlyLower => strictlyUpper
  | upper => lower
  | strictlyUpper => strictlyLower

theorem Triangle.keeps_mirror (part : Triangle) (r c : Nat) :
    part.mirror.keeps r c = part.keeps c r := by
  cases part <;> rfl

theorem transpose_triangle (part : Triangle) (A : Mat α) :
    (triangle part A).transpose = triangle part.mirror A.transpose := by
  rw [triangle, transpose_tabulate, triangle]
  apply tabulate_congr (rows_transpose A).symm (columns_transpose A).symm
  intro r c hr hc
  rw [part.keeps_mirror, entry_transpose A hr hc]

end Building

section Lines
variable (A : Mat α)

theorem row_eq_column_transpose (index : Nat) : A.row index = A.transpose.column index := by
  rw [row_eq, column_eq]
  simp only [rows_transpose, columns_transpose, checkIndex]
  split
  · split
    · apply congrArg Except.ok
      apply Vec.tabulate_congr rfl
      exact fun c hc => (entry_transpose A hc ‹_›).symm
    · rfl
  · rfl

theorem row_answers {A : Mat α} {index : Nat} (hIndex : index < A.rows)
    (hFits : A.columns < bufferBound) : ∃ v, A.row index = .ok v ∧ v.count = A.columns ∧
      ∀ c < A.columns, v.entry c = A.entry index c :=
  ⟨_, (row_of_lt hIndex).trans (Vec.allocated_tabulate hFits), Vec.count_tabulate,
    fun _ hc => Vec.entry_tabulate hc⟩

section Norms
variable [Add α] [Neg α] [Magnitude α]

theorem rowMagnitude_transpose {c : Nat} (hc : c < A.columns) :
    A.transpose.rowMagnitude c = A.columnMagnitude c := by
  rw [rowMagnitude, columnMagnitude, columns_transpose]
  apply congrArg total
  apply List.map_congr_left
  intro r hr
  rw [entry_transpose A hc (List.mem_range.mp hr)]

theorem columnNorm_eq_rowNorm_transpose [LT α] [DecidableLT α] [Hole α] :
    A.columnNorm = A.transpose.rowNorm := by
  rw [columnNorm, rowNorm, rows_transpose]
  congr 1
  apply List.map_congr_left
  intro c hc
  exact (rowMagnitude_transpose A (List.mem_range.mp hc)).symm

end Norms

section Application
variable [Add α] [Mul α] {n : Nat}

theorem accumulate_congr {f f' g g' : Nat → α} (hf : ∀ i < n, f i = f' i)
    (hg : ∀ i < n, g i = g' i) : accumulate n f g = accumulate n f' g' := by
  apply List.foldl_ext
  intro sum i hi
  rw [hf i (List.mem_range.mp hi), hg i (List.mem_range.mp hi)]

theorem accumulate_comm (hComm : ∀ x y : α, x * y = y * x) (f g : Nat → α) :
    accumulate n f g = accumulate n g f := by
  apply List.foldl_ext
  intro sum i _
  rw [hComm]

theorem leftMultiply_eq_multiplyVector_transpose (hComm : ∀ x y : α, x * y = y * x) (v : Vec α) :
    A.leftMultiply v = A.transpose.multiplyVector v := by
  rw [leftMultiply_eq, multiplyVector_eq, columns_transpose]
  congr 2
  apply Vec.tabulate_congr (rows_transpose A).symm
  intro c hc
  rw [accumulate_comm hComm]
  exact accumulate_congr (fun r hr => (entry_transpose A hc hr).symm) fun _ _ => rfl

theorem leftMultiply_answers {A : Mat α} {v : Vec α} (hCount : v.count = A.rows) :
    ∃ w : Vec α, A.leftMultiply v = w.allocated ∧ w.count = A.columns :=
  ⟨_, leftMultiply_of_count hCount.symm, Vec.count_tabulate⟩

end Application
end Lines

section Duality
variable [Add α] [Mul α] [Neg α] [Magnitude α] [LT α] [DecidableLT α] [Hole α]

/-- What transposition exchanges. -/
structure Dual (A : Mat α) : Prop where
  twice : A.transpose.transpose.Alike A
  append : ∀ B, B.rows = A.rows → Mirrored (A.append B) (A.transpose.stack B.transpose)
  stack : ∀ B, B.columns = A.columns → Mirrored (A.stack B) (A.transpose.append B.transpose)
  diagonalStack : ∀ B, Mirrored (A.diagonalStack B) (A.transpose.diagonalStack B.transpose)
  kronecker : ∀ B, Mirrored (A.kronecker B) (A.transpose.kronecker B.transpose)
  insertColumn : ∀ index v, index ≤ A.columns → v.count = A.rows →
    Mirrored (A.insertColumn index v) (A.transpose.insertRow index v)
  lower : (triangle .lower A).transpose = triangle .upper A.transpose
  strictlyLower : (triangle .strictlyLower A).transpose = triangle .strictlyUpper A.transpose
  row : ∀ index, A.row index = A.transpose.column index
  row_answers : ∀ index < A.rows, A.columns < bufferBound →
    ∃ v, A.row index = .ok v ∧ v.count = A.columns ∧ ∀ c < A.columns, v.entry c = A.entry index c
  columnNorm : A.columnNorm = A.transpose.rowNorm
  leftMultiply : (∀ x y : α, x * y = y * x) →
    ∀ v, A.leftMultiply v = A.transpose.multiplyVector v
  leftMultiply_answers : ∀ v, v.count = A.rows →
    ∃ w : Vec α, A.leftMultiply v = w.allocated ∧ w.count = A.columns

/-- Every pair of operations that transposition exchanges agrees on all matrices that conform, of
either storage, element by element. -/
theorem transposition_exchanges (A : Mat α) : Dual A where
  twice := alike_transpose_transpose A
  append _ := mirrored_append
  stack _ := mirrored_stack
  diagonalStack := mirrored_diagonalStack A
  kronecker := mirrored_kronecker A
  insertColumn _ _ := mirrored_insertColumn
  lower := transpose_triangle .lower A
  strictlyLower := transpose_triangle .strictlyLower A
  row := row_eq_column_transpose A
  row_answers _ := Mat.row_answers
  columnNorm := columnNorm_eq_rowNorm_transpose A
  leftMultiply := leftMultiply_eq_multiplyVector_transpose A
  leftMultiply_answers _ := Mat.leftMultiply_answers

/-- A scattered matrix of doubles, a dense one beside and below it, and a vector. -/
theorem exchanges_of_doubles :
    let A : Mat Float :=
      (tabulate 2 3 Nat.two_pos (Nat.succ_pos 2) fun r c => Float.ofNat (3 * r + c + 1)).scatter
    let B : Mat Float := fill 2 1 Nat.two_pos Nat.one_pos hole
    let C : Mat Float := fill 1 3 Nat.one_pos (Nat.succ_pos 2) (1 / 0)
    let v : Vec Float := Vec.ofList [5, 6] Nat.two_pos
    Mirrored (A.append B) (A.transpose.stack B.transpose) ∧
    Mirrored (A.stack C) (A.transpose.append C.transpose) ∧
    Mirrored (A.insertColumn 3 v) (A.transpose.insertRow 3 v) ∧
    (∃ u, A.row 1 = .ok u ∧ A.transpose.column 1 = .ok u) ∧
    ∃ w, A.leftMultiply v = .ok w ∧ A.transpose.multiplyVector v = .ok w := by
  intro A B C v
  have hDual : Dual A := transposition_exchanges A
  obtain ⟨u, hRow, -⟩ := hDual.row_answers 1 Nat.one_lt_two (by decide)
  obtain ⟨w, hLeft, hCount⟩ := hDual.leftMultiply_answers v rfl
  have hRoom : w.count < bufferBound := by
    rw [hCount]
    decide
  rw [Vec.allocated_of_lt hRoom] at hLeft
  refine ⟨hDual.append B rfl, hDual.stack C rfl, hDual.insertColumn 3 v (Nat.le_refl 3) rfl,
    ⟨u, hRow, ?_⟩, w, hLeft, ?_⟩
  · exact (hDual.row 1).symm.trans hRow
  · exact (hDual.leftMultiply Double.mul_comm v).symm.trans hLeft

end Duality
end Almanac.Mat
