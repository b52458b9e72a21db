import Mathlib.Algebra.BigOperators.Group.Finset.Sigma
import Almanac.Proofs.Mat.Isolation
import Almanac.Proofs.Mat.Product
import Almanac.Proofs.Mat.Table

/-! # The algebra of products

Over a commutative ring all products denote one linear algebra: each is a table of sums of products,
whatever its loops and checks are, and its laws are those of finite sums.
-/
namespace Almanac.Mat
set_option autoImplicit false
open Linear Edit

/-- Both outcomes are one new answer, if the machine has room for it. -/
def BothAnswer {β : Type} (allocated : β → Checked β) (x y : Checked β) : Prop :=
  ∃ answer, x = allocated answer ∧ y = allocated answer

variable {α : Type} [CommRing α]

section Tables

def timesTable (A B : Mat α) (i j : Nat) : α :=
  ∑ p ∈ Finset.range A.columns, A.entry i p * B.entry p j

def times (A B : Mat α) : Mat α :=
  tabulate A.rows B.columns A.rows_pos B.columns_pos (A.timesTable B)

def timesVector (A : Mat α) (v : Vec α) : Vec α :=
  Vec.tabulate A.rows A.rows_pos fun i => ∑ p ∈ Finset.range A.columns, A.entry i p * v.entry p

def vectorTimes (A : Mat α) (v : Vec α) : Vec α :=
  Vec.tabulate A.columns A.columns_pos fun j => ∑ p ∈ Finset.range A.rows, v.entry p * A.entry p j

omit [CommRing α] in
theorem rows_mul_rows_pos (A B : Mat α) : 0 < A.rows * B.rows :=
  Nat.mul_pos A.rows_pos B.rows_pos

omit [CommRing α] in
theorem columns_mul_columns_pos (A B : Mat α) : 0 < A.columns * B.columns :=
  Nat.mul_pos A.columns_pos B.columns_pos

def kroneckerTimes (A B : Mat α) : Mat α :=
  tabulate (A.rows * B.rows) (A.columns * B.columns) (rows_mul_rows_pos A B)
    (columns_mul_columns_pos A B) (A.kroneckerTable B)

def outerTimes (u v : Vec α) : Mat α :=
  tabulate u.count v.count u.nonempty v.nonempty fun i j => u.entry i * v.entry j

def inner (v w : Vec α) : α := ∑ i ∈ Finset.range v.count, v.entry i * w.entry i

section Entries
variable {A B : Mat α} {u v : Vec α} {i j : Nat}

theorem entry_times (hi : i < A.rows) (hj : j < B.columns) :
    (A.times B).entry i j = A.timesTable B i j := entry_tabulate hi hj

theorem entry_timesVector (hi : i < A.rows) :
    (A.timesVector v).entry i = ∑ p ∈ Finset.range A.columns, A.entry i p * v.entry p :=
  Vec.entry_tabulate hi

theorem entry_vectorTimes (hj : j < A.columns) :
    (A.vectorTimes v).entry j = ∑ p ∈ Finset.range A.rows, v.entry p * A.entry p j :=
  Vec.entry_tabulate hj

theorem entry_kroneckerTimes (hi : i < A.rows * B.rows) (hj : j < A.columns * B.columns) :
    (A.kroneckerTimes B).entry i j =
      A.entry (i / B.rows) (j / B.columns) * B.entry (i % B.rows) (j % B.columns) :=
  entry_tabulate hi hj

theorem entry_outerTimes (hi : i < u.count) (hj : j < v.count) :
    (outerTimes u v).entry i j = u.entry i * v.entry j := entry_tabulate hi hj

end Entries

variable {A B : Mat α} {v w : Vec α}

theorem accumulate_eq (n : Nat) (f g : Nat → α) :
    accumulate n f g = ∑ i ∈ Finset.range n, f i * g i := by
  rw [accumulate, foldl_range_add, zero_add]

theorem multiply_eq [DecidableEq α] (h : A.columns = B.rows) :
    A.multiply B = (A.times B).allocated := by
  let start : Mat α := fill A.rows B.columns A.rows_pos B.columns_pos 0
  have hShapeA : Side.plain.shape A.shape = (A.rows, A.columns) := rfl
  have hShapeB : Side.plain.shape B.shape = (A.columns, B.columns) := Prod.ext h.symm rfl
  have hStart : start.shape = (A.rows, B.columns) := rfl
  obtain ⟨D, hRun, hRevised⟩ := runOn_gemm ⟨1, 0⟩ hShapeA hShapeB hStart
  have hTable : D = A.times B := by
    apply eq_tabulate hRevised.storage hRevised.shape
    intro i j hi hj
    rw [hRevised.entry i j hi hj, revisedEntry, one_mul, zero_mul, add_zero]
    rfl
  rw [multiply, zeros?_eq A.rows_pos B.columns_pos]
  exact bind_allocated rfl
    (hTable ▸ result_of_runOn ((runOn_multiplyInto h rfl).trans hRun))

theorem multiplyVector_eq_times (h : A.columns = v.count) :
    A.multiplyVector v = (A.timesVector v).allocated := by
  simp only [multiplyVector_of_count h, accumulate_eq]
  rfl

theorem leftMultiply_eq_times (h : A.rows = v.count) :
    A.leftMultiply v = (A.vectorTimes v).allocated := by
  simp only [leftMultiply_of_count h, accumulate_eq]
  rfl

theorem multiply_of_lt [DecidableEq α] (h : A.columns = B.rows)
    (hRoom : A.rows * B.columns < bufferBound) : A.multiply B = .ok (A.times B) :=
  (multiply_eq h).trans (allocated_of_lt hRoom)

theorem multiplyVector_of_lt (h : A.columns = v.count) (hRoom : A.rows < bufferBound) :
    A.multiplyVector v = .ok (A.timesVector v) :=
  (multiplyVector_eq_times h).trans (Vec.allocated_tabulate hRoom)

theorem leftMultiply_of_lt (h : A.rows = v.count) (hRoom : A.columns < bufferBound) :
    A.leftMultiply v = .ok (A.vectorTimes v) :=
  (leftMultiply_eq_times h).trans (Vec.allocated_tabulate hRoom)

theorem dot_eq_inner (h : v.count = w.count) : v.dot w = .ok (inner v w) := by
  rw [Vec.dot_eq (.refl v) (.refl w), Vec.dotElements, checkCount, if_pos h]
  apply congrArg Except.ok
  rw [total, List.foldl_map, foldl_range_add, neg_zero, zero_add]
  rfl

end Tables

section Laws
variable {A B C D : Mat α} {u v w : Vec α}

theorem sum_products_assoc (f h : Nat → α) (g : Nat → Nat → α) (m n : Nat) :
    ∑ q ∈ Finset.range n, (∑ p ∈ Finset.range m, f p * g p q) * h q =
      ∑ p ∈ Finset.range m, f p * ∑ q ∈ Finset.range n, g p q * h q := by
  simp only [Finset.sum_mul, Finset.mul_sum]
  rw [Finset.sum_comm]
  simp only [mul_assoc]

/-- A sum over blocks of one length. -/
theorem sum_range_blocks (f : Nat → Nat → α) {n : Nat} (hn : 0 < n) (m : Nat) :
    ∑ p ∈ Finset.range (m * n), f (p / n) (p % n) =
      ∑ i ∈ Finset.range m, ∑ j ∈ Finset.range n, f i j := by
  induction m with
  | zero => simp
  | succ m ih =>
    rw [Nat.succ_mul, Finset.sum_range_add, ih, Finset.sum_range_succ]
    congr 1
    apply Finset.sum_congr rfl
    intro j hj
    have hj := Finset.mem_range.mp hj
    rw [Nat.mul_comm m n, Nat.mul_add_div hn, Nat.div_eq_of_lt hj, Nat.mul_add_mod,
      Nat.mod_eq_of_lt hj, Nat.add_zero]

theorem times_assoc (hAB : A.columns = B.rows) :
    (A.times B).times C = A.times (B.times C) := by
  apply tabulate_congr rfl rfl
  intro i j hi hj
  have hLeft : (A.times B).timesTable C i j =
      ∑ q ∈ Finset.range B.columns, A.timesTable B i q * C.entry q j := by
    apply Finset.sum_congr rfl
    intro q hq
    rw [entry_times (A := A) (B := B) hi (Finset.mem_range.mp hq)]
  have hRight : A.timesTable (B.times C) i j =
      ∑ p ∈ Finset.range A.columns, A.entry i p * B.timesTable C p j := by
    apply Finset.sum_congr rfl
    intro p hp
    rw [entry_times (hAB ▸ Finset.mem_range.mp hp) hj]
  rw [hLeft, hRight]
  exact sum_products_assoc (A.entry i) (fun q => C.entry q j) B.entry A.columns B.columns

theorem timesVector_times (hAB : A.columns = B.rows) (v : Vec α) :
    (A.times B).timesVector v = A.timesVector (B.timesVector v) := by
  apply Vec.tabulate_congr rfl
  intro i hi
  have hLeft : ∀ q ∈ Finset.range B.columns,
      (A.times B).entry i q * v.entry q = A.timesTable B i q * v.entry q := by
    intro q hq
    rw [entry_times (A := A) (B := B) hi (Finset.mem_range.mp hq)]
  have hRight : ∀ p ∈ Finset.range A.columns, A.entry i p * (B.timesVector v).entry p =
      A.entry i p * ∑ q ∈ Finset.range B.columns, B.entry p q * v.entry q := by
    intro p hp
    rw [entry_timesVector (hAB ▸ Finset.mem_range.mp hp)]
  rw [Finset.sum_congr rfl hRight]
  refine (Finset.sum_congr rfl hLeft).trans ?_
  exact sum_products_assoc (A.entry i) v.entry B.entry A.columns B.columns

theorem vectorTimes_times (hAB : A.columns = B.rows) (v : Vec α) :
    (A.times B).vectorTimes v = B.vectorTimes (A.vectorTimes v) := by
  apply Vec.tabulate_congr rfl
  intro j hj
  have hLeft : ∀ p ∈ Finset.range A.rows,
      v.entry p * (A.times B).entry p j = v.entry p * A.timesTable B p j := by
    intro p hp
    rw [entry_times (B := B) (Finset.mem_range.mp hp) hj]
  have hRight : ∀ q ∈ Finset.range A.columns, (A.vectorTimes v).entry q * B.entry q j =
      (∑ p ∈ Finset.range A.rows, v.entry p * A.entry p q) * B.entry q j := by
    intro q hq
    rw [entry_vectorTimes (Finset.mem_range.mp hq)]
  rw [← hAB, Finset.sum_congr rfl hRight]
  refine (Finset.sum_congr rfl hLeft).trans ?_
  exact (sum_products_assoc v.entry (fun q => B.entry q j) A.entry A.rows A.columns).symm

theorem entry_timesVector_outerTimes {i : Nat} (hi : i < u.count) :
    ((outerTimes u v).timesVector w).entry i = u.entry i * inner v w := by
  rw [entry_timesVector hi, inner, Finset.mul_sum]
  apply Finset.sum_congr rfl
  intro j hj
  rw [entry_outerTimes hi (Finset.mem_range.mp hj), mul_assoc]

theorem kroneckerTimes_times (hAC : A.columns = C.rows) (hBD : B.columns = D.rows) :
    (A.kroneckerTimes B).times (C.kroneckerTimes D) =
      (A.times C).kroneckerTimes (B.times D) := by
  apply tabulate_congr rfl rfl
  intro i j hi hj
  have hRow : i / B.rows < A.rows := Nat.div_lt_of_lt_mul (Nat.mul_comm .. ▸ hi)
  have hColumn : j / D.columns < C.columns := Nat.div_lt_of_lt_mul (Nat.mul_comm .. ▸ hj)
  have hProducts : ∀ p ∈ Finset.range (A.columns * B.columns),
      (A.kroneckerTimes B).entry i p * (C.kroneckerTimes D).entry p j =
        A.entry (i / B.rows) (p / B.columns) * C.entry (p / B.columns) (j / D.columns) *
          (B.entry (i % B.rows) (p % B.columns) * D.entry (p % B.columns) (j % D.columns)) := by
    intro p hp
    have hp := Finset.mem_range.mp hp
    rw [entry_kroneckerTimes hi hp, entry_kroneckerTimes (by rwa [← hAC, ← hBD]) hj, ← hBD]
    ring
  -- The inner dimension of the product is cut into one block for each column of `A`.
  have hBlocks := sum_range_blocks (fun p q =>
    A.entry (i / B.rows) p * C.entry p (j / D.columns) *
      (B.entry (i % B.rows) q * D.entry q (j % D.columns))) B.columns_pos A.columns
  calc (A.kroneckerTimes B).timesTable (C.kroneckerTimes D) i j
      = A.timesTable C (i / B.rows) (j / D.columns) *
          B.timesTable D (i % B.rows) (j % D.columns) := by
        rw [timesTable, timesTable, timesTable, Finset.sum_mul_sum, ← hBlocks]
        exact Finset.sum_congr rfl hProducts
    _ = (A.times C).kroneckerTable (B.times D) i j := by
        rw [kroneckerTable]
        change _ = (A.times C).entry (i / B.rows) (j / D.columns) *
          (B.times D).entry (i % B.rows) (j % D.columns)
        rw [entry_times hRow hColumn,
          entry_times (Nat.mod_lt i B.rows_pos) (Nat.mod_lt j D.columns_pos)]

end Laws

theorem revised_multiplyScalar [DecidableEq α] (x : α) (v : Vec α) :
    Vec.Revised (fun _ y => y * x) v (runOn v (Vec.multiplyScalar x)).2 := by
  rw [Vec.multiplyScalar, runOn_write]
  split
  · -- A factor of one leaves the vector untouched.
    rename_i hOne
    exact ⟨rfl, fun i _ => by rw [beq_iff_eq.mp hOne, mul_one]⟩
  · exact Vec.revised_mapEntries v (· * x)

section Products

/-- A vector as the only column of a matrix. -/
structure IsColumn (P : Mat α) (v : Vec α) : Prop where
  rows : P.rows = v.count
  columns : P.columns = 1
  entry : ∀ i < v.count, P.entry i 0 = v.entry i

theorem IsColumn.times {A V : Mat α} {v : Vec α} (h : V.IsColumn v) (hCount : A.columns = v.count) :
    (A.times V).IsColumn (A.timesVector v) := by
  refine ⟨Vec.count_tabulate.symm, h.columns, fun i hi => ?_⟩
  have hi : i < A.rows := Nat.lt_of_lt_of_eq hi Vec.count_tabulate
  rw [entry_times hi (by rw [h.columns]; exact Nat.one_pos), entry_timesVector hi, timesTable]
  apply Finset.sum_congr rfl
  intro p hp
  rw [h.entry p (hCount ▸ Finset.mem_range.mp hp)]

theorem IsColumn.column_eq {A V : Mat α} {v : Vec α} (h : V.IsColumn v)
    (hCount : A.columns = v.count) : (A.times V).column 0 = (A.timesVector v).allocated := by
  have hColumn := h.times (A := A) hCount
  have hOne : 0 < (A.times V).columns := by
    rw [hColumn.columns]
    exact Nat.one_pos
  rw [column_of_lt hOne]
  apply congrArg Vec.allocated
  apply Vec.tabulate_congr rfl
  intro i hi
  rw [hColumn.entry i (Nat.lt_of_lt_of_eq hi hColumn.rows), entry_timesVector (A := A) hi]

variable (α) [DecidableEq α]

/-- The laws of the products on operands that conform. Where a product goes through others, the
machine has room for these. -/
structure ProductLaws : Prop where
  multiply_assoc : ∀ A B C : Mat α, A.columns = B.rows → B.columns = C.rows →
    A.rows * B.columns < bufferBound → B.rows * C.columns < bufferBound →
    BothAnswer Mat.allocated (do (← A.multiply B).multiply C) (do A.multiply (← B.multiply C))
  multiplyVector_multiply : ∀ (A B : Mat α) (v : Vec α), A.columns = B.rows → B.columns = v.count →
    A.rows * B.columns < bufferBound → B.rows < bufferBound →
    BothAnswer Vec.allocated (do (← A.multiply B).multiplyVector v)
      (do A.multiplyVector (← B.multiplyVector v))
  leftMultiply_multiply : ∀ (A B : Mat α) (v : Vec α), A.columns = B.rows → A.rows = v.count →
    A.rows * B.columns < bufferBound → A.columns < bufferBound →
    BothAnswer Vec.allocated (do (← A.multiply B).leftMultiply v)
      (do B.leftMultiply (← A.leftMultiply v))
  multiply_column : ∀ (A V : Mat α) (v : Vec α), A.columns = v.count → V.IsColumn v →
    ∃ (w : Vec α) (P : Mat α), A.multiplyVector v = w.allocated ∧ A.multiply V = P.allocated ∧
      P.IsColumn w ∧ P.column 0 = w.allocated
  outer_multiplyVector : ∀ u v w : Vec α, v.count = w.count → u.count * v.count < bufferBound →
    ∃ x s, v.dot w = .ok x ∧ (do (← outer u v).multiplyVector w) = .ok s ∧
      Edit.result (.fill u.count u.nonempty 0) (u.multiplyScalarInto x) = .ok s ∧
      ∃ t, Edit.result u (Vec.multiplyScalar x) = .ok t ∧ s.Alike t
  kronecker_multiply : ∀ A B C D : Mat α, A.columns = C.rows → B.columns = D.rows →
    A.rows * B.rows * (A.columns * B.columns) < bufferBound →
    C.rows * D.rows * (C.columns * D.columns) < bufferBound →
    A.rows * C.columns < bufferBound → B.rows * D.columns < bufferBound →
    BothAnswer Mat.allocated (do (← A.kronecker B).multiply (← C.kronecker D))
      (do (← A.multiply C).kronecker (← B.multiply D))

/-- All products denote one linear algebra over any commutative ring. -/
theorem products_obey_laws : ProductLaws α := by
  constructor
  case multiply_assoc =>
    intro A B C hAB hBC hRoom hRoom'
    refine ⟨(A.times B).times C, ?_, ?_⟩
    · rw [multiply_of_lt hAB hRoom]
      exact multiply_eq hBC
    · rw [multiply_of_lt hBC hRoom', times_assoc hAB]
      exact multiply_eq hAB
  case multiplyVector_multiply =>
    intro A B v hAB hv hRoom hRoom'
    refine ⟨(A.times B).timesVector v, ?_, ?_⟩
    · rw [multiply_of_lt hAB hRoom]
      exact multiplyVector_eq_times hv
    · rw [multiplyVector_of_lt hv hRoom', timesVector_times hAB]
      exact multiplyVector_eq_times (hAB.trans Vec.count_tabulate.symm)
  case leftMultiply_multiply =>
    intro A B v hAB hv hRoom hRoom'
    refine ⟨(A.times B).vectorTimes v, ?_, ?_⟩
    · rw [multiply_of_lt hAB hRoom]
      exact leftMultiply_eq_times hv
    · rw [leftMultiply_of_lt hv hRoom', vectorTimes_times hAB]
      exact leftMultiply_eq_times (hAB.symm.trans Vec.count_tabulate.symm)
  case multiply_column =>
    intro A V v hCount hColumn
    exact ⟨_, _, multiplyVector_eq_times hCount, multiply_eq (hCount.trans hColumn.rows.symm),
      hColumn.times hCount, hColumn.column_eq hCount⟩
  case outer_multiplyVector =>
    intro u v w hCount hRoom
    have hFits : u.count < bufferBound :=
      Nat.lt_of_le_of_lt (Nat.le_mul_of_pos_right _ v.nonempty) hRoom
    have hScaled : (outerTimes u v).timesVector w =
        .tabulate u.count u.nonempty fun i => u.entry i * inner v w := by
      apply Vec.tabulate_congr rfl
      intro i hi
      rw [← entry_timesVector_outerTimes hi, entry_timesVector hi]
    have hInPlace := revised_multiplyScalar (inner v w) u
    refine ⟨inner v w, (outerTimes u v).timesVector w, dot_eq_inner hCount, ?_, ?_,
      _, rfl, Vec.alike_of_entry ?_ fun i hi => ?_⟩
    · rw [outer_eq, allocated_of_lt hRoom]
      exact multiplyVector_of_lt hCount hFits
    · rw [hScaled]
      exact Vec.multiplyScalarInto_eq u _
    · exact Vec.count_tabulate.trans hInPlace.count.symm
    · have hi : i < u.count := Nat.lt_of_lt_of_eq hi Vec.count_tabulate
      rw [entry_timesVector_outerTimes hi]
      exact (hInPlace.entry i hi).symm
  case kronecker_multiply =>
    intro A B C D hAC hBD hAB hCD hRoom hRoom'
    have hInner : A.columns * B.columns = C.rows * D.rows := by rw [hAC, hBD]
    refine ⟨(A.kroneckerTimes B).times (C.kroneckerTimes D), ?_, ?_⟩
    · rw [kronecker_eq, kronecker_eq, allocated_of_lt hAB, allocated_of_lt hCD]
      exact multiply_eq hInner
    · rw [multiply_of_lt hAC hRoom, multiply_of_lt hBD hRoom', kroneckerTimes_times hAC hBD]
      exact kronecker_eq _ _

/-- Integer matrices of different shapes and storages, and a vector as a matrix. -/
theorem integer_products_obey_laws :
    let A : Mat Int := (tabulate 2 3 Nat.two_pos (Nat.succ_pos 2) fun r c => (r : Int) - 2 * c).scatter
    let B : Mat Int := tabulate 3 1 (Nat.succ_pos 2) Nat.one_pos fun r _ => r + 1
    let C : Mat Int := fill 1 4 Nat.one_pos (Nat.succ_pos 3) (-3)
    let v : Vec Int := .ofList [1, 2, 3] (Nat.succ_pos 2)
    BothAnswer Mat.allocated (do (← A.multiply B).multiply C) (do A.multiply (← B.multiply C)) ∧
    (∃ (w : Vec Int) (P : Mat Int), A.multiplyVector v = w.allocated ∧ A.multiply B = P.allocated ∧
      P.IsColumn w ∧ P.column 0 = w.allocated) ∧
    BothAnswer Mat.allocated (do (← A.kronecker B).multiply (← B.kronecker C))
      (do (← A.multiply B).kronecker (← B.multiply C)) := by
  intro A B C v
  have hLaws := products_obey_laws Int
  have hColumn : B.IsColumn v := ⟨rfl, rfl, by decide⟩
  exact ⟨hLaws.multiply_assoc A B C rfl rfl (by decide) (by decide),
    hLaws.multiply_column A B v rfl hColumn,
    hLaws.kronecker_multiply A B B C rfl rfl (by decide) (by decide) (by decide) (by decide)⟩

end Products

end Almanac.Mat
