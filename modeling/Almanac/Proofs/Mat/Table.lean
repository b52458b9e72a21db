import Almanac.Proofs.Mat.Storage

/-! # Tables of what is built

Every operation that builds a matrix or a vector from others leaves a table of its elements, which
depends neither on the storage of the operands nor on what the result held before. A new result is
answered if the machine has room for it.
-/
namespace Almanac
set_option autoImplicit false
open Linear Edit

namespace Vec

def IsBlock {α : Type} (v : Vec α) : Prop := v.storage = .dense

/-- The dense vector with `f i` at position `i`. -/
def tabulate {α : Type} (n : Nat) (h : 0 < n) (f : Nat → α) : Vec α :=
  ofList ((List.range n).map f) (by simpa using h)

section Tabulate
variable {α : Type} {n : Nat} {h : 0 < n} {f g : Nat → α}

theorem count_tabulate : (tabulate n h f).count = n := by simp [tabulate, ofList, count]

theorem allocated_tabulate (hRoom : n < bufferBound) :
    (tabulate n h f).allocated = .ok (tabulate n h f) :=
  allocated_of_lt (Nat.lt_of_le_of_lt (Nat.le_of_eq count_tabulate) hRoom)

theorem tabulate_congr {m : Nat} {h' : 0 < m} (hCount : n = m) (hSame : ∀ i < n, f i = g i) :
    tabulate n h f = tabulate m h' g := by
  subst hCount
  have hValues : (List.range n).map f = (List.range n).map g :=
    List.map_congr_left fun i hi => hSame i (List.mem_range.mp hi)
  simp only [tabulate, hValues]

variable [Zero α]

theorem entry_tabulate {i : Nat} (hi : i < n) : (tabulate n h f).entry i = f i := by
  apply entry_of_getElem?
  rw [tabulate, ofList, List.getElem?_toArray, List.getElem?_map, List.getElem?_range hi]
  rfl

theorem toEntries_tabulate {n : Nat} {h : 0 < n} {f : Nat → α} {xs : List α}
    (hLength : xs.length = n) (hSame : ∀ i < n, f i = xs.getD i 0) :
    (tabulate n h f).toEntries = xs := by
  subst hLength
  have hEntries : (tabulate xs.length h f).toEntries = (List.range xs.length).map f := rfl
  rw [hEntries]
  apply List.ext_getElem
  · simp
  · intro i hi hi'
    rw [List.getElem_map, List.getElem_range, hSame i hi', List.getD_eq_getElem?_getD,
      List.getElem?_eq_getElem hi']
    rfl

/-- A dense vector is the table of its elements. -/
theorem eq_tabulate {v : Vec α} (hDense : v.storage = .dense) (hCount : v.count = n)
    (hEntry : ∀ i < n, v.entry i = f i) : v = tabulate n h f := by
  have hAlike : v.Alike (tabulate n h f) := by
    apply alike_of_entry (hCount.trans count_tabulate.symm)
    intro i hi
    rw [hCount] at hi
    rw [hEntry i hi, entry_tabulate hi]
  exact hAlike.eq hDense

theorem toDense_eq_tabulate (v : Vec α) : v.toDense = tabulate v.count v.nonempty v.entry :=
  toDense_eq (.refl v)

theorem writeFrom_fill (x : α) : (fill n h x).writeFrom 0 n f = tabulate n h f := by
  apply eq_tabulate (storage_writeFrom _ 0 n f) (by rw [count_writeFrom, count_fill])
  intro i hi
  exact entry_writeFrom_of_lt _ f (Nat.lt_of_lt_of_eq hi count_fill.symm) hi

/-- The vectors that are read and multiplied out are tables written after one check. -/
theorem result_table (hn : 0 < n) (check : Checked Unit) (f : Nat → α) :
    Edit.result (fill n hn 0) (do
      Edit.require check
      let result ← Edit.current
      Edit.require (checkResultCount n result.count)
      Edit.write fun result => result.writeFrom 0 n f) = do
      check
      return tabulate n hn f := by
  cases check with
  | error failure => rfl
  | ok _ =>
    have hResult : checkResultCount n (fill n hn (0 : α)).count = .ok () :=
      if_pos count_fill.symm
    apply result_of_runOn
    rw [runOn_require, runOn_current, runOn_require, hResult]
    exact (runOn_write _ _).trans (congrArg (Prod.mk _) (writeFrom_fill 0))

theorem new_table (hn : 0 < n) (check : Checked Unit) (f : Nat → α) :
    (do
      Edit.result (← zeros? n) (do
        Edit.require check
        let result ← Edit.current
        Edit.require (checkResultCount n result.count)
        Edit.write fun result => result.writeFrom 0 n f)) = do
      let table ← (tabulate n hn f).allocated
      check
      return table := by
  rw [zeros?_eq hn, allocated_eq, allocated_eq, count_fill, count_tabulate]
  split
  · exact result_table hn check f
  · rfl

theorem multiplyScalarInto_eq [Mul α] (v : Vec α) (x : α) :
    Edit.result (fill v.count v.nonempty 0) (v.multiplyScalarInto x) =
      .ok (tabulate v.count v.nonempty fun i => v.entry i * x) :=
  result_table v.nonempty (.ok ()) _

end Tabulate
end Vec

namespace Mat
variable {α : Type} [Zero α] {m n : Nat}

/-- An edit that leaves a table in every result of a shape, whatever the result held. -/
def Fills (edit : Change α Unit) (m n : Nat) (table : Nat → Nat → α) : Prop :=
  ∀ C, C.shape = (m, n) → ∃ D, runOn C edit = (.ok (), D) ∧ Revised (fun r c _ => table r c) C D

theorem eq_tabulate {C : Mat α} {hm : 0 < m} {hn : 0 < n} {table : Nat → Nat → α}
    (hDense : C.storage = .dense) (hShape : C.shape = (m, n))
    (hEntry : ∀ r c, r < m → c < n → C.entry r c = table r c) : C = tabulate m n hm hn table := by
  obtain ⟨rfl, rfl⟩ := Prod.mk.inj hShape
  apply Alike.eq _ hDense rfl
  refine ⟨rfl, rfl, fun r c hr hc => ?_⟩
  rw [hEntry r c hr hc, entry_tabulate hr hc]

theorem Fills.result {edit : Change α Unit} {table : Nat → Nat → α} (h : Fills edit m n table)
    (hm : 0 < m) (hn : 0 < n) :
    (do Edit.result (← zeros? m n) edit) = (tabulate m n hm hn table).allocated := by
  obtain ⟨D, hRun, hRevised⟩ := h (fill m n hm hn 0) rfl
  have hTable : D = tabulate m n hm hn table :=
    eq_tabulate hRevised.storage hRevised.shape hRevised.entry
  rw [zeros?_eq hm hn]
  exact bind_allocated rfl ((result_of_runOn hRun).trans (congrArg Except.ok hTable))

section Blocks
variable (A B : Mat α)

def besideTable (r c : Nat) : α :=
  if c < A.columns then A.entry r c else B.entry r (c - A.columns)

def aboveTable (r c : Nat) : α := if r < A.rows then A.entry r c else B.entry (r - A.rows) c

def diagonalTable (r c : Nat) : α :=
  if r < A.rows ∧ c < A.columns then A.entry r c
  else if A.rows ≤ r ∧ A.columns ≤ c then B.entry (r - A.rows) (c - A.columns) else 0

def kroneckerTable [Mul α] (r c : Nat) : α :=
  A.entry (r / B.rows) (c / B.columns) * B.entry (r % B.rows) (c % B.columns)

variable {A B}

theorem fills_appendInto (h : B.rows = A.rows) :
    Fills (A.appendInto B) A.rows (A.columns + B.columns) (A.besideTable B) := by
  intro C hShape
  have hRight : checkRight A B = .ok () := by simp [checkRight, checkShape, shape, h]
  have hResult : checkResultShape (A.rows, A.columns + B.columns) C.shape = .ok () := by
    simp [checkResultShape, hShape]
  rw [appendInto]
  split
  · rw [appendElementsInto, runOn_require, hRight, runOn_current, runOn_require, hResult]
    exact ⟨_, runOn_write C _, revised_writeBeside A h hShape.symm⟩
  · rename_i hDense
    simp only [runOn_require, hRight, runOn_current, hResult]
    split
    · rename_i hRightDense hC
      exact ⟨_, runOn_write C _, revised_joinBlocks hC hDense hRightDense h hShape.symm⟩
    · exact ⟨_, runOn_write C _, revised_writeBeside A h hShape.symm⟩

theorem append_eq (h : B.rows = A.rows) : A.append B =
    (tabulate A.rows (A.columns + B.columns) A.rows_pos (Nat.add_pos_left A.columns_pos _)
      (A.besideTable B)).allocated := (fills_appendInto h).result _ _

theorem fills_stackInto (h : B.columns = A.columns) :
    Fills (A.stackInto B) (A.rows + B.rows) A.columns (A.aboveTable B) := by
  intro C hShape
  obtain ⟨hRows, hColumns⟩ := Prod.mk.inj hShape
  have hLower : checkShape "lower" (B.rows, A.columns) B.shape = .ok () := by
    simp [checkShape, shape, h]
  have hResult : checkResultShape (A.rows + B.rows, A.columns) C.shape = .ok () := by
    simp [checkResultShape, hShape]
  rw [stackInto, runOn_require, hLower, runOn_current, runOn_require, hResult]
  refine ⟨_, runOn_write C _, ?_⟩
  have hUpper := revised_writeWindow C A.entry (by omega : 0 + A.rows ≤ C.rows)
    (by omega : 0 + A.columns ≤ C.columns)
  have hBelow := revised_writeWindow (C.writeWindow 0 0 A.rows A.columns A.entry) B.entry
    (by rw [hUpper.rows]; omega : A.rows + B.rows ≤ _)
    (by rw [hUpper.columns]; omega : 0 + B.columns ≤ _)
  refine (hUpper.trans hBelow).congr fun r c x hr hc => ?_
  rw [aboveTable]
  by_cases hHere : r < A.rows
  · rw [if_neg (by omega), if_pos (by omega), if_pos hHere]
    rfl
  · rw [if_pos (by omega), if_neg hHere]
    rfl

theorem stack_eq (h : B.columns = A.columns) : A.stack B =
    (tabulate (A.rows + B.rows) A.columns (Nat.add_pos_left A.rows_pos _) A.columns_pos
      (A.aboveTable B)).allocated := (fills_stackInto h).result _ _

variable (A B)

theorem fills_diagonalStackInto :
    Fills (A.diagonalStackInto B) (A.rows + B.rows) (A.columns + B.columns)
      (A.diagonalTable B) := by
  intro C hShape
  obtain ⟨hRows, hColumns⟩ := Prod.mk.inj hShape
  have hResult : checkResultShape (A.rows + B.rows, A.columns + B.columns) C.shape = .ok () := by
    simp [checkResultShape, hShape]
  rw [diagonalStackInto, runOn_current, runOn_require, hResult]
  refine ⟨_, rfl, ?_⟩
  have hCleared := revised_cleared C
  have hUpper := revised_writeWindow C.cleared A.entry
    (by rw [hCleared.rows]; omega : 0 + A.rows ≤ _)
    (by rw [hCleared.columns]; omega : 0 + A.columns ≤ _)
  have hFirst := hCleared.trans hUpper
  have hLower := revised_writeWindow (C.cleared.writeWindow 0 0 A.rows A.columns A.entry) B.entry
    (by rw [hFirst.rows]; omega : A.rows + B.rows ≤ _)
    (by rw [hFirst.columns]; omega : A.columns + B.columns ≤ _)
  refine (hFirst.trans hLower).congr fun r c x hr hc => ?_
  rw [diagonalTable]
  by_cases hHere : r < A.rows ∧ c < A.columns
  · rw [if_neg (by omega), if_pos (by omega), if_pos hHere]
    rfl
  · rw [if_neg hHere]
    by_cases hThere : A.rows ≤ r ∧ A.columns ≤ c
    · rw [if_pos (by omega), if_pos hThere]
    · rw [if_neg (by omega), if_neg (by omega), if_neg hThere]

theorem diagonalStack_eq : A.diagonalStack B =
    (tabulate (A.rows + B.rows) (A.columns + B.columns) (Nat.add_pos_left A.rows_pos _)
      (Nat.add_pos_left A.columns_pos _) (A.diagonalTable B)).allocated :=
  (fills_diagonalStackInto A B).result _ _

end Blocks

section Kronecker
variable [Mul α] (A B : Mat α)

omit [Zero α] [Mul α] in
theorem div_eq_iff_window {k i r : Nat} (hk : 0 < k) :
    r / k = i ↔ i * k ≤ r ∧ r < i * k + k := by
  rw [Nat.div_eq_iff hk]
  omega

/-- The blocks that a part of the loop over `A` has written hold their part of the table. -/
theorem revised_kroneckerBlocks (qs : List (Nat × Nat)) (C : Mat α)
    (hShape : C.shape = (A.rows * B.rows, A.columns * B.columns))
    (hQs : ∀ q ∈ qs, q.1 < A.rows ∧ q.2 < A.columns) :
    Revised (fun r c x => if (r / B.rows, c / B.columns) ∈ qs then A.kroneckerTable B r c else x) C
      (qs.foldl (fun C p => C.writeWindow (p.1 * B.rows) (p.2 * B.columns) B.rows B.columns
        fun k l => A.entry p.1 p.2 * B.entry k l) C) := by
  induction qs generalizing C with
  | nil => simpa using Revised.refl C
  | cons q qs ih =>
    obtain ⟨hRows, hColumns⟩ := Prod.mk.inj hShape
    obtain ⟨⟨hr, hc⟩, hQs⟩ := List.forall_mem_cons.mp hQs
    have hWindow := revised_writeWindow C (fun k l => A.entry q.1 q.2 * B.entry k l)
      (by rw [hRows, ← Nat.succ_mul]; exact Nat.mul_le_mul_right _ hr :
        q.1 * B.rows + B.rows ≤ C.rows)
      (by rw [hColumns, ← Nat.succ_mul]; exact Nat.mul_le_mul_right _ hc :
        q.2 * B.columns + B.columns ≤ C.columns)
    have hRest := ih _ (hWindow.shape.trans hShape) hQs
    refine (hWindow.trans hRest).congr fun r c x _ _ => ?_
    by_cases hLater : (r / B.rows, c / B.columns) ∈ qs
    · rw [if_pos hLater, if_pos (List.mem_cons_of_mem q hLater)]
    · simp only [if_neg hLater, ← div_eq_iff_window B.rows_pos, ← div_eq_iff_window B.columns_pos]
      by_cases hHere : r / B.rows = q.1 ∧ c / B.columns = q.2
      · obtain ⟨hRow, hColumn⟩ := hHere
        rw [if_pos ⟨hRow, hColumn⟩, if_pos (by simp [hRow, hColumn]), kroneckerTable, hRow, hColumn,
          Nat.mod_eq_sub_mul_div, Nat.mod_eq_sub_mul_div, hRow, hColumn, Nat.mul_comm B.rows,
          Nat.mul_comm B.columns]
      · have hNe : (r / B.rows, c / B.columns) ≠ q := fun hEq => hHere (Prod.mk.inj hEq)
        rw [if_neg hHere, if_neg (by simp [hNe, hLater])]

theorem fills_kroneckerInto :
    Fills (A.kroneckerInto B) (A.rows * B.rows) (A.columns * B.columns) (A.kroneckerTable B) := by
  intro C hShape
  have hResult : checkResultShape (A.rows * B.rows, A.columns * B.columns) C.shape = .ok () := by
    simp [checkResultShape, hShape]
  rw [kroneckerInto, runOn_current, runOn_require, hResult]
  refine ⟨_, runOn_write C _, ?_⟩
  refine (revised_kroneckerBlocks A B (columnwise A.rows A.columns) C hShape fun q hq =>
    mem_columnwise.mp hq).congr fun r c x hr hc => ?_
  obtain ⟨hRows, hColumns⟩ := Prod.mk.inj hShape
  rw [if_pos]
  apply mem_columnwise.mpr
  constructor
  · exact Nat.div_lt_of_lt_mul (by rwa [Nat.mul_comm, ← hRows])
  · exact Nat.div_lt_of_lt_mul (by rwa [Nat.mul_comm, ← hColumns])

theorem kronecker_eq : A.kronecker B =
    (tabulate (A.rows * B.rows) (A.columns * B.columns) (Nat.mul_pos A.rows_pos B.rows_pos)
      (Nat.mul_pos A.columns_pos B.columns_pos) (A.kroneckerTable B)).allocated :=
  (fills_kroneckerInto A B).result _ _

theorem fills_outerInto (u v : Vec α) :
    Fills (outerInto u v) u.count v.count fun r c => u.entry r * v.entry c := by
  intro C hShape
  obtain ⟨hRows, hColumns⟩ := Prod.mk.inj hShape
  have hResult : checkResultShape (u.count, v.count) C.shape = .ok () := by
    simp [checkResultShape, hShape]
  rw [outerInto, runOn_current, runOn_require, hResult]
  refine ⟨_, runOn_write C _, ?_⟩
  rw [← hRows, ← hColumns]
  exact revised_writeAll C _

theorem outer_eq (u v : Vec α) : outer u v =
    (tabulate u.count v.count u.nonempty v.nonempty
      fun r c => u.entry r * v.entry c).allocated :=
  (fills_outerInto u v).result _ _

end Kronecker

section Insertion
variable {A : Mat α} {index : Nat} {v : Vec α}

def insertColumnTable (A : Mat α) (index : Nat) (v : Vec α) (r c : Nat) : α :=
  if c < index then A.entry r c else if c = index then v.entry r else A.entry r (c - 1)

def insertRowTable (A : Mat α) (index : Nat) (v : Vec α) (r c : Nat) : α :=
  if r < index then A.entry r c else if r = index then v.entry c else A.entry (r - 1) c

theorem writeWindow_fill (hm : 0 < m) (hn : 0 < n) (x : α) (f : Nat → Nat → α) :
    (fill m n hm hn x).writeWindow 0 0 m n f = tabulate m n hm hn f := by
  have hAll := revised_writeAll (fill m n hm hn x) f
  exact eq_tabulate hAll.storage hAll.shape hAll.entry

theorem insertColumn_eq (hIndex : index ≤ A.columns) (hCount : v.count = A.rows) :
    A.insertColumn index v =
      (tabulate A.rows (A.columns + 1) A.rows_pos (Nat.succ_pos _)
        (A.insertColumnTable index v)).allocated := by
  have hCheck : checkIndex "index" index (A.columns + 1) = .ok () :=
    if_pos (Nat.lt_succ_of_le hIndex)
  have hLength : checkCount "column" A.rows v.count = .ok () := if_pos hCount.symm
  rw [insertColumn, hCheck, hLength, zeros?_eq A.rows_pos (Nat.succ_pos _)]
  exact bind_allocated rfl (congrArg Except.ok (writeWindow_fill _ _ _ _))

theorem insertRow_eq (hIndex : index ≤ A.rows) (hCount : v.count = A.columns) :
    A.insertRow index v =
      (tabulate (A.rows + 1) A.columns (Nat.succ_pos _) A.columns_pos
        (A.insertRowTable index v)).allocated := by
  have hCheck : checkIndex "index" index (A.rows + 1) = .ok () :=
    if_pos (Nat.lt_succ_of_le hIndex)
  have hLength : checkCount "row" A.columns v.count = .ok () := if_pos hCount.symm
  rw [insertRow, hCheck, hLength, zeros?_eq (Nat.succ_pos _) A.columns_pos]
  exact bind_allocated rfl (congrArg Except.ok (writeWindow_fill _ _ _ _))

end Insertion

section Lines

theorem checkWindow_whole {parameter : String} (hPositive : 0 < n) (hFits : n < bufferBound) :
    checkWindow parameter 0 n n = .ok () := by
  have hWord : n < wordBound := Nat.lt_trans hFits (by decide)
  exact Vec.checkWindow_eq_ok_iff.mpr ⟨hPositive, by omega, by omega⟩

/-- A whole line is read after the check of its position, if the machine has room for it. -/
theorem bind_checkWindow_whole {parameter : String} (hPositive : 0 < n) (hFits : n < bufferBound)
    (check : Checked Unit) : (do check; checkWindow parameter 0 n n) = check := by
  rw [checkWindow_whole hPositive hFits]
  cases check <;> rfl

theorem row_eq (A : Mat α) (index : Nat) : A.row index =
    if A.columns < bufferBound then do
      checkIndex "index" index A.rows
      return Vec.tabulate A.columns A.columns_pos (A.entry index)
    else fault := by
  rw [row, rowRange, Vec.zeros?_eq A.columns_pos, Vec.allocated_eq, Vec.count_fill]
  split
  · rename_i hFits
    change Edit.result _ (A.rowInto index 0 A.columns) = _
    simp only [rowInto, require_require, bind_checkWindow_whole A.columns_pos hFits, Nat.zero_add]
    exact Vec.result_table A.columns_pos _ _
  · rfl

theorem row_of_lt {A : Mat α} {index : Nat} (hIndex : index < A.rows) :
    A.row index = (Vec.tabulate A.columns A.columns_pos (A.entry index)).allocated := by
  rw [row_eq, checkIndex, if_pos hIndex, Vec.allocated_eq, Vec.count_tabulate]
  rfl

theorem keeps_columnElementsInto (A : Mat α) (index row length : Nat) :
    Keeps Vec.IsBlock (A.columnElementsInto index row length) := by
  refine (Keeps.require _).bind fun _ => Keeps.current fun w hw => ?_
  refine (Keeps.require _).bind (P := Vec.IsBlock) (fun _ v hv => ?_) w hw
  exact (Vec.storage_writeFrom v 0 length _).trans hv

theorem keeps_columnInto (A : Mat α) (index row length : Nat) :
    Keeps Vec.IsBlock (A.columnInto index row length) := by
  rw [columnInto]
  split
  · exact keeps_columnElementsInto A index row length
  · refine (Keeps.require _).bind fun _ => Keeps.current fun w hw => ?_
    refine (Keeps.require _).bind (P := Vec.IsBlock) (fun _ v hv => ?_) w hw
    rw [runOn_write]
    split
    · exact (Vec.storage_spliceBlock v 0 _).trans hv
    · exact (Vec.storage_writeFrom v 0 _ _).trans hv

theorem runOn_columnInto (A : Mat α) (index row length : Nat) {w : Vec α}
    (hw : w.storage = .dense) :
    runOn w (A.columnInto index row length) = runOn w (A.columnElementsInto index row length) := by
  obtain ⟨hAnswer, hAlike⟩ := columnInto_same A index row length w
  have hDense := keeps_columnInto A index row length w hw
  have hDense' := keeps_columnElementsInto A index row length w hw
  exact Prod.ext hAnswer (hAlike.eq (hDense.trans hDense'.symm))

theorem column_eq (A : Mat α) (index : Nat) : A.column index =
    if A.rows < bufferBound then do
      checkIndex "index" index A.columns
      return Vec.tabulate A.rows A.rows_pos fun r => A.entry r index
    else fault := by
  rw [column, columnRange, Vec.zeros?_eq A.rows_pos, Vec.allocated_eq, Vec.count_fill]
  split
  · rename_i hFits
    change Edit.result _ (A.columnInto index 0 A.rows) = _
    rw [Edit.result, ← runOn, runOn_columnInto A index 0 A.rows rfl, runOn, ← Edit.result]
    simp only [columnElementsInto, checkColumnWindow, bind_checkWindow_whole A.rows_pos hFits,
      Nat.zero_add]
    exact Vec.result_table A.rows_pos _ _
  · rfl

theorem column_of_lt {A : Mat α} {index : Nat} (hIndex : index < A.columns) :
    A.column index = (Vec.tabulate A.rows A.rows_pos fun r => A.entry r index).allocated := by
  rw [column_eq, checkIndex, if_pos hIndex, Vec.allocated_eq, Vec.count_tabulate]
  rfl

end Lines

section Application
variable [Add α] [Mul α] (A : Mat α) (v : Vec α)

theorem multiplyVector_eq : A.multiplyVector v = do
    let product ← (Vec.tabulate A.rows A.rows_pos fun r =>
      accumulate A.columns (A.entry r) v.entry).allocated
    checkCount "v" A.columns v.count
    return product := Vec.new_table A.rows_pos _ _

theorem leftMultiply_eq : A.leftMultiply v = do
    let product ← (Vec.tabulate A.columns A.columns_pos fun c =>
      accumulate A.rows v.entry fun r => A.entry r c).allocated
    checkCount "v" A.rows v.count
    return product := Vec.new_table A.columns_pos _ _

variable {A v}

theorem multiplyVector_of_count (h : A.columns = v.count) : A.multiplyVector v =
    (Vec.tabulate A.rows A.rows_pos fun r =>
      accumulate A.columns (A.entry r) v.entry).allocated := by
  rw [multiplyVector_eq, checkCount, if_pos h]
  exact bind_pure _

theorem leftMultiply_of_count (h : A.rows = v.count) : A.leftMultiply v =
    (Vec.tabulate A.columns A.columns_pos fun c =>
      accumulate A.rows v.entry fun r => A.entry r c).allocated := by
  rw [leftMultiply_eq, checkCount, if_pos h]
  exact bind_pure _

end Application

section Transpose

theorem transpose_eq_tabulate (A : Mat α) : A.transpose =
    tabulate A.columns A.rows A.columns_pos A.rows_pos fun r c => A.entry c r :=
  (transpose_eq (.refl A)).trans (transposeElements_eq A)

theorem transpose_tabulate (hm : 0 < m) (hn : 0 < n) (table : Nat → Nat → α) :
    (tabulate m n hm hn table).transpose = tabulate n m hn hm fun r c => table c r := by
  rw [transpose_eq_tabulate]
  exact tabulate_congr rfl rfl fun r c hr hc => entry_tabulate hc hr

@[simp] theorem rows_transpose (A : Mat α) : A.transpose.rows = A.columns := by
  rw [transpose_eq_tabulate]
  rfl

@[simp] theorem columns_transpose (A : Mat α) : A.transpose.columns = A.rows := by
  rw [transpose_eq_tabulate]
  rfl

theorem entry_transpose (A : Mat α) {r c : Nat} (hr : r < A.columns) (hc : c < A.rows) :
    A.transpose.entry r c = A.entry c r := by
  rw [transpose_eq_tabulate, entry_tabulate hr hc]

end Transpose

end Mat
end Almanac
