import Almanac.Mat.Block
import Almanac.Mat.Region
import Almanac.Proofs.Mat.Placement
import Almanac.Proofs.Vec.Entry

/-! # Entries of matrices

What each way to write a matrix leaves at every position: loops of single writes, whatever the
storage, and operations on the block of a dense matrix. A new matrix is answered if the machine has
room for it.
-/
namespace Almanac.Mat
set_option autoImplicit false
open Linear

variable {α : Type}

section Allocation
variable {A C : Mat α} {m n : Nat}

/-- A new matrix, if the machine has room for it. -/
def allocated (A : Mat α) : Checked (Mat α) := do
  checkAllocation (A.rows * A.columns)
  return A

theorem allocated_eq (A : Mat α) :
    A.allocated = if A.rows * A.columns < bufferBound then .ok A else fault := by
  rw [allocated, checkAllocation]
  split <;> rfl

theorem allocated_of_lt (h : A.rows * A.columns < bufferBound) : A.allocated = .ok A := by
  rw [allocated_eq, if_pos h]

theorem bind_allocated {next : Mat α → Checked (Mat α)} (hShape : C.shape = A.shape)
    (hNext : next A = .ok C) : A.allocated >>= next = C.allocated := by
  obtain ⟨hRows, hColumns⟩ := Prod.mk.inj hShape
  rw [allocated_eq, allocated_eq, hRows, hColumns]
  split
  · exact hNext
  · rfl

theorem zeros?_eq [Zero α] (hm : 0 < m) (hn : 0 < n) :
    (zeros? m n : Checked (Mat α)) = (fill m n hm hn 0).allocated :=
  (dif_pos hm).trans (dif_pos hn)

end Allocation

variable [Zero α]

/-- Matrices of one shape with the same elements, however they are stored. -/
structure Alike (A B : Mat α) : Prop where
  rows : A.rows = B.rows
  columns : A.columns = B.columns
  entry : ∀ r c, r < A.rows → c < A.columns → A.entry r c = B.entry r c

namespace Alike
variable {A B C : Mat α}

theorem refl (A : Mat α) : A.Alike A := ⟨rfl, rfl, fun _ _ _ _ => rfl⟩

theorem trans (h : A.Alike B) (h' : B.Alike C) : A.Alike C :=
  ⟨h.rows.trans h'.rows, h.columns.trans h'.columns, fun r c hr hc =>
    (h.entry r c hr hc).trans (h'.entry r c (h.rows ▸ hr) (h.columns ▸ hc))⟩

theorem shape (h : A.Alike B) : A.shape = B.shape := by
  rw [Mat.shape, Mat.shape, h.rows, h.columns]

end Alike

/-- Revisions that come to the same new elements. -/
theorem Revised.alike_of_entry {f g : Nat → Nat → α → α} {C C' D D' : Mat α} (h : Revised f C D)
    (h' : Revised g C' D') (hShape : C.shape = C'.shape) (hSame : ∀ r c, r < C.rows →
      c < C.columns → f r c (C.entry r c) = g r c (C'.entry r c)) : D.Alike D' := by
  obtain ⟨hRows, hColumns⟩ := Prod.mk.inj hShape
  refine ⟨?_, ?_, fun r c hr hc => ?_⟩
  · rw [h.rows, h'.rows, hRows]
  · rw [h.columns, h'.columns, hColumns]
  · rw [h.rows] at hr
    rw [h.columns] at hc
    rw [h.entry r c hr hc, h'.entry r c (hRows ▸ hr) (hColumns ▸ hc), hSame r c hr hc]

/-- The same revision of the same elements. -/
theorem Revised.alike {f g : Nat → Nat → α → α} {C C' D D' : Mat α} (h : Revised f C D)
    (h' : Revised g C' D') (hStart : C.Alike C')
    (hSame : ∀ r c, r < C.rows → c < C.columns → f r c (C.entry r c) = g r c (C.entry r c)) :
    D.Alike D' := by
  refine h.alike_of_entry h' hStart.shape fun r c hr hc => ?_
  rw [hSame r c hr hc, hStart.entry r c hr hc]

section Writes
variable {f g : Nat → Nat → α → α} {C D E : Mat α}

theorem Revised.refl (C : Mat α) : Revised (fun _ _ x => x) C C := ⟨.refl C, fun _ _ _ _ => rfl⟩

theorem Revised.trans (h : Revised f C D) (h' : Revised g D E) :
    Revised (fun r c x => g r c (f r c x)) C E := by
  refine ⟨h.toFramed.trans h'.toFramed, fun r c hr hc => ?_⟩
  rw [h'.entry r c (h.rows ▸ hr) (h.columns ▸ hc), h.entry r c hr hc]

theorem revised_put (C : Mat α) {i j : Nat} (hi : i < C.rows) (hj : j < C.columns) (y : α) :
    Revised (fun r c x => if r = i ∧ c = j then y else x) C (C.put i j y) := by
  refine revised_of_acts (C.framed_put i j y) (acts_writeAt C.placement_offset hi hj y) ?_
  rw [writeAt, if_pos]
  · rfl
  · rw [C.size_eq]
    exact C.placement_offset.lt hi hj

theorem revised_sweep (f : Nat → Nat → α → α) (C : Mat α) :
    Revised f C (C.sweep fun D r c => f r c (D.entry r c)) := revised_foldl_put f C

/-- A loop that writes some positions with what belongs to each of them. -/
theorem revised_foldl_write (value : Nat → Nat → α) (qs : List (Nat × Nat)) (C : Mat α)
    (h : ∀ q ∈ qs, q.1 < C.rows ∧ q.2 < C.columns) :
    Revised (fun r c x => if (r, c) ∈ qs then value r c else x) C
      (qs.foldl (fun D q => D.put q.1 q.2 (value q.1 q.2)) C) := by
  induction qs generalizing C with
  | nil => simpa using Revised.refl C
  | cons q qs ih =>
    obtain ⟨hq, hQs⟩ := List.forall_mem_cons.mp h
    have hRest := ih (C.put q.1 q.2 (value q.1 q.2)) hQs
    refine ((revised_put C hq.1 hq.2 _).trans hRest).congr fun r c x _ _ => ?_
    by_cases hMem : (r, c) ∈ qs
    · rw [if_pos hMem, if_pos (List.mem_cons_of_mem q hMem)]
    · rw [if_neg hMem]
      by_cases hHere : (r, c) = q
      · subst hHere
        rw [if_pos ⟨rfl, rfl⟩, if_pos List.mem_cons_self]
      · have hNe : ¬(r = q.1 ∧ c = q.2) := fun h => hHere (Prod.ext h.1 h.2)
        rw [if_neg hNe, if_neg (by simp [hHere, hMem])]

theorem revised_writeWindow (C : Mat α) {row column rows columns : Nat} (f : Nat → Nat → α)
    (hRows : row + rows ≤ C.rows) (hColumns : column + columns ≤ C.columns) :
    Revised (fun r c x =>
      if (row ≤ r ∧ r < row + rows) ∧ column ≤ c ∧ c < column + columns then
        f (r - row) (c - column) else x) C (C.writeWindow row column rows columns f) := by
  have hMem : ∀ r c, (r, c) ∈ (columnwise rows columns).map (fun p => (row + p.1, column + p.2)) ↔
      (row ≤ r ∧ r < row + rows) ∧ column ≤ c ∧ c < column + columns := by
    intro r c
    simp only [List.mem_map, Prod.exists, mem_columnwise, Prod.mk.injEq]
    constructor
    · rintro ⟨i, j, ⟨hi, hj⟩, rfl, rfl⟩
      omega
    · rintro ⟨⟨hr, hr'⟩, hc, hc'⟩
      exact ⟨r - row, c - column, by omega, by omega, by omega⟩
  have hLoop := revised_foldl_write (fun r c => f (r - row) (c - column)) _ C fun q hq => by
    have := (hMem q.1 q.2).mp hq
    omega
  simp only [hMem, List.foldl_map, Nat.add_sub_cancel_left] at hLoop
  exact hLoop

end Writes

section Dense
variable {A B C other : Mat α} {m n : Nat}

omit [Zero α] in
theorem getElem?_columnwise (m n i : Nat) :
    (columnwise m n)[i]? = if i < m * n then some (i % m, i / m) else none := by
  induction n with
  | zero => rfl
  | succ n ih =>
    have hColumn : columnwise m (n + 1) = columnwise m n ++ (List.range m).map fun r => (r, n) := by
      simp [columnwise, List.range_succ]
    rw [hColumn, Nat.mul_succ]
    by_cases hi : i < m * n
    · rw [List.getElem?_append_left (by rwa [length_columnwise]), ih, if_pos hi, if_pos (by omega)]
    · obtain ⟨k, rfl⟩ := Nat.exists_eq_add_of_le (Nat.le_of_not_lt hi)
      rw [List.getElem?_append_right (by rw [length_columnwise]; omega), length_columnwise,
        Nat.add_sub_cancel_left, List.getElem?_map]
      by_cases hk : k < m
      · rw [List.getElem?_range hk, if_pos (by omega), Nat.mul_add_mod, Nat.mod_eq_of_lt hk,
          Nat.mul_add_div (by omega), Nat.div_eq_of_lt hk]
        rfl
      · rw [List.getElem?_eq_none (by simpa using hk), if_neg (by omega)]
        rfl

omit [Zero α] in
theorem getElem?_columnwise_place {r c : Nat} (hr : r < m) (hc : c < n) :
    (columnwise m n)[c * m + r]? = some (r, c) := by
  have hPos : 0 < m := Nat.lt_of_le_of_lt (Nat.zero_le r) hr
  rw [getElem?_columnwise, if_pos ((placement_byColumns m n).lt hr hc), Nat.mul_comm c m,
    Nat.mul_add_mod, Nat.mod_eq_of_lt hr, Nat.mul_add_div hPos, Nat.div_eq_of_lt hr, Nat.add_zero]

omit [Zero α] in
theorem rowwise_eq (m n : Nat) : rowwise m n = (columnwise n m).map fun p => (p.2, p.1) := by
  simp [rowwise, columnwise, List.map_flatMap, Function.comp_def]

theorem entry_of_dense (hDense : A.storage = .dense) (r c : Nat) :
    A.entry r c = A.data.getD (c * A.rows + r) 0 := by
  rw [entry, offset_of_dense hDense]

theorem entry_of_getElem? (hDense : A.storage = .dense) {r c : Nat} {x : α}
    (h : A.data[c * A.rows + r]? = some x) : A.entry r c = x := by
  rw [entry_of_dense hDense, Array.getD_eq_getD_getElem?, h]
  rfl

theorem toList_data (hDense : A.storage = .dense) : A.data.toList = A.columnElements := by
  apply List.ext_getElem?
  intro i
  rw [columnElements, List.getElem?_map, getElem?_columnwise, Array.getElem?_toList]
  split
  · rename_i hi
    have hEntry := getElem?_of_dense hDense (Nat.mod_lt i A.rows_pos) (Nat.div_lt_of_lt_mul hi)
    rwa [Nat.div_add_mod'] at hEntry
  · rename_i hi
    rw [Array.getElem?_eq_none (by rw [A.size_eq]; omega)]
    rfl

theorem Alike.columnElements (h : A.Alike B) : A.columnElements = B.columnElements := by
  rw [Mat.columnElements, Mat.columnElements, ← h.rows, ← h.columns]
  apply List.map_congr_left
  rintro ⟨r, c⟩ hMem
  obtain ⟨hr, hc⟩ := mem_columnwise.mp hMem
  exact h.entry r c hr hc

omit [Zero α] in
theorem eq_of_data (hStorage : A.storage = B.storage) (hRows : A.rows = B.rows)
    (hColumns : A.columns = B.columns) (hData : A.data = B.data) : A = B := by
  obtain ⟨_, _, _, _, _, _, _⟩ := A
  obtain ⟨_, _, _, _, _, _, _⟩ := B
  cases hStorage
  cases hRows
  cases hColumns
  cases hData
  rfl

omit [Zero α] in
/-- Every place in the buffer belongs to a position. -/
theorem exists_offset (A : Mat α) {i : Nat} (hi : i < A.data.size) :
    ∃ r c, r < A.rows ∧ c < A.columns ∧ A.offset r c = i := by
  rw [A.size_eq] at hi
  cases hStorage : A.storage with
  | dense =>
    refine ⟨i % A.rows, i / A.rows, Nat.mod_lt i A.rows_pos, Nat.div_lt_of_lt_mul hi, ?_⟩
    rw [offset_of_dense hStorage]
    exact Nat.div_add_mod' i A.rows
  | scattered =>
    rw [Nat.mul_comm] at hi
    refine ⟨i / A.columns, i % A.columns, Nat.div_lt_of_lt_mul hi, Nat.mod_lt i A.columns_pos, ?_⟩
    rw [offset_of_scattered hStorage]
    exact Nat.div_add_mod' i A.columns

theorem Alike.eq_of_storage (h : A.Alike B) (hStorage : A.storage = B.storage) : A = B := by
  have hOffset : A.offset = B.offset :=
    (Framed.mk hStorage.symm h.rows.symm h.columns.symm : Framed A B).offset.symm
  apply eq_of_data hStorage h.rows h.columns
  apply Array.ext_getElem?
  intro i
  by_cases hi : i < A.data.size
  · obtain ⟨r, c, hr, hc, rfl⟩ := A.exists_offset hi
    rw [A.getElem?_offset hr hc, h.entry r c hr hc, hOffset,
      B.getElem?_offset (h.rows ▸ hr) (h.columns ▸ hc)]
  · have hSize : A.data.size = B.data.size := by rw [A.size_eq, B.size_eq, h.rows, h.columns]
    rw [Array.getElem?_eq_none (Nat.le_of_not_lt hi),
      Array.getElem?_eq_none (hSize ▸ Nat.le_of_not_lt hi)]

theorem Alike.eq (h : A.Alike B) (hA : A.storage = .dense) (hB : B.storage = .dense) : A = B :=
  h.eq_of_storage (hA.trans hB.symm)

omit [Zero α] in
theorem tabulate_congr {m' n' : Nat} {hm : 0 < m} {hn : 0 < n} {hm' : 0 < m'} {hn' : 0 < n'}
    {f g : Nat → Nat → α} (hRows : m = m') (hColumns : n = n')
    (h : ∀ r c, r < m → c < n → f r c = g r c) :
    tabulate m n hm hn f = tabulate m' n' hm' hn' g := by
  subst hRows hColumns
  refine eq_of_data rfl rfl rfl (congrArg List.toArray (List.map_congr_left fun p hp => ?_))
  obtain ⟨hr, hc⟩ := mem_columnwise.mp hp
  exact h p.1 p.2 hr hc

theorem entry_tabulate {hRows : 0 < m} {hColumns : 0 < n} {f : Nat → Nat → α} {r c : Nat}
    (hr : r < m) (hc : c < n) : (tabulate m n hRows hColumns f).entry r c = f r c := by
  apply entry_of_getElem? rfl
  rw [tabulate, List.getElem?_toArray, List.getElem?_map, getElem?_columnwise_place hr hc]
  rfl

theorem entry_fill {m n : Nat} (hm : 0 < m) (hn : 0 < n) (x : α) {r c : Nat} (hr : r < m)
    (hc : c < n) : (fill m n hm hn x).entry r c = x := by
  apply entry_of_getElem? rfl
  exact Array.getElem?_replicate.trans (if_pos ((placement_byColumns m n).lt hr hc))

theorem revised_of_dense {f : Nat → Nat → α → α} {D : Mat α} (hFrame : Framed C D)
    (hC : C.storage = .dense) (h : ∀ r c, r < C.rows → c < C.columns →
      D.data[c * C.rows + r]? = some (f r c (C.entry r c))) : Revised f C D := by
  refine ⟨hFrame, fun r c hr hc => entry_of_getElem? (hFrame.storage.trans hC) ?_⟩
  rw [hFrame.rows]
  exact h r c hr hc

theorem revised_zipBlock (op : α → α → α) (hC : C.storage = .dense)
    (hOther : other.storage = .dense) (hShape : C.shape = other.shape) :
    Revised (fun r c x => op x (other.entry r c)) C (C.zipBlock op other) := by
  obtain ⟨hRows, hColumns⟩ := Prod.mk.inj hShape
  rw [zipBlock]
  split
  · refine revised_of_dense ⟨rfl, rfl, rfl⟩ hC fun r c hr hc => ?_
    have hRead := getElem?_of_dense hOther (hRows ▸ hr) (hColumns ▸ hc)
    rw [← hRows] at hRead
    simp only [Array.getElem?_zipWith, getElem?_of_dense hC hr hc, hRead]
  · rename_i hNot
    exact absurd (by rw [C.size_eq, other.size_eq, hRows, hColumns]) hNot

theorem revised_withBlock (hC : C.storage = .dense) (hOther : other.storage = .dense)
    (hShape : other.shape = C.shape) :
    Revised (fun r c _ => other.entry r c) C (C.withBlock other) := by
  obtain ⟨hRows, hColumns⟩ := Prod.mk.inj hShape
  rw [withBlock]
  split
  · refine revised_of_dense ⟨rfl, rfl, rfl⟩ hC fun r c hr hc => ?_
    have hRead := getElem?_of_dense hOther (hRows ▸ hr) (hColumns ▸ hc)
    rwa [hRows] at hRead
  · rename_i hNot
    exact absurd (by rw [C.size_eq, other.size_eq, hRows, hColumns]) hNot

omit [Zero α] in
theorem column_fits {index : Nat} (hIndex : index < C.columns) :
    index * C.rows + C.rows ≤ C.data.size := by
  rw [C.size_eq, Nat.mul_comm C.rows, ← Nat.succ_mul]
  exact Nat.mul_le_mul_right C.rows hIndex

theorem revised_spliceColumn (hC : C.storage = .dense) {index : Nat} (hIndex : index < C.columns)
    {column : Array α} (hColumn : column.size = C.rows) :
    Revised (fun r c x => if c = index then column.getD r 0 else x) C
      (C.spliceColumn index column) := by
  have hFits := column_fits hIndex
  have hSize := C.size_eq
  rw [spliceColumn]
  split
  · refine revised_of_dense ⟨rfl, rfl, rfl⟩ hC fun r c hr hc => ?_
    have hRead := Vec.getElem?_splice C.data column (hColumn ▸ hFits) (c * C.rows + r)
    rw [hColumn] at hRead
    refine hRead.trans ?_
    by_cases hHere : c = index
    · subst hHere
      rw [if_pos (by omega), if_pos rfl, Nat.add_sub_cancel_left, Array.getD_eq_getD_getElem?,
        Array.getElem?_eq_getElem (hColumn ▸ hr)]
      rfl
    · have hOutside : ¬(index * C.rows ≤ c * C.rows + r ∧
          c * C.rows + r < index * C.rows + C.rows) := by
        rintro ⟨hFrom, hTo⟩
        obtain ⟨k, hk⟩ := Nat.exists_eq_add_of_le hFrom
        exact hHere (linear_injective hr (by omega) hk).1
      rw [if_neg hOutside, if_neg hHere, getElem?_of_dense hC hr hc]
  · rename_i hNot
    refine absurd ?_ hNot
    simp only [Array.size_append, Array.size_extract, hColumn]
    omega

theorem revised_joinBlocks {result right : Mat α} (hResult : result.storage = .dense)
    (hA : A.storage = .dense) (hRight : right.storage = .dense) (hRows : right.rows = A.rows)
    (hShape : (A.rows, A.columns + right.columns) = result.shape) :
    Revised (fun r c _ => if c < A.columns then A.entry r c else right.entry r (c - A.columns))
      result (result.joinBlocks A right) := by
  obtain ⟨hResultRows, hResultColumns⟩ := Prod.mk.inj hShape
  rw [joinBlocks]
  split
  · refine revised_of_dense ⟨rfl, rfl, rfl⟩ hResult fun r c hr hc => ?_
    change (A.data ++ right.data)[c * result.rows + r]? = _
    rw [← hResultRows] at hr ⊢
    rw [← hResultColumns] at hc
    by_cases hLeft : c < A.columns
    · have hRead := getElem?_of_dense hA hr hLeft
      rw [if_pos hLeft, ← hRead]
      exact Array.getElem?_append_left (Array.getElem?_eq_some_iff.mp hRead).1
    · obtain ⟨k, rfl⟩ := Nat.exists_eq_add_of_le (Nat.le_of_not_lt hLeft)
      have hPlace : (A.columns + k) * A.rows + r = A.data.size + (k * A.rows + r) := by
        rw [A.size_eq, Nat.add_mul, Nat.mul_comm A.rows, Nat.add_assoc]
      have hRead := getElem?_of_dense hRight (hRows ▸ hr) (by omega : k < right.columns)
      rw [if_neg hLeft, Nat.add_sub_cancel_left, ← hRead, hRows, hPlace]
      rw [Array.getElem?_append_right (Nat.le_add_right ..), Nat.add_sub_cancel_left]
  · rename_i hNot
    refine absurd ?_ hNot
    rw [A.size_eq, right.size_eq, result.size_eq, hRows, ← Nat.mul_add, hResultColumns, hResultRows]

/-- The matrix with rows and columns exchanged, element by element. -/
def flipped (A : Mat α) : Mat α :=
  tabulate A.columns A.rows A.columns_pos A.rows_pos fun r c => A.entry c r

omit [Zero α] in
theorem data_foldl_put (value : Nat → Nat → α) (qs : List (Nat × Nat)) (hC : C.storage = .dense) :
    (qs.foldl (fun D q => D.put q.1 q.2 (value q.1 q.2)) C).data =
      qs.foldl (fun data q => data.setIfInBounds (q.2 * C.rows + q.1) (value q.1 q.2)) C.data := by
  induction qs generalizing C with
  | nil => rfl
  | cons q qs ih =>
    have hPut : (C.put q.1 q.2 (value q.1 q.2)).data =
        C.data.setIfInBounds (q.2 * C.rows + q.1) (value q.1 q.2) := by
      simp only [put, offset_of_dense hC]
    have hRest := ih (C := C.put q.1 q.2 (value q.1 q.2)) hC
    rw [List.foldl_cons, List.foldl_cons, hRest, hPut]
    rfl

theorem transposeBlock_eq (hA : A.storage = .dense) : A.transposeBlock = A.flipped := by
  let start := fill A.columns A.rows A.columns_pos A.rows_pos (0 : α)
  let qs := (columnwise A.rows A.columns).map fun p => (p.2, p.1)
  have hMem : ∀ r c, (r, c) ∈ qs ↔ r < A.columns ∧ c < A.rows := by
    simp [qs, mem_columnwise, and_comm]
  -- The loop over the block is a loop of writes into a matrix of zeros.
  have hData := data_foldl_put (C := start) (fun r c => A.data.getD (r * A.rows + c) 0) qs rfl
  have hLoop := revised_foldl_write (fun r c => A.data.getD (r * A.rows + c) 0) qs start fun q hq =>
    (hMem q.1 q.2).mp hq
  have hSame : A.transposeBlock = qs.foldl (fun D q =>
      D.put q.1 q.2 (A.data.getD (q.1 * A.rows + q.2) 0)) start := by
    refine eq_of_data hLoop.storage.symm hLoop.rows.symm hLoop.columns.symm ?_
    have hStart : start.data = Array.replicate (A.rows * A.columns) 0 := by
      simp [start, fill, Nat.mul_comm]
    rw [hData, List.foldl_map, hStart]
    rfl
  rw [hSame]
  refine Alike.eq ⟨hLoop.rows, hLoop.columns, fun r c hr hc => ?_⟩ hLoop.storage rfl
  have hr' : r < A.columns := Nat.lt_of_lt_of_eq hr hLoop.rows
  have hc' : c < A.rows := Nat.lt_of_lt_of_eq hc hLoop.columns
  rw [hLoop.entry r c hr' hc', if_pos ((hMem r c).mpr ⟨hr', hc'⟩), flipped, entry_tabulate hr' hc',
    entry_of_dense hA]

theorem transposeElements_eq (A : Mat α) : A.transposeElements = A.flipped := by
  refine eq_of_data ?_ ?_ ?_ ?_
  · rfl
  · rfl
  · rfl
  · simp [transposeElements, flipped, tabulate, toRowMajor, rowwise, columnwise, List.map_flatMap,
      Function.comp_def]

theorem getElem?_toRowMajor {r c : Nat} (hr : r < A.rows) (hc : c < A.columns) :
    A.toRowMajor[r * A.columns + c]? = some (A.entry r c) := by
  rw [toRowMajor, rowwise_eq, List.getElem?_map, List.getElem?_map,
    getElem?_columnwise_place hc hr]
  rfl

theorem alike_scatter (A : Mat α) : A.Alike A.scatter := by
  refine ⟨rfl, rfl, fun r c hr hc => ?_⟩
  have hRead : A.scatter.data[r * A.columns + c]? = some (A.entry r c) := by
    rw [scatter, List.getElem?_toArray, getElem?_toRowMajor hr hc]
  have hPlace : A.scatter.data[r * A.columns + c]? = some (A.scatter.entry r c) := by
    have hOffset := A.scatter.getElem?_offset hr hc
    rwa [offset_of_scattered rfl] at hOffset
  exact Option.some.inj (hRead.symm.trans hPlace)

theorem columnList_eq (A : Mat α) {c : Nat} (hc : c < A.columns) :
    A.columnList c = (List.range A.rows).map fun r => A.entry r c := by
  rw [columnList]
  split
  · rename_i hDense
    rw [Nat.succ_mul, Vec.toList_window (column_fits hc)]
    exact List.map_congr_left fun r _ => (entry_of_dense hDense r c).symm
  · rfl

end Dense
end Almanac.Mat
