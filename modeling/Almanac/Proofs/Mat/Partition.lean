import Almanac.Proofs.Mat.Window

/-! # Matrices taken apart

What was put together from blocks is cut into them again by reading windows, and a line that was put
in stands between the others. The operations that fill a result leave nothing of what it held.

Main statement: `built_from_blocks_can_be_cut_apart`.
-/
namespace Almanac.Mat
set_option autoImplicit false
open Linear Edit

variable {α : Type} [Zero α]

/-- A builder answers with `C` if the machine has room for it, and the same operation on a result of
that shape leaves the elements of `C` there, whatever the result held and however it is stored. -/
structure Builds (built : Checked (Mat α)) (into : Change α Unit) (C : Mat α) : Prop where
  answered : built = C.allocated
  filled : ∀ R, R.shape = C.shape →
    ∃ D, runOn R into = (.ok (), D) ∧ D.storage = R.storage ∧ D.Alike C

theorem Fills.builds {edit : Change α Unit} {m n : Nat} {table : Nat → Nat → α}
    (h : Fills edit m n table) (hm : 0 < m) (hn : 0 < n) :
    Builds (do Edit.result (← zeros? m n) edit) edit (tabulate m n hm hn table) := by
  refine ⟨h.result hm hn, fun R hShape => ?_⟩
  obtain ⟨D, hRun, hRevised⟩ := h R hShape
  obtain ⟨hRows, hColumns⟩ := Prod.mk.inj hShape
  refine ⟨D, hRun, hRevised.storage, hRevised.rows.trans hRows, hRevised.columns.trans hColumns, ?_⟩
  intro r c hr hc
  rw [hRevised.rows] at hr
  rw [hRevised.columns] at hc
  rw [hRevised.entry r c hr hc]
  exact (entry_tabulate (Nat.lt_of_lt_of_eq hr hRows) (Nat.lt_of_lt_of_eq hc hColumns)).symm

section Blocks
variable {A B : Mat α}

theorem append_cut (h : B.rows = A.rows) :
    ∃ C, Builds (A.append B) (A.appendInto B) C ∧ C.shape = (A.rows, A.columns + B.columns) ∧
      (Addressable C.shape → C.Holds 0 0 A ∧ C.Holds 0 A.columns B) := by
  refine ⟨_, (fills_appendInto h).builds A.rows_pos (Nat.add_pos_left A.columns_pos _), rfl,
    fun hWords => ⟨?_, ?_⟩⟩
  · apply holds_tabulate hWords (by omega) (by omega)
    intro r c hr hc
    rw [Nat.zero_add, Nat.zero_add, besideTable, if_pos hc]
  · apply holds_tabulate hWords (by omega) (Nat.le_refl _)
    intro r c hr hc
    rw [Nat.zero_add, besideTable, if_neg (by omega), Nat.add_sub_cancel_left]

theorem stack_cut (h : B.columns = A.columns) :
    ∃ C, Builds (A.stack B) (A.stackInto B) C ∧ C.shape = (A.rows + B.rows, A.columns) ∧
      (Addressable C.shape → C.Holds 0 0 A ∧ C.Holds A.rows 0 B) := by
  refine ⟨_, (fills_stackInto h).builds (Nat.add_pos_left A.rows_pos _) A.columns_pos, rfl,
    fun hWords => ⟨?_, ?_⟩⟩
  · apply holds_tabulate hWords (by omega) (by omega)
    intro r c hr hc
    rw [Nat.zero_add, Nat.zero_add, aboveTable, if_pos hr]
  · apply holds_tabulate hWords (Nat.le_refl _) (by omega)
    intro r c hr hc
    rw [Nat.zero_add, aboveTable, if_neg (by omega), Nat.add_sub_cancel_left]

variable (A B)

/-- The four windows of a matrix with `A` and `B` along the diagonal. -/
structure Diagonal (C : Mat α) : Prop where
  upper : C.Holds 0 0 A
  right : C.Holds 0 A.columns (fill A.rows B.columns A.rows_pos B.columns_pos 0)
  left : C.Holds A.rows 0 (fill B.rows A.columns B.rows_pos A.columns_pos 0)
  lower : C.Holds A.rows A.columns B

theorem diagonalStack_cut :
    ∃ C, Builds (A.diagonalStack B) (A.diagonalStackInto B) C ∧
      C.shape = (A.rows + B.rows, A.columns + B.columns) ∧
      (Addressable C.shape → Diagonal A B C) := by
  refine ⟨_, (fills_diagonalStackInto A B).builds (Nat.add_pos_left A.rows_pos _)
    (Nat.add_pos_left A.columns_pos _), rfl, fun hWords => ⟨?_, ?_, ?_, ?_⟩⟩
  · apply holds_tabulate hWords (by omega) (by omega)
    intro r c hr hc
    rw [Nat.zero_add, Nat.zero_add, diagonalTable, if_pos ⟨hr, hc⟩]
  · apply holds_tabulate hWords (by simp [fill]) (by simp [fill])
    intro r c hr hc
    have hRow : r < A.rows := hr
    rw [diagonalTable, if_neg (by omega), if_neg (by omega)]
    exact (entry_fill _ _ 0 hr hc).symm
  · apply holds_tabulate hWords (by simp [fill]) (by simp [fill])
    intro r c hr hc
    have hColumn : c < A.columns := hc
    rw [diagonalTable, if_neg (by omega), if_neg (by omega)]
    exact (entry_fill _ _ 0 hr hc).symm
  · apply holds_tabulate hWords (Nat.le_refl _) (Nat.le_refl _)
    intro r c hr hc
    rw [diagonalTable, if_neg (by omega), if_pos (by omega), Nat.add_sub_cancel_left,
      Nat.add_sub_cancel_left]

theorem kronecker_cut [Mul α] :
    ∃ C, Builds (A.kronecker B) (A.kroneckerInto B) C ∧
      C.shape = (A.rows * B.rows, A.columns * B.columns) ∧
      (Addressable C.shape → ∀ i j, i < A.rows → j < A.columns →
        C.Holds (i * B.rows) (j * B.columns) (B.mapEntries (A.entry i j * ·))) := by
  refine ⟨_, (fills_kroneckerInto A B).builds (Nat.mul_pos A.rows_pos B.rows_pos)
    (Nat.mul_pos A.columns_pos B.columns_pos), rfl, fun hWords i j hi hj => ?_⟩
  have hScaled := revised_mapEntries (A.entry i j * ·) B
  apply holds_tabulate hWords
  · rw [hScaled.rows, ← Nat.succ_mul]
    exact Nat.mul_le_mul_right B.rows hi
  · rw [hScaled.columns, ← Nat.succ_mul]
    exact Nat.mul_le_mul_right B.columns hj
  intro r c hr hc
  rw [hScaled.rows] at hr
  rw [hScaled.columns] at hc
  have hRow : (i * B.rows + r) / B.rows = i := (div_eq_iff_window B.rows_pos).mpr (by omega)
  have hColumn : (j * B.columns + c) / B.columns = j :=
    (div_eq_iff_window B.columns_pos).mpr (by omega)
  rw [hScaled.entry r c hr hc, kroneckerTable, hRow, hColumn, Nat.mul_add_mod', Nat.mul_add_mod',
    Nat.mod_eq_of_lt hr, Nat.mod_eq_of_lt hc]

end Blocks

section Insertion
variable {A : Mat α} {m n index : Nat} {v : Vec α}

/-- The elements of the rows, one after the other. -/
def rowLists (A : Mat α) : List (List α) := A.indexedRows.map Prod.snd

def columnLists (A : Mat α) : List (List α) := A.indexedColumns.map Prod.snd

theorem rowLists_eq (A : Mat α) : A.rowLists =
    (List.range A.rows).map fun r => (List.range A.columns).map fun c => A.entry r c := by
  rw [rowLists, indexedRows, List.map_map]
  rfl

theorem columnLists_eq (A : Mat α) : A.columnLists =
    (List.range A.columns).map fun c => (List.range A.rows).map fun r => A.entry r c := by
  rw [columnLists, indexedColumns_eq (.refl A), indexedColumnElements, List.map_map]
  rfl

theorem rowLists_tabulate (hm : 0 < m) (hn : 0 < n) (table : Nat → Nat → α) :
    (tabulate m n hm hn table).rowLists =
      (List.range m).map fun r => (List.range n).map fun c => table r c := by
  rw [rowLists_eq]
  refine List.map_congr_left fun r hr => List.map_congr_left fun c hc => ?_
  exact entry_tabulate (List.mem_range.mp hr) (List.mem_range.mp hc)

theorem columnLists_tabulate (hm : 0 < m) (hn : 0 < n) (table : Nat → Nat → α) :
    (tabulate m n hm hn table).columnLists =
      (List.range n).map fun c => (List.range m).map fun r => table r c := by
  rw [columnLists_eq]
  refine List.map_congr_left fun c hc => List.map_congr_left fun r hr => ?_
  exact entry_tabulate (List.mem_range.mp hr) (List.mem_range.mp hc)

omit [Zero α] in
/-- The three cases of a loop that puts one more into a list. -/
theorem map_range_insertIdx (hIndex : index ≤ n) (f : Nat → α) (x : α) :
    (List.range (n + 1)).map (fun i => if i < index then f i else if i = index then x
      else f (i - 1)) = ((List.range n).map f).insertIdx index x := by
  apply List.ext_getElem?
  intro i
  simp only [List.getElem?_insertIdx, List.getElem?_map, List.length_map, List.length_range]
  rcases Nat.lt_trichotomy i index with hBefore | rfl | hBehind
  · rw [if_pos hBefore, List.getElem?_range (by omega), List.getElem?_range (by omega)]
    exact congrArg some (if_pos hBefore)
  · rw [if_neg (Nat.lt_irrefl i), if_pos rfl, if_pos hIndex, List.getElem?_range (by omega)]
    exact congrArg some ((if_neg (Nat.lt_irrefl i)).trans (if_pos rfl))
  · rw [if_neg (Nat.lt_asymm hBehind), if_neg (Nat.ne_of_gt hBehind)]
    by_cases hi : i ≤ n
    · rw [List.getElem?_range (by omega), List.getElem?_range (by omega)]
      exact congrArg some ((if_neg (Nat.lt_asymm hBehind)).trans (if_neg (Nat.ne_of_gt hBehind)))
    · rw [List.getElem?_eq_none (by simp; omega), List.getElem?_eq_none (by simp; omega)]
      rfl

theorem insertColumn_lists (hIndex : index ≤ A.columns) (hCount : v.count = A.rows) :
    ∃ C : Mat α, A.insertColumn index v = C.allocated ∧ C.shape = (A.rows, A.columns + 1) ∧
      C.columnLists = A.columnLists.insertIdx index v.toEntries := by
  refine ⟨_, insertColumn_eq hIndex hCount, rfl, ?_⟩
  rw [columnLists_tabulate, columnLists_eq, Vec.toEntries_eq (.refl v), Vec.elements, hCount,
    ← map_range_insertIdx hIndex]
  refine List.map_congr_left fun c _ => ?_
  simp only [insertColumnTable]
  split
  · rfl
  split
  · rfl
  · rfl

theorem insertRow_lists (hIndex : index ≤ A.rows) (hCount : v.count = A.columns) :
    ∃ C : Mat α, A.insertRow index v = C.allocated ∧ C.shape = (A.rows + 1, A.columns) ∧
      C.rowLists = A.rowLists.insertIdx index v.toEntries := by
  refine ⟨_, insertRow_eq hIndex hCount, rfl, ?_⟩
  rw [rowLists_tabulate, rowLists_eq, Vec.toEntries_eq (.refl v), Vec.elements, hCount,
    ← map_range_insertIdx hIndex]
  refine List.map_congr_left fun r _ => ?_
  simp only [insertRowTable]
  split
  · rfl
  split
  · rfl
  · rfl

end Insertion

/-- What is put together from `A` and `B`, or from `A` and one more line, can be taken apart. -/
structure Partitioned [Mul α] (A B : Mat α) : Prop where
  append : B.rows = A.rows →
    ∃ C, Builds (A.append B) (A.appendInto B) C ∧ C.shape = (A.rows, A.columns + B.columns) ∧
      (Addressable C.shape → C.Holds 0 0 A ∧ C.Holds 0 A.columns B)
  stack : B.columns = A.columns →
    ∃ C, Builds (A.stack B) (A.stackInto B) C ∧ C.shape = (A.rows + B.rows, A.columns) ∧
      (Addressable C.shape → C.Holds 0 0 A ∧ C.Holds A.rows 0 B)
  diagonalStack :
    ∃ C, Builds (A.diagonalStack B) (A.diagonalStackInto B) C ∧
      C.shape = (A.rows + B.rows, A.columns + B.columns) ∧
      (Addressable C.shape → Diagonal A B C)
  kronecker :
    ∃ C, Builds (A.kronecker B) (A.kroneckerInto B) C ∧
      C.shape = (A.rows * B.rows, A.columns * B.columns) ∧
      (Addressable C.shape → ∀ i j, i < A.rows → j < A.columns →
        C.Holds (i * B.rows) (j * B.columns) (B.mapEntries (A.entry i j * ·)))
  insertColumn : ∀ (index : Nat) (v : Vec α), index ≤ A.columns → v.count = A.rows →
    ∃ C : Mat α, A.insertColumn index v = C.allocated ∧ C.shape = (A.rows, A.columns + 1) ∧
      C.columnLists = A.columnLists.insertIdx index v.toEntries
  insertRow : ∀ (index : Nat) (v : Vec α), index ≤ A.rows → v.count = A.columns →
    ∃ C : Mat α, A.insertRow index v = C.allocated ∧ C.shape = (A.rows + 1, A.columns) ∧
      C.rowLists = A.rowLists.insertIdx index v.toEntries

/-- Blocks of any storage, put together by any builder and cut at its seams, are there again, and
nothing else is. -/
theorem built_from_blocks_can_be_cut_apart [Mul α] (A B : Mat α) : Partitioned A B where
  append := append_cut
  stack := stack_cut
  diagonalStack := diagonalStack_cut A B
  kronecker := kronecker_cut A B
  insertColumn _ _ := insertColumn_lists
  insertRow _ _ := insertRow_lists

/-- Scattered doubles beside a block of doubles, which is cut off again. -/
theorem block_of_doubles_is_cut_off :
    let A : Mat Float := (fill 2 3 Nat.two_pos (Nat.succ_pos 2) 1).scatter
    let B : Mat Float := fill 2 2 Nat.two_pos Nat.two_pos 2
    B.rows = A.rows ∧ Partitioned A B ∧
      ∃ C, A.append B = .ok C ∧ Addressable C.shape ∧ C.Holds 0 0 A ∧ C.Holds 0 3 B := by
  intro A B
  have hAll := built_from_blocks_can_be_cut_apart A B
  obtain ⟨C, hBuilds, hShape, hHolds⟩ := hAll.append rfl
  obtain ⟨hRows, hColumns⟩ := Prod.mk.inj hShape
  have hWords : Addressable C.shape := by
    rw [hShape]
    exact ⟨by decide, by decide⟩
  have hRoom : C.rows * C.columns < bufferBound := by
    rw [hRows, hColumns]
    decide
  exact ⟨rfl, hAll, C, hBuilds.answered.trans (allocated_of_lt hRoom), hWords, hHolds hWords⟩

end Almanac.Mat
