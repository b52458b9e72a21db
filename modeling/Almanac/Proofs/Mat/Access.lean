import Almanac.Proofs.Mat.Entry

/-! # Unchecked access

Checked access asks for a position, unchecked access for a place in the buffer. The columns of a
dense matrix follow each other there, so that a row past the end of a column is a place in a later
one. Main statement: inside the shape all ways of access agree; outside, unchecked access is a fault
unless a later column takes the row in, and then it reads or writes an element of that column.
-/
namespace Almanac.Mat
set_option autoImplicit false
open Linear Edit

variable {α : Type} {A : Mat α} {r c : Nat}

/-- A row past the end of a column that runs on into a later column. -/
def Overruns (A : Mat α) (r c : Nat) : Prop := A.rows ≤ r ∧ c + r / A.rows < A.columns

section Places

theorem offset_lt_iff (hDense : A.storage = .dense) :
    A.offset r c < A.data.size ↔ c + r / A.rows < A.columns := by
  have hColumn : (c * A.rows + r) / A.rows = c + r / A.rows := by
    rw [Nat.mul_comm, Nat.mul_add_div A.rows_pos]
  rw [offset_of_dense hDense, A.size_eq, Nat.mul_comm A.rows, ← hColumn]
  exact (Nat.div_lt_iff_lt_mul A.rows_pos).symm

/-- Whole columns in the row count as columns. -/
theorem offset_mod_div (hDense : A.storage = .dense) :
    A.offset (r % A.rows) (c + r / A.rows) = A.offset r c := by
  rw [offset_of_dense hDense]
  calc (c + r / A.rows) * A.rows + r % A.rows
      = c * A.rows + (r / A.rows * A.rows + r % A.rows) := by rw [Nat.add_mul, Nat.add_assoc]
    _ = c * A.rows + r := by rw [Nat.div_add_mod']

theorem not_lt_of_beyond (hOutside : ¬(r < A.rows ∧ c < A.columns)) (hBeyond : ¬A.Overruns r c) :
    ¬c + r / A.rows < A.columns := by
  intro hLt
  have hColumn : c < A.columns := Nat.lt_of_le_of_lt (Nat.le_add_right c _) hLt
  exact hBeyond ⟨Nat.le_of_not_lt fun hr => hOutside ⟨hr, hColumn⟩, hLt⟩

end Places

variable [Zero α]

section Reading

theorem valueAt_of_lt (hr : r < A.rows) (hc : c < A.columns) :
    A.valueAt r c = .ok (A.entry r c) := by
  rw [valueAt, A.getElem?_offset hr hc]
  rfl

theorem lookup_of_lt (hr : r < A.rows) (hc : c < A.columns) :
    A.lookup r c = .ok (A.entry r c) := by
  rw [lookup, checkIndex, checkIndex, if_pos hr, if_pos hc]
  exact valueAt_of_lt hr hc

theorem index_of_lt (hr : r < A.rows) (hc : c < A.columns) : A.index r c = .ok (A.entry r c) := by
  rw [index, if_pos ⟨hr, hc⟩]
  exact valueAt_of_lt hr hc

theorem valueAt_of_dense (hDense : A.storage = .dense) : A.valueAt r c =
    if c + r / A.rows < A.columns then .ok (A.entry (r % A.rows) (c + r / A.rows)) else fault := by
  split
  · rename_i hLt
    rw [← valueAt_of_lt (Nat.mod_lt r A.rows_pos) hLt, valueAt, valueAt, offset_mod_div hDense]
  · rename_i hNot
    have hPlace := Nat.le_of_not_lt ((offset_lt_iff hDense).not.mpr hNot)
    rw [valueAt, Array.getElem?_eq_none hPlace]
    rfl

end Reading

section Writing
variable (x : α)

omit [Zero α] in
theorem runOn_setValueAt : runOn A (setValueAt r c x) =
    if A.offset r c < A.data.size then (.ok (), A.put r c x) else (fault, A) := by
  rw [setValueAt, runOn_current, runOn_require]
  by_cases hPlace : A.offset r c < A.data.size
  · simp only [if_pos hPlace]
    rfl
  · simp only [if_neg hPlace]
    rfl

omit [Zero α] in
theorem runOn_setValueAt_of_lt (hr : r < A.rows) (hc : c < A.columns) :
    runOn A (setValueAt r c x) = (.ok (), A.put r c x) := by
  have hPlace : A.offset r c < A.data.size := A.size_eq ▸ A.placement_offset.lt hr hc
  rw [runOn_setValueAt, if_pos hPlace]

omit [Zero α] in
theorem runOn_assign_of_lt (hr : r < A.rows) (hc : c < A.columns) :
    runOn A (assign r c x) = (.ok (), A.put r c x) := by
  have hRow : checkIndex "row" r A.rows = .ok () := if_pos hr
  have hColumn : checkIndex "column" c A.columns = .ok () := if_pos hc
  rw [assign, runOn_current, runOn_require, hRow]
  simp only [runOn_require, hColumn]
  exact runOn_setValueAt_of_lt x hr hc

omit [Zero α] in
theorem runOn_setIndex_of_lt (hr : r < A.rows) (hc : c < A.columns) :
    runOn A (setIndex r c x) = (.ok (), A.put r c x) := by
  rw [setIndex, runOn_current, runOn_require, if_pos ⟨hr, hc⟩]
  exact runOn_setValueAt_of_lt x hr hc

omit [Zero α] in
theorem runOn_setValueAt_of_dense (hDense : A.storage = .dense) : runOn A (setValueAt r c x) =
    if c + r / A.rows < A.columns then (.ok (), A.put (r % A.rows) (c + r / A.rows) x)
    else (fault, A) := by
  have hPut : A.put (r % A.rows) (c + r / A.rows) x = A.put r c x := by
    simp only [put, offset_mod_div hDense]
  simp only [runOn_setValueAt, hPut, offset_lt_iff hDense]

end Writing

/-- What the ways of access make of row `r` and column `c`. -/
structure Accessed (A : Mat α) (r c : Nat) : Prop where
  read_inside : r < A.rows → c < A.columns → A.valueAt r c = .ok (A.entry r c) ∧
    A.lookup r c = .ok (A.entry r c) ∧ A.index r c = .ok (A.entry r c)
  written_inside : ∀ x, r < A.rows → c < A.columns → ∃ B,
    Revised (fun i j y => if i = r ∧ j = c then x else y) A B ∧
      runOn A (setValueAt r c x) = (.ok (), B) ∧ runOn A (assign r c x) = (.ok (), B) ∧
      runOn A (setIndex r c x) = (.ok (), B)
  read_overrun : A.Overruns r c →
    A.valueAt r c = .ok (A.entry (r % A.rows) (c + r / A.rows))
  written_overrun : ∀ x, A.Overruns r c → ∃ B,
    Revised (fun i j y => if i = r % A.rows ∧ j = c + r / A.rows then x else y) A B ∧
      runOn A (setValueAt r c x) = (.ok (), B)
  fault_beyond : ¬(r < A.rows ∧ c < A.columns) → ¬A.Overruns r c →
    A.valueAt r c = fault ∧ ∀ x, runOn A (setValueAt r c x) = (fault, A)

/-- Unchecked access to a dense matrix is safe inside the shape only. Past the last column it is
always a fault; past the last row it is one unless the row runs on into a later column, and then an
element of another position is read or written. -/
theorem unchecked_access_overruns (hDense : A.storage = .dense) (r c : Nat) : Accessed A r c where
  read_inside hr hc := ⟨valueAt_of_lt hr hc, lookup_of_lt hr hc, index_of_lt hr hc⟩
  written_inside x hr hc := ⟨A.put r c x, revised_put A hr hc x, runOn_setValueAt_of_lt x hr hc,
    runOn_assign_of_lt x hr hc, runOn_setIndex_of_lt x hr hc⟩
  read_overrun h := by rw [valueAt_of_dense hDense, if_pos h.2]
  written_overrun x h := by
    refine ⟨_, revised_put A (Nat.mod_lt r A.rows_pos) h.2 x, ?_⟩
    rw [runOn_setValueAt_of_dense x hDense, if_pos h.2]
  fault_beyond hOutside hBeyond := by
    have hNot := not_lt_of_beyond hOutside hBeyond
    refine ⟨?_, fun x => ?_⟩
    · rw [valueAt_of_dense hDense, if_neg hNot]
    · rw [runOn_setValueAt_of_dense x hDense, if_neg hNot]

/-- In a square of doubles row 2 of column 0 is row 0 of column 1, and row 3 is its row 1. -/
theorem row_past_the_end_is_in_next_column :
    let A : Mat Float :=
      tabulate 2 2 Nat.two_pos Nat.two_pos fun r c => Float.ofNat (2 * r + c + 1)
    A.storage = .dense ∧ (A.valueAt 2 0 = .ok (A.entry 0 1) ∧ A.entry 0 1 = 2) ∧
      (∃ B, runOn A (setValueAt 3 0 9) = (.ok (), B) ∧ A.entry 1 1 = 4 ∧ B.entry 1 1 = 9) ∧
      A.valueAt 4 0 = fault ∧ A.valueAt 0 2 = fault := by
  intro A
  have hAccess : ∀ r c, Accessed A r c := unchecked_access_overruns rfl
  have hRead := (hAccess 2 0).read_overrun ⟨by decide, by decide⟩
  have hRow : 2 % A.rows = 0 := by decide
  have hColumn : 0 + 2 / A.rows = 1 := by decide
  rw [hRow, hColumn] at hRead
  obtain ⟨B, hRevised, hRun⟩ := (hAccess 3 0).written_overrun 9 ⟨by decide, by decide⟩
  have hWritten := hRevised.entry 1 1 (by decide) (by decide)
  refine ⟨rfl, ⟨hRead, rfl⟩, ⟨B, hRun, rfl, hWritten.trans (if_pos (by decide))⟩, ?_, ?_⟩
  · exact ((hAccess 4 0).fault_beyond (by decide) (by unfold Overruns; decide)).1
  · exact ((hAccess 0 2).fault_beyond (by decide) (by unfold Overruns; decide)).1

end Almanac.Mat
