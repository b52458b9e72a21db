import Almanac.Proofs.Mat.Table

/-! # Matrices from lists

A list is laid out in a shape column by column or row by row, after the same checks. Main statement:
a list is taken exactly when both dimensions are positive and its length is their product, and every
refusal names its cause; but the product is computed first and has to be a word, so that dimensions
with a greater product are a fault and no refusal.
-/
namespace Almanac.Mat
set_option autoImplicit false
open Linear

variable {α : Type}

/-- The four ways in which a list of a length may fail to fill a shape, and the one to succeed. -/
structure Judged (rows columns length : Nat) (outcome : Checked (Mat α)) : Prop where
  answered_iff : (∃ A, outcome = .ok A) ↔
    0 < rows ∧ 0 < columns ∧ length = rows * columns ∧ length < wordBound
  rows_refused_iff : outcome = refuse (.notPositive "rows") ↔ rows = 0
  columns_refused_iff : outcome = refuse (.notPositive "columns") ↔ 0 < rows ∧ columns = 0
  length_refused_iff : outcome = refuse (.arrayNotConformable "data" (rows * columns) length) ↔
    0 < rows ∧ 0 < columns ∧ rows * columns < wordBound ∧ length ≠ rows * columns
  fault_iff : outcome = fault ↔ 0 < rows ∧ 0 < columns ∧ wordBound ≤ rows * columns

variable [Zero α]

/-- The element at row `r` and column `c` is the one at `place r c` in the list. -/
def laidOut (place : Nat → Nat → Nat) (rows columns : Nat) (data : List α) : Checked (Mat α) :=
  if hRows : 0 < rows then
    if hColumns : 0 < columns then
      if rows * columns < wordBound then
        if data.length = rows * columns then
          .ok (tabulate rows columns hRows hColumns fun r c => data.getD (place r c) 0)
        else refuse (.arrayNotConformable "data" (rows * columns) data.length)
      else fault
    else refuse (.notPositive "columns")
  else refuse (.notPositive "rows")

section Layout
variable (rows columns : Nat) (data : List α)

theorem ofColumnMajor?_eq : ofColumnMajor? rows columns data =
    laidOut (fun r c => c * rows + r) rows columns data := by
  rw [ofColumnMajor?, laidOut, area]
  split
  · split
    · split
      · split
        · refine congrArg Except.ok (eq_tabulate rfl rfl fun r c _ _ => ?_)
          rw [entry_of_dense rfl]
          simp
        · rfl
      · rfl
    · rfl
  · rfl

theorem ofRowMajor?_eq : ofRowMajor? rows columns data =
    laidOut (fun r c => r * columns + c) rows columns data := by
  rw [ofRowMajor?, laidOut, area]
  split
  · split
    · split
      · split
        · refine congrArg Except.ok (tabulate_congr rfl rfl fun r c _ _ => ?_)
          simp
        · rfl
      · rfl
    · rfl
  · rfl

theorem judged_laidOut (place : Nat → Nat → Nat) :
    Judged rows columns data.length (laidOut place rows columns data) := by
  rw [laidOut]
  -- Every branch decides the conditions of all five outcomes.
  repeat' split
  all_goals constructor <;> simp [refuse, fault] <;> omega

variable {rows columns data}

/-- A dense matrix of a shape in which every element of a list has its place. -/
structure HasLayout (place : Nat → Nat → Nat) (rows columns : Nat) (data : List α) (A : Mat α) :
    Prop where
  dense : A.storage = .dense
  shape : A.shape = (rows, columns)
  size : A.data.size = rows * columns
  element : ∀ r c, r < rows → c < columns → data[place r c]? = some (A.entry r c)

theorem hasLayout_of_laidOut {place : Nat → Nat → Nat} (hPlace : Placement rows columns place)
    {A : Mat α} (h : laidOut place rows columns data = .ok A) :
    HasLayout place rows columns data A := by
  have hJudged := judged_laidOut rows columns data place
  obtain ⟨hRows, hColumns, hLength, hWord⟩ := hJudged.answered_iff.mp ⟨A, h⟩
  rw [laidOut, dif_pos hRows, dif_pos hColumns, if_pos (hLength ▸ hWord), if_pos hLength] at h
  obtain rfl := Except.ok.inj h
  refine ⟨rfl, rfl, Mat.size_eq _, fun r c hr hc => ?_⟩
  have hLt : place r c < data.length := hLength ▸ hPlace.lt hr hc
  rw [entry_tabulate hr hc, List.getD_eq_getElem?_getD, List.getElem?_eq_getElem hLt]
  rfl

end Layout

/-- Either order of the elements: the checks of shape and length are exact as long as the product of
the dimensions is a word, and a matrix that is built has the shape and the elements asked for. A
greater product is a fault, although no list is that long. -/
theorem shape_checks_exact_below_words (rows columns : Nat) (data : List α) :
    (Judged rows columns data.length (ofColumnMajor? rows columns data) ∧
      ∀ A, ofColumnMajor? rows columns data = .ok A →
        HasLayout (fun r c => c * rows + r) rows columns data A) ∧
    Judged rows columns data.length (ofRowMajor? rows columns data) ∧
      ∀ A, ofRowMajor? rows columns data = .ok A →
        HasLayout (fun r c => r * columns + c) rows columns data A := by
  rw [ofColumnMajor?_eq, ofRowMajor?_eq]
  refine ⟨⟨judged_laidOut .., fun A h => ?_⟩, judged_laidOut .., fun A h => ?_⟩
  · exact hasLayout_of_laidOut (placement_byColumns rows columns) h
  · exact hasLayout_of_laidOut (placement_byRows rows columns) h

/-- No element at all for a shape whose elements no word counts. -/
theorem product_of_words_faults :
    let n := Nat.pow 2 32
    ofColumnMajor? n n ([] : List Float) = fault ∧ ofRowMajor? n n ([] : List Float) = fault := by
  intro n
  obtain ⟨⟨hByColumns, -⟩, hByRows, -⟩ := shape_checks_exact_below_words n n ([] : List Float)
  exact ⟨hByColumns.fault_iff.mpr (by decide), hByRows.fault_iff.mpr (by decide)⟩

end Almanac.Mat
