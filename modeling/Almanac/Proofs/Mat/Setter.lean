import Almanac.Proofs.Mat.Access
import Almanac.Proofs.Mat.Window

/-! # Setters

A setter that is not refused writes its region with what it was given and leaves everything else as
it was. Each one is inverted once: what it asks for, and what every element is after it. That what
was written is read back by the matching reader follows from the elements.

Main statement: `setters_write_their_region`.
-/
namespace Almanac
set_option autoImplicit false
open Linear Edit

variable {α : Type}

namespace Mat

/-- What is written along a line: a vector, or its values. -/
inductive Line (α : Type) where
  | vector (v : Vec α)
  | values (xs : List α)

/-- A write of a part of a matrix, with what is written. -/
inductive Setter (α : Type) where
  | element (r c : Nat) (x : α)
  | row (index : Nat) (line : Line α)
  | column (index : Nat) (line : Line α)
  | diagonal (line : Line α)
  | window (top left : Nat) (block : Mat α)

def Setter.covers : Setter α → Nat → Nat → Bool
  | .element i j _, r, c => r == i && c == j
  | .row index _, r, _ => r == index
  | .column index _, _, c => c == index
  | .diagonal _, r, c => r == c
  | .window top left block, r, c =>
    (top ≤ r && r < top + block.rows) && (left ≤ c && c < left + block.columns)

variable [Zero α]

def Line.toList : Line α → List α
  | vector v => v.toEntries
  | values xs => xs

namespace Setter

def perform : Setter α → Change α Unit
  | .element r c x => assign r c x
  | .row index (.vector v) => setRow index v
  | .row index (.values xs) => setRowValues index xs
  | .column index (.vector v) => setColumn index v
  | .column index (.values xs) => setColumnValues index xs
  | .diagonal (.vector v) => setDiagonal v
  | .diagonal (.values xs) => setDiagonalValues xs
  | .window top left block => setSubMatrix top left block

def value : Setter α → Nat → Nat → α
  | .element _ _ x, _, _ => x
  | .row _ line, _, c => line.toList.getD c 0
  | .column _ line, r, _ => line.toList.getD r 0
  | .diagonal line, r, _ => line.toList.getD r 0
  | .window top left block, r, c => block.entry (r - top) (c - left)

def Fits (A : Mat α) : Setter α → Prop
  | .element r c _ => r < A.rows ∧ c < A.columns
  | .row index line => index < A.rows ∧ line.toList.length = A.columns
  | .column index line => index < A.columns ∧ line.toList.length = A.rows
  | .diagonal line => line.toList.length = A.order
  | .window top left block =>
    checkWindow "row_index" top block.rows A.rows = .ok () ∧
      checkWindow "column_index" left block.columns A.columns = .ok ()

/-- All that a setter that is not refused does. -/
structure Written (s : Setter α) (A B : Mat α) : Prop where
  fits : s.Fits A
  revised : Revised (fun r c x => if s.covers r c then s.value r c else x) A B

/-- A loop over the positions of the region that writes what belongs to each of them. -/
theorem written_of_revised {s : Setter α} {A B : Mat α} {p : Nat → Nat → Prop}
    [∀ r c, Decidable (p r c)] {f : Nat → Nat → α} (hFits : s.Fits A)
    (h : Revised (fun r c x => if p r c then f r c else x) A B)
    (hPlace : ∀ r c, r < A.rows → c < A.columns → (s.covers r c = true ↔ p r c))
    (hValue : ∀ r c, p r c → f r c = s.value r c) : Written s A B := by
  refine ⟨hFits, h.congr fun r c x hr hc => ?_⟩
  by_cases hHere : p r c
  · rw [if_pos hHere, if_pos ((hPlace r c hr hc).mpr hHere), hValue r c hHere]
  · rw [if_neg hHere, if_neg ((hPlace r c hr hc).not.mpr hHere)]

section Inversion
variable {A B : Mat α} {index : Nat} {v : Vec α} {xs : List α} {line : Line α} {f : Nat → α}

theorem written_of_assign {i j : Nat} {x : α} (h : runOn A (assign i j x) = (.ok (), B)) :
    Written (.element i j x) A B := by
  have hRun := h
  rw [assign, runOn_current] at h
  obtain ⟨hRow, h⟩ := ok_of_runOn_require h
  obtain ⟨hColumn, -⟩ := ok_of_runOn_require h
  have hRow := holds_of_check hRow
  have hColumn := holds_of_check hColumn
  rw [runOn_assign_of_lt x hRow hColumn] at hRun
  obtain rfl := (Prod.mk.inj hRun).2
  refine written_of_revised ⟨hRow, hColumn⟩ (revised_put A hRow hColumn x) ?_ fun _ _ _ => rfl
  intro r c _ _
  simp [covers]

theorem written_row {n : Nat} (hIndex : index < A.rows) (hColumns : A.columns = n)
    (hLength : line.toList.length = n) (hSame : ∀ i, f i = line.toList.getD i 0) :
    Written (.row index line) A (A.writeWindow index 0 1 n fun _ c => f c) := by
  refine written_of_revised ⟨hIndex, hLength.trans hColumns.symm⟩
    (revised_writeWindow A (fun _ c => f c) hIndex (by omega)) ?_ fun _ c _ => hSame c
  intro r c _ hc
  simp only [covers, beq_iff_eq]
  omega

theorem written_of_setRow (h : runOn A (setRow index v) = (.ok (), B)) :
    Written (.row index (.vector v)) A B := by
  obtain ⟨hIndex, hCount, rfl⟩ := ok_of_checked_write h
  have hLength := v.length_toEntries.trans (holds_of_check hCount).symm
  exact written_row (holds_of_check hIndex) rfl hLength fun c => (v.getD_toEntries c).symm

theorem written_of_setRowValues (h : runOn A (setRowValues index xs) = (.ok (), B)) :
    Written (.row index (.values xs)) A B := by
  obtain ⟨hIndex, hLength, rfl⟩ := ok_of_checked_write h
  exact written_row (holds_of_check hIndex) (holds_of_check hLength) rfl fun _ => rfl

theorem written_column {n : Nat} (hIndex : index < A.columns) (hRows : A.rows = n)
    (hLength : line.toList.length = n) (hSame : ∀ i, f i = line.toList.getD i 0) :
    Written (.column index line) A (A.writeWindow 0 index n 1 fun r _ => f r) := by
  refine written_of_revised ⟨hIndex, hLength.trans hRows.symm⟩
    (revised_writeWindow A (fun r _ => f r) (by omega) hIndex) ?_ fun r _ _ => hSame r
  intro r c hr _
  simp only [covers, beq_iff_eq]
  omega

theorem written_of_setColumn (h : runOn A (setColumn index v) = (.ok (), B)) :
    Written (.column index (.vector v)) A B := by
  obtain ⟨hIndex, hCount, rfl⟩ := ok_of_checked_write h
  have hLength := v.length_toEntries.trans (holds_of_check hCount).symm
  exact written_column (holds_of_check hIndex) rfl hLength fun r => (v.getD_toEntries r).symm

theorem written_of_setColumnValues (h : runOn A (setColumnValues index xs) = (.ok (), B)) :
    Written (.column index (.values xs)) A B := by
  obtain ⟨hIndex, hLength, rfl⟩ := ok_of_checked_write h
  have hIndex := holds_of_check hIndex
  have hLength := holds_of_check hLength
  split
  · rename_i hDense
    refine written_of_revised ⟨hIndex, hLength.symm⟩
      (revised_spliceColumn hDense hIndex (by simpa using hLength.symm)) ?_ ?_
    · intro r c _ _
      simp only [covers, beq_iff_eq]
    · intro r c _
      simp [value, Line.toList]
  · exact written_column hIndex hLength rfl fun _ => rfl

theorem revised_writeDiagonal (A : Mat α) {length : Nat} (hLength : length ≤ A.order)
    (f : Nat → α) : Revised (fun r c x => if r = c ∧ r < length then f r else x) A
      (A.writeDiagonal length f) := by
  have hMem : ∀ r c, (r, c) ∈ (List.range length).map (fun i => (i, i)) ↔ r = c ∧ r < length := by
    intro r c
    simp only [List.mem_map, List.mem_range, Prod.mk.injEq]
    constructor
    · rintro ⟨i, hi, rfl, rfl⟩
      exact ⟨rfl, hi⟩
    · rintro ⟨rfl, hr⟩
      exact ⟨r, hr, rfl, rfl⟩
  have hLoop := revised_foldl_write (fun r _ => f r) _ A fun q hq => by
    obtain ⟨hSame, hLt⟩ := (hMem q.1 q.2).mp hq
    rw [order] at hLength
    omega
  simp only [hMem, List.foldl_map] at hLoop
  exact hLoop

theorem written_diagonal {n : Nat} (hOrder : A.order = n) (hLength : line.toList.length = n)
    (hSame : ∀ i, f i = line.toList.getD i 0) :
    Written (.diagonal line) A (A.writeDiagonal n f) := by
  refine written_of_revised (hLength.trans hOrder.symm)
    (revised_writeDiagonal A (Nat.le_of_eq hOrder.symm) f) ?_ fun r _ _ => hSame r
  intro r c hr hc
  rw [order] at hOrder
  simp only [covers, beq_iff_eq]
  omega

theorem written_of_setDiagonal (h : runOn A (setDiagonal v) = (.ok (), B)) :
    Written (.diagonal (.vector v)) A B := by
  rw [setDiagonal, runOn_current] at h
  obtain ⟨hCount, h⟩ := ok_of_runOn_require h
  obtain rfl := (Prod.mk.inj h).2
  exact written_diagonal (holds_of_check hCount) v.length_toEntries
    fun i => (v.getD_toEntries i).symm

theorem written_of_setDiagonalValues (h : runOn A (setDiagonalValues xs) = (.ok (), B)) :
    Written (.diagonal (.values xs)) A B := by
  rw [setDiagonalValues, runOn_current] at h
  obtain ⟨hLength, h⟩ := ok_of_runOn_require h
  obtain rfl := (Prod.mk.inj h).2
  exact written_diagonal (holds_of_check hLength) rfl fun _ => rfl

theorem written_of_setSubMatrix {row column : Nat} {block : Mat α}
    (h : runOn A (setSubMatrix row column block) = (.ok (), B)) :
    Written (.window row column block) A B := by
  obtain ⟨hRow, hColumn, rfl⟩ := ok_of_checked_write h
  refine written_of_revised ⟨hRow, hColumn⟩
    (revised_writeWindow A block.entry (Vec.le_of_checkWindow hRow)
      (Vec.le_of_checkWindow hColumn)) ?_ fun _ _ _ => rfl
  intro r c _ _
  simp [covers]

theorem written (s : Setter α) (h : runOn A s.perform = (.ok (), B)) : Written s A B := by
  cases s with
  | element r c x => exact written_of_assign h
  | row index line =>
    cases line with
    | vector v => exact written_of_setRow h
    | values xs => exact written_of_setRowValues h
  | column index line =>
    cases line with
    | vector v => exact written_of_setColumn h
    | values xs => exact written_of_setColumnValues h
  | diagonal line =>
    cases line with
    | vector v => exact written_of_setDiagonal h
    | values xs => exact written_of_setDiagonalValues h
  | window top left block => exact written_of_setSubMatrix h

end Inversion

section Reading
variable {A B : Mat α}

/-- The matching reader gives what was written; lines are read where the machine has room for a new
vector of their length. -/
def ReadBack (B : Mat α) : Setter α → Prop
  | .element r c x => B.lookup r c = .ok x
  | .row index line => line.toList.length < bufferBound →
    ∃ w, B.row index = .ok w ∧ w.toEntries = line.toList
  | .column index line => line.toList.length < bufferBound →
    ∃ w, B.column index = .ok w ∧ w.toEntries = line.toList
  | .diagonal line => B.diagonal.toEntries = line.toList
  | .window top left block => B.Holds top left block

theorem Written.entry_of_covers {s : Setter α} (h : Written s A B) {r c : Nat} (hr : r < A.rows)
    (hc : c < A.columns) (hHere : s.covers r c = true) : B.entry r c = s.value r c :=
  (h.revised.entry r c hr hc).trans (if_pos hHere)

theorem Written.readBack {s : Setter α} (h : Written s A B) : s.ReadBack B := by
  have hRows := h.revised.rows
  have hColumns := h.revised.columns
  cases s with
  | element r c x =>
    obtain ⟨hr, hc⟩ := h.fits
    have hEntry := h.entry_of_covers hr hc (by simp [covers])
    exact (lookup_of_lt (hRows ▸ hr) (hColumns ▸ hc)).trans (congrArg Except.ok hEntry)
  | row index line =>
    intro hRoom
    obtain ⟨hIndex, hLength⟩ := h.fits
    refine ⟨_, (row_of_lt (hRows ▸ hIndex)).trans (Vec.allocated_tabulate (by omega)), ?_⟩
    apply Vec.toEntries_tabulate (hLength.trans hColumns.symm)
    intro c hc
    exact h.entry_of_covers hIndex (hColumns ▸ hc) (by simp [covers])
  | column index line =>
    intro hRoom
    obtain ⟨hIndex, hLength⟩ := h.fits
    refine ⟨_, (column_of_lt (hColumns ▸ hIndex)).trans (Vec.allocated_tabulate (by omega)), ?_⟩
    apply Vec.toEntries_tabulate (hLength.trans hRows.symm)
    intro r hr
    exact h.entry_of_covers (hRows ▸ hr) hIndex (by simp [covers])
  | diagonal line =>
    have hLength : line.toList.length = B.order := by
      rw [order, hRows, hColumns]
      exact h.fits
    have hPos : 0 < B.order := Nat.lt_min.mpr ⟨B.rows_pos, B.columns_pos⟩
    refine Vec.toEntries_tabulate (h := hPos) (f := fun i => B.entry i i) hLength fun i hi => ?_
    obtain ⟨hr, hc⟩ := Nat.lt_min.mp hi
    exact h.entry_of_covers (hRows ▸ hr) (hColumns ▸ hc) (by simp [covers])
  | window top left block =>
    obtain ⟨hTop, hLeft⟩ := h.fits
    apply holds_of_entries
    · rwa [hRows]
    · rwa [hColumns]
    · intro r c hr hc
      have hTopFits := Vec.le_of_checkWindow hTop
      have hLeftFits := Vec.le_of_checkWindow hLeft
      rw [h.entry_of_covers (by omega) (by omega) (by simp [covers, hr, hc]), value,
        Nat.add_sub_cancel_left, Nat.add_sub_cancel_left]

/-- What was written is there, and nothing else is changed. -/
structure WritesRegion (s : Setter α) (A B : Mat α) : Prop where
  storage : B.storage = A.storage
  shape : B.shape = A.shape
  readBack : s.ReadBack B
  elsewhere : ∀ r c, r < A.rows → c < A.columns → s.covers r c = false → B.entry r c = A.entry r c

theorem Written.writesRegion {s : Setter α} (h : Written s A B) : WritesRegion s A B where
  storage := h.revised.storage
  shape := h.revised.shape
  readBack := h.readBack
  elsewhere r c hr hc hOutside :=
    (h.revised.entry r c hr hc).trans (if_neg (Bool.not_eq_true _ ▸ hOutside))

end Reading
end Setter
end Mat

variable [Zero α]

/-- A setter on a matrix and a copy into a vector write their region only, whatever the storage, and
what they wrote is read back. -/
theorem setters_write_their_region :
    (∀ (s : Mat.Setter α) (A B : Mat α), runOn A s.perform = (.ok (), B) →
      s.WritesRegion A B) ∧
    ∀ (v w u : Vec α) (offset destination length : Nat),
      runOn w (v.copyRangeTo offset destination length) = (.ok (), u) →
        v.Copied offset destination length w u :=
  ⟨fun s _ _ h => (s.written h).writesRegion, fun _ _ _ _ _ _ => Vec.copied_of_copyRangeTo⟩

/-- A column of a scattered matrix of doubles, and a window copied into a scattered vector. -/
theorem region_of_doubles_is_written :
    let A : Mat Float := (Mat.fill 2 3 Nat.two_pos (Nat.succ_pos 2) 0).scatter
    let s : Mat.Setter Float := .column 1 (.values [5, 7])
    let v : Vec Float := Vec.ofList [1, 2, 3] (Nat.succ_pos 2)
    let w : Vec Float := (Vec.ofList [4, 5, 6, 7] (Nat.succ_pos 3)).scatter
    (∃ B, runOn A s.perform = (.ok (), B) ∧ s.WritesRegion A B) ∧
      ∃ u, runOn w (v.copyRangeTo 1 2 2) = (.ok (), u) ∧ v.Copied 1 2 2 w u := by
  intro A s v w
  obtain ⟨hSetter, hCopy⟩ := setters_write_their_region (α := Float)
  exact ⟨⟨_, rfl, hSetter s A _ rfl⟩, _, rfl, hCopy v w _ 1 2 2 rfl⟩

end Almanac
