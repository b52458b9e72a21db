import Almanac.Proofs.Mat.Entry
import Almanac.Proofs.Vec.Storage

/-! # Storage of matrices

A matrix answers the same whether it is kept column by column in a block or element by element.
Every operation that has a form for blocks is compared with the form that any storage has.
-/
namespace Almanac
set_option autoImplicit false
open Linear Edit

namespace Mat

variable {α : Type} [Zero α]

section Elements
variable (A : Mat α)

def denseOfElements : Mat α := tabulate A.rows A.columns A.rows_pos A.columns_pos A.entry

def addScalarElements [Add α] (x : α) : Change α Unit := Edit.write (mapElements (· + x))

def multiplyScalarElements [Mul α] [One α] [BEq α] (x : α) : Change α Unit :=
  Edit.write fun A => if x == 1 then A else A.mapElements (· * x)

def clearElements : Change α Unit := Edit.write (mapElements fun _ => 0)

def setColumnElements (index : Nat) (column : List α) : Change α Unit := do
  let A ← Edit.current
  Edit.require (checkIndex "index" index A.columns)
  Edit.require (checkLength "column" A.rows column.length)
  Edit.write fun A => A.writeWindow 0 index column.length 1 fun r _ => column.getD r 0

def indexedColumnElements : List (Nat × List α) :=
  (List.range A.columns).map fun c => (c, (List.range A.rows).map fun r => A.entry r c)

end Elements

variable {A A' B B' : Mat α}

theorem match_of_same {β : Type} {edit edit' edit'' : Change α β}
    (h : ∀ A, MatchAt Alike A A edit edit') (h' : Match Alike edit' edit'') :
    Match Alike edit edit'' := .of_same (R := Alike) (fun _ _ _ => Alike.trans) h h'

theorem alike_writeWindow {f g : Nat → Nat → α} {row column rows columns : Nat} (h : A.Alike A')
    (hRows : row + rows ≤ A.rows) (hColumns : column + columns ≤ A.columns)
    (hSame : ∀ r c, r < rows → c < columns → f r c = g r c) :
    (A.writeWindow row column rows columns f).Alike (A'.writeWindow row column rows columns g) := by
  refine (revised_writeWindow A f hRows hColumns).alike
    (revised_writeWindow A' g (h.rows ▸ hRows) (h.columns ▸ hColumns)) h fun r c _ _ => ?_
  split
  · exact hSame _ _ (by omega) (by omega)
  · rfl

section Combination
variable (op : α → α → α)

theorem combine_same (other C : Mat α) :
    MatchAt Alike C C (combine op other) (combineElements op other) := by
  refine .current ?_
  split
  · exact .current_left (.refl .refl C _)
  · rename_i hDense
    refine .require (.refl C) fun hShape => ?_
    split
    · rename_i hOther
      refine .write ?_
      exact (revised_zipBlock op hDense hOther (holds_of_check hShape)).alike
        (revised_sweep (fun r c x => op x (other.entry r c)) C) (.refl C) fun _ _ _ _ => rfl
    · exact .current_left (.require_left hShape (.write (.refl _)))

theorem match_combineElements (h : B.Alike B') :
    Match Alike (combineElements op B) (combineElements op B') := by
  intro C C' hC
  refine .current ?_
  rw [← hC.shape, ← h.shape]
  refine .require hC fun hShape => .write ?_
  obtain ⟨hRows, hColumns⟩ := Prod.mk.inj (holds_of_check hShape)
  refine (revised_sweep (fun r c x => op x (B.entry r c)) C).alike
    (revised_sweep (fun r c x => op x (B'.entry r c)) C') hC fun r c hr hc => ?_
  rw [h.entry r c (hRows ▸ hr) (hColumns ▸ hc)]

theorem match_combine (h : B.Alike B') : Match Alike (combine op B) (combineElements op B') :=
  match_of_same (combine_same op B) (match_combineElements op h)

/-- A loop over a whole matrix writes every position. -/
theorem revised_writeAll (C : Mat α) (f : Nat → Nat → α) :
    Revised (fun r c _ => f r c) C (C.writeWindow 0 0 C.rows C.columns f) := by
  refine (revised_writeWindow C f (by omega) (by omega)).congr fun r c x hr hc => ?_
  rw [if_pos (by omega)]
  rfl

theorem combineInto_same (A other C : Mat α) :
    MatchAt Alike C C (combineInto op A other) (combineElementsInto op A other) := by
  rw [combineInto]
  split
  · exact .refl .refl C _
  · rename_i hDense
    refine .require (.refl C) fun hShape => .current (.require (.refl C) fun hResult => ?_)
    split
    · rename_i hOther hC
      obtain ⟨hRows, hColumns⟩ := Prod.mk.inj (holds_of_check hResult)
      have hZip := revised_zipBlock op hDense hOther (holds_of_check hShape)
      have hBlock : (A.zipBlock op other).shape = C.shape :=
        hZip.toFramed.shape.trans (holds_of_check hResult)
      refine .write ?_
      rw [hRows, hColumns]
      refine (revised_withBlock hC (hZip.storage.trans hDense) hBlock).alike
        (revised_writeAll C _) (.refl C) fun r c hr hc => ?_
      exact hZip.entry r c (hRows ▸ hr) (hColumns ▸ hc)
    · exact .require_left hShape (.current_left (.require_left hResult (.write (.refl _))))

theorem match_combineElementsInto (hA : A.Alike A') (h : B.Alike B') :
    Match Alike (combineElementsInto op A B) (combineElementsInto op A' B') := by
  intro C C' hC
  rw [combineElementsInto, combineElementsInto, ← hA.shape, ← h.shape, ← hA.rows, ← hA.columns]
  refine .require hC fun hShape => .current ?_
  rw [← hC.shape]
  refine .require hC fun hResult => .write ?_
  obtain ⟨hRows, hColumns⟩ := Prod.mk.inj (holds_of_check hShape)
  obtain ⟨hRows', hColumns'⟩ := Prod.mk.inj (holds_of_check hResult)
  refine alike_writeWindow hC (by omega) (by omega) fun r c hr hc => ?_
  rw [hA.entry r c hr hc, h.entry r c (hRows ▸ hr) (hColumns ▸ hc)]

theorem match_combineInto (hA : A.Alike A') (h : B.Alike B') :
    Match Alike (combineInto op A B) (combineElementsInto op A' B') :=
  match_of_same (combineInto_same op A B) (match_combineElementsInto op hA h)

end Combination

section Mapping
variable (f : α → α)

theorem revised_mapEntries (A : Mat α) : Revised (fun _ _ => f) A (A.mapEntries f) := by
  rw [mapEntries]
  split
  · exact revised_mapBlock f A
  · exact revised_sweep (fun _ _ => f) A

theorem alike_mapElements (h : A.Alike A') : (A.mapEntries f).Alike (A'.mapElements f) :=
  (revised_mapEntries f A).alike (revised_sweep (fun _ _ => f) A') h fun _ _ _ _ => rfl

theorem match_addScalar [Add α] (x : α) :
    Match Alike (addScalar x) (addScalarElements x) :=
  fun _ _ h => .write (alike_mapElements (· + x) h)

theorem match_multiplyScalar [Mul α] [One α] [BEq α] (x : α) :
    Match Alike (multiplyScalar x) (multiplyScalarElements x) := by
  intro A A' h
  refine .write ?_
  split
  · exact h
  · exact alike_mapElements (· * x) h

theorem match_clear : Match Alike (clear : Change α Unit) clearElements :=
  fun A A' h => .write ((revised_cleared A).alike (revised_sweep (fun _ _ _ => 0) A') h
    fun _ _ _ _ => rfl)

end Mapping

section Transfer

theorem copyTo_same (A C : Mat α) : MatchAt Alike C C A.copyTo (A.mapInto id) := by
  rw [copyTo]
  split
  · exact .refl .refl C _
  · rename_i hDense
    refine .current (.require (.refl C) fun hResult => ?_)
    split
    · rename_i hC
      obtain ⟨hRows, hColumns⟩ := Prod.mk.inj (holds_of_check hResult)
      refine .write ?_
      rw [hRows, hColumns]
      exact (revised_withBlock hC hDense (holds_of_check hResult)).alike (revised_writeAll C _)
        (.refl C) fun _ _ _ _ => rfl
    · exact .current_left (.require_left hResult (.write (.refl _)))

theorem match_copyTo (h : A.Alike A') : Match Alike A.copyTo (A'.mapInto id) := by
  refine match_of_same (copyTo_same A) ?_
  intro C C' hC
  rw [mapInto, mapInto, ← h.shape, ← h.rows, ← h.columns]
  refine .current ?_
  rw [← hC.shape]
  refine .require hC fun hResult => .write ?_
  obtain ⟨hRows, hColumns⟩ := Prod.mk.inj (holds_of_check hResult)
  exact alike_writeWindow hC (by omega) (by omega) h.entry

theorem revised_writeBeside (A : Mat α) {right C : Mat α} (hRows : right.rows = A.rows)
    (hShape : (A.rows, A.columns + right.columns) = C.shape) :
    Revised (fun r c _ => if c < A.columns then A.entry r c else right.entry r (c - A.columns)) C
      (A.writeBeside right C) := by
  obtain ⟨hResultRows, hResultColumns⟩ := Prod.mk.inj hShape
  have hLeft := revised_writeWindow C A.entry (by omega : 0 + A.rows ≤ C.rows)
    (by omega : 0 + A.columns ≤ C.columns)
  have hLeftRows := hLeft.rows
  have hLeftColumns := hLeft.columns
  have hRight := revised_writeWindow (C.writeWindow 0 0 A.rows A.columns A.entry) right.entry
    (by omega : 0 + right.rows ≤ _) (by omega : A.columns + right.columns ≤ _)
  refine (hLeft.trans hRight).congr fun r c x hr hc => ?_
  by_cases hHere : c < A.columns
  · rw [if_neg (by omega), if_pos (by omega), if_pos hHere]
    rfl
  · rw [if_pos (by omega), if_neg hHere]
    rfl

omit [Zero α] in
theorem eq_of_checkRight {A right : Mat α} (h : checkRight A right = .ok ()) :
    right.rows = A.rows := (Prod.mk.inj (holds_of_check h)).1.symm

theorem appendInto_same (A right C : Mat α) :
    MatchAt Alike C C (A.appendInto right) (A.appendElementsInto right) := by
  rw [appendInto]
  split
  · exact .refl .refl C _
  · rename_i hDense
    refine .require (.refl C) fun hRight => .current (.require (.refl C) fun hResult => ?_)
    have hRows := eq_of_checkRight hRight
    have hShape := holds_of_check hResult
    split
    · rename_i hRightDense hC
      refine .write ?_
      exact (revised_joinBlocks hC hDense hRightDense hRows hShape).alike
        (revised_writeBeside A hRows hShape) (.refl C) fun _ _ _ _ => rfl
    · exact .refl .refl C _

theorem match_appendInto (hA : A.Alike A') (hB : B.Alike B') :
    Match Alike (A.appendInto B) (A'.appendElementsInto B') := by
  refine match_of_same (appendInto_same A B) ?_
  intro C C' hC
  have hCheck : checkRight A' B' = checkRight A B := by
    rw [checkRight, checkRight, hA.rows, hB.columns, hB.shape]
  rw [appendElementsInto, appendElementsInto, hCheck, ← hA.rows, ← hA.columns, ← hB.columns]
  refine .require hC fun hRight => .current ?_
  rw [← hC.shape]
  refine .require hC fun hResult => .write ?_
  have hRows := eq_of_checkRight hRight
  have hShape := holds_of_check hResult
  obtain ⟨hResultRows, hResultColumns⟩ := Prod.mk.inj hShape
  refine (revised_writeBeside A hRows hShape).alike
    (revised_writeBeside A' ?_ ?_) hC fun r c hr hc => ?_
  · rw [← hB.rows, ← hA.rows, hRows]
  · rw [← hA.rows, ← hA.columns, ← hB.columns, ← hC.shape, hShape]
  · rw [← hA.columns]
    split
    · exact hA.entry r c (by omega) (by assumption)
    · exact hB.entry r _ (by omega) (by omega)

theorem match_setColumnValues (index : Nat) (column : List α) :
    Match Alike (setColumnValues index column) (setColumnElements index column) := by
  intro C C' hC
  refine .current ?_
  rw [← hC.rows, ← hC.columns]
  refine .require hC fun hIndex => .require hC fun hLength => .write ?_
  have hIndex := holds_of_check hIndex
  have hLength := holds_of_check hLength
  split
  · rename_i hDense
    have hElements := revised_writeWindow C' (fun r _ => column.getD r 0)
      (by rw [← hC.rows]; omega : 0 + column.length ≤ C'.rows)
      (by rw [← hC.columns]; omega : index + 1 ≤ C'.columns)
    refine (revised_spliceColumn hDense hIndex (by simp [hLength])).alike hElements hC
      fun r c hr _ => ?_
    by_cases hHere : c = index
    · rw [if_pos hHere, if_pos (by omega)]
      simp
    · rw [if_neg hHere, if_neg (by omega)]
  · exact alike_writeWindow hC (by omega) (by omega) fun _ _ _ _ => rfl

omit [Zero α] in
theorem bounds_of_checkColumnWindow {index row length : Nat}
    (h : A.checkColumnWindow index row length = .ok ()) :
    index < A.columns ∧ row + length ≤ A.rows := by
  obtain ⟨_, hIndex, hRest⟩ := exists_of_bind_ok h
  exact ⟨holds_of_check hIndex, Vec.le_of_checkWindow hRest⟩

theorem columnInto_same (A : Mat α) (index row length : Nat) (w : Vec α) :
    MatchAt Vec.Alike w w (A.columnInto index row length)
      (A.columnElementsInto index row length) := by
  rw [columnInto]
  split
  · exact .refl .refl w _
  · rename_i hDense
    refine .require (.refl w) fun hWindow => .current (.require (.refl w) fun hResult => .write ?_)
    obtain ⟨hIndex, hRow⟩ := bounds_of_checkColumnWindow hWindow
    have hColumn := column_fits hIndex
    have hPart : A.offset row index + length ≤ A.data.size := by
      rw [offset_of_dense hDense]
      change index * A.rows + row + length ≤ A.data.size
      omega
    have hSize := Vec.size_window hPart
    have hCount := holds_of_check hResult
    have hElement : ∀ i < length, (A.data.extract (A.offset row index)
        (A.offset row index + length)).getD i 0 = A.entry (row + i) index := by
      intro i hi
      rw [Array.getD_eq_getD_getElem?, Vec.getElem?_window hPart, if_pos hi, entry_of_dense hDense,
        offset_of_dense hDense, Nat.add_assoc]
      rfl
    have hElements := Vec.revised_writeFrom w 0 length fun i => A.entry (row + i) index
    simp only [hSize]
    split
    · refine (Vec.revised_spliceBlock (by omega)).alike hElements rfl fun i _ => ?_
      rw [hSize]
      split
      · exact hElement _ (by omega)
      · rfl
    · refine (Vec.revised_writeFrom w 0 length _).alike hElements rfl fun i _ => ?_
      split
      · exact hElement _ (by omega)
      · rfl

theorem match_columnInto (h : A.Alike A') (index row length : Nat) :
    Match Vec.Alike (A.columnInto index row length) (A'.columnElementsInto index row length) := by
  refine Vec.match_of_same (columnInto_same A index row length) ?_
  intro w w' hw
  have hCheck : A'.checkColumnWindow index row length = A.checkColumnWindow index row length := by
    rw [checkColumnWindow, checkColumnWindow, h.rows, h.columns]
  rw [columnElementsInto, columnElementsInto, hCheck]
  refine .require hw fun hWindow => .current ?_
  rw [← hw.count]
  refine .require hw fun _ => .write ?_
  obtain ⟨hIndex, hRow⟩ := bounds_of_checkColumnWindow hWindow
  refine (Vec.revised_writeFrom w 0 length _).alike (Vec.revised_writeFrom w' 0 length _) hw
    fun i _ => ?_
  split
  · exact h.entry _ _ (by omega) hIndex
  · rfl

end Transfer

section Reading

theorem toColumnMajor_eq (h : A.Alike A') : A.toColumnMajor = A'.columnElements := by
  rw [toColumnMajor, ← h.columnElements]
  split
  · exact toList_data ‹_›
  · rfl

theorem toDense_eq (h : A.Alike A') : A.toDense = A'.denseOfElements := by
  have hSame : A.toDense = A.denseOfElements := by
    rw [toDense]
    split
    · rename_i hDense
      refine eq_of_data hDense rfl rfl (Array.toList_inj.mp ?_)
      exact toList_data hDense
    · rename_i hScattered
      refine eq_of_data rfl rfl rfl (congrArg List.toArray ?_)
      simp only [toColumnMajor, hScattered]
      rfl
  rw [hSame]
  exact tabulate_congr h.rows h.columns h.entry

theorem alike_toDense (A : Mat α) : A.toDense.Alike A := by
  rw [toDense_eq (.refl A)]
  exact ⟨rfl, rfl, fun _ _ => entry_tabulate⟩

theorem transpose_eq (h : A.Alike A') : A.transpose = A'.transposeElements := by
  have hFlipped : A.flipped = A'.flipped :=
    tabulate_congr h.columns h.rows fun r c hr hc => h.entry c r hc hr
  rw [transposeElements_eq, ← hFlipped, transpose]
  split
  · exact transposeBlock_eq ‹_›
  · exact transposeElements_eq A

theorem indexedColumns_eq (h : A.Alike A') : A.indexedColumns = A'.indexedColumnElements := by
  rw [indexedColumns, indexedColumnElements, ← h.rows, ← h.columns]
  refine List.map_congr_left fun c hc => ?_
  have hc := List.mem_range.mp hc
  rw [columnList_eq A hc]
  refine congrArg (Prod.mk c) (List.map_congr_left fun r hr => ?_)
  exact h.entry r c (List.mem_range.mp hr) hc

end Reading

variable [One α] [Add α] [Sub α] [Mul α] [BEq α]

/-- What `A` and `B` answer, and what is left of a matrix or vector that they or their arguments
change, against the forms element by element on `A'` and `B'`. -/
structure AnswersAlike (A A' B B' : Mat α) : Prop where
  toColumnMajor : A.toColumnMajor = A'.columnElements
  toDense : A.toDense = A'.denseOfElements
  transpose : A.transpose = A'.transposeElements
  indexedColumns : A.indexedColumns = A'.indexedColumnElements
  addScalar : ∀ x : α, Match Alike (addScalar x) (addScalarElements x)
  multiplyScalar : ∀ x : α, Match Alike (multiplyScalar x) (multiplyScalarElements x)
  addAssign : Match Alike (addAssign B) (combineElements (· + ·) B')
  subtractAssign : Match Alike (subtractAssign B) (combineElements (· - ·) B')
  addInto : Match Alike (A.addInto B) (combineElementsInto (· + ·) A' B')
  subtractInto : Match Alike (A.subtractInto B) (combineElementsInto (· - ·) A' B')
  pointwiseMultiplyInto :
    Match Alike (A.pointwiseMultiplyInto B) (combineElementsInto (· * ·) A' B')
  clear : Match Alike (clear : Change α Unit) clearElements
  copyTo : Match Alike A.copyTo (A'.mapInto id)
  appendInto : Match Alike (A.appendInto B) (A'.appendElementsInto B')
  columnInto : ∀ index row length,
    Match Vec.Alike (A.columnInto index row length) (A'.columnElementsInto index row length)
  setColumnValues : ∀ (index : Nat) (column : List α),
    Match Alike (setColumnValues index column) (setColumnElements index column)

theorem answersAlike (h : A.Alike A') (h' : B.Alike B') : AnswersAlike A A' B B' where
  toColumnMajor := toColumnMajor_eq h
  toDense := toDense_eq h
  transpose := transpose_eq h
  indexedColumns := indexedColumns_eq h
  addScalar := match_addScalar
  multiplyScalar := match_multiplyScalar
  addAssign := match_combine (· + ·) h'
  subtractAssign := match_combine (· - ·) h'
  addInto := match_combineInto (· + ·) h h'
  subtractInto := match_combineInto (· - ·) h h'
  pointwiseMultiplyInto := match_combineInto (· * ·) h h'
  clear := match_clear
  copyTo := match_copyTo h
  appendInto := match_appendInto h h'
  columnInto := match_columnInto h
  setColumnValues := match_setColumnValues

end Mat

variable {α : Type} [Zero α] [One α] [Add α] [Sub α] [Mul α] [Neg α] [BEq α]

/-- On participants with the same elements, stored in whatever mix of ways, every operation with a
form for blocks gives the answer or the refusal of its form element by element, and leaves the same
elements behind. No law of the scalar operations is used. -/
theorem storage_changes_no_answer :
    (∀ v v' other other' : Vec α, v.Alike v' → other.Alike other' →
      Vec.AnswersAlike v v' other other') ∧
    ∀ A A' B B' : Mat α, A.Alike A' → B.Alike B' → Mat.AnswersAlike A A' B B' :=
  ⟨fun _ _ _ _ => Vec.answersAlike, fun _ _ _ _ => Mat.answersAlike⟩

/-- Blocks of doubles against their scattered copies; the shapes do not conform. -/
theorem scattered_copies_answer_alike :
    let v : Vec Float := Vec.ofList [1, 2] Nat.two_pos
    let w : Vec Float := Vec.ofList [3, 4, 5] (Nat.succ_pos 2)
    let A : Mat Float := Mat.fill 2 3 Nat.two_pos (Nat.succ_pos 2) 1
    let B : Mat Float := Mat.fill 2 2 Nat.two_pos Nat.two_pos 2
    (v.Alike v.scatter ∧ w.Alike w.scatter ∧ Vec.AnswersAlike v v.scatter w w.scatter) ∧
      A.Alike A.scatter ∧ B.Alike B.scatter ∧ Mat.AnswersAlike A A.scatter B B.scatter := by
  intro v w A B
  obtain ⟨hVec, hMat⟩ := storage_changes_no_answer (α := Float)
  exact ⟨⟨rfl, rfl, hVec v v.scatter w w.scatter rfl rfl⟩, A.alike_scatter, B.alike_scatter,
    hMat A A.scatter B B.scatter A.alike_scatter B.alike_scatter⟩

end Almanac
