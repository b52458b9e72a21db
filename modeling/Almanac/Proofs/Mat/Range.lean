import Almanac.Proofs.Mat.Access
import Almanac.Proofs.Mat.Window
import Almanac.Proofs.Refusal

/-! # Ranges

A window is accepted exactly when it is not empty and ends within the bound, where the end is
counted without a limit. The check computes with words and gets the same: its sum is noticed before
it wraps. Behind the check the elements of the window are read, in order, and no other place.

Main statement: `windows_are_accepted_exactly_when_they_fit`.
-/
namespace Almanac
set_option autoImplicit false
open Linear Edit

namespace Linear

section Check
variable {parameter : String} {start length bound : Nat}

/-- The window lies within the bound. -/
def WindowFits (start length bound : Nat) : Prop := 1 ≤ length ∧ start + length ≤ bound

/-- Why a window that does not fit is refused. -/
def windowReason (parameter : String) (start length bound : Nat) : Error :=
  if length = 0 then .notPositive parameter
  else if bound ≤ start then .indexOutOfRange parameter start bound
  else .indexOutOfRange parameter (min (start + (length - 1)) (wordBound - 1)) bound

theorem checkWindow_of_fits (hBound : bound < wordBound) (h : WindowFits start length bound) :
    checkWindow parameter start length bound = .ok () :=
  Vec.checkWindow_eq_ok_iff.mpr ⟨h.1, Nat.lt_of_le_of_lt h.2 hBound, h.2⟩

theorem checkWindow_of_not_fits (h : ¬WindowFits start length bound) :
    checkWindow parameter start length bound =
      refuse (windowReason parameter start length bound) := by
  rw [checkWindow, windowReason]
  rcases Nat.eq_zero_or_pos length with hZero | hPositive
  · rw [checkPositive, if_pos hZero, if_pos hZero]
    rfl
  rw [checkPositive, if_neg (Nat.ne_of_gt hPositive), if_neg (Nat.ne_of_gt hPositive), checkIndex]
  rcases Nat.lt_or_ge start bound with hStart | hStart
  · have hLate : ¬(start + length < wordBound ∧ start + length ≤ bound) :=
      fun hFits => h ⟨hPositive, hFits.2⟩
    rw [if_pos hStart, if_neg (Nat.not_le_of_lt hStart), if_neg hLate]
    rfl
  · rw [if_neg (Nat.not_lt_of_le hStart), if_pos hStart]
    rfl

end Check

section Words

variable {x y : UInt64}

theorem addChecked_of_lt (h : x.toNat + y.toNat < wordBound) :
    ∃ s, addChecked x y = some s ∧ s.toNat = x.toNat + y.toNat := by
  have hSum : (x + y).toNat = x.toNat + y.toNat := by
    rw [UInt64.toNat_add]
    exact Nat.mod_eq_of_lt h
  refine ⟨x + y, if_neg ?_, hSum⟩
  rw [UInt64.lt_iff_toNat_lt, hSum]
  omega

theorem addChecked_of_le (h : wordBound ≤ x.toNat + y.toNat) : addChecked x y = none := by
  have hBoundary : wordBound = 2 ^ 64 := rfl
  have hx := x.toNat_lt
  have hy := y.toNat_lt
  apply if_pos
  rw [UInt64.lt_iff_toNat_lt, UInt64.toNat_add]
  omega

theorem toNat_addSaturating :
    (addSaturating x y).toNat = min (x.toNat + y.toNat) (wordBound - 1) := by
  rw [addSaturating]
  rcases Nat.lt_or_ge (x.toNat + y.toNat) wordBound with h | h
  · obtain ⟨s, hSum, hValue⟩ := addChecked_of_lt h
    rw [hSum, Option.getD_some, hValue]
    omega
  · rw [addChecked_of_le h, Option.getD_none, Nat.min_eq_right (by omega)]
    rfl

theorem any_addChecked {stop : UInt64} :
    (addChecked x y).any (· ≤ stop) = true ↔ x.toNat + y.toNat ≤ stop.toNat := by
  rcases Nat.lt_or_ge (x.toNat + y.toNat) wordBound with h | h
  · obtain ⟨s, hSum, hValue⟩ := addChecked_of_lt h
    rw [hSum, Option.any_some, decide_eq_true_iff, UInt64.le_iff_toNat_le, hValue]
  · have hLate : ¬x.toNat + y.toNat ≤ stop.toNat :=
      Nat.not_le_of_lt (Nat.lt_of_lt_of_le stop.toNat_lt h)
    rw [addChecked_of_le h, Option.any_none]
    exact iff_of_false Bool.false_ne_true hLate

/-- The check with words decides as the one with numbers that have no limit, and names the same
reason. -/
theorem checkWindowOfWords_eq (parameter : String) (start length bound : UInt64) :
    checkWindowOfWords parameter start length bound =
      checkWindow parameter start.toNat length.toNat bound.toNat := by
  have hZero : length = 0 ↔ length.toNat = 0 := UInt64.toNat_inj.symm
  rw [checkWindowOfWords]
  rcases Classical.em (WindowFits start.toNat length.toNat bound.toNat) with hFits | hNot
  · have hStart : ¬bound ≤ start := by
      rw [UInt64.le_iff_toNat_le]
      have := hFits.1
      have := hFits.2
      omega
    rw [checkWindow_of_fits bound.toNat_lt hFits, if_neg (hZero.not.mpr (Nat.ne_of_gt hFits.1)),
      if_neg hStart, if_pos (any_addChecked.mpr hFits.2)]
  · rw [checkWindow_of_not_fits hNot, windowReason, if_congr hZero rfl rfl]
    split
    · rfl
    rename_i hLength
    have hLate : ¬(addChecked start length).any (· ≤ bound) = true :=
      fun h => hNot ⟨Nat.pos_of_ne_zero hLength, any_addChecked.mp h⟩
    have hBefore : (length - 1).toNat = length.toNat - 1 :=
      UInt64.toNat_sub_of_le _ _ (by
        rw [UInt64.le_iff_toNat_le]
        exact Nat.pos_of_ne_zero hLength)
    rw [if_neg hLate, toNat_addSaturating, hBefore, if_congr UInt64.le_iff_toNat_le rfl rfl]
    split <;> rfl

end Words
end Linear

variable {α β : Type}

section Outcomes

theorem mapM_eq_ok {ε : Type} {f : α → Outcome ε β} {g : α → β} {xs : List α}
    (h : ∀ x ∈ xs, f x = .ok (g x)) : xs.mapM f = .ok (xs.map g) := by
  induction xs with
  | nil => rfl
  | cons x xs ih =>
    rw [List.mapM_cons, h x List.mem_cons_self, ih fun y hy => h y (List.mem_cons_of_mem _ hy)]
    rfl

/-- Reading from `start` on, with a check of every position, gives the list. -/
def Reads (source : Nat → Checked α) (start length : Nat) (xs : List α) : Prop :=
  (List.range' start length).mapM source = .ok xs

theorem reads_of_lookup {source : Nat → Checked α} {f : Nat → α} {start length : Nat}
    (h : ∀ i < length, source (start + i) = .ok (f i)) :
    Reads source start length ((List.range length).map f) := by
  rw [Reads, List.range'_eq_map_range, List.mapM_map]
  exact mapM_eq_ok fun i hi => h i (List.mem_range.mp hi)

variable {parameter : String} {start length bound : Nat} {op : Checked β} {p : β → Prop}

/-- An operation behind the check of a window: refused exactly where the window does not fit. -/
structure Ranged (parameter : String) (start length bound : Nat) (op : Checked β)
    (p : β → Prop) : Prop where
  accepted : WindowFits start length bound → ∃ y, op = .ok y ∧ p y
  refused : ¬WindowFits start length bound →
    op = refuse (windowReason parameter start length bound)

theorem ranged_of_check {next : Unit → Checked β}
    (hCheck : op = checkWindow parameter start length bound >>= next)
    (hAccepted : WindowFits start length bound → ∃ y, op = .ok y ∧ p y) :
    Ranged parameter start length bound op p where
  accepted := hAccepted
  refused hNot := by
    rw [hCheck, checkWindow_of_not_fits hNot]
    rfl

end Outcomes

variable [Zero α]

namespace Vec
variable {v w : Vec α} {start length : Nat}

theorem lookup_of_lt {i : Nat} (hi : i < v.count) : v.lookup i = .ok (v.entry i) := by
  rw [lookup, checkIndex, if_pos hi]
  change valueAt v i = _
  rw [valueAt, getElem?_entries hi]
  rfl

theorem toEntries_of_entry {f : Nat → α} (hCount : w.count = length)
    (hEntry : ∀ i < length, w.entry i = f i) : w.toEntries = (List.range length).map f := by
  rw [toEntries_eq (.refl w), elements, hCount]
  exact List.map_congr_left fun i hi => hEntry i (List.mem_range.mp hi)

theorem reads_lookup (hFits : start + length ≤ v.count) :
    Reads v.lookup start length ((List.range length).map fun i => v.entry (start + i)) :=
  reads_of_lookup fun i hi => lookup_of_lt (by omega)

theorem ranged_subVector (hWord : v.count < wordBound) :
    Ranged "index" start length v.count (v.subVector start length) fun u =>
      Reads v.lookup start length u.toEntries := by
  refine ranged_of_check rfl fun hFits => ?_
  refine ⟨_, v.subVector_of_fits hFits.1 (Nat.lt_of_le_of_lt hFits.2 hWord) hFits.2, ?_⟩
  rw [toEntries_of_entry count_tabulate fun i hi => entry_tabulate hi]
  exact reads_lookup hFits.2

theorem ranged_indexedRange (hWord : v.count < wordBound) :
    Ranged "index" start length v.count (v.indexedRange start length) fun pairs =>
      pairs.map Prod.fst = List.range' start length ∧
        Reads v.lookup start length (pairs.map Prod.snd) := by
  refine ranged_of_check rfl fun hFits => ?_
  have hPairs : v.indexedRange start length =
      .ok ((List.range length).map fun i => (start + i, v.entry (start + i))) := by
    rw [indexedRange, checkWindow_of_fits hWord hFits]
    rfl
  refine ⟨_, hPairs, ?_, ?_⟩
  · rw [List.map_map, List.range'_eq_map_range]
    rfl
  · rw [List.map_map]
    exact reads_lookup hFits.2

/-- An operation that writes a window of a source into a vector of the length of the window. -/
structure Poured (parameter : String) (start length bound : Nat) (source : Nat → Checked α)
    (op : Change α Unit) (w : Vec α) : Prop where
  refused : ¬WindowFits start length bound →
    runOn w op = (refuse (windowReason parameter start length bound), w)
  misfit : WindowFits start length bound → w.count ≠ length →
    runOn w op = (refuse (.resultNotConformable "result" (length, 1) (w.count, 1)), w)
  produced : WindowFits start length bound → w.count = length →
    ∃ u, runOn w op = (.ok (), u) ∧ Reads source start length u.toEntries

/-- The elements of a window written one by one, after the checks. -/
def pour (check : Checked Unit) (length : Nat) (f : Nat → α) : Change α Unit := do
  Edit.require check
  let result ← Edit.current
  Edit.require (checkResultCount length result.count)
  Edit.write fun result => result.writeFrom 0 length f

variable {op : Change α Unit} {check : Checked Unit} {f : Nat → α}

omit [Zero α] in
theorem runOn_of_refused {reason : Error} (hGuarded : GuardedAt w op)
    (h : (runOn w op).1 = refuse reason) : runOn w op = (refuse reason, w) :=
  Prod.ext h (hGuarded reason h)

omit [Zero α] in
theorem exists_of_answered (h : (runOn w op).1 = .ok ()) : ∃ u, runOn w op = (.ok (), u) :=
  ⟨_, Prod.ext h rfl⟩

omit [Zero α] in
theorem runOn_pour_of_refused {reason : Error} (hCheck : check = refuse reason) :
    runOn w (pour check length f) = (refuse reason, w) := by
  rw [pour, runOn_require, hCheck]
  rfl

theorem poured_of_match {parameter : String} {bound : Nat} {source : Nat → Checked α}
    (hMatch : MatchAt Alike w w op (pour check length f)) (hGuarded : GuardedAt w op)
    (hCheck : check = checkWindow parameter start length bound) (hBound : bound < wordBound)
    (hSource : ∀ i < bound - start, source (start + i) = .ok (f i)) :
    Poured parameter start length bound source op w where
  refused hNot := by
    have hRefused := hCheck.trans (checkWindow_of_not_fits hNot)
    exact runOn_of_refused hGuarded (hMatch.1.trans (by rw [runOn_pour_of_refused hRefused]))
  misfit hFits hCount := by
    have hRun : runOn w (pour check length f) =
        (refuse (.resultNotConformable "result" (length, 1) (w.count, 1)), w) := by
      rw [pour, runOn_require, hCheck.trans (checkWindow_of_fits hBound hFits)]
      simp only [runOn_current, checkResultCount, if_neg hCount.symm]
      rfl
    exact runOn_of_refused hGuarded (hMatch.1.trans (by rw [hRun]))
  produced hFits hCount := by
    have hRun : runOn w (pour check length f) = (.ok (), w.writeFrom 0 length f) := by
      rw [pour, runOn_require, hCheck.trans (checkWindow_of_fits hBound hFits)]
      simp only [runOn_current, checkResultCount, if_pos hCount.symm]
      rfl
    obtain ⟨hAnswer, hAlike⟩ := hMatch
    rw [hRun] at hAnswer hAlike
    obtain ⟨u, hDone⟩ := exists_of_answered hAnswer
    rw [hDone] at hAlike
    refine ⟨u, hDone, ?_⟩
    have hWritten := revised_writeFrom w 0 length f
    rw [toEntries_of_entry (f := f) (hAlike.count.trans (hWritten.count.trans hCount)) ?_]
    · exact reads_of_lookup fun i hi => hSource i (by have := hFits.2; omega)
    · intro i hi
      rw [hAlike.entry, entry_writeFrom_of_lt w f (hCount ▸ hi) hi]

/-- A copy of a window into a window of another vector. -/
structure CopiesRange (v : Vec α) (offset destination length : Nat) (w : Vec α) : Prop where
  source_refused : ¬WindowFits offset length v.count →
    runOn w (v.copyRangeTo offset destination length) =
      (refuse (windowReason "offset" offset length v.count), w)
  target_refused : WindowFits offset length v.count → ¬WindowFits destination length w.count →
    runOn w (v.copyRangeTo offset destination length) =
      (refuse (windowReason "dest_offset" destination length w.count), w)
  copied : WindowFits offset length v.count → WindowFits destination length w.count →
    ∃ u, runOn w (v.copyRangeTo offset destination length) = (.ok (), u) ∧
      v.Copied offset destination length w u

theorem copiesRange {offset destination : Nat} (hWord : v.count < wordBound)
    (hTargetWord : w.count < wordBound) : CopiesRange v offset destination length w := by
  have hGuarded := guarded_copyRangeTo v w offset destination length
  obtain ⟨hAnswer, -⟩ := copyRangeTo_same v w offset destination length
  refine ⟨fun hNot => ?_, fun hSource hNot => ?_, fun hSource hTarget => ?_⟩
  · refine runOn_of_refused hGuarded (hAnswer.trans ?_)
    rw [copyRangeElementsTo, runOn_require, checkWindow_of_not_fits hNot]
    rfl
  · refine runOn_of_refused hGuarded (hAnswer.trans ?_)
    rw [copyRangeElementsTo, runOn_require, checkWindow_of_fits hWord hSource]
    simp only [runOn_current, runOn_require, checkWindow_of_not_fits hNot]
    rfl
  · have hDone : (runOn w (v.copyRangeTo offset destination length)).1 = .ok () := by
      rw [hAnswer, copyRangeElementsTo, runOn_require, checkWindow_of_fits hWord hSource]
      simp only [runOn_current, runOn_require, checkWindow_of_fits hTargetWord hTarget]
      rfl
    obtain ⟨u, hRun⟩ := exists_of_answered hDone
    exact ⟨u, hRun, copied_of_copyRangeTo hRun⟩

end Vec

namespace Mat
variable {A : Mat α} {index start length : Nat}

/-- An operation on a window of the line of a matrix: the line is looked for first. -/
structure LinePoured (index lines : Nat) (parameter : String) (start length bound : Nat)
    (source : Nat → Checked α) (op : Vec.Change α Unit) (w : Vec α) : Prop where
  line_refused : lines ≤ index →
    runOn w op = (refuse (.indexOutOfRange "index" index lines), w)
  poured : index < lines → Vec.Poured parameter start length bound source op w

theorem linePoured_of_match {lines bound : Nat} {parameter : String} {source : Nat → Checked α}
    {op : Vec.Change α Unit} {w : Vec α} {f : Nat → α}
    (hMatch : MatchAt Vec.Alike w w op (Vec.pour (do
      checkIndex "index" index lines
      checkWindow parameter start length bound) length f))
    (hGuarded : GuardedAt w op) (hBound : bound < wordBound)
    (hSource : index < lines → ∀ i < bound - start, source (start + i) = .ok (f i)) :
    LinePoured index lines parameter start length bound source op w where
  line_refused hIndex := by
    refine Vec.runOn_of_refused hGuarded (hMatch.1.trans ?_)
    rw [checkIndex, if_neg (Nat.not_lt_of_le hIndex)]
    exact congrArg Prod.fst (Vec.runOn_pour_of_refused rfl)
  poured hIndex := by
    refine Vec.poured_of_match hMatch hGuarded ?_ hBound (hSource hIndex)
    rw [checkIndex, if_pos hIndex]
    rfl

/-- What the operations on windows make of a matrix. -/
structure WindowsExact (A : Mat α) : Prop where
  columnInto : ∀ index row length w, LinePoured index A.columns "row_index" row length A.rows
    (A.lookup · index) (A.columnInto index row length) w
  /-- The slice of the buffer from which a dense matrix is read lies in the column. -/
  slice : ∀ index row length, A.storage = .dense → index < A.columns →
    WindowFits row length A.rows → index * A.rows ≤ A.offset row index ∧
      A.offset row index + length ≤ (index + 1) * A.rows ∧ (index + 1) * A.rows ≤ A.data.size
  rowInto : ∀ index column length w, LinePoured index A.rows "column_index" column length A.columns
    (A.lookup index) (A.rowInto index column length) w
  rows_refused : ∀ row rows column columns, ¬WindowFits row rows A.rows →
    A.subMatrix row rows column columns = refuse (windowReason "row_index" row rows A.rows)
  subMatrix : ∀ row rows column columns, WindowFits row rows A.rows →
    Ranged "column_index" column columns A.columns (A.subMatrix row rows column columns) fun B =>
      B.shape = (rows, columns) ∧ (columnwise rows columns).mapM
        (fun p => A.lookup (row + p.1) (column + p.2)) = .ok B.toColumnMajor

theorem windowsExact (hWords : Addressable A.shape) : WindowsExact A where
  columnInto index row length w := by
    refine linePoured_of_match (columnInto_same A index row length w)
      (Vec.guarded_columnInto w A index row length) hWords.1 fun hIndex i hi => ?_
    exact lookup_of_lt (by omega) hIndex
  slice index row length hDense hIndex hFits := by
    have hColumn := column_fits hIndex
    have hRow := hFits.2
    have hPlace : A.offset row index = index * A.rows + row := by rw [offset_of_dense hDense]
    rw [hPlace, Nat.add_mul, Nat.one_mul]
    omega
  rowInto index column length w := by
    refine linePoured_of_match (f := fun i => A.entry index (column + i)) ?_
      (.require (.require (.current (.require (.write _))))) hWords.2 fun hIndex i hi => ?_
    · rw [rowInto, require_require]
      exact .refl .refl w _
    · exact lookup_of_lt hIndex (by omega)
  rows_refused row rows column columns hNot := by
    rw [Mat.subMatrix, checkWindow_of_not_fits hNot]
    rfl
  subMatrix row rows column columns hRows := by
    have hRow : checkWindow "row_index" row rows A.rows = .ok () :=
      checkWindow_of_fits hWords.1 hRows
    refine ranged_of_check (by rw [Mat.subMatrix, hRow]; rfl) fun hColumns => ?_
    have hColumn : checkWindow "column_index" column columns A.columns = .ok () :=
      checkWindow_of_fits hWords.2 hColumns
    refine ⟨_, A.subMatrix_eq hRows.1 hColumns.1 hRow hColumn, rfl, ?_⟩
    rw [toColumnMajor_eq (.refl _), columnElements]
    refine mapM_eq_ok fun p hp => ?_
    obtain ⟨hr, hc⟩ := mem_columnwise.mp hp
    rw [entry_tabulate hr hc]
    have := hRows.2
    have := hColumns.2
    exact lookup_of_lt (by omega) (by omega)

end Mat

namespace Vec

/-- What the operations on windows make of a vector. -/
structure WindowsExact (v : Vec α) : Prop where
  subVector : ∀ start length, Ranged "index" start length v.count (v.subVector start length)
    fun u => Reads v.lookup start length u.toEntries
  indexedRange : ∀ start length, Ranged "index" start length v.count (v.indexedRange start length)
    fun pairs => pairs.map Prod.fst = List.range' start length ∧
      Reads v.lookup start length (pairs.map Prod.snd)
  copyRangeTo : ∀ offset destination length w, w.count < wordBound →
    CopiesRange v offset destination length w

end Vec

/-- Every operation on a window accepts exactly the windows that fit, for all starts and lengths,
and reads the elements of the window in order and nothing else; the check itself, computed with
words, decides as with numbers that have no limit. -/
theorem windows_are_accepted_exactly_when_they_fit :
    (∀ parameter start length bound, checkWindowOfWords parameter start length bound =
      checkWindow parameter start.toNat length.toNat bound.toNat) ∧
    (∀ v : Vec α, v.count < wordBound → v.WindowsExact) ∧
      ∀ A : Mat α, Mat.Addressable A.shape → A.WindowsExact :=
  ⟨checkWindowOfWords_eq, fun _ hWord => ⟨fun _ _ => Vec.ranged_subVector hWord,
    fun _ _ => Vec.ranged_indexedRange hWord, fun _ _ _ _ => Vec.copiesRange hWord⟩,
    fun _ => Mat.windowsExact⟩

/-- Of three doubles the last two are cut out; a window that starts at the greatest word is refused,
as is one in a column of three rows that ends past the last of them. -/
theorem windows_of_doubles_are_judged :
    let v : Vec Float := (Vec.ofList [1, 2, 3] (Nat.succ_pos 2)).scatter
    let A : Mat Float := Mat.fill 3 2 (Nat.succ_pos 2) Nat.two_pos 1
    (v.count < wordBound ∧ Mat.Addressable A.shape) ∧
      (∃ u, v.subVector 1 2 = .ok u ∧ Reads v.lookup 1 2 u.toEntries) ∧
      v.subVector (wordBound - 1) 2 = refuse (.indexOutOfRange "index" (wordBound - 1) 3) ∧
      runOn v (A.columnInto 1 1 3) = (refuse (.indexOutOfRange "row_index" 3 3), v) := by
  intro v A
  obtain ⟨-, hVec, hMat⟩ := windows_are_accepted_exactly_when_they_fit (α := Float)
  have hThree : 3 < wordBound :=
    Nat.lt_of_lt_of_le (by decide : 3 < 2 ^ 2) (Nat.pow_le_pow_right Nat.two_pos (by decide))
  have hWords : Mat.Addressable A.shape := ⟨hThree, Nat.lt_trans (by decide : 2 < 3) hThree⟩
  have hCount : v.count < wordBound := hThree
  refine ⟨⟨hCount, hWords⟩, ((hVec v hCount).subVector 1 2).accepted ⟨by decide, by decide⟩, ?_, ?_⟩
  · have hPast : ¬wordBound - 1 + 2 ≤ 3 := by omega
    exact ((hVec v hCount).subVector (wordBound - 1) 2).refused fun h => hPast h.2
  · exact (((hMat A hWords).columnInto 1 1 3 v).poured (by decide)).refused
      fun h => absurd h.2 (by decide)

end Almanac
