import Almanac.Proofs.Mat.Table

/-! # Windows

What a window of a vector or a matrix that fits answers, what a copy of a window leaves in its
target, and when a window of a matrix holds the elements of a block.
-/
namespace Almanac
set_option autoImplicit false
open Linear Edit

variable {α : Type} [Zero α]

namespace Vec

theorem subVector_of_fits (v : Vec α) {start length : Nat} (hPositive : 0 < length)
    (hWord : start + length < wordBound) (hFits : start + length ≤ v.count) :
    v.subVector start length =
      .ok (tabulate length hPositive fun i => v.entry (start + i)) := by
  have hCheck : checkWindow "index" start length v.count = .ok () :=
    checkWindow_eq_ok_iff.mpr ⟨hPositive, hWord, hFits⟩
  rw [subVector_eq (.refl v), subVectorElements, hCheck]
  exact dif_pos (by simpa [windowElements] using hPositive)

/-- What a copy of a window does to its target: the window there is the one that was copied, and
nothing else is changed. -/
structure Copied (v : Vec α) (offset destination length : Nat) (w u : Vec α) : Prop where
  storage : u.storage = w.storage
  count : u.count = w.count
  readBack : ∃ part, v.subVector offset length = .ok part ∧
    u.subVector destination length = .ok part
  elsewhere : ∀ i < w.count, ¬(destination ≤ i ∧ i < destination + length) →
    u.entry i = w.entry i

theorem keeps_copyRangeElementsTo (v : Vec α) (offset destination length : Nat) (kind : Storage) :
    Keeps (fun w => w.storage = kind) (v.copyRangeElementsTo offset destination length) := by
  refine (Keeps.require _).bind fun _ => Keeps.current fun w hw => ?_
  refine (Keeps.require _).bind (P := fun w : Vec α => w.storage = kind) (fun _ u hu => ?_) w hw
  exact (storage_writeFrom u destination length _).trans hu

theorem keeps_copyRangeTo (v : Vec α) (offset destination length : Nat) (kind : Storage) :
    Keeps (fun w => w.storage = kind) (v.copyRangeTo offset destination length) := by
  rw [copyRangeTo]
  split
  · exact keeps_copyRangeElementsTo v offset destination length kind
  · refine (Keeps.require _).bind fun _ => Keeps.current fun w hw => ?_
    refine (Keeps.require _).bind (P := fun w : Vec α => w.storage = kind) (fun _ => ?_) w hw
    split
    · exact fun u hu => (storage_spliceBlock u destination _).trans hu
    · exact keeps_copyRangeElementsTo v offset destination length kind

theorem copied_of_copyRangeTo {v w u : Vec α} {offset destination length : Nat}
    (h : runOn w (v.copyRangeTo offset destination length) = (.ok (), u)) :
    Copied v offset destination length w u := by
  have hStorage := keeps_copyRangeTo v offset destination length w.storage w rfl
  obtain ⟨hAnswer, hAlike⟩ := copyRangeTo_same v w offset destination length
  rw [h] at hStorage hAnswer hAlike
  have hRun : runOn w (v.copyRangeElementsTo offset destination length) =
      (.ok (), (runOn w (v.copyRangeElementsTo offset destination length)).2) :=
    Prod.ext hAnswer.symm rfl
  generalize (runOn w (v.copyRangeElementsTo offset destination length)).2 = u' at hRun hAlike
  obtain ⟨hSource, hRun⟩ := ok_of_runOn_require hRun
  obtain ⟨hTarget, hRun⟩ := ok_of_runOn_require hRun
  obtain rfl := (Prod.mk.inj hRun).2
  obtain ⟨hPositive, hSourceWord, hSourceFits⟩ := checkWindow_eq_ok_iff.mp hSource
  obtain ⟨-, hTargetWord, hTargetFits⟩ := checkWindow_eq_ok_iff.mp hTarget
  have hRevised := revised_writeFrom w destination length fun i => v.entry (offset + i)
  have hCount : u.count = w.count := hAlike.count.trans hRevised.count
  refine ⟨hStorage, hCount, ?_, fun i hi hOutside => ?_⟩
  · refine ⟨_, v.subVector_of_fits hPositive hSourceWord hSourceFits, ?_⟩
    rw [u.subVector_of_fits hPositive hTargetWord (hCount ▸ hTargetFits)]
    refine congrArg Except.ok (tabulate_congr rfl fun i hi => ?_)
    rw [hAlike.entry, hRevised.entry _ (by omega), if_pos (by omega), Nat.add_sub_cancel_left]
  · rw [hAlike.entry, hRevised.entry i hi, if_neg hOutside]

end Vec

namespace Mat
variable {m n row rows column columns : Nat}

theorem subMatrix_eq (A : Mat α) (hRows : 0 < rows) (hColumns : 0 < columns)
    (hRow : checkWindow "row_index" row rows A.rows = .ok ())
    (hColumn : checkWindow "column_index" column columns A.columns = .ok ()) :
    A.subMatrix row rows column columns =
      .ok (tabulate rows columns hRows hColumns fun r c => A.entry (row + r) (column + c)) := by
  rw [subMatrix, hRow, hColumn]
  change ofTable? rows columns _ = _
  rw [ofTable?, dif_pos hRows, dif_pos hColumns]

/-- The window at a place is read as a matrix with the elements of a block. -/
def Holds (C : Mat α) (row column : Nat) (block : Mat α) : Prop :=
  ∃ D, C.subMatrix row block.rows column block.columns = .ok D ∧ D.Alike block

theorem holds_of_entries {C block : Mat α}
    (hRow : checkWindow "row_index" row block.rows C.rows = .ok ())
    (hColumn : checkWindow "column_index" column block.columns C.columns = .ok ())
    (hSame : ∀ r c, r < block.rows → c < block.columns →
      C.entry (row + r) (column + c) = block.entry r c) : C.Holds row column block := by
  refine ⟨_, C.subMatrix_eq block.rows_pos block.columns_pos hRow hColumn, rfl, rfl, ?_⟩
  intro r c hr hc
  exact (entry_tabulate hr hc).trans (hSame r c hr hc)

/-- A shape whose rows and columns are counted by words. -/
def Addressable (shape : Shape) : Prop := shape.1 < wordBound ∧ shape.2 < wordBound

theorem holds_tabulate {hm : 0 < m} {hn : 0 < n} {table : Nat → Nat → α} {block : Mat α}
    (hWords : Addressable (tabulate m n hm hn table).shape) (hRow : row + block.rows ≤ m)
    (hColumn : column + block.columns ≤ n)
    (hSame : ∀ r c, r < block.rows → c < block.columns →
      table (row + r) (column + c) = block.entry r c) :
    (tabulate m n hm hn table).Holds row column block := by
  apply holds_of_entries
  · exact Vec.checkWindow_eq_ok_iff.mpr
      ⟨block.rows_pos, Nat.lt_of_le_of_lt hRow hWords.1, hRow⟩
  · exact Vec.checkWindow_eq_ok_iff.mpr
      ⟨block.columns_pos, Nat.lt_of_le_of_lt hColumn hWords.2, hColumn⟩
  · intro r c hr hc
    rw [entry_tabulate (by omega) (by omega), hSame r c hr hc]

end Mat
end Almanac
