import Almanac.Proofs.Vec.Entry

/-! # Storage of vectors

A vector answers the same whether its elements lie in a block or not. Every operation that has a
form for blocks is compared with the form that any storage has, which reads and writes one element
at a time: on the same elements, both give the same answer or refusal and leave the same elements.
-/
namespace Almanac.Vec
set_option autoImplicit false
open Linear Edit

variable {α : Type} [Zero α]

section Elements
variable (v : Vec α)

def denseOfElements : Vec α := ofList v.elements (by simpa [elements, count] using v.nonempty)

def sumElements [Add α] [Neg α] : α := total v.elements

def subVectorElements (start length : Nat) : Checked (Vec α) := do
  checkWindow "index" start length v.count
  ofList? (v.windowElements start length)

def addScalarElements [Add α] (x : α) : Change α Unit := Edit.write (mapElements (· + x))

def multiplyScalarElements [Mul α] [One α] [BEq α] (x : α) : Change α Unit :=
  Edit.write fun v => if x == 1 then v else v.mapElements (· * x)

def clearElements : Change α Unit := Edit.write fun v => v.sweep fun _ _ => 0

def setValuesElements (values : List α) : Change α Unit := do
  let v ← Edit.current
  Edit.require (checkLength "values" v.count values.length)
  Edit.write fun v => v.writeFrom 0 values.length fun i => values.getD i 0

end Elements

variable {v v' other other' : Vec α}

omit [Zero α] in
theorem match_of_same {β : Type} {edit edit' edit'' : Change α β}
    (h : ∀ v, MatchAt Alike v v edit edit') (h' : Match Alike edit' edit'') :
    Match Alike edit edit'' := .of_same (R := Alike) (fun _ _ _ => Alike.trans) h h'

section Combination
variable (op : α → α → α)

theorem combine_same (other w : Vec α) :
    MatchAt Alike w w (combine op other) (combineElements op other) := by
  refine .current ?_
  split
  · refine .require rfl fun hCount => .write ?_
    have hBlock := revised_zipBlock op (holds_of_check hCount)
    exact hBlock.alike (revised_sweep w fun i x => op x (other.entry i)) rfl fun _ _ => rfl
  · exact .current_left (.refl .refl w _)

theorem match_combineElements (h : other.Alike other') :
    Match Alike (combineElements op other) (combineElements op other') := by
  intro w w' hw
  refine .current ?_
  rw [hw.count, h.count]
  refine .require hw fun _ => .write ?_
  exact (revised_sweep w fun i x => op x (other.entry i)).alike
    (revised_sweep w' fun i x => op x (other'.entry i)) hw fun i _ => by rw [h.entry]

theorem match_combine (h : other.Alike other') :
    Match Alike (combine op other) (combineElements op other') :=
  match_of_same (combine_same op other) (match_combineElements op h)

theorem combineInto_same (v other w : Vec α) :
    MatchAt Alike w w (combineInto op v other) (combineElementsInto op v other) := by
  rw [combineInto]
  split
  · exact .refl .refl w _
  · refine .require rfl fun hOther => .current (.require rfl fun hResult => ?_)
    have hOther' := holds_of_check hOther
    have hResult' := holds_of_check hResult
    split
    · have hZip := revised_zipBlock op hOther'
      refine .write ?_
      refine (revised_withBlock (hZip.count.trans hResult')).alike (revised_writeFrom w 0 _ _) rfl
        fun i hi => ?_
      rw [hZip.entry i (hResult' ▸ hi), if_pos ⟨Nat.zero_le i, by omega⟩]
      rfl
    · exact .require_left hOther (.current_left (.require_left hResult (.write rfl)))

theorem match_combineElementsInto (hv : v.Alike v') (h : other.Alike other') :
    Match Alike (combineElementsInto op v other) (combineElementsInto op v' other') := by
  intro w w' hw
  rw [combineElementsInto, combineElementsInto, hv.count, h.count]
  refine .require hw fun _ => .current ?_
  rw [hw.count]
  refine .require hw fun _ => .write ?_
  refine (revised_writeFrom w 0 _ _).alike (revised_writeFrom w' 0 _ _) hw fun i _ => ?_
  simp only [hv.entry, h.entry]

theorem match_combineInto (hv : v.Alike v') (h : other.Alike other') :
    Match Alike (combineInto op v other) (combineElementsInto op v' other') :=
  match_of_same (combineInto_same op v other) (match_combineElementsInto op hv h)

end Combination

section Mapping
variable (f : α → α)

theorem alike_mapElements (h : v.Alike v') : (v.mapEntries f).Alike (v'.mapElements f) := by
  have hElements := revised_sweep v' fun _ => f
  rw [mapEntries]
  split
  · exact (revised_mapBlock v f).alike hElements h fun _ _ => rfl
  · exact (revised_sweep v fun _ => f).alike hElements h fun _ _ => rfl

theorem match_addScalar [Add α] (x : α) :
    Match Alike (addScalar x) (addScalarElements x) :=
  fun _ _ h => .write (alike_mapElements (· + x) h)

theorem match_multiplyScalar [Mul α] [One α] [BEq α] (x : α) :
    Match Alike (multiplyScalar x) (multiplyScalarElements x) := by
  intro v v' h
  refine .write ?_
  split
  · exact h
  · exact alike_mapElements (· * x) h

end Mapping

section Transfer

theorem match_clear : Match Alike (clear : Change α Unit) clearElements := by
  intro v v' h
  refine .write ?_
  have hElements := revised_sweep v' fun _ (_ : α) => 0
  split
  · exact (revised_mapBlock v fun _ => 0).alike hElements h fun _ _ => rfl
  · exact (revised_sweep v fun _ _ => 0).alike hElements h fun _ _ => rfl

theorem copyTo_same (v w : Vec α) : MatchAt Alike w w v.copyTo v.copyElementsTo := by
  rw [copyTo]
  split
  · exact .refl .refl w _
  · refine .current (.require rfl fun hResult => ?_)
    split
    · refine .write ?_
      have hResult' := holds_of_check hResult
      refine (revised_withBlock hResult').alike (revised_writeFrom w 0 _ _) rfl fun i hi => ?_
      rw [if_pos ⟨Nat.zero_le i, by omega⟩]
      rfl
    · exact .current_left (.require_left hResult (.write rfl))

theorem match_copyTo (h : v.Alike v') : Match Alike v.copyTo v'.copyElementsTo := by
  refine match_of_same (copyTo_same v) ?_
  intro w w' hw
  rw [copyElementsTo, copyElementsTo, h.count]
  refine .current ?_
  rw [hw.count]
  refine .require hw fun _ => .write ?_
  refine (revised_writeFrom w 0 _ _).alike (revised_writeFrom w' 0 _ _) hw fun i _ => ?_
  simp only [h.entry]

/-- A window is accepted exactly when it is not empty and ends within the bound, at a word. -/
theorem checkWindow_eq_ok_iff {parameter : String} {start length bound : Nat} :
    checkWindow parameter start length bound = .ok () ↔
      0 < length ∧ start + length < wordBound ∧ start + length ≤ bound := by
  constructor
  · intro h
    obtain ⟨_, hPositive, hRest⟩ := exists_of_bind_ok h
    obtain ⟨_, -, hFits⟩ := exists_of_bind_ok hRest
    refine ⟨Nat.pos_of_ne_zero fun hZero => ?_, holds_of_check hFits⟩
    rw [checkPositive, if_pos hZero] at hPositive
    cases hPositive
  · rintro ⟨hLength, hFits⟩
    have hStart : start < bound := by omega
    rw [checkWindow, checkPositive, if_neg (Nat.ne_of_gt hLength), checkIndex, if_pos hStart,
      if_pos hFits]
    rfl

theorem le_of_checkWindow {parameter : String} {start length bound : Nat}
    (h : checkWindow parameter start length bound = .ok ()) : start + length ≤ bound :=
  (checkWindow_eq_ok_iff.mp h).2.2

theorem copyRangeTo_same (v w : Vec α) (offset destination length : Nat) :
    MatchAt Alike w w (v.copyRangeTo offset destination length)
      (v.copyRangeElementsTo offset destination length) := by
  rw [copyRangeTo]
  split
  · exact .refl .refl w _
  · refine .require rfl fun hSource => .current (.require rfl fun hTarget => ?_)
    split
    · refine .write ?_
      have hSource' : offset + length ≤ v.entries.size := le_of_checkWindow hSource
      have hTarget' := le_of_checkWindow hTarget
      have hSize := size_window hSource'
      refine (revised_spliceBlock (by omega)).alike (revised_writeFrom w _ _ _) rfl fun i _ => ?_
      rw [hSize]
      split
      · rw [Array.getD_eq_getD_getElem?, getElem?_window hSource', if_pos (by omega)]
        rfl
      · rfl
    · exact .require_left hSource (.current_left (.require_left hTarget (.write rfl)))

theorem match_copyRangeTo (h : v.Alike v') (offset destination length : Nat) :
    Match Alike (v.copyRangeTo offset destination length)
      (v'.copyRangeElementsTo offset destination length) := by
  refine match_of_same (fun w => copyRangeTo_same v w offset destination length) ?_
  intro w w' hw
  rw [copyRangeElementsTo, copyRangeElementsTo, h.count]
  refine .require hw fun _ => .current ?_
  rw [hw.count]
  refine .require hw fun _ => .write ?_
  refine (revised_writeFrom w _ _ _).alike (revised_writeFrom w' _ _ _) hw fun i _ => ?_
  simp only [h.entry]

theorem match_setValues (values : List α) :
    Match Alike (setValues values) (setValuesElements values) := by
  intro w w' hw
  refine .current ?_
  rw [hw.count]
  refine .require hw fun hLength => .write ?_
  have hLength' := holds_of_check hLength
  have hElements := revised_writeFrom w' 0 values.length fun i => values.getD i 0
  split
  · refine (revised_spliceBlock ?_).alike hElements hw fun i _ => ?_
    · simp [hw.count, hLength']
    · simp
  · exact (revised_writeFrom w 0 _ _).alike hElements hw fun _ _ => rfl

end Transfer

section Reading

theorem toEntries_eq (h : v.Alike v') : v.toEntries = v'.elements := by
  rw [toEntries, ← h.elements]
  split
  · exact toList_entries v
  · rfl

theorem getD_toEntries (v : Vec α) (i : Nat) : v.toEntries.getD i 0 = v.entry i := by
  have hEntries : v.toEntries = v.entries.toList := by
    rw [toEntries_eq (.refl v), toList_entries]
  rw [hEntries, entry, Array.getD_eq_getD_getElem?, List.getD_eq_getElem?_getD,
    Array.getElem?_toList]

theorem toDense_eq (h : v.Alike v') : v.toDense = v'.denseOfElements := by
  have hEntries : ∀ hLength, v'.denseOfElements = ofList v.toEntries hLength := by
    intro hLength
    simp only [denseOfElements, toEntries_eq h]
  rw [hEntries (by rw [length_toEntries]; exact v.nonempty), toDense]
  split
  · rename_i hStorage
    refine Alike.eq ?_ hStorage
    simp only [Alike, ofList, toEntries, hStorage]
  · rfl

theorem alike_toDense (v : Vec α) : v.toDense.Alike v := by
  rw [toDense_eq (.refl v)]
  exact Array.toList_inj.mp (toList_entries v).symm

theorem window_eq (v : Vec α) {start length : Nat} (h : start + length ≤ v.count) :
    v.window start length = v.windowElements start length := by
  rw [window]
  split
  · exact toList_window h
  · rfl

theorem subVector_eq (h : v.Alike v') (start length : Nat) :
    v.subVector start length = v'.subVectorElements start length := by
  have hElements : v'.windowElements start length = v.windowElements start length :=
    List.map_congr_left fun i _ => (h.entry (start + i)).symm
  rw [subVector, subVectorElements, hElements, ← h.count]
  cases hWindow : checkWindow "index" start length v.count with
  | error failure => rfl
  | ok _ =>
    change ofList? (v.window start length) = ofList? (v.windowElements start length)
    rw [window_eq v (le_of_checkWindow hWindow)]

theorem sum_eq [Add α] [Neg α] (h : v.Alike v') : v.sum = v'.sumElements := by
  rw [sum, sumElements, ← h.elements]
  split
  · rw [toList, toList_entries]
  · rfl

theorem dot_eq [Add α] [Mul α] [Neg α] (h : v.Alike v') (h' : other.Alike other') :
    v.dot other = v'.dotElements other' := by
  have hElements : v'.dotElements other' = v.dotElements other := by
    simp only [dotElements, h.count, h'.count, h.entry, h'.entry]
  rw [hElements, dot]
  split
  · rw [dotElements]
    cases hCount : checkCount "other" v.count other.count with
    | error failure => rfl
    | ok _ =>
      have hSame := holds_of_check hCount
      change Except.ok (total (List.zipWith (· * ·) v.toList other.toList)) = Except.ok _
      rw [toList, toList, toList_entries, toList_entries, elements, elements, ← hSame,
        List.zipWith_map]
      congr 2
      exact List.zipWith_self
  · rfl

end Reading

variable [One α] [Add α] [Sub α] [Mul α] [Neg α] [BEq α]

/-- What `v` and `other` answer, and what is left of a vector that they or their arguments change,
against the forms element by element on `v'` and `other'`. -/
structure AnswersAlike (v v' other other' : Vec α) : Prop where
  toEntries : v.toEntries = v'.elements
  toDense : v.toDense = v'.denseOfElements
  subVector : ∀ start length, v.subVector start length = v'.subVectorElements start length
  sum : v.sum = v'.sumElements
  dot : v.dot other = v'.dotElements other'
  addScalar : ∀ x : α, Match Alike (addScalar x) (addScalarElements x)
  multiplyScalar : ∀ x : α, Match Alike (multiplyScalar x) (multiplyScalarElements x)
  addAssign : Match Alike (addAssign other) (combineElements (· + ·) other')
  subtractAssign : Match Alike (subtractAssign other) (combineElements (· - ·) other')
  addInto : Match Alike (v.addInto other) (combineElementsInto (· + ·) v' other')
  subtractInto : Match Alike (v.subtractInto other) (combineElementsInto (· - ·) v' other')
  pointwiseMultiplyInto :
    Match Alike (v.pointwiseMultiplyInto other) (combineElementsInto (· * ·) v' other')
  clear : Match Alike (clear : Change α Unit) clearElements
  copyTo : Match Alike v.copyTo v'.copyElementsTo
  copyRangeTo : ∀ offset destination length,
    Match Alike (v.copyRangeTo offset destination length)
      (v'.copyRangeElementsTo offset destination length)
  setValues : ∀ values : List α, Match Alike (setValues values) (setValuesElements values)

theorem answersAlike (h : v.Alike v') (h' : other.Alike other') :
    AnswersAlike v v' other other' where
  toEntries := toEntries_eq h
  toDense := toDense_eq h
  subVector := subVector_eq h
  sum := sum_eq h
  dot := dot_eq h h'
  addScalar := match_addScalar
  multiplyScalar := match_multiplyScalar
  addAssign := match_combine (· + ·) h'
  subtractAssign := match_combine (· - ·) h'
  addInto := match_combineInto (· + ·) h h'
  subtractInto := match_combineInto (· - ·) h h'
  pointwiseMultiplyInto := match_combineInto (· * ·) h h'
  clear := match_clear
  copyTo := match_copyTo h
  copyRangeTo := match_copyRangeTo h
  setValues := match_setValues

end Almanac.Vec
