import Almanac.Vec.Arithmetic

/-! # Copies, windows and whole-vector writes

What moves elements without computing: clearing, copies of a whole vector or of a window, and
vectors cut out of another. Windows are checked against both ends before the first write.
-/
namespace Almanac.Vec
set_option autoImplicit false
open Linear

variable {α : Type} [Zero α]

def clear : Change α Unit := Edit.write fun v =>
  match v.storage with
  | .dense => v.mapBlock fun _ => 0
  | .scattered => v.sweep fun _ _ => 0

def copyElementsTo (v : Vec α) : Change α Unit := do
  let target ← Edit.current
  Edit.require (checkResultCount v.count target.count)
  Edit.write fun target => target.writeFrom 0 v.count v.entry

/-- The target is the state. -/
def copyTo (v : Vec α) : Change α Unit := do
  match v.storage with
  | .scattered => v.copyElementsTo
  | .dense =>
    let target ← Edit.current
    Edit.require (checkResultCount v.count target.count)
    match target.storage with
    | .dense => Edit.write fun target => target.withBlock v
    | .scattered => v.copyElementsTo

/-- The block of `v` with the part from `start` on replaced by `part`. -/
def spliceBlock (v : Vec α) (start : Nat) (part : Array α) : Vec α :=
  if h : start + part.size ≤ v.entries.size then
    { v with
      entries := v.entries.extract 0 start ++ part ++
        v.entries.extract (start + part.size) v.entries.size
      nonempty := by
        have := v.nonempty
        simp only [Array.size_append, Array.size_extract]
        omega }
  else v

def copyRangeElementsTo (v : Vec α) (offset destination length : Nat) : Change α Unit := do
  Edit.require (checkWindow "offset" offset length v.count)
  let target ← Edit.current
  Edit.require (checkWindow "dest_offset" destination length target.count)
  Edit.write fun target => target.writeFrom destination length fun i => v.entry (offset + i)

def copyRangeTo (v : Vec α) (offset destination length : Nat) : Change α Unit := do
  match v.storage with
  | .scattered => v.copyRangeElementsTo offset destination length
  | .dense =>
    Edit.require (checkWindow "offset" offset length v.count)
    let target ← Edit.current
    Edit.require (checkWindow "dest_offset" destination length target.count)
    match target.storage with
    | .dense => Edit.write fun target =>
        target.spliceBlock destination (v.entries.extract offset (offset + length))
    | .scattered => v.copyRangeElementsTo offset destination length

def setValues (values : List α) : Change α Unit := do
  let v ← Edit.current
  Edit.require (checkLength "values" v.count values.length)
  Edit.write fun v =>
    match v.storage with
    | .dense => v.spliceBlock 0 values.toArray
    | .scattered => v.writeFrom 0 values.length fun i => values.getD i 0

def windowElements (v : Vec α) (start length : Nat) : List α :=
  (List.range length).map fun i => v.entry (start + i)

def window (v : Vec α) (start length : Nat) : List α :=
  match v.storage with
  | .dense => (v.entries.extract start (start + length)).toList
  | .scattered => v.windowElements start length

def subVector (v : Vec α) (start length : Nat) : Checked (Vec α) := do
  checkWindow "index" start length v.count
  ofList? (v.window start length)

def indexedRange (v : Vec α) (start length : Nat) : Checked (List (Nat × α)) := do
  checkWindow "index" start length v.count
  return (List.range length).map fun i => (start + i, v.entry (start + i))

def reverse (v : Vec α) : Vec α :=
  { v with entries := v.entries.reverse, nonempty := by simpa using v.nonempty }

end Almanac.Vec
