import Almanac.Vec.Basic

/-! # Elementwise vector arithmetic

Sums, differences, products and multiples, in place or into a result of the same length. When all
participants are dense the blocks are combined whole, and otherwise element by element; the lengths
are checked before anything is written.
-/
namespace Almanac.Vec
set_option autoImplicit false
open Linear

variable {α : Type}

section Block

def mapBlock (f : α → α) (v : Vec α) : Vec α :=
  { v with entries := v.entries.map f, nonempty := by simpa using v.nonempty }

theorem zipWith_nonempty (op : α → α → α) (v other : Vec α) :
    0 < (v.entries.zipWith op other.entries).size := by
  rw [Array.size_zipWith]
  exact Nat.lt_min.mpr ⟨v.nonempty, other.nonempty⟩

def zipBlock (op : α → α → α) (v other : Vec α) : Vec α :=
  { v with entries := v.entries.zipWith op other.entries, nonempty := zipWith_nonempty op v other }

def withBlock (v source : Vec α) : Vec α :=
  { v with entries := source.entries, nonempty := source.nonempty }

end Block

variable [Zero α]

section Combination
variable (op : α → α → α)

def combineElements (other : Vec α) : Change α Unit := do
  let v ← Edit.current
  Edit.require (checkCount "other" v.count other.count)
  Edit.write fun v => v.sweep fun w i => op (w.entry i) (other.entry i)

def combine (other : Vec α) : Change α Unit := do
  let v ← Edit.current
  match v.storage, other.storage with
  | .dense, .dense =>
    Edit.require (checkCount "other" v.count other.count)
    Edit.write fun v => v.zipBlock op other
  | _, _ => combineElements op other

/-- The result is the state. -/
def combineElementsInto (v other : Vec α) : Change α Unit := do
  Edit.require (checkCount "other" v.count other.count)
  let result ← Edit.current
  Edit.require (checkResultCount v.count result.count)
  Edit.write fun result => result.writeFrom 0 v.count fun i => op (v.entry i) (other.entry i)

def combineInto (v other : Vec α) : Change α Unit := do
  match v.storage with
  | .scattered => combineElementsInto op v other
  | .dense =>
    Edit.require (checkCount "other" v.count other.count)
    let result ← Edit.current
    Edit.require (checkResultCount v.count result.count)
    match other.storage, result.storage with
    | .dense, .dense => Edit.write fun result => result.withBlock (v.zipBlock op other)
    | _, _ => combineElementsInto op v other

end Combination

section Mapping
variable (f : α → α)

def mapElements (v : Vec α) : Vec α := v.sweep fun w i => f (w.entry i)

def mapEntries (v : Vec α) : Vec α :=
  match v.storage with
  | .dense => v.mapBlock f
  | .scattered => v.mapElements f

def mapInto (v : Vec α) : Change α Unit := do
  let result ← Edit.current
  Edit.require (checkResultCount v.count result.count)
  Edit.write fun result => result.writeFrom 0 v.count fun i => f (v.entry i)

end Mapping

section Sum
variable [Add α] [Sub α] [Mul α] [Neg α]

def addAssign (other : Vec α) : Change α Unit := combine (· + ·) other

def subtractAssign (other : Vec α) : Change α Unit := combine (· - ·) other

/-- Adds a multiple of another vector; always element by element. -/
def addScaled (scale : α) (other : Vec α) : Change α Unit :=
  combineElements (fun a b => a + scale * b) other

def addInto (v other : Vec α) : Change α Unit := combineInto (· + ·) v other

def subtractInto (v other : Vec α) : Change α Unit := combineInto (· - ·) v other

def addScaledInto (v : Vec α) (scale : α) (other : Vec α) : Change α Unit :=
  combineElementsInto (fun a b => a + scale * b) v other

def addScalar (x : α) : Change α Unit := Edit.write fun v => v.mapEntries (· + x)

def subtractScalar (x : α) : Change α Unit := addScalar (-x)

def addScalarInto (v : Vec α) (x : α) : Change α Unit := v.mapInto (· + x)

def subtractScalarInto (v : Vec α) (x : α) : Change α Unit := v.addScalarInto (-x)

end Sum

section Product
variable [Mul α] [Div α] [One α] [Neg α] [BEq α]

def multiplyScalar (x : α) : Change α Unit :=
  Edit.write fun v => if x == 1 then v else v.mapEntries (· * x)

def divideScalar (x : α) : Change α Unit := multiplyScalar (1 / x)

def negate : Change α Unit := multiplyScalar (-1)

def multiplyScalarInto (v : Vec α) (x : α) : Change α Unit := v.mapInto (· * x)

def divideScalarInto (v : Vec α) (x : α) : Change α Unit := v.multiplyScalarInto (1 / x)

def negateInto (v : Vec α) : Change α Unit := v.multiplyScalarInto (-1)

def pointwiseMultiplyInto (v other : Vec α) : Change α Unit := combineInto (· * ·) v other

def pointwiseMultiply (v other : Vec α) : Checked (Vec α) := do
  Edit.result (← zeros? v.count) (v.pointwiseMultiplyInto other)

end Product

section Dot
variable [Add α] [Mul α] [Neg α]

def dotElements (v other : Vec α) : Checked α := do
  checkCount "other" v.count other.count
  return total ((List.range v.count).map fun i => v.entry i * other.entry i)

def dot (v other : Vec α) : Checked α := do
  match v.storage, other.storage with
  | .dense, .dense =>
    checkCount "other" v.count other.count
    return total (List.zipWith (· * ·) v.toList other.toList)
  | _, _ => v.dotElements other

end Dot
end Almanac.Vec
