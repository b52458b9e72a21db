import Almanac.Scalar
import Almanac.Linear.Error

/-! # Vectors

A vector is a non-empty sequence of scalars. A dense one keeps them in a block that bulk operations
read and write whole; a scattered one gives access to single elements only. Both hold the same
elements under the same positions.
-/
namespace Almanac
set_option autoImplicit false
open Linear

inductive Storage where
  | dense
  | scattered
deriving DecidableEq, Repr

structure Vec (α : Type) where
  storage : Storage
  entries : Array α
  nonempty : 0 < entries.size

namespace Vec
variable {α : Type}

def count (v : Vec α) : Nat := v.entries.size

def toList (v : Vec α) : List α := v.entries.toList

section Access
variable [Zero α]

/-- The element at a position below the count. -/
def entry (v : Vec α) (i : Nat) : α := v.entries.getD i 0

/-- Writes the element at a position below the count. -/
def put (v : Vec α) (i : Nat) (x : α) : Vec α :=
  { v with entries := v.entries.setIfInBounds i x, nonempty := by simpa using v.nonempty }

def elements (v : Vec α) : List α := (List.range v.count).map v.entry

/-- Writes `f i` at every position `i`, one by one, with the vector so far at hand. -/
def sweep (v : Vec α) (f : Vec α → Nat → α) : Vec α :=
  (List.range v.count).foldl (fun w i => w.put i (f w i)) v

/-- Writes `f i` at the positions `start + i` for `i < length`. -/
def writeFrom (v : Vec α) (start length : Nat) (f : Nat → α) : Vec α :=
  (List.range length).foldl (fun w i => w.put (start + i) (f i)) v

end Access

section Construction

/-- A dense vector of the elements of a list that is known not to be empty. -/
def ofList (xs : List α) (h : 0 < xs.length) : Vec α :=
  ⟨.dense, xs.toArray, by simpa using h⟩

def ofList? (xs : List α) : Checked (Vec α) :=
  if h : 0 < xs.length then .ok (ofList xs h) else refuse (.notPositive "values")

def fill (count : Nat) (h : 0 < count) (x : α) : Vec α :=
  ⟨.dense, Array.replicate count x, by simpa using h⟩

def fill? (count : Nat) (x : α) : Checked (Vec α) :=
  if h : 0 < count then do
    checkAllocation count
    return fill count h x
  else refuse (.notPositive "count")

def zeros? [Zero α] (count : Nat) : Checked (Vec α) := fill? count 0

/-- The same elements with access to single ones only. -/
def scatter (v : Vec α) : Vec α := { v with storage := .scattered }

end Construction

section Conversion
variable [Zero α]

/-- The elements as a list: the block itself, or element by element. -/
def toEntries (v : Vec α) : List α :=
  match v.storage with
  | .dense => v.entries.toList
  | .scattered => v.elements

theorem length_toEntries (v : Vec α) : v.toEntries.length = v.count := by
  unfold toEntries
  split <;> simp [elements, count]

def toDense (v : Vec α) : Vec α :=
  match v.storage with
  | .dense => v
  | .scattered => ofList v.toEntries (by rw [length_toEntries]; exact v.nonempty)

end Conversion

abbrev Change (α β : Type) := Edit Error (Vec α) β

section Access
variable [Zero α]

/-- Access without a check: a position outside the vector is a fault. -/
def valueAt (v : Vec α) (i : Nat) : Checked α := present v.entries[i]?

def lookup (v : Vec α) (i : Nat) : Checked α := do
  checkIndex "index" i v.count
  v.valueAt i

/-- A write without a check: a position outside the vector is a fault. -/
def setValueAt (i : Nat) (x : α) : Change α Unit := do
  let v ← Edit.current
  Edit.require (if i < v.count then .ok () else fault)
  Edit.write fun v => v.put i x

def assign (i : Nat) (x : α) : Change α Unit := do
  let v ← Edit.current
  Edit.require (checkIndex "index" i v.count)
  setValueAt i x

end Access
end Vec
end Almanac
