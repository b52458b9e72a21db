import Almanac.Vec.Arithmetic

/-! # Reductions, norms, equality and hash of a vector

Sums run in the order of the positions. The hash folds the stored words of the first elements, so it
tells apart scalars that compare equal but are stored differently.
-/
namespace Almanac.Vec
set_option autoImplicit false
open Linear

variable {α : Type} [Zero α]

section Sum
variable [Add α] [Neg α]

def sum (v : Vec α) : α :=
  match v.storage with
  | .dense => total v.toList
  | .scattered => total v.elements

def sumMagnitudes [Magnitude α] (v : Vec α) : α := total (v.elements.map abs)

end Sum

section Norm
variable [Add α] [Neg α] [Mul α] [Div α] [One α] [NatCast α] [BEq α] [Magnitude α] [Elementary α]

def norm (p : Nat) (v : Vec α) : Checked α :=
  match p with
  | 0 => refuse (.invalidNorm 0)
  | 1 => .ok v.sumMagnitudes
  | 2 => .ok (sqrt (total (v.elements.map fun x => x * x)))
  | p => .ok (pow (total (v.elements.map fun x => pow (abs x) (p : α))) (1 / (p : α)))

def normalize (p : Nat) (v : Vec α) : Checked (Vec α) := do
  Edit.result v.toDense (divideScalar (← v.norm p))

end Norm

def infinityNorm [LT α] [DecidableLT α] [Hole α] [Magnitude α] (v : Vec α) : α :=
  v.elements.foldl (fun top x => larger top (abs x)) 0

/-- Elementwise equality; a hole differs from every scalar. -/
def equals [BEq α] (v other : Vec α) : Bool :=
  v.count == other.count && (List.range v.count).all fun i => v.entry i == other.entry i

def sameBlock [BEq α] (v other : Vec α) : Bool := v.entries == other.entries

/-- The upper half of the folded words, as a signed integer of 32 bits. -/
def hashOfWords (words : List UInt64) : Int :=
  ((words.foldl (· ^^^ ·) 0 >>> 32).toUInt32.toInt32).toInt

/-- The number of leading elements that the hash takes in. -/
def hashSpan : Nat := 20

def hashCode [Bits α] (v : Vec α) : Int :=
  hashOfWords ((List.range (min v.count hashSpan)).map fun i => bits (v.entry i))

end Almanac.Vec
