import Almanac.Series.Basic

/-! # Elementwise operations

A hole in an operand is a hole in the result, and the operation is not applied there. Two series
meet position by position on the calendar of the longer one; where the shorter one has ended there
is a hole, and with an empty one the result is empty.
-/
namespace Almanac.Series
set_option autoImplicit false

/-- The right side of an operation: a series, or one value at every position. -/
inductive Operand (α : Type) where
  | series (other : Series α)
  | value (x : α)

variable {α : Type} [Hole α]

def mapValues (f : α → α) (s : Series α) : Series α :=
  s.derived (s.points.map fun p => { p with value := f p.value })

def mapObserved (f : α → α) : Series α → Series α :=
  mapValues fun x => if isHole x then x else f x

/-- The longer series, the left one of two equally long ones. -/
def longer (s t : Series α) : Series α := if s.count < t.count then t else s

/-- The value of an operation, or a hole where an operand has one. -/
def unlessHole (f : α → α → α) (x y : α) : α := if isHole x || isHole y then hole else f x y

def combine (f : α → α → α) (s t : Series α) : Series α :=
  if min s.count t.count = 0 then empty s.options
  else
    let values := List.zipWith (unlessHole f) s.values t.values
    let dates := (s.longer t).dates
    s.derived (List.zipWith Point.mk dates
      (values ++ List.replicate (dates.length - values.length) hole))

def apply (f : α → α → α) (s : Series α) : Operand α → Series α
  | .series other => s.combine f other
  | .value x => s.mapObserved fun y => f y x

section Arithmetic

instance [Add α] : Add (Series α) := ⟨combine (· + ·)⟩
instance [Sub α] : Sub (Series α) := ⟨combine (· - ·)⟩
instance [Mul α] : Mul (Series α) := ⟨combine (· * ·)⟩
instance [Div α] : Div (Series α) := ⟨combine (· / ·)⟩
instance [Neg α] : Neg (Series α) := ⟨mapObserved (- ·)⟩

instance [Add α] : HAdd (Series α) α (Series α) := ⟨fun s x => s.mapObserved (· + x)⟩
instance [Sub α] : HSub (Series α) α (Series α) := ⟨fun s x => s.mapObserved (· - x)⟩
instance [Mul α] : HMul (Series α) α (Series α) := ⟨fun s x => s.mapObserved (· * x)⟩
instance [Div α] : HDiv (Series α) α (Series α) := ⟨fun s x => s.mapObserved (· / x)⟩

instance [Add α] : HAdd α (Series α) (Series α) := ⟨fun x s => s.mapObserved (x + ·)⟩
instance [Sub α] : HSub α (Series α) (Series α) := ⟨fun x s => s.mapObserved (x - ·)⟩
instance [Mul α] : HMul α (Series α) (Series α) := ⟨fun x s => s.mapObserved (x * ·)⟩
instance [Div α] : HDiv α (Series α) (Series α) := ⟨fun x s => s.mapObserved (x / ·)⟩

def magnitude [Magnitude α] : Series α → Series α := mapObserved abs

end Arithmetic

section Selection
variable [LT α] [DecidableLT α]

def higher (s : Series α) (other : Operand α) : Series α := s.apply larger other

def lower (s : Series α) (other : Operand α) : Series α := s.apply smaller other

def withCeiling (s : Series α) (x : α) : Series α := s.lower (.value x)

def withFloor (s : Series α) (x : α) : Series α := s.higher (.value x)

end Selection

section Flags
variable [Zero α] [One α]

/-- One where a test of two values holds and zero where it does not. -/
def compare (test : α → α → Bool) (s : Series α) (other : Operand α) : Series α :=
  s.apply (fun x y => flag (test x y)) other

section Equality
variable [BEq α]

/-- Every value but zero counts as true. -/
def both (s : Series α) (other : Operand α) : Series α :=
  s.compare (fun x y => x != 0 && y != 0) other

def either (s : Series α) (other : Operand α) : Series α :=
  s.compare (fun x y => x != 0 || y != 0) other

def isEqual (s : Series α) (other : Operand α) : Series α := s.compare (· == ·) other

def isNotEqual (s : Series α) (other : Operand α) : Series α := s.compare (· != ·) other

end Equality

section Order
variable [LT α] [DecidableLT α]

def isGreater (s : Series α) (other : Operand α) : Series α := s.compare (fun x y => y < x) other

def isLess (s : Series α) (other : Operand α) : Series α := s.compare (fun x y => x < y) other

variable [LE α] [DecidableLE α]

def isGreaterEqual (s : Series α) (other : Operand α) : Series α :=
  s.compare (fun x y => y ≤ x) other

def isLessEqual (s : Series α) (other : Operand α) : Series α := s.compare (fun x y => x ≤ y) other

end Order
end Flags
end Almanac.Series
