/-! # Scalars

The operations that vectors, statistics and series ask of their numbers, without laws of arithmetic.
Sums and products come from the standard classes; the classes here add what these lack. `Float` is
the scalar that runs, and `Float` sums start at negative zero, its neutral element.
-/
namespace Almanac
set_option autoImplicit false

class Magnitude (α : Type) where
  abs : α → α

class Elementary (α : Type) where
  sqrt : α → α
  log : α → α
  pow : α → α → α

/-- Scalars of which some, the holes, mark a missing observation. -/
class Hole (α : Type) where
  hole : α
  isHole : α → Bool
  isFinite : α → Bool
  isHole_hole : isHole hole = true
  isFinite_hole : isFinite hole = false

class Bits (α : Type) where
  bits : α → UInt64

/-- A total order of all scalars, holes included. -/
class Ranked (α : Type) where
  ranksUpTo : α → α → Bool

export Magnitude (abs)
export Elementary (sqrt log pow)
export Hole (hole isHole isFinite isHole_hole isFinite_hole)
export Bits (bits)
export Ranked (ranksUpTo)

section
variable {α : Type}

/-- The sum in order, from negative zero. -/
def total [Zero α] [Neg α] [Add α] (xs : List α) : α :=
  xs.foldl (· + ·) (-0)

/-- The larger of two scalars; a hole gives way to the other. -/
def larger [LT α] [DecidableLT α] [Hole α] (a b : α) : α :=
  if isHole a then b else if a < b then b else a

/-- The smaller of two scalars; a hole gives way to the other. -/
def smaller [LT α] [DecidableLT α] [Hole α] (a b : α) : α :=
  if isHole a then b else if b < a then b else a

def flag [Zero α] [One α] (test : Bool) : α := if test then 1 else 0

end

/-- The order key of a double: negative words have their magnitude bits turned over. -/
def rankKey (word : UInt64) : Int :=
  let half := Nat.pow 2 63
  if word.toNat < half then word.toNat else half - 1 - (word.toNat : Int)

instance natCastFloat : NatCast Float := ⟨Float.ofNat⟩

instance intCastFloat : IntCast Float := ⟨Float.ofInt⟩

instance : Magnitude Float := ⟨Float.abs⟩

instance : Elementary Float := ⟨Float.sqrt, Float.log, Float.pow⟩

instance : Hole Float := ⟨0 / 0, Float.isNaN, Float.isFinite, by decide, by decide⟩

instance : Bits Float := ⟨Float.toBits⟩

instance : Ranked Float := ⟨fun a b => rankKey a.toBits ≤ rankKey b.toBits⟩

end Almanac
