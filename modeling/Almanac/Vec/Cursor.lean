import Almanac.Vec.Basic

/-! # Walking a vector from both ends

A cursor hands out the elements between two positions that move towards each other.
-/
namespace Almanac.Vec
set_option autoImplicit false

structure Cursor (α : Type) where
  source : Vec α
  front : Nat
  back : Nat

variable {α : Type} [Zero α]

def cursor (v : Vec α) : Cursor α := ⟨v, 0, v.count⟩

namespace Cursor

def remaining (c : Cursor α) : Nat := c.back - c.front

def next (c : Cursor α) : Option α × Cursor α :=
  if c.back ≤ c.front then (none, c)
  else (some (c.source.entry c.front), { c with front := c.front + 1 })

def nextBack (c : Cursor α) : Option α × Cursor α :=
  if c.back ≤ c.front then (none, c)
  else (some (c.source.entry (c.back - 1)), { c with back := c.back - 1 })

inductive Side where
  | front
  | back
deriving DecidableEq, Repr

def take (c : Cursor α) : Side → Option α × Cursor α
  | .front => c.next
  | .back => c.nextBack

/-- What each step hands out, with the number of elements left after it. -/
def walk (c : Cursor α) : List Side → List (Option α × Nat)
  | [] => []
  | side :: rest =>
    let (item, c) := c.take side
    (item, c.remaining) :: c.walk rest

end Cursor
end Almanac.Vec
