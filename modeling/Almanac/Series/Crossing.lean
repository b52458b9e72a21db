import Almanac.Series.Elementwise
import Almanac.Series.Shift

/-! # Directions and crossings

A direction compares an observation with the one before it, holes being passed over. A crossing
compares two series, or a series and a level, at an observation and at the one before it.
-/
namespace Almanac.Series
set_option autoImplicit false

variable {α : Type} [Hole α] [Zero α] [One α] [LT α] [DecidableLT α]

def isRising (s : Series α) : Series α := (s.shift (-1)).isLess (.series s)

def isFalling (s : Series α) : Series α := (s.shift (-1)).isGreater (.series s)

/-- A test of the two sides before and of the two sides now. -/
structure Crossing (α : Type) where
  test : (before level now nowLevel : α) → Bool

namespace Crossing
variable [LE α] [DecidableLE α]

/-- From at or below the other side to above it. -/
def above : Crossing α := ⟨fun p q x y => p ≤ q && y < x⟩

/-- From at or above the other side to below it. -/
def below : Crossing α := ⟨fun p q x y => q ≤ p && x < y⟩

def anyway : Crossing α := ⟨fun p q x y => below.test p q x y || above.test p q x y⟩

end Crossing

/-- One where a series crosses its operand, and a hole where the comparison lacks a side. -/
def crossing (rule : Crossing α) (s : Series α) : Operand α → Series α
  | .series other =>
    let before := s.shift (-1)
    let otherBefore := other.shift (-1)
    let holes := Holes.ofGroup [before, otherBefore, s, other]
    let base := holes.compact before
    let flags := List.zipWith (fun p x => flag (rule.test p.1 p.2 x.1 x.2))
      (List.zip base.values (holes.compact otherBefore).values)
      (List.zip (holes.compact s).values (holes.compact other).values)
    holes.restore (base.derived (List.zipWith Point.mk base.dates flags))
  | .value level =>
    let before := s.shift (-1)
    let holes := Holes.ofGroup [before, s]
    let base := holes.compact before
    let flags := List.zipWith (fun p x => flag (rule.test p level x level))
      base.values (holes.compact s).values
    holes.restore (base.derived (List.zipWith Point.mk base.dates flags))

end Almanac.Series
