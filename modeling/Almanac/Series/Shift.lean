import Almanac.Series.Holes

/-! # Shifts

A shift moves the observed values along the observed positions and leaves every hole in its place.
What comes in from beyond an end is a hole.
-/
namespace Almanac.Series
set_option autoImplicit false

variable {α : Type} [Hole α]

/-- A list moved toward its start, or toward its end by a negative amount, at the same length. -/
def displace (values : List α) : Int → List α
  | .ofNat amount =>
    values.drop amount ++ List.replicate (min amount values.length) hole
  | .negSucc amount =>
    List.replicate (min (amount + 1) values.length) hole ++
      values.take (values.length - (amount + 1))

/-- A series without its holes, the values changed as a list, and the holes put back. -/
def onObserved (f : List α → List α) (s : Series α) : Series α :=
  let holes := Holes.ofGroup [s]
  let base := holes.compact s
  holes.restore (base.derived (List.zipWith Point.mk base.dates (f base.values)))

/-- Moves the observed values toward the start, or toward the end by a negative amount. -/
def shift (amount : Int) (s : Series α) : Series α :=
  s.onObserved fun values => displace values amount

def observedCount (s : Series α) : Nat := (s.values.filter fun x => !isHole x).length

/-- Whether an offset has a signed word of 64 bits. -/
def isOffset (offset : Int) : Bool :=
  let half := Nat.pow 2 63
  offset < half && -half ≤ offset

/-- Faults when the place that some value is read from has no signed word. -/
def shiftLeft (s : Series α) (amount : Int) : Checked (Series α) :=
  if (List.range s.observedCount).all fun position => isOffset (position + amount) then
    .ok (s.shift amount)
  else fault

/-- Faults also when the negated amount has no signed word. -/
def shiftRight (s : Series α) (amount : Int) : Checked (Series α) :=
  if isOffset (-amount) then s.shiftLeft (-amount) else fault

end Almanac.Series
