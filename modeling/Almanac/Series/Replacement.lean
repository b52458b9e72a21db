import Almanac.Series.Elementwise

/-! # Replaced and dropped values -/
namespace Almanac.Series
set_option autoImplicit false

variable {α : Type} [Hole α]

/-- Replaces every value that equals `old`; a hole equals nothing. -/
def replace [BEq α] (s : Series α) (old new : α) : Series α :=
  s.mapObserved fun x => if x == old then new else x

def fillHoles (s : Series α) (x : α) : Series α := s.mapValues fun y => if isHole y then x else y

def finiteOr (instead x : α) : α := if isFinite x then x else instead

def fillNonFinite (s : Series α) (x : α) : Series α := s.mapValues (finiteOr x)

def finitePoints (s : Series α) : List (Point α) := s.points.filter fun p => isFinite p.value

def dropNonFinite (s : Series α) : Series α := s.derived s.finitePoints

end Almanac.Series
