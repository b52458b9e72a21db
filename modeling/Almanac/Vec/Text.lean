import Almanac.Vec.Basic
import Almanac.Decimal.Text

/-! # Text of a vector -/
namespace Almanac.Vec
set_option autoImplicit false
open Linear

/-- The elements in brackets, with the fewest digits or a fixed number of places. -/
def text (places : Option Nat) (v : Vec Float) : Checked String := do
  Decimal.checkPlaces places
  return "[" ++ ", ".intercalate (v.toList.map (Decimal.text places)) ++ "]"

end Almanac.Vec
