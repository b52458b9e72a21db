import Almanac.Mat.Basic
import Almanac.Decimal.Text

/-! # Text of a matrix -/
namespace Almanac.Mat
set_option autoImplicit false
open Linear

def text (places : Option Nat) (A : Mat Float) : Checked String := do
  Decimal.checkPlaces places
  return "\n".intercalate (A.toRows.map fun row => "\t".intercalate (row.map (Decimal.text places)))

end Almanac.Mat
