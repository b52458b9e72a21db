import Almanac.Decimal.Text
import Almanac.Series.Basic

/-! # Listing of a series -/
namespace Almanac.Series
set_option autoImplicit false

def text (s : Series Float) : String :=
  String.join (s.points.map fun p => p.date.text ++ "\t" ++ Decimal.text none p.value ++ "\n")

end Almanac.Series
