import Almanac.Decimal.Binary

/-! # The shortest decimal that reads back

Of the decimals that round to a double, the fewest digits win, then the nearer one; of two equally
near ones the larger. A grid that meets the rounding interval meets it in one of the two neighbours
of the double, so only these are tried.
-/
namespace Almanac.Decimal
set_option autoImplicit false

/-- The number `coefficient · 10 ^ exponent`. -/
structure Digits where
  coefficient : Nat
  exponent : Int
deriving DecidableEq, Repr

/-- The numerators, over `2 ^ (q - 2)`, between which decimals round to `m · 2 ^ q`. Below a power
of two doubles lie twice as close. -/
def roundingInterval (m : Nat) (q : Int) : Nat × Nat :=
  (if m = leastNormal ∧ leastExponent < q then 4 * m - 1 else 4 * m - 2, 4 * m + 2)

/-- The decimal nearest to `m · 2 ^ q` among the multiples of `10 ^ g` that round to it. -/
def onGrid (m : Nat) (q g : Int) : Option Nat :=
  let s := CommonScale.of g (q - 2)
  let (low, high) := roundingInterval m q
  let value := 4 * m * s.twos
  let inside (c : Nat) : Bool :=
    if m % 2 = 0 then low * s.twos ≤ c * s.tens ∧ c * s.tens ≤ high * s.twos
    else low * s.twos < c * s.tens ∧ c * s.tens < high * s.twos
  let below := value / s.tens
  match inside below, inside (below + 1) with
  | true, true =>
    if value - below * s.tens < (below + 1) * s.tens - value then some below else some (below + 1)
  | true, false => some below
  | false, true => some (below + 1)
  | false, false => none

/-- Tries the grids `10 ^ g`, `10 ^ (g - 1)`, ... -/
def firstGrid (m : Nat) (q : Int) : Nat → Int → Digits
  | 0, _ => ⟨m, q⟩
  | tries + 1, g =>
    match onGrid m q g with
    | some c => ⟨c, g⟩
    | none => firstGrid m q tries (g - 1)

/-- Seventeen digits always suffice; the search starts above the leading digit. -/
def shortest (m : Nat) (q : Int) : Digits :=
  if m = 0 then ⟨0, 0⟩ else firstGrid m q 24 (nearbyPower m q + 2)

end Almanac.Decimal
