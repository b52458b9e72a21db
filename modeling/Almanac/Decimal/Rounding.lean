import Almanac.Decimal.Binary

/-! # Exact decimal rounding

Rounding of the exact value of a double to a number of places or of significant digits; a half goes
to the even neighbour.
-/
namespace Almanac.Decimal
set_option autoImplicit false

/-- The whole number nearest to `n / d`; a half goes to the even one. -/
def roundQuotient (n d : Nat) : Nat :=
  let below := n / d
  let rest := 2 * (n % d)
  if rest < d then below
  else if d < rest then below + 1
  else if below % 2 = 0 then below else below + 1

/-- The multiple of `10 ^ g` nearest to `m · 2 ^ q`. -/
def roundToPower (m : Nat) (q g : Int) : Nat :=
  let s := CommonScale.of g q
  roundQuotient (m * s.twos) s.tens

/-- The double nearest to `± c · 10 ^ g`. -/
def doubleOf (negative : Bool) (c : Nat) (g : Int) : Float :=
  let x := Float.ofScientific c (g < 0) g.natAbs
  if negative then -x else x

/-- A finite double rounded to a number of significant decimal digits. -/
def roundSignificant (places : Nat) (x : Float) : Float :=
  match Double.ofFloat x with
  | .finite negative m q =>
    if m = 0 then x
    else
      let g := leadingPower m q - (places - 1)
      doubleOf negative (roundToPower m q g) g
  | _ => x

/-- Below this part of the largest entry an entry counts as zero. -/
def negligible : Float := 1e-12

/-- The entries of one result to nine significant digits, without those that are only noise beside
the largest finite entry. -/
def reported (xs : List Float) : List Float :=
  let top := (xs.filter Float.isFinite).foldl (fun top x => if top < x.abs then x.abs else top) 0
  xs.map fun x =>
    if x.isFinite then
      if x.abs ≤ top * negligible then 0 else roundSignificant 9 x
    else x

end Almanac.Decimal
