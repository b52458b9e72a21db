import Almanac.Decimal.Shortest
import Almanac.Decimal.Rounding
import Almanac.Outcome

/-! # Decimal text of a double

Positional notation without an exponent: the shortest digits that read back, or a fixed number of
places. The sign of zero is written.
-/
namespace Almanac.Decimal
set_option autoImplicit false

def zeros (n : Nat) : List Char := List.replicate n '0'

/-- Digits with a point before the last `places` of them, and a zero in front where none is left. -/
def withPoint (places : Nat) (digits : List Char) : List Char :=
  if places = 0 then digits
  else
    let padded := zeros (places + 1 - digits.length) ++ digits
    padded.take (padded.length - places) ++ '.' :: padded.drop (padded.length - places)

/-- `c · 10 ^ g` in positional notation; a negative `g` gives that many places. -/
def positional (c : Nat) (g : Int) : List Char :=
  let digits := Nat.toDigits 10 c
  if c = 0 then withPoint (-g).toNat digits
  else withPoint (-g).toNat (digits ++ zeros g.toNat)

/-- `m · 2 ^ q` with a number of places. The value has no more than `-q` of them by itself, so zeros
fill the rest. -/
def fixed (places m : Nat) (q : Int) : List Char :=
  let exact := min places (-q).toNat
  withPoint places (Nat.toDigits 10 (roundToPower m q (-exact)) ++ zeros (places - exact))

/-- A number of places is a word of 16 bits. -/
def placesBound : Nat := 65536

def checkPlaces {ε : Type} (places : Option Nat) : Outcome ε Unit :=
  if places.all fun p => p < placesBound then .ok () else fault

/-- A double with the fewest digits, or with a fixed number of places. -/
def text (places : Option Nat) (x : Float) : String :=
  match Double.ofFloat x with
  | .nan => "NaN"
  | .infinite negative => if negative then "-inf" else "inf"
  | .finite negative m q =>
    let body :=
      match places with
      | none => let d := shortest m q; positional d.coefficient d.exponent
      | some p => fixed p m q
    String.ofList (if negative then '-' :: body else body)

end Almanac.Decimal
