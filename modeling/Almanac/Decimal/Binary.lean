/-! # Doubles as exact binary fractions

A finite double is `± m · 2 ^ q` with natural `m`; the exact value of every finite double is read
off its word.
-/
namespace Almanac.Decimal
set_option autoImplicit false

inductive Double where
  | nan
  | infinite (negative : Bool)
  | finite (negative : Bool) (m : Nat) (q : Int)
deriving DecidableEq, Repr

/-- The least exponent `q`, that of the subnormal doubles. -/
def leastExponent : Int := -1074

/-- The least `m` of a normal double. -/
def leastNormal : Nat := .pow 2 52

def Double.ofBits (word : UInt64) : Double :=
  let n := word.toNat
  let negative := Nat.pow 2 63 ≤ n
  let field := n / leastNormal % Nat.pow 2 11
  let fraction := n % leastNormal
  if field = 2047 then
    if fraction = 0 then .infinite negative else .nan
  else if field = 0 then .finite negative fraction leastExponent
  else .finite negative (leastNormal + fraction) (leastExponent + field - 1)

def Double.ofFloat (x : Float) : Double := .ofBits x.toBits

/-- A scale on which multiples of `10 ^ g` and of `2 ^ q` are both whole: `c · 10 ^ g` compares with
`n · 2 ^ q` as `c * tens` with `n * twos`. -/
structure CommonScale where
  tens : Nat
  twos : Nat

def CommonScale.of (g q : Int) : CommonScale where
  tens := Nat.pow 10 g.toNat * Nat.pow 2 (-q).toNat
  twos := Nat.pow 2 q.toNat * Nat.pow 10 (-g).toNat

/-- `10 ^ g ≤ m · 2 ^ q`. -/
def reachesPower (g : Int) (m : Nat) (q : Int) : Bool :=
  let s := CommonScale.of g q
  s.tens ≤ m * s.twos

/-- A power of ten near `m · 2 ^ q`, from the number of binary digits. -/
def nearbyPower (m : Nat) (q : Int) : Int :=
  (((m.log2 : Int) + q) * 30103).fdiv 100000

/-- The exponent of the leading decimal digit of `m · 2 ^ q` for positive `m`. -/
def leadingPower (m : Nat) (q : Int) : Int :=
  let g := nearbyPower m q
  if reachesPower (g + 1) m q then g + 1 else if reachesPower g m q then g else g - 1

end Almanac.Decimal
