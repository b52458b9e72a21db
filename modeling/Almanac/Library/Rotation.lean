import Almanac.Factor.Singular

/-! # Singular values by rotations

The singular values that programs run with. Pairs of columns are rotated until all columns are
orthogonal; then their lengths are the singular values. The block is scaled by its largest entry
first, so that no square overflows and the longest column has a length of one at least. A rotation
of dependent columns leaves one of rounding errors only, which points nowhere in particular; such a
column is cleared.
-/
namespace Almanac.Library.Rotation
set_option autoImplicit false

abbrev Column := Array Float

def inner (a b : Column) : Float := (a.zipWith (· * ·) b).foldl (· + ·) 0

/-- The rotation that makes two columns orthogonal. -/
def rotate (a b : Column) : Column × Column :=
  let gamma := inner a b
  let zeta := (inner b b - inner a a) / (2 * gamma)
  let root := Float.sqrt (1 + zeta * zeta)
  let t := if zeta < 0 then -1 / (root - zeta) else 1 / (root + zeta)
  let c := 1 / Float.sqrt (1 + t * t)
  let s := c * t
  (a.zipWith (fun x y => c * x - s * y) b, a.zipWith (fun x y => s * x + c * y) b)

def length (a : Column) : Float := Float.sqrt (inner a a)

/-- The part of a whole that rounding errors make up at most. -/
def tolerance : Float := 1e-14

/-- Two columns are as orthogonal as doubles can tell. -/
def orthogonal (a b : Column) : Bool := (inner a b).abs ≤ tolerance * (length a * length b)

/-- A column of a scaled matrix holds rounding errors only. -/
def isNoise (a : Column) : Bool := length a ≤ tolerance

def withoutNoise (a : Column) : Column := if isNoise a then a.map fun _ => 0 else a

/-- A pair of columns made orthogonal: noise is cleared, and other columns are rotated. -/
def separate (a b : Column) : Column × Column :=
  if isNoise a || isNoise b then (withoutNoise a, withoutNoise b) else rotate a b

/-- Makes one column orthogonal to the others, one after the other; says whether all were. -/
def settle (a : Column) : List Column → Column × List Column × Bool
  | [] => (a, [], true)
  | b :: rest =>
    let done := orthogonal a b
    let (a, b) := if done then (a, b) else separate a b
    let (a, rest, settled) := settle a rest
    (a, b :: rest, done && settled)

/-- One pass over all pairs of columns, for as many columns as `count`. -/
def pass : Nat → List Column → List Column × Bool
  | count + 1, a :: rest =>
    let (a, rest, settled) := settle a rest
    let (rest, others) := pass count rest
    (a :: rest, settled && others)
  | _, columns => (columns, true)

/-- Passes until a whole one finds all columns orthogonal. -/
def passes : Nat → List Column → Option (List Column)
  | 0, _ => none
  | tries + 1, columns =>
    let (columns, settled) := pass columns.length columns
    if settled then some columns else passes tries columns

/-- The columns of a block, or its rows if there are fewer of them. -/
def columnsOf (M : Block Float) : List Column :=
  let column (n : Nat) (f : Nat → Float) : Column := ((List.range n).map f).toArray
  if M.columns ≤ M.rows then
    (List.range M.columns).map fun c => column M.rows fun r => M.entry r c
  else (List.range M.rows).map fun r => column M.columns fun c => M.entry r c

def largestMagnitude (columns : List Column) : Float :=
  columns.foldl (fun top column => column.foldl (fun top x => max top x.abs) top) 0

def values? (M : Block Float) : Option (List Float) :=
  let columns := columnsOf M
  let scale := largestMagnitude columns
  if scale == 0 then some (columns.map fun _ => 0)
  else do
    let settled ← passes 100 (columns.map fun column => column.map (· / scale))
    return settled.map fun column => length column * scale

instance : SingularMethod := ⟨values?⟩

end Almanac.Library.Rotation
