import Almanac.Statistics.Moments

/-! # Paired and path statistics

Covariance, the agreement of the directions of two paths, and sums of squares and products.
-/
namespace Almanac.Statistics
set_option autoImplicit false

variable {α : Type} [Zero α] [One α] [Add α] [Sub α] [Mul α] [Neg α] [Div α] [NatCast α]

def checkPairs (xs ys : List α) : Result Unit := do
  checkPaired xs ys
  checkAtLeast 2 xs.length

def covariance (xs ys : List α) : Result α := do
  checkPairs xs ys
  let mx ← mean xs
  let my ← mean ys
  return total (List.zipWith (fun x y => (x - mx) * (y - my)) xs ys) / ((xs.length : α) - 1)

def coQuadraticVariation (xs ys : List α) : Result α := do
  checkPairs xs ys
  return total (List.zipWith (· * ·) xs ys) / ((xs.length : α) - 1)

def quadraticVariation [Elementary α] (xs : List α) : Result α := do
  checkAtLeast 1 xs.length
  return sqrt (total (xs.map fun x => x * x) / (xs.length : α))

section Directions
variable [LT α] [DecidableLT α]

inductive Direction where
  | down
  | level
  | up
deriving DecidableEq, Repr

/-- The direction of a difference; what is neither positive nor negative is level. -/
def Direction.of (x : α) : Direction :=
  if 0 < x then .up else if x < 0 then .down else .level

def directions (xs : List α) : List Direction :=
  List.zipWith (fun x previous => Direction.of (x - previous)) xs.tail xs

/-- Steps of equal direction less the others, as a part of all steps. -/
def kendallTau (xs ys : List α) : Result α := do
  checkPairs xs ys
  let balance := (List.zip (directions xs) (directions ys)).foldl
    (fun balance p => if p.1 = p.2 then balance + 1 else balance - 1) (0 : α)
  return balance / ((xs.length - 1 : Nat) : α)

end Directions
end Almanac.Statistics
