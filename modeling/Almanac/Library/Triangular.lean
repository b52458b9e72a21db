import Almanac.Factor.Block

/-! # Triangular systems

Substitution in the rows of a triangle, for every column of a block. The rows are lists: a lower row
holds the entries before the diagonal, an upper row starts with the diagonal.
-/
namespace Almanac
set_option autoImplicit false

namespace Block
variable {α : Type} [Zero α]

def toRows (M : Block α) : List (List α) :=
  (List.range M.rows).map fun r => (List.range M.columns).map fun c => M.entry r c

def column (M : Block α) (c : Nat) : List α := (List.range M.rows).map fun r => M.entry r c

/-- The block of what is made of each column. -/
def mapColumns (M : Block α) (f : List α → List α) : Block α :=
  let columns := ((List.range M.columns).map fun c => (f (M.column c)).toArray).toArray
  .ofFn M.rows M.columns fun r c => (columns.getD c #[]).getD r 0

def identity [One α] (n : Nat) : Block α := .ofFn n n fun r c => if r = c then 1 else 0

end Block

namespace Library
variable {α : Type} [Add α] [Mul α] [Neg α]

/-- Subtracts the products of coefficients and known values, first to last. -/
def reduceBy (x : α) (coefficients values : List α) : α :=
  (List.zip coefficients values).foldl (fun x p => x + -p.2 * p.1) x

/-- Subtracts the products of coefficients and known values, last to first. -/
def reduceBackBy (x : α) (coefficients values : List α) : α :=
  (List.zip coefficients values).foldr (fun p x => x + -p.2 * p.1) x

/-- Solves with ones on the diagonal, from the first row down. -/
def solveUnitLower (rows : List (List α × α)) : List α :=
  rows.foldl (fun solved row => solved ++ [reduceBy row.2 row.1 solved]) []

variable [Div α]

/-- Solves a lower triangle whose rows carry the diagonal at the end. -/
def solveLower (rows : List (List α × α × α)) : List α :=
  rows.foldl (fun solved row => solved ++ [reduceBy row.2.2 row.1 solved / row.2.1]) []

/-- Solves an upper triangle, from the last row up. -/
def solveUpper (rows : List (α × List α × α)) : List α :=
  rows.foldr (fun row solved => reduceBackBy row.2.2 row.2.1 solved / row.1 :: solved) []

end Library
end Almanac
