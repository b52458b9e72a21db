import Almanac.Library.Elimination
import Almanac.Proofs.Library.Triangular

/-! # What exact factors answer

Factors `P * M = L * U` with ones on the diagonal of `L` give the determinant that is relied on,
whichever rows were taken as pivots, and what is substituted through them fails exactly where a
pivot is zero.
-/
namespace Almanac.Library.Elimination
set_option autoImplicit false
open Factor
open Finset (range)

variable {α : Type} [Field α] {n k : Nat}

section Tables
variable (F : Elimination α)

def rowAt (i : Nat) : PivotRow α := F.rows.getD i ⟨0, [], 0, []⟩

/-- The unit lower factor. -/
def lowerFactor : Nat → Nat → α := lowerTable (fun i j => (F.rowAt i).lower.getD j 0) fun _ => 1

def upperFactor : Nat → Nat → α :=
  upperTable (fun i => (F.rowAt i).pivot) fun i t => (F.rowAt i).upper.getD t 0

end Tables

/-- The factors are those of a square block: `P * M = L * U`. -/
structure Factors (F : Elimination α) (M : Block α) (P : Equiv.Perm (Fin n)) : Prop where
  order : F.order = n
  source : ∀ i : Fin n, (F.rowAt i).source = P i
  lower : ∀ i < n, (F.rowAt i).lower.length ≤ i
  upper : ∀ i < n, (F.rowAt i).upper.length ≤ n - i - 1
  product : (M.matrix n n).submatrix P id = square n F.lowerFactor * square n F.upperFactor
  sign : ((Equiv.Perm.sign P : ℤ) : α) = (-1) ^ F.exchanges

section Queries
variable {F : Elimination α} {M B : Block α} {P : Equiv.Perm (Fin n)}

theorem getElem?_rows {i : Nat} (hi : i < F.order) : F.rows[i]? = some (F.rowAt i) :=
  getElem?_eq_getD hi

theorem rows_eq_map (hOrder : F.order = n) : F.rows = (List.range n).map F.rowAt := by
  subst hOrder
  refine List.ext_getElem? fun i => ?_
  rcases Nat.lt_or_ge i F.order with hi | hi
  · rw [getElem?_rows hi, List.getElem?_map, List.getElem?_range hi]
    rfl
  · rw [List.getElem?_eq_none hi, List.getElem?_eq_none (by simpa using hi)]

theorem lowerFactor_self (i : Fin n) : square n F.lowerFactor i i = 1 :=
  lowerTable_self (fun i j => (F.rowAt i).lower.getD j 0) fun _ => 1

theorem upperFactor_self (i : Fin n) : square n F.upperFactor i i = (F.rowAt i).pivot :=
  upperTable_self (fun i t => (F.rowAt i).upper.getD t 0) fun i => (F.rowAt i).pivot

theorem Factors.determinant_eq (h : F.Factors M P) :
    F.determinant = Equiv.Perm.sign P * ∏ i, square n F.upperFactor i i := by
  have hFold : F.rows.foldl (fun d row => d * row.pivot) 1 = ∏ i, square n F.upperFactor i i := by
    rw [rows_eq_map h.order, List.foldl_map, foldl_range_mul]
    exact Finset.prod_congr rfl fun i _ => (upperFactor_self i).symm
  rw [determinant, hFold, h.sign]
  rcases Nat.even_or_odd F.exchanges with hEven | hOdd
  · rw [if_pos (Nat.even_iff.mp hEven), hEven.neg_one_pow, one_mul]
  · rw [if_neg (by rw [Nat.odd_iff.mp hOdd]; exact Nat.one_ne_zero), hOdd.neg_one_pow, mul_comm]

theorem Factors.isSingular_iff [DecidableEq α] (h : F.Factors M P) :
    F.isSingular = true ↔ ∃ i, square n F.upperFactor i i = 0 := by
  rw [isSingular, rows_eq_map h.order]
  simp only [List.any_map, List.any_eq_true, List.mem_range, Function.comp_apply, beq_iff_eq,
    upperFactor_self]
  exact ⟨fun ⟨i, hi, hZero⟩ => ⟨⟨i, hi⟩, hZero⟩, fun ⟨i, hZero⟩ => ⟨i, i.isLt, hZero⟩⟩

/-- Substitution satisfies `L * (U * x) = P * b`. -/
theorem Factors.substitutes (h : F.Factors M P) (hPivot : ∀ i < n, (F.rowAt i).pivot ≠ 0) :
    Substitutes (square n F.lowerFactor) (square n F.upperFactor) P F.substitute := by
  intro b _
  let low := F.rows.map fun row => (row.lower, b.getD row.source 0)
  let up := List.zipWith (fun (row : PivotRow α) y => (row.pivot, row.upper, y)) F.rows
    (solveUnitLower low)
  have hLow : Listed n low fun i => ((F.rowAt i).lower, b.getD (F.rowAt i).source 0) := by
    refine ⟨(List.length_map _).trans h.order, fun i hi => ?_⟩
    rw [List.getElem?_map, getElem?_rows (h.order ▸ hi)]
    rfl
  have hSolved : (solveUnitLower low).length = n := (length_grow _ low).trans hLow.1
  have hUp : Listed n up fun i =>
      ((F.rowAt i).pivot, (F.rowAt i).upper, (solveUnitLower low).getD i 0) := by
    refine ⟨?_, fun i hi => ?_⟩
    · rw [List.length_zipWith, hSolved, show F.rows.length = n from h.order, Nat.min_self]
    · have hEntry : (solveUnitLower low)[i]? = some ((solveUnitLower low).getD i 0) :=
        getElem?_eq_getD (hSolved ▸ hi)
      rw [List.getElem?_zipWith, getElem?_rows (h.order ▸ hi), hEntry]
  have hLower := mulVec_solveUnitLower hLow h.lower
  have hUpper := mulVec_solveUpper hUp h.upper hPivot
  refine (congrArg _ hUpper).trans (hLower.trans (funext fun i => ?_))
  rw [h.source i]

/-- What is solved for a block comes from substitution unless a pivot is zero. -/
theorem Factors.solved [DecidableEq α] (h : F.Factors M P) (hB : B.HasShape n k) :
    SubstitutedUnlessZero (square n F.lowerFactor) (square n F.upperFactor)
      ((B.matrix n k).submatrix P id) (F.solve? B) := by
  rw [solve?]
  split
  · rename_i hSingular
    exact ⟨iff_of_true rfl (h.isSingular_iff.mp hSingular), nofun⟩
  · rename_i hNot
    have hDiagonal := mt h.isSingular_iff.mpr hNot
    have hPivot : ∀ i < n, (F.rowAt i).pivot ≠ 0 := fun i hi hZero =>
      hDiagonal ⟨⟨i, hi⟩, (upperFactor_self ⟨i, hi⟩).trans hZero⟩
    refine ⟨iff_of_false nofun hDiagonal, fun X hX => ?_⟩
    obtain rfl := Option.some.inj hX
    exact (h.substitutes hPivot).mapColumns hB

end Queries
end Almanac.Library.Elimination
