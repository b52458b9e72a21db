import Almanac.Factor.Singular
import Almanac.Proofs.Statistics.Order

/-! # Singular values in order

A library may find singular values in any order, so that the ends of the sorted list are the
greatest and the least of them in the total order of doubles.
-/
namespace Almanac.Svd
set_option autoImplicit false
open Linear Double

/-- The place in the total order turned over. -/
def rankDown (x : Float) : OrderDual ℤ := OrderDual.toDual (Double.rank x)

theorem ranksUpTo_iff_rankDown (x y : Float) : ranksUpTo y x = true ↔ rankDown x ≤ rankDown y :=
  ranksUpTo_iff y x

theorem rankDown_injective : Function.Injective rankDown := fun _ _ h => rank_injective h

section Sorted
variable {γ : Type} [LinearOrder γ] (key : Float → γ) {xs : List Float} {x : Float}

/-- A sorted list starts with the first of its elements. -/
theorem head?_of_sorted (hSorted : xs.Pairwise fun y z => key y ≤ key z) (hx : x ∈ xs) :
    ∃ first ∈ xs, xs.head? = some first ∧ key first ≤ key x := by
  cases xs with
  | nil => cases hx
  | cons first rest =>
    refine ⟨first, List.mem_cons_self, rfl, ?_⟩
    rcases List.mem_cons.mp hx with rfl | hRest
    · exact le_refl _
    · exact List.rel_of_pairwise_cons hSorted hRest

theorem getLast?_of_sorted (hSorted : xs.Pairwise fun y z => key y ≤ key z) (hx : x ∈ xs) :
    ∃ last ∈ xs, xs.getLast? = some last ∧ key x ≤ key last := by
  obtain ⟨last, hMem, hLast, hLe⟩ := head?_of_sorted (fun y => OrderDual.toDual (key y))
    (List.pairwise_reverse.mpr hSorted) (List.mem_reverse.mpr hx)
  exact ⟨last, List.mem_reverse.mp hMem, List.head?_reverse ▸ hLast, hLe⟩

end Sorted

/-- What is read off singular values that were found in any order. -/
structure Reads (values : List Float) (D : Svd) : Prop where
  perm : D.singularValues.Perm values
  descending : D.singularValues.Pairwise fun x y => Double.rank y ≤ Double.rank x
  norm : ∀ greatest ∈ values, (∀ x ∈ values, Double.rank x ≤ Double.rank greatest) →
    D.norm = greatest
  conditionNumber : ∀ greatest ∈ values, (∀ x ∈ values, Double.rank x ≤ Double.rank greatest) →
    ∀ least ∈ values, (∀ x ∈ values, Double.rank least ≤ Double.rank x) →
      D.conditionNumber = if 0 < least then greatest / least else 1 / 0

section Reading
variable {values : List Float} {D : Svd}

theorem reads_of_sorted (hPerm : D.singularValues.Perm values)
    (hSorted : D.singularValues.Pairwise fun x y => Double.rank y ≤ Double.rank x) :
    Reads values D := by
  have hFirst : ∀ greatest ∈ values, (∀ x ∈ values, Double.rank x ≤ Double.rank greatest) →
      D.singularValues.head? = some greatest := by
    intro greatest hMem hGreatest
    obtain ⟨first, hIn, hHead, hLe⟩ := head?_of_sorted rankDown hSorted
      (hPerm.mem_iff.mpr hMem)
    rw [hHead, rank_injective (le_antisymm (hGreatest first (hPerm.mem_iff.mp hIn)) hLe)]
  refine ⟨hPerm, hSorted, fun greatest hMem hGreatest => ?_, ?_⟩
  · rw [norm, List.headD_eq_head?_getD, hFirst greatest hMem hGreatest, Option.getD_some]
  · intro greatest hMem hGreatest least hMem' hLeast
    obtain ⟨last, hIn, hLast, hLe⟩ := getLast?_of_sorted rankDown hSorted
      (hPerm.mem_iff.mpr hMem')
    have hSame : last = least :=
      rank_injective (le_antisymm hLe (hLeast last (hPerm.mem_iff.mp hIn)))
    rw [conditionNumber, hFirst greatest hMem hGreatest, hLast, hSame]

/-- A matrix with a singular value of zero has an infinite condition number. -/
theorem Reads.conditionNumber_of_zero (h : Reads values D) (hZero : 0 ∈ values) :
    D.conditionNumber = 1 / 0 := by
  obtain ⟨last, -, hLast, hLe⟩ := getLast?_of_sorted rankDown h.descending
    (h.perm.mem_iff.mpr hZero)
  have hLe : Double.rank last ≤ Double.rank 0 := hLe
  have hNot : ¬ 0 < last := fun hPositive =>
    ((lt_iff.mp hPositive).2.2.trans_le (place_le_of_rank_le hLe)).false
  obtain ⟨first, -, hHead, -⟩ := head?_of_sorted rankDown h.descending
    (h.perm.mem_iff.mpr hZero)
  rw [Svd.conditionNumber, hHead, hLast]
  exact if_neg hNot

end Reading

section Queries
variable [SingularMethod] {A B : Mat Float} {values values' : List Float}

/-- Without singular values the queries are refused. -/
theorem refused_of_none (h : SingularMethod.values? A.toBlock = none) :
    ofMat A = refuse (.noConvergence "SVD") ∧
      A.spectralNorm = refuse (.noConvergence "SVD") ∧
        A.conditionNumber = refuse (.noConvergence "SVD") := by
  have hRefused : ofMat A = refuse (.noConvergence "SVD") := by rw [ofMat, h]
  refine ⟨hRefused, ?_, ?_⟩
  · rw [Mat.spectralNorm, hRefused]
    rfl
  · rw [Mat.conditionNumber, hRefused]
    rfl

/-- The queries of a matrix are read off its singular values. -/
theorem reads_of_some (h : SingularMethod.values? A.toBlock = some values) :
    ∃ D, ofMat A = .ok D ∧ Reads values D ∧ A.spectralNorm = .ok D.norm ∧
      A.conditionNumber = .ok D.conditionNumber := by
  have hAnswer : ofMat A = .ok ⟨values.mergeSort fun a b => ranksUpTo b a⟩ := by rw [ofMat, h]
  have hReads := reads_of_sorted (D := ⟨values.mergeSort fun a b => ranksUpTo b a⟩)
    (List.mergeSort_perm values _) (Statistics.pairwise_sorted ranksUpTo_iff_rankDown values)
  refine ⟨_, hAnswer, hReads, ?_, ?_⟩
  · rw [Mat.spectralNorm, hAnswer]
    rfl
  · rw [Mat.conditionNumber, hAnswer]
    rfl

/-- The order in which a library finds singular values is forgotten. -/
theorem ofMat_eq_of_perm (h : SingularMethod.values? A.toBlock = some values)
    (h' : SingularMethod.values? B.toBlock = some values') (hPerm : values.Perm values') :
    ofMat A = ofMat B := by
  have hSame := Statistics.sorted_of_perm ranksUpTo_iff_rankDown rankDown_injective hPerm
  rw [ofMat, ofMat, h, h']
  exact congrArg (fun sorted => Except.ok (Svd.mk sorted)) hSame

end Queries
end Almanac.Svd
