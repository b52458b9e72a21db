import Almanac.Proofs.Double.Order
import Almanac.Proofs.Pass
import Almanac.Proofs.Vec.Entry
import Almanac.Vec.Extreme

/-! # Extreme elements of a vector

A search for an extreme element ends at the first of the positions that win against all others,
whatever linear order stands behind its comparison. Doubles that are no holes are compared by their
places, which zero and negative zero share.
-/
namespace Almanac.Vec
set_option autoImplicit false

section Search
variable {α γ : Type} [Zero α] {v : Vec α} {project : α → α}

/-- The positions of the elements that win against all others, ties included. -/
def winners (v : Vec α) (project : α → α) (wins : α → α → Prop) : Set Nat :=
  {i | i < v.count ∧ ∀ j < v.count, wins (project (v.entry i)) (project (v.entry j))}

theorem valueAt_of_lt {i : Nat} (h : i < v.count) : v.valueAt i = .ok (v.entry i) := by
  rw [valueAt, getElem?_entries h]
  rfl

omit [Zero α] in
theorem positions_eq (v : Vec α) : 0 :: List.range' 1 (v.count - 1) = List.range v.count := by
  obtain ⟨n, hCount⟩ := Nat.exists_eq_add_one.mpr v.nonempty
  rw [count, hCount, List.range_eq_range', List.range'_succ]
  rfl

variable [LinearOrder γ] (key : Nat → γ)

/-- The greatest position behind smaller ones is the first of the greatest. -/
theorem isLeast_of_split {n best : Nat} {before after : List Nat}
    (hSplit : List.range n = before ++ best :: after) (hBefore : ∀ i ∈ before, key i < key best)
    (hAfter : ∀ i ∈ after, key i ≤ key best) :
    IsLeast {i | i < n ∧ ∀ j < n, key j ≤ key i} best := by
  have hMem (i : Nat) : i < n ↔ i ∈ before ∨ i = best ∨ i ∈ after := by
    rw [← List.mem_range, hSplit, List.mem_append, List.mem_cons]
  have hBest : best < n := (hMem best).mpr (.inr (.inl rfl))
  have hAscending : (before ++ best :: after).Pairwise (· < ·) := hSplit ▸ List.pairwise_lt_range
  have hBehind := (List.pairwise_cons.mp (List.pairwise_append.mp hAscending).2.1).1
  constructor
  · refine ⟨hBest, fun i hi => ?_⟩
    obtain hEarlier | rfl | hLater := (hMem i).mp hi
    · exact le_of_lt (hBefore i hEarlier)
    · exact le_refl _
    · exact hAfter i hLater
  · rintro i ⟨hi, hGreatest⟩
    obtain hEarlier | rfl | hLater := (hMem i).mp hi
    · exact absurd (hBefore i hEarlier) (hGreatest best hBest).not_gt
    · exact le_refl _
    · exact le_of_lt (hBehind i hLater)

section Compared
variable {better : α → α → Bool}
  (hBetter : ∀ i < v.count, ∀ j < v.count,
    better (project (v.entry i)) (project (v.entry j)) = true ↔ key j < key i)
include hBetter

/-- The projection that the search carries along is that of its position. -/
theorem foldl_candidate {first : Nat} {others : List Nat} (hFirst : first < v.count)
    (hOthers : ∀ i ∈ others, i < v.count) :
    (others.foldl (fun best i =>
        let candidate := project (v.entry i)
        if better candidate best.2 then (i, candidate) else best)
      (first, project (v.entry first))).1 =
    others.foldl (fun best i => if key best < key i then i else best) first := by
  induction others generalizing first with
  | nil => rfl
  | cons i others ih =>
    obtain ⟨hi, hOthers⟩ := List.forall_mem_cons.mp hOthers
    have hCompare := hBetter i hi first hFirst
    rw [List.foldl_cons, List.foldl_cons]
    split
    · rename_i hGreater
      rw [if_pos (hCompare.mpr hGreater)]
      exact ih hi hOthers
    · rename_i hNotGreater
      rw [if_neg (mt hCompare.mp hNotGreater)]
      exact ih hFirst hOthers

/-- What stands before the result of a search has a smaller key, and what stands behind it has no
greater one. -/
theorem split_at_extremeIndex : ∃ before after,
    List.range v.count = before ++ v.extremeIndex project better :: after ∧
      (∀ i ∈ before, key i < key (v.extremeIndex project better)) ∧
      ∀ i ∈ after, key i ≤ key (v.extremeIndex project better) := by
  have hOthers : ∀ i ∈ List.range' 1 (v.count - 1), i < v.count := by
    intro i hi
    exact List.mem_range.mp (v.positions_eq ▸ List.mem_cons_of_mem 0 hi)
  rw [← positions_eq, extremeIndex, foldl_candidate key hBetter v.nonempty hOthers]
  exact Pass.foldl_first_greatest key 0 _

theorem isLeast_extremeIndex {wins : α → α → Prop}
    (hWins : ∀ i < v.count, ∀ j < v.count,
      wins (project (v.entry i)) (project (v.entry j)) ↔ key j ≤ key i) :
    IsLeast (v.winners project wins) (v.extremeIndex project better) := by
  have hWinners : v.winners project wins = {i | i < v.count ∧ ∀ j < v.count, key j ≤ key i} := by
    ext i
    exact and_congr_right fun hi => forall₂_congr fun j hj => hWins i hi j hj
  obtain ⟨before, after, hSplit, hBefore, hAfter⟩ := split_at_extremeIndex key hBetter
  rw [hWinners]
  exact isLeast_of_split key hSplit hBefore hAfter

end Compared
end Search

section Doubles
open Double
variable {v : Vec Float} (project : Float → Float)
  (h : ∀ i < v.count, isHole (project (v.entry i)) = false)
include h

theorem isLeast_greatest :
    IsLeast (v.winners project (· ≥ ·)) (v.extremeIndex project fun a b => b < a) := by
  refine isLeast_extremeIndex (fun i => place (project (v.entry i)))
    (fun i hi j hj => ?_) fun i hi j hj => le_iff (h j hj) (h i hi)
  rw [decide_eq_true_eq, lt_iff, and_iff_right (h j hj), and_iff_right (h i hi)]

theorem isLeast_least :
    IsLeast (v.winners project (· ≤ ·)) (v.extremeIndex project fun a b => a < b) := by
  refine isLeast_extremeIndex (fun i => OrderDual.toDual (place (project (v.entry i))))
    (fun i hi j hj => ?_) fun i hi j hj => le_iff (h i hi) (h j hj)
  rw [decide_eq_true_eq, lt_iff, and_iff_right (h i hi), and_iff_right (h j hj),
    OrderDual.toDual_lt_toDual]

end Doubles

/-- Without holes, each search for an extreme ends at the first position whose element, or whose
magnitude, is at least or at most every other one, and the extreme is what stands there. -/
theorem extremes_stand_at_first_winners {v : Vec Float} (h : ∀ x ∈ v.toList, isHole x = false) :
    (IsLeast (v.winners id (· ≥ ·)) v.maximumIndex ∧
      v.valueAt v.maximumIndex = .ok v.maximum) ∧
    (IsLeast (v.winners id (· ≤ ·)) v.minimumIndex ∧
      v.valueAt v.minimumIndex = .ok v.minimum) ∧
    (IsLeast (v.winners abs (· ≥ ·)) v.absoluteMaximumIndex ∧
      (v.valueAt v.absoluteMaximumIndex).map abs = .ok v.absoluteMaximum) ∧
    IsLeast (v.winners abs (· ≤ ·)) v.absoluteMinimumIndex ∧
      (v.valueAt v.absoluteMinimumIndex).map abs = .ok v.absoluteMinimum := by
  have hObserved : ∀ i < v.count, isHole (v.entry i) = false := by
    intro i hi
    exact h _ (List.mem_of_getElem? (Array.getElem?_toList ▸ getElem?_entries hi))
  have hMagnitudes : ∀ i < v.count, isHole (abs (v.entry i)) = false := fun i hi =>
    Double.observed_abs (hObserved i hi)
  have hMaximum := isLeast_greatest id hObserved
  have hMinimum := isLeast_least id hObserved
  have hTop := isLeast_greatest abs hMagnitudes
  have hBottom := isLeast_least abs hMagnitudes
  refine ⟨⟨hMaximum, valueAt_of_lt hMaximum.1.1⟩, ⟨hMinimum, valueAt_of_lt hMinimum.1.1⟩,
    ⟨hTop, congrArg _ (valueAt_of_lt hTop.1.1)⟩, hBottom, congrArg _ (valueAt_of_lt hBottom.1.1)⟩

/-- Zero ties with negative zero, and the magnitude of a double with that of its negation. -/
theorem extremes_of_ties :
    let v := (Vec.ofList [-0, 0, -5, 5, -5, (5 : Float)] (by decide)).scatter
    (∀ x ∈ v.toList, isHole x = false) ∧
      v.maximumIndex = 3 ∧ v.minimumIndex = 2 ∧ v.absoluteMaximumIndex = 2 ∧
      v.absoluteMinimumIndex = 0 ∧
      2 ∈ v.winners abs (· ≥ ·) ∧ (v.valueAt 2).map abs = .ok v.absoluteMaximum := by
  intro v
  have hObserved : ∀ x ∈ v.toList, isHole x = false := by decide +kernel
  have hIndex : v.absoluteMaximumIndex = 2 := by decide +kernel
  obtain ⟨-, -, ⟨hFirst, hValue⟩, -⟩ := extremes_stand_at_first_winners hObserved
  rw [hIndex] at hFirst hValue
  exact ⟨hObserved, by decide +kernel, by decide +kernel, hIndex, by decide +kernel, hFirst.1,
    hValue⟩

end Almanac.Vec
