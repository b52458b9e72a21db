import Mathlib
import Almanac.Proofs.Double.Order
import Almanac.Statistics.Optional

/-! # Order statistics of doubles

A pass for an extreme keeps a leading value, which a hole never displaces, and a sort by the total
order leaves one list of all permutations. So maximum, minimum and median do not depend on the order
of the values, up to the choice between zero and negative zero.
-/
namespace Almanac.Statistics
set_option autoImplicit false

section Leading
variable {α γ : Type} [Hole α]

/-- The better of two scalars, or the first; a hole gives way to the other. -/
def preferred (better : α → α → Prop) [DecidableRel better] (a b : α) : α :=
  if isHole a then b else if better a b then b else a

/-- No observed entry of the list has a greater key, and holes lead only other holes. -/
structure Leads [LE γ] (key : α → γ) (l : List α) (leader : α) : Prop where
  mem : leader ∈ l
  leads : ∀ x ∈ l, isHole x = false → isHole leader = false ∧ key x ≤ key leader

variable [LinearOrder γ] {key : α → γ} {l l' : List α} {a b : α}

theorem leads_singleton (key : α → γ) (a : α) : Leads key [a] a := by
  refine ⟨List.mem_singleton_self a, List.forall_mem_singleton.mpr fun hObserved => ?_⟩
  exact ⟨hObserved, le_refl _⟩

theorem Leads.perm (h : Leads key l a) (hPerm : l.Perm l') : Leads key l' a :=
  ⟨hPerm.mem_iff.mp h.mem, fun x hx => h.leads x (hPerm.mem_iff.mpr hx)⟩

theorem Leads.isHole_iff (h : Leads key l a) : isHole a = true ↔ ∀ x ∈ l, isHole x = true := by
  constructor
  · intro hHole x hx
    by_contra hObserved
    rw [Bool.not_eq_true] at hObserved
    exact Bool.false_ne_true ((h.leads x hx hObserved).1.symm.trans hHole)
  · intro hAll
    exact hAll a h.mem

theorem Leads.key_eq (ha : Leads key l a) (hb : Leads key l b) (hObserved : isHole a = false) :
    key a = key b :=
  have hBoth := hb.leads a ha.mem hObserved
  le_antisymm hBoth.2 (ha.leads b hb.mem hBoth.1).2

variable {better : α → α → Prop} [DecidableRel better]
  (hBetter : ∀ x y, isHole x = false → (better x y ↔ isHole y = false ∧ key x < key y))
include hBetter

/-- One more entry takes the lead if it is better, or if all before it are holes. -/
theorem Leads.preferred (h : Leads key l a) (b : α) :
    Leads key (l ++ [b]) (preferred better a b) := by
  have hLast : b ∈ l ++ [b] := List.mem_append_right l (List.mem_singleton_self b)
  rw [Statistics.preferred]
  by_cases hHole : isHole a = true
  · rw [if_pos hHole]
    refine ⟨hLast, List.forall_mem_append.mpr ⟨fun x hx hObserved => ?_, ?_⟩⟩
    · exact absurd (h.isHole_iff.mp hHole x hx) (by simp [hObserved])
    · exact List.forall_mem_singleton.mpr fun hObserved => ⟨hObserved, le_refl _⟩
  · rw [if_neg hHole]
    rw [Bool.not_eq_true] at hHole
    split
    · rename_i hLess
      obtain ⟨hLeader, hKey⟩ := (hBetter a b hHole).mp hLess
      refine ⟨hLast, List.forall_mem_append.mpr ⟨fun x hx hObserved => ?_, ?_⟩⟩
      · exact ⟨hLeader, (h.leads x hx hObserved).2.trans (le_of_lt hKey)⟩
      · exact List.forall_mem_singleton.mpr fun _ => ⟨hLeader, le_refl _⟩
    · rename_i hNotLess
      refine ⟨List.mem_append_left [b] h.mem, List.forall_mem_append.mpr ⟨h.leads, ?_⟩⟩
      refine List.forall_mem_singleton.mpr fun hObserved => ⟨hHole, not_lt.mp fun hKey => ?_⟩
      exact hNotLess ((hBetter a b hHole).mpr ⟨hObserved, hKey⟩)

theorem Leads.foldl (h : Leads key l a) (xs : List α) :
    Leads key (l ++ xs) (xs.foldl (Statistics.preferred better) a) := by
  induction xs generalizing l a with
  | nil =>
    rw [List.append_nil]
    exact h
  | cons x xs ih =>
    rw [List.append_cons]
    exact ih (h.preferred hBetter x)

theorem exists_extreme (h : l ≠ []) :
    ∃ leader, extreme (preferred better) l = .ok leader ∧ Leads key l leader := by
  obtain ⟨x, xs, rfl⟩ := List.exists_cons_of_ne_nil h
  exact ⟨_, rfl, (leads_singleton key x).foldl hBetter xs⟩

end Leading

section Sorted
variable {α γ : Type} [LinearOrder γ] {key : α → γ} {le : α → α → Bool}
  (hRanks : ∀ x y : α, le x y = true ↔ key x ≤ key y)
include hRanks

theorem pairwise_sorted (l : List α) : (l.mergeSort le).Pairwise fun x y => key x ≤ key y := by
  refine (List.pairwise_mergeSort (fun x y z hxy hyz => ?_) (fun x y => ?_) l).imp
    fun h => (hRanks _ _).mp h
  · rw [hRanks] at hxy hyz ⊢
    exact hxy.trans hyz
  · rw [Bool.or_eq_true, hRanks, hRanks]
    exact le_total _ _

theorem sorted_of_perm (hInjective : Function.Injective key) {l l' : List α} (h : l.Perm l') :
    l.mergeSort le = l'.mergeSort le :=
  List.Perm.eq_of_pairwise (fun _ _ _ _ hxy hyx => hInjective (le_antisymm hxy hyx))
    (pairwise_sorted hRanks l) (pairwise_sorted hRanks l')
    ((List.mergeSort_perm l _).trans (h.trans (List.mergeSort_perm l' _).symm))

end Sorted

section Middle
variable {α : Type} [Zero α] [Add α] [Div α] [NatCast α]

/-- The entry in the middle of a list, or the average of the two there. -/
def middle (l : List α) : α :=
  if l.length % 2 = 0 then
    (l.getD (l.length / 2 - 1) 0 + l.getD (l.length / 2) 0) / ((2 : Nat) : α)
  else l.getD (l.length / 2) 0

theorem median_eq [Ranked α] {l : List α} (h : l ≠ []) :
    median l = .ok (middle (l.mergeSort ranksUpTo)) := by
  rw [median, List.isEmpty_eq_false_iff.mpr h]
  rfl

end Middle

section Halves
variable {K : Type} [LinearOrder K] {l : List K}

/-- Exact scalars are ranked by their order. -/
instance rankedByOrder : Ranked K := ⟨fun x y => x ≤ y⟩

theorem ranksUpTo_exact (x y : K) : ranksUpTo x y = true ↔ id x ≤ id y := decide_eq_true_iff

section Counts
variable (hSorted : l.Pairwise (· ≤ ·)) {i : Nat} (hi : i < l.length) {m : K}
include hSorted

/-- An entry of a sorted list and all before it are at most what it is. -/
theorem lt_countP_le (hm : l[i] ≤ m) : i < l.countP (· ≤ m) := by
  have hFront : (l.take (i + 1)).countP (· ≤ m) = (l.take (i + 1)).length := by
    refine List.countP_eq_length.mpr fun x hx => ?_
    obtain ⟨j, hj, rfl⟩ := List.mem_iff_getElem.mp hx
    rw [List.length_take] at hj
    rw [List.getElem_take, decide_eq_true_eq]
    exact (hSorted.rel_get_of_le (a := ⟨j, by omega⟩) (b := ⟨i, hi⟩) (by simp; omega)).trans hm
  calc i < (l.take (i + 1)).length := by rw [List.length_take]; omega
    _ = (l.take (i + 1)).countP (· ≤ m) := hFront.symm
    _ ≤ l.countP (· ≤ m) := (List.take_sublist _ l).countP_le

theorem length_sub_le_countP (hm : m ≤ l[i]) : l.length - i ≤ l.countP (m ≤ ·) := by
  have hBack : (l.drop i).countP (m ≤ ·) = (l.drop i).length := by
    refine List.countP_eq_length.mpr fun x hx => ?_
    obtain ⟨j, hj, rfl⟩ := List.mem_iff_getElem.mp hx
    rw [List.length_drop] at hj
    rw [List.getElem_drop, decide_eq_true_eq]
    exact hm.trans (hSorted.rel_get_of_le (a := ⟨i, hi⟩) (b := ⟨i + j, by omega⟩) (by simp))
  calc l.length - i = (l.drop i).length := List.length_drop.symm
    _ = (l.drop i).countP (m ≤ ·) := hBack.symm
    _ ≤ l.countP (m ≤ ·) := (List.drop_sublist i l).countP_le

end Counts

variable [Field K] [IsStrictOrderedRing K] (hSorted : l.Pairwise (· ≤ ·)) (hSome : 0 < l.length)
include hSorted hSome

/-- The middle lies between the two entries that are nearest to it. -/
theorem middle_between : l[(l.length - 1) / 2] ≤ middle l ∧ middle l ≤ l[l.length / 2] := by
  have hOrder : l[(l.length - 1) / 2] ≤ l[l.length / 2] :=
    hSorted.rel_get_of_le (a := ⟨_, by omega⟩) (b := ⟨_, by omega⟩)
      (Nat.div_le_div_right (Nat.sub_le _ 1))
  have hUpper : l.getD (l.length / 2) 0 = l[l.length / 2] := (List.getElem_eq_getD 0).symm
  rw [middle]
  split
  · rename_i hEven
    have hLower : l.getD (l.length / 2 - 1) 0 = l[(l.length - 1) / 2] := by
      rw [show l.length / 2 - 1 = (l.length - 1) / 2 by omega]
      exact (List.getElem_eq_getD 0).symm
    rw [hLower, hUpper, Nat.cast_ofNat, le_div_iff₀ two_pos, div_le_iff₀ two_pos]
    constructor <;> linarith
  · rename_i hOdd
    have hSame : l[(l.length - 1) / 2] = l[l.length / 2] := by
      congr 1
      omega
    rw [hUpper, hSame]
    exact ⟨le_refl _, le_refl _⟩

theorem halves_of_middle : l.length ≤ 2 * l.countP (· ≤ middle l) ∧
    l.length ≤ 2 * l.countP (middle l ≤ ·) := by
  obtain ⟨hLower, hUpper⟩ := middle_between hSorted hSome
  have hBelow := lt_countP_le hSorted _ hLower
  have hAbove := length_sub_le_countP hSorted _ hUpper
  omega

end Halves

section Doubles
open Double
variable {xs ys : List Float} {a b : Float}

theorem lt_iff_place (x y : Float) (h : isHole x = false) :
    x < y ↔ isHole y = false ∧ place x < place y := by
  rw [lt_iff, and_iff_right h]

theorem gt_iff_place (x y : Float) (h : isHole x = false) :
    y < x ↔ isHole y = false ∧ OrderDual.toDual (place x) < OrderDual.toDual (place y) := by
  rw [lt_iff, and_iff_right h, OrderDual.toDual_lt_toDual]

def MixesZeros (xs : List Float) : Prop := 0 ∈ xs ∧ -0 ∈ xs

theorem Leads.unique {γ : Type} [LinearOrder γ] {key : Float → γ}
    (hKey : ∀ x y, key x = key y → place x = place y) (hZeros : ¬ MixesZeros xs)
    (ha : Leads key xs a) (hb : Leads key xs b) : a = b := by
  by_cases hHole : isHole a = true
  · rw [eq_hole_of_isHole hHole, eq_hole_of_isHole (hb.isHole_iff.mpr (ha.isHole_iff.mp hHole))]
  · rw [Bool.not_eq_true] at hHole
    obtain hSame | ⟨rfl, rfl⟩ | ⟨rfl, rfl⟩ :=
      eq_or_zeros_of_place_eq (hKey a b (ha.key_eq hb hHole))
    · exact hSame
    · exact absurd ⟨ha.mem, hb.mem⟩ hZeros
    · exact absurd ⟨hb.mem, ha.mem⟩ hZeros

theorem ne_nil_of_perm (h : ys.Perm xs) (hSome : xs ≠ []) : ys ≠ [] := by
  rintro rfl
  exact hSome h.symm.eq_nil

theorem extreme_perm {γ : Type} [LinearOrder γ] {key : Float → γ} {better : Float → Float → Prop}
    [DecidableRel better]
    (hBetter : ∀ x y, isHole x = false → (better x y ↔ isHole y = false ∧ key x < key y))
    (hKey : ∀ x y, key x = key y → place x = place y) (hZeros : ¬ MixesZeros xs)
    (h : ys.Perm xs) : extreme (preferred better) ys = extreme (preferred better) xs := by
  by_cases hNil : xs = []
  · rw [hNil] at h ⊢
    rw [h.eq_nil]
  · obtain ⟨a, ha, hLeads⟩ := exists_extreme hBetter hNil
    obtain ⟨b, hb, hLeads'⟩ := exists_extreme hBetter (ne_nil_of_perm h hNil)
    rw [ha, hb, Leads.unique hKey hZeros hLeads (hLeads'.perm h)]

theorem maximum_perm (hZeros : ¬ MixesZeros xs) (h : ys.Perm xs) : maximum ys = maximum xs :=
  extreme_perm lt_iff_place (fun _ _ hPlace => hPlace) hZeros h

theorem minimum_perm (hZeros : ¬ MixesZeros xs) (h : ys.Perm xs) : minimum ys = minimum xs :=
  extreme_perm gt_iff_place (fun _ _ hPlace => OrderDual.toDual_inj.mp hPlace) hZeros h

theorem median_perm (h : ys.Perm xs) : median ys = median xs := by
  by_cases hNil : xs = []
  · rw [hNil] at h ⊢
    rw [h.eq_nil]
  · rw [median_eq hNil, median_eq (ne_nil_of_perm h hNil),
      sorted_of_perm ranksUpTo_iff rank_injective h]

/-- The first of all observed values in an order, or a hole where nothing is observed. -/
structure Extremal (precedes : Float → Float → Prop) (xs : List Float) (a : Float) : Prop where
  mem : a ∈ xs
  isHole_iff : isHole a = true ↔ ∀ x ∈ xs, isHole x = true
  first : ∀ x ∈ xs, isHole x = false → precedes a x

theorem exists_maximum (h : xs ≠ []) :
    ∃ top, maximum xs = .ok top ∧ Extremal (· ≥ ·) xs top := by
  obtain ⟨top, hTop, hLeads⟩ := exists_extreme lt_iff_place h
  refine ⟨top, hTop, hLeads.mem, hLeads.isHole_iff, fun x hx hObserved => ?_⟩
  obtain ⟨hLeader, hPlace⟩ := hLeads.leads x hx hObserved
  exact (le_iff hObserved hLeader).mpr hPlace

theorem exists_minimum (h : xs ≠ []) :
    ∃ bottom, minimum xs = .ok bottom ∧ Extremal (· ≤ ·) xs bottom := by
  obtain ⟨bottom, hBottom, hLeads⟩ := exists_extreme gt_iff_place h
  refine ⟨bottom, hBottom, hLeads.mem, hLeads.isHole_iff, fun x hx hObserved => ?_⟩
  obtain ⟨hLeader, hPlace⟩ := hLeads.leads x hx hObserved
  exact (le_iff hLeader hObserved).mpr hPlace

/-- The values of doubles that are sorted by the total order are sorted. -/
theorem map_value_sorted (hFinite : ∀ x ∈ xs, isFinite x = true) :
    (xs.mergeSort ranksUpTo).map value = (xs.map value).mergeSort ranksUpTo := by
  have hPerm := List.mergeSort_perm xs ranksUpTo
  -- The total order tells the zeros apart; their values are equal, so that either order is sorted.
  refine List.Perm.eq_of_pairwise (fun _ _ _ _ => le_antisymm) ?_
    (pairwise_sorted ranksUpTo_exact _)
    ((hPerm.map value).trans (List.mergeSort_perm _ _).symm)
  refine List.pairwise_map.mpr ((pairwise_sorted ranksUpTo_iff xs).imp_of_mem ?_)
  intro x y hx hy hRank
  exact value_le_of_place_le (hFinite x (hPerm.mem_iff.mp hx)) (hFinite y (hPerm.mem_iff.mp hy))
    (place_le_of_rank_le hRank)

/-- The double in the middle of values, and the number that it is before rounding: their one value,
or the average of two. -/
def MiddleBeforeRounding (xs : List Float) (a : Float) (m : ℚ) : Prop :=
  (xs.length % 2 = 1 ∧ a ∈ xs ∧ m = value a) ∨
    (xs.length % 2 = 0 ∧ ∃ lower ∈ xs, ∃ upper ∈ xs,
      a = (lower + upper) / ((2 : Nat) : Float) ∧ m = (value lower + value upper) / 2)

theorem middle_before_rounding (hSome : 0 < xs.length) :
    MiddleBeforeRounding xs (middle xs) (middle (xs.map value)) := by
  have hEntry : ∀ i (hi : i < xs.length), xs.getD i 0 = xs[i] ∧
      (xs.map value).getD i 0 = value xs[i] := by
    intro i hi
    simp [List.getD, hi]
  obtain ⟨hUpper, hUpper'⟩ := hEntry (xs.length / 2) (by omega)
  obtain ⟨hLower, hLower'⟩ := hEntry (xs.length / 2 - 1) (by omega)
  rw [middle, middle, List.length_map, hUpper, hUpper', hLower, hLower']
  obtain hEven | hOdd := Nat.mod_two_eq_zero_or_one xs.length
  · rw [if_pos hEven, if_pos hEven]
    exact .inr ⟨hEven, _, List.getElem_mem _, _, List.getElem_mem _, rfl, rfl⟩
  · rw [if_neg (by omega), if_neg (by omega)]
    exact .inl ⟨hOdd, List.getElem_mem _, rfl⟩

theorem MiddleBeforeRounding.perm {m : ℚ} (h : MiddleBeforeRounding ys a m) (hPerm : ys.Perm xs) :
    MiddleBeforeRounding xs a m := by
  rw [MiddleBeforeRounding, hPerm.length_eq] at h
  rw [MiddleBeforeRounding]
  simpa only [hPerm.mem_iff] using h

/-- On finite doubles the median is what it is of their exact values, up to the rounding of an
average, and at least half of them lie on either side of it. -/
theorem median_of_finite (h : xs ≠ []) (hFinite : ∀ x ∈ xs, isFinite x = true) :
    ∃ m, median (xs.map value) = .ok m ∧
      MiddleBeforeRounding xs (middle (xs.mergeSort ranksUpTo)) m ∧
      xs.length ≤ 2 * xs.countP (value · ≤ m) ∧ xs.length ≤ 2 * xs.countP (m ≤ value ·) := by
  have hPerm := List.mergeSort_perm xs ranksUpTo
  have hSome : 0 < (xs.mergeSort ranksUpTo).length := by
    rw [List.length_mergeSort]
    exact List.length_pos_iff.mpr h
  have hSorted : ((xs.mergeSort ranksUpTo).map value).Pairwise (· ≤ ·) := by
    rw [map_value_sorted hFinite]
    exact pairwise_sorted ranksUpTo_exact _
  obtain ⟨hBelow, hAbove⟩ := halves_of_middle hSorted (List.length_map value ▸ hSome)
  refine ⟨middle ((xs.mergeSort ranksUpTo).map value), ?_,
    (middle_before_rounding hSome).perm hPerm, ?_, ?_⟩
  · rw [median_eq (mt List.map_eq_nil_iff.mp h), map_value_sorted hFinite]
  · rw [List.countP_map, List.length_map, List.length_mergeSort, hPerm.countP_eq] at hBelow
    exact hBelow
  · rw [List.countP_map, List.length_map, List.length_mergeSort, hPerm.countP_eq] at hAbove
    exact hAbove

/-- The maximum, the minimum and the median of doubles exist exactly if there is a value. Holes are
passed over by the extremes unless nothing else is there. No order of the values changes the median,
and none the extremes of values without one of the two zeros; on finite values the median is in the
middle. Optional values have the statistics of the entries that are set. -/
theorem orderStatistics_ignore_order (xs : List Float) :
    (xs = [] → maximum xs = .error (.emptyCollection "data") ∧
      minimum xs = .error (.emptyCollection "data") ∧
      median xs = .error (.emptyCollection "data")) ∧
    (xs ≠ [] → ∃ top bottom a : Float,
      (maximum xs = .ok top ∧ Extremal (· ≥ ·) xs top) ∧
      (minimum xs = .ok bottom ∧ Extremal (· ≤ ·) xs bottom) ∧
      median xs = .ok a ∧
      (∀ ys : List Float, ys.Perm xs → median ys = .ok a ∧
        (¬ MixesZeros xs → maximum ys = .ok top ∧ minimum ys = .ok bottom)) ∧
      ((∀ x ∈ xs, isFinite x = true) → ∃ m : ℚ, median (xs.map value) = .ok m ∧
        MiddleBeforeRounding xs a m ∧
        xs.length ≤ 2 * xs.countP (value · ≤ m) ∧ xs.length ≤ 2 * xs.countP (m ≤ value ·))) ∧
    ∀ entries : List (Option Float), entries.reduceOption = xs →
      Optional.maximum entries = maximum xs ∧ Optional.minimum entries = minimum xs ∧
        Optional.median entries = median xs := by
  refine ⟨?_, fun hSome => ?_, ?_⟩
  · rintro rfl
    exact ⟨rfl, rfl, rfl⟩
  · obtain ⟨top, hTop, hGreatest⟩ := exists_maximum hSome
    obtain ⟨bottom, hBottom, hLeast⟩ := exists_minimum hSome
    refine ⟨top, bottom, middle (xs.mergeSort ranksUpTo), ⟨hTop, hGreatest⟩, ⟨hBottom, hLeast⟩,
      median_eq hSome, fun ys hPerm => ⟨?_, fun hZeros => ⟨?_, ?_⟩⟩, median_of_finite hSome⟩
    · rw [median_perm hPerm, median_eq hSome]
    · rw [maximum_perm hZeros hPerm, hTop]
    · rw [minimum_perm hZeros hPerm, hBottom]
  · rintro entries rfl
    exact ⟨rfl, rfl, rfl⟩

/-- Two values and a hole in two orders, and four finite values. -/
theorem orderStatistics_of_three_and_four :
    let xs : List Float := [hole, 3, 1]
    let ys : List Float := [1, hole, 3]
    let zs : List Float := [4, 1, 3, 2]
    (maximum ys = .ok 3 ∧ minimum ys = .ok 1 ∧ median ys = median xs) ∧
      (∃ m : ℚ, median (zs.map value) = .ok m ∧ 4 ≤ 2 * zs.countP (value · ≤ m)) ∧
      maximum ([] : List Float) = .error (.emptyCollection "data") ∧
      Optional.maximum [none, some hole, some 3, none, some 1] = .ok (3 : Float) := by
  intro xs ys zs
  have hPerm : ys.Perm xs := by decide +kernel
  have hZeros : ¬ MixesZeros xs := by
    have hNonzero : ∀ x ∈ xs, x ≠ 0 := by decide +kernel
    exact fun h => hNonzero 0 h.1 rfl
  have hThree : maximum xs = .ok 3 := by decide +kernel
  have hOne : minimum xs = .ok 1 := by decide +kernel
  obtain ⟨-, hSome, hOptional⟩ := orderStatistics_ignore_order xs
  obtain ⟨top, bottom, a, ⟨hTop, -⟩, ⟨hBottom, -⟩, hMedian, hOrder, -⟩ :=
    hSome (List.cons_ne_nil _ _)
  obtain ⟨hMedian', hExtremes⟩ := hOrder ys hPerm
  obtain ⟨hTop', hBottom'⟩ := hExtremes hZeros
  obtain ⟨-, hSomeFinite, -⟩ := orderStatistics_ignore_order zs
  obtain ⟨-, -, b, -, -, -, -, hFinite⟩ := hSomeFinite (List.cons_ne_nil _ _)
  obtain ⟨m, hExact, -, hBelow, -⟩ := hFinite (by decide +kernel)
  refine ⟨⟨hTop'.trans (hTop.symm.trans hThree), hBottom'.trans (hBottom.symm.trans hOne),
    hMedian'.trans hMedian.symm⟩, ⟨m, hExact, hBelow⟩, ?_, ?_⟩
  · exact ((orderStatistics_ignore_order []).1 rfl).1
  · exact (hOptional [none, some hole, some 3, none, some 1] rfl).1.trans hThree

end Doubles
end Almanac.Statistics
