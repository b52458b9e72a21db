import Mathlib.Data.List.InsertIdx
import Mathlib.Data.List.Sort
import Almanac.Proofs.Order
import Almanac.Series.Basic

/-! # Lists of dated points

Changes and lookups at the position of a date, where each date has one, are changes and lookups at
the date itself.
-/
namespace Almanac.Series
set_option autoImplicit false

variable {α : Type}

theorem map_date_zipWith (dates : Calendar) (values : List α) :
    (List.zipWith Point.mk dates values).map Point.date = dates.take values.length := by
  induction dates generalizing values with
  | nil => simp
  | cons d dates ih =>
    cases values with
    | nil => rfl
    | cons x values => simp [ih]

theorem map_value_zipWith (dates : Calendar) (values : List α) :
    (List.zipWith Point.mk dates values).map Point.value = values.take dates.length := by
  induction dates generalizing values with
  | nil => simp
  | cons d dates ih =>
    cases values with
    | nil => rfl
    | cons x values => simp [ih]

theorem find?_date (points : List (Point α)) (d : Instant) :
    points.find? (fun p => p.date = d) =
      ((points.map Point.date).idxOf? d).bind fun i => points[i]? := by
  induction points with
  | nil => rfl
  | cons p points ih =>
    rw [List.find?_cons, List.map_cons, List.idxOf?_cons, ih]
    by_cases hDate : p.date = d
    · simp [hDate]
    · simp [hDate, Option.bind_map]

theorem date_ne_of_fresh {points : List (Point α)} {d : Instant} (h : d ∉ points.map Point.date)
    {p : Point α} (hp : p ∈ points) : p.date ≠ d := by
  rintro rfl
  exact h (List.mem_map_of_mem hp)

theorem modify_eq_map {points : List (Point α)} (hDistinct : (points.map Point.date).Nodup) {i : Nat}
    {d : Instant} (hEntry : (points.map Point.date)[i]? = some d) (x : α) :
    (points.modify i fun p => { p with value := x }) =
      points.map fun p => if p.date = d then { p with value := x } else p := by
  induction points generalizing i with
  | nil => simp
  | cons p points ih =>
    obtain ⟨hFresh, hDistinct⟩ := List.nodup_cons.mp hDistinct
    cases i with
    | zero =>
      obtain rfl : p.date = d := by simpa using hEntry
      have hRest : ∀ q ∈ points, (if q.date = p.date then { q with value := x } else q) = q :=
        fun q hq => if_neg (date_ne_of_fresh hFresh hq)
      rw [List.modify_zero_cons, List.map_cons, if_pos rfl, List.map_congr_left hRest, List.map_id']
    | succ i =>
      have hEntry : (points.map Point.date)[i]? = some d := by simpa using hEntry
      have hDate : p.date ≠ d := fun hEq => hFresh (hEq ▸ List.mem_of_getElem? hEntry)
      rw [List.modify_succ_cons, List.map_cons, if_neg hDate, ih hDistinct hEntry]

theorem eraseIdx_eq_filter {points : List (Point α)} (hDistinct : (points.map Point.date).Nodup)
    {i : Nat} {d : Instant} (hEntry : (points.map Point.date)[i]? = some d) :
    points.eraseIdx i = points.filter fun p => p.date ≠ d := by
  induction points generalizing i with
  | nil => simp
  | cons p points ih =>
    obtain ⟨hFresh, hDistinct⟩ := List.nodup_cons.mp hDistinct
    cases i with
    | zero =>
      obtain rfl : p.date = d := by simpa using hEntry
      have hRest : points.filter (fun q => q.date ≠ p.date) = points := by
        apply List.filter_eq_self.mpr
        intro q hq
        simpa using date_ne_of_fresh hFresh hq
      rw [List.eraseIdx_cons_zero, List.filter_cons_of_neg (by simp), hRest]
    | succ i =>
      have hEntry : (points.map Point.date)[i]? = some d := by simpa using hEntry
      have hDate : p.date ≠ d := fun hEq => hFresh (hEq ▸ List.mem_of_getElem? hEntry)
      rw [List.eraseIdx_cons_succ, List.filter_cons_of_pos (by simpa using hDate),
        ih hDistinct hEntry]

theorem eq_of_perm_of_ascending {points points' : List (Point α)} (hPerm : points.Perm points')
    (hDistinct : (points.map Point.date).Nodup) (h : points.Pairwise fun p q => p.date ≤ q.date)
    (h' : points'.Pairwise fun p q => p.date ≤ q.date) : points = points' := by
  refine hPerm.eq_of_pairwise ?_ h h'
  intro p q hp hq hpq hqp
  exact List.inj_on_of_nodup_map hDistinct hp (hPerm.mem_iff.mpr hq) (Instant.le_antisymm hpq hqp)

theorem mergeSort_eq_insertionSort {points : List (Point α)}
    (hDistinct : (points.map Point.date).Nodup) :
    (points.mergeSort fun p q => p.date ≤ q.date) =
      points.insertionSort fun p q => p.date ≤ q.date := by
  have : Std.Total fun p q : Point α => p.date ≤ q.date := ⟨fun p q => Instant.le_total p.date q.date⟩
  have : IsTrans (Point α) fun p q => p.date ≤ q.date := ⟨fun _ _ _ => Instant.le_trans⟩
  have hSorted : (points.mergeSort fun p q => p.date ≤ q.date).Perm points :=
    List.mergeSort_perm points _
  refine eq_of_perm_of_ascending (hSorted.trans (List.perm_insertionSort _ points).symm) ?_
    (Instant.pairwise_mergeSort Point.date points) (List.pairwise_insertionSort _ points)
  exact (hSorted.map Point.date).nodup_iff.mpr hDistinct

end Almanac.Series
