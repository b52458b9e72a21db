import Mathlib.Data.List.Sort
import Almanac.Proofs.Month
import Almanac.Proofs.Pass
import Almanac.Proofs.Series.Gaps
import Almanac.Series.Resampling

/-! # Month ends

The month end of a point list is the first of the points with the greatest date of a month. There is
one for each month that some point lies in, in the order of the months, which is the order of the
dates. Where dates are distinct, it is the point of the greatest date.
-/
namespace Almanac.Series
set_option autoImplicit false

variable {α : Type} {points : List (Point α)} {p : Point α}

section LastDated

theorem foldl_later_of_le (h : ∀ q ∈ points, q.date ≤ p.date) :
    points.foldl (fun best q => if best.date < q.date then q else best) p = p := by
  induction points with
  | nil => rfl
  | cons q points ih =>
    obtain ⟨hFirst, hRest⟩ := List.forall_mem_cons.mp h
    rw [List.foldl_cons, if_neg (Instant.not_lt.mpr hFirst)]
    exact ih hRest

/-- The point of the greatest date comes behind earlier ones, and none behind it is later. -/
theorem lastDated?_eq_some_iff : lastDated? points = some p ↔
    ∃ before after, points = before ++ p :: after ∧ (∀ q ∈ before, q.date < p.date) ∧
      ∀ q ∈ after, q.date ≤ p.date := by
  constructor
  · intro h
    cases points with
    | nil => cases h
    | cons first points =>
      obtain rfl := Option.some.inj h
      exact Pass.foldl_first_greatest (fun q : Point α => q.date.nanos) first points
  · rintro ⟨before, after, rfl, hBefore, hAfter⟩
    cases before with
    | nil => exact congrArg some (foldl_later_of_le hAfter)
    | cons first before =>
      obtain ⟨seen, rest, hSplit, -⟩ :=
        Pass.foldl_first_greatest (fun q : Point α => q.date.nanos) first before
      have hEarlier : (before.foldl (fun best q => if best.date < q.date then q else best)
          first).date < p.date := by
        apply hBefore
        rw [hSplit]
        exact List.mem_append_right seen List.mem_cons_self
      rw [List.cons_append, lastDated?, List.foldl_append, List.foldl_cons, if_pos hEarlier,
        foldl_later_of_le hAfter]

end LastDated

section Months

/-- The months that some point lies in, each once, in order. -/
def months (points : List (Point α)) : List Int :=
  ((points.map fun p => p.date.month).mergeSort fun m n => m ≤ n).eraseReps

def inMonth (points : List (Point α)) (month : Int) : List (Point α) :=
  points.filter fun p => p.date.month = month

/-- The first of the points with the greatest date of a month. -/
def IsMonthEnd (points : List (Point α)) (p : Point α) : Prop :=
  ∃ before after, points = before ++ p :: after ∧
    (∀ q ∈ before, q.date.month = p.date.month → q.date < p.date) ∧
    ∀ q ∈ after, q.date.month = p.date.month → q.date ≤ p.date

theorem IsMonthEnd.mem (h : IsMonthEnd points p) : p ∈ points := by
  obtain ⟨before, after, rfl, -⟩ := h
  exact List.mem_append_right before List.mem_cons_self

theorem IsMonthEnd.le (h : IsMonthEnd points p) {q : Point α} (hq : q ∈ points)
    (hMonth : q.date.month = p.date.month) : q.date ≤ p.date := by
  obtain ⟨before, after, rfl, hBefore, hAfter⟩ := h
  rcases List.mem_append.mp hq with hq | hq
  · exact Instant.le_of_lt (hBefore q hq hMonth)
  · rcases List.mem_cons.mp hq with rfl | hq
    · exact Instant.le_refl _
    · exact hAfter q hq hMonth

theorem pairwise_months (points : List (Point α)) : (months points).Pairwise (· < ·) := by
  apply Pass.pairwise_eraseReps
  exact List.sortedLE_mergeSort.pairwise.imp fun hLe hNe => lt_of_le_of_ne hLe hNe

theorem mem_months (points : List (Point α)) (month : Int) :
    month ∈ months points ↔ ∃ p ∈ points, p.date.month = month := by
  rw [months, Pass.mem_eraseReps, List.mem_mergeSort, List.mem_map]

theorem monthEndPoints_eq (points : List (Point α)) :
    monthEndPoints points = (months points).filterMap fun month => lastDated? (inMonth points month) := by
  have hMonths : (points.map fun p => (p.date.month, p)).map Prod.fst =
      points.map fun p => p.date.month := List.map_map
  have hGroup : ∀ month : Int, ((points.map fun p => (p.date.month, p)).filterMap fun entry =>
      if entry.1 = month then some entry.2 else none) = inMonth points month := by
    intro month
    rw [List.filterMap_map, inMonth, ← List.filterMap_eq_filter]
    apply List.filterMap_congr
    intro p _
    by_cases hMonth : p.date.month = month <;> simp [hMonth, Option.guard]
  rw [monthEndPoints]
  simp only [hMonths, hGroup]
  rfl

theorem lastDated?_inMonth_eq_some_iff {month : Int} :
    lastDated? (inMonth points month) = some p ↔ p.date.month = month ∧ IsMonthEnd points p := by
  rw [lastDated?_eq_some_iff, inMonth]
  constructor
  · rintro ⟨before, after, hSplit, hBefore, hAfter⟩
    obtain ⟨seen, rest, rfl, rfl, hRest⟩ := List.filter_eq_append_iff.mp hSplit
    obtain ⟨skipped, later, rfl, hSkipped, hHere, rfl⟩ := List.filter_eq_cons_iff.mp hRest
    have hMonth : p.date.month = month := by simpa using hHere
    subst hMonth
    refine ⟨rfl, seen ++ skipped, later, by simp, ?_, ?_⟩
    · intro q hq hSame
      rcases List.mem_append.mp hq with hq | hq
      · exact hBefore q (List.mem_filter.mpr ⟨hq, by simpa using hSame⟩)
      · exact absurd (by simpa using hSame) (hSkipped q hq)
    · intro q hq hSame
      exact hAfter q (List.mem_filter.mpr ⟨hq, by simpa using hSame⟩)
  · rintro ⟨rfl, before, after, rfl, hBefore, hAfter⟩
    refine ⟨inMonth before p.date.month, inMonth after p.date.month, ?_, ?_, ?_⟩
    · rw [List.filter_append, List.filter_cons_of_pos (by simp)]
      rfl
    · intro q hq
      obtain ⟨hq, hSame⟩ := List.mem_filter.mp hq
      exact hBefore q hq (by simpa using hSame)
    · intro q hq
      obtain ⟨hq, hSame⟩ := List.mem_filter.mp hq
      exact hAfter q hq (by simpa using hSame)

theorem mem_monthEndPoints_iff : p ∈ monthEndPoints points ↔ IsMonthEnd points p := by
  rw [monthEndPoints_eq, List.mem_filterMap]
  simp only [lastDated?_inMonth_eq_some_iff]
  constructor
  · rintro ⟨-, -, -, hEnd⟩
    exact hEnd
  · intro hEnd
    exact ⟨p.date.month, (mem_months points _).mpr ⟨p, hEnd.mem, rfl⟩, rfl, hEnd⟩

theorem map_month_monthEndPoints (points : List (Point α)) :
    ((monthEndPoints points).map fun p => p.date.month) = months points := by
  rw [monthEndPoints_eq, List.map_filterMap]
  conv_rhs => rw [← List.filterMap_some (l := months points)]
  apply List.filterMap_congr
  intro month hMonth
  obtain ⟨p, hp, hHere⟩ := (mem_months points month).mp hMonth
  have hSome : inMonth points month ≠ [] :=
    List.ne_nil_of_mem (List.mem_filter.mpr ⟨hp, by simpa using hHere⟩)
  obtain ⟨first, rest, hGroup⟩ := List.exists_cons_of_ne_nil hSome
  have hLast : lastDated? (inMonth points month) = some _ := congrArg lastDated? hGroup
  rw [hLast, Option.map_some, (lastDated?_inMonth_eq_some_iff.mp hLast).1]

theorem exists_monthEnd (hp : p ∈ points) :
    ∃ q ∈ monthEndPoints points, q.date.month = p.date.month := by
  have hMonth := (mem_months points _).mpr ⟨p, hp, rfl⟩
  rwa [← map_month_monthEndPoints, List.mem_map] at hMonth

theorem pairwise_monthEndPoints (points : List (Point α)) :
    (monthEndPoints points).Pairwise fun p q => p.date.month < q.date.month := by
  rw [← List.pairwise_map (f := fun p : Point α => p.date.month), map_month_monthEndPoints]
  exact pairwise_months points

theorem isMonthEnd_of_pairwise (h : points.Pairwise fun p q => p.date.month < q.date.month)
    (hp : p ∈ points) : IsMonthEnd points p := by
  obtain ⟨before, after, rfl⟩ := List.append_of_mem hp
  obtain ⟨-, hRest, hBefore⟩ := List.pairwise_append.mp h
  refine ⟨before, after, rfl, fun q hq hSame => ?_, fun q hq hSame => ?_⟩
  · exact absurd hSame (hBefore q hq p List.mem_cons_self).ne
  · exact absurd hSame ((List.pairwise_cons.mp hRest).1 q hq).ne'

theorem monthEndPoints_monthEndPoints (points : List (Point α)) :
    monthEndPoints (monthEndPoints points) = monthEndPoints points := by
  have : Std.Irrefl fun p q : Point α => p.date.month < q.date.month := ⟨fun _ => lt_irrefl _⟩
  have : Std.Antisymm fun p q : Point α => p.date.month < q.date.month :=
    ⟨fun _ _ hpq hqp => absurd hpq hqp.asymm⟩
  refine (pairwise_monthEndPoints _).eq_of_mem_iff (pairwise_monthEndPoints points) fun p => ?_
  rw [mem_monthEndPoints_iff]
  exact ⟨IsMonthEnd.mem, isMonthEnd_of_pairwise (pairwise_monthEndPoints points)⟩

theorem isMonthEnd_iff_of_distinct (hDistinct : (points.map Point.date).Nodup) :
    IsMonthEnd points p ↔
      p ∈ points ∧ ∀ q ∈ points, q.date.month = p.date.month → q.date ≤ p.date := by
  constructor
  · intro h
    exact ⟨h.mem, fun q => h.le⟩
  · rintro ⟨hp, hLast⟩
    obtain ⟨before, after, rfl⟩ := List.append_of_mem hp
    refine ⟨before, after, rfl, fun q hq hSame => ?_, fun q hq hSame => ?_⟩
    · refine Instant.lt_of_le_of_ne (hLast q (List.mem_append_left _ hq) hSame) ?_
      rw [List.map_append] at hDistinct
      exact (List.nodup_append.mp hDistinct).2.2 _ (List.mem_map_of_mem hq) _ List.mem_cons_self
    · exact hLast q (List.mem_append_right _ (List.mem_cons_of_mem p hq)) hSame

end Months

variable [Hole α]

/-- Where dates are distinct, in whatever order they come, the month ends are one point for each
year and month that some date lies in, in ascending order: the point of the greatest date of its
month. To take month ends again changes nothing. -/
theorem monthEnds_of_distinct_dates (s : Series α) (hDistinct : s.dates.Nodup) :
    (∀ m, (s.monthEnds.dates.map Instant.yearMonth).count m =
      if m ∈ s.dates.map Instant.yearMonth then 1 else 0) ∧
    (s.monthEnds.dates.map Instant.yearMonth).Pairwise (· < ·) ∧
    s.monthEnds.dates.Pairwise (· < ·) ∧
    (∀ p, p ∈ s.monthEnds.points ↔ p ∈ s.points ∧
      ∀ q ∈ s.points, q.date.yearMonth = p.date.yearMonth → q.date ≤ p.date) ∧
    s.monthEnds.monthEnds = s.monthEnds := by
  have hPoints : s.monthEnds.points = monthEndPoints s.points := points_ofPoints _ _
  have hMonths : (s.monthEnds.dates.map Instant.yearMonth).Pairwise (· < ·) := by
    rw [dates, hPoints, List.map_map, List.pairwise_map]
    exact (pairwise_monthEndPoints s.points).imp Instant.month_lt_month_iff.mp
  have hMem : ∀ p, p ∈ s.monthEnds.points ↔ p ∈ s.points ∧
      ∀ q ∈ s.points, q.date.yearMonth = p.date.yearMonth → q.date ≤ p.date := by
    intro p
    rw [hPoints, mem_monthEndPoints_iff, isMonthEnd_iff_of_distinct hDistinct]
    simp only [Instant.month_eq_month_iff]
  refine ⟨fun m => ?_, hMonths, ?_, hMem, ?_⟩
  · rw [hMonths.nodup.count]
    refine if_congr ⟨fun hEnd => ?_, fun hDate => ?_⟩ rfl rfl
    · obtain ⟨d, hd, rfl⟩ := List.mem_map.mp hEnd
      obtain ⟨p, hp, rfl⟩ := List.mem_map.mp hd
      exact List.mem_map_of_mem (List.mem_map_of_mem ((hMem p).mp hp).1)
    · obtain ⟨d, hd, rfl⟩ := List.mem_map.mp hDate
      obtain ⟨p, hp, rfl⟩ := List.mem_map.mp hd
      obtain ⟨q, hq, hSame⟩ := exists_monthEnd hp
      rw [← Instant.month_eq_month_iff.mp hSame]
      exact List.mem_map_of_mem (List.mem_map_of_mem (hPoints ▸ hq))
  · rw [dates, hPoints, List.pairwise_map]
    exact (pairwise_monthEndPoints s.points).imp Instant.lt_of_month_lt
  · rw [monthEnds, hPoints, monthEndPoints_monthEndPoints]
    exact congrArg (ofPoints · _) (options_ofPoints _ _)

/-- Two days of the last month before year zero, the first and the last of January of year zero, and
the first of January of year one, in no order. -/
theorem monthEnds_around_year_zero :
    let eve : Instant := ⟨-nanosPerDay, by decide, by decide⟩
    let earlier : Instant := ⟨-2 * nanosPerDay, by decide, by decide⟩
    let newYear : Instant := ⟨0, by decide, by decide⟩
    let last : Instant := ⟨30 * nanosPerDay, by decide, by decide⟩
    let next : Instant := ⟨366 * nanosPerDay, by decide, by decide⟩
    let s : Series Float := ofPoints default
      [⟨last, 1⟩, ⟨eve, 2⟩, ⟨newYear, 3⟩, ⟨next, 4⟩, ⟨earlier, 5⟩]
    s.dates.Nodup ∧ (s.monthEnds.dates.map Instant.yearMonth).count (toLex (-1, 12)) = 1 ∧
      (s.monthEnds.dates.map Instant.yearMonth).count (toLex (0, 2)) = 0 ∧
      ⟨eve, 2⟩ ∈ s.monthEnds.points ∧ ⟨last, 1⟩ ∈ s.monthEnds.points ∧
      ⟨newYear, 3⟩ ∉ s.monthEnds.points ∧ ⟨next, 4⟩ ∈ s.monthEnds.points := by
  intro eve earlier newYear last next s
  have hDistinct : s.dates.Nodup := by decide
  obtain ⟨hCount, -, -, hMem, -⟩ := monthEnds_of_distinct_dates s hDistinct
  have hPoints : s.points = [⟨last, 1⟩, ⟨eve, 2⟩, ⟨newYear, 3⟩, ⟨next, 4⟩, ⟨earlier, 5⟩] := rfl
  simp only [hMem, hCount, hPoints]
  refine ⟨hDistinct, by decide, by decide, ?_, ?_, ?_, ?_⟩
  · decide
  · decide
  · decide
  · decide

end Almanac.Series
