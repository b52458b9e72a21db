import Almanac.Proofs.Series.MonthEnd
import Almanac.Proofs.Series.Resampling

/-! # Several points at one date

Of several points at one date the index names the last, and so do the lookups of regular samples and
daily windows. A month end is the first of them. The two agree exactly if no month ends with points
at one date of which the first and the last have different values.
-/
namespace Almanac.Series
set_option autoImplicit false

section MonthEnds
variable {α : Type} {s : Series α} {d : Instant} {p : Point α}

def FirstAt (s : Series α) (d : Instant) (i : Nat) : Prop :=
  s.dates[i]? = some d ∧ ∀ j, j < i → s.dates[j]? ≠ some d

/-- No visible date of the same month is later. -/
def EndsMonth (s : Series α) (d : Instant) : Prop :=
  ∀ e ∈ s.dates, e.yearMonth = d.yearMonth → e ≤ d

theorem endsMonth_iff : s.EndsMonth d ↔ ∀ q ∈ s.points, q.date.month = d.month → q.date ≤ d := by
  rw [EndsMonth, dates, List.forall_mem_map]
  simp only [Instant.month_eq_month_iff]

theorem isMonthEnd_iff : IsMonthEnd s.points p ↔
    ∃ i, s.points[i]? = some p ∧ s.FirstAt p.date i ∧ s.EndsMonth p.date := by
  constructor
  · intro h
    have hLast : s.EndsMonth p.date := endsMonth_iff.mpr fun q => h.le
    obtain ⟨before, after, hSplit, hBefore, -⟩ := h
    have hHere : s.points[before.length]? = some p := by
      rw [hSplit, List.getElem?_append_right (Nat.le_refl _), Nat.sub_self]
      rfl
    refine ⟨before.length, hHere, ⟨?_, fun j hj hDate => ?_⟩, hLast⟩
    · rw [dates, List.getElem?_map, hHere]
      rfl
    · rw [dates, hSplit, List.getElem?_map, List.getElem?_append_left hj,
        Option.map_eq_some_iff] at hDate
      obtain ⟨q, hq, hSame⟩ := hDate
      have hEarlier := hBefore q (List.mem_of_getElem? hq) (congrArg Instant.month hSame)
      exact Instant.lt_irrefl p.date (hSame ▸ hEarlier)
  · rintro ⟨i, hHere, hFirst, hLast⟩
    have hLast := endsMonth_iff.mp hLast
    obtain ⟨hi, rfl⟩ := List.getElem?_eq_some_iff.mp hHere
    refine ⟨s.points.take i, s.points.drop (i + 1), ?_, fun q hq hSame => ?_, fun q hq hSame => ?_⟩
    · rw [← List.drop_eq_getElem_cons hi, List.take_append_drop]
    · refine Instant.lt_of_le_of_ne (hLast q (List.mem_of_mem_take hq) hSame) fun hDate => ?_
      obtain ⟨j, hj⟩ := List.mem_iff_getElem?.mp hq
      have hBefore := (List.getElem?_eq_some_iff.mp hj).1
      rw [List.length_take] at hBefore
      rw [List.getElem?_take_of_lt (by omega)] at hj
      refine hFirst.2 j (by omega) ?_
      rw [dates, List.getElem?_map, hj, Option.map_some, hDate]
    · exact hLast q (List.mem_of_mem_drop hq) hSame

end MonthEnds

section Lookups
variable {α : Type} [Hole α] {s : Series α}

theorem exists_intervals (h : s.IndexedBut []) {interval : Nat} (hPositive : 0 < interval)
    (unit : TimeUnit) : ∃ t, s.intervals interval unit = .ok t ∧
      ∀ p ∈ t.points, s.valueNear p.date .previous = .ok p.value := by
  rw [intervals, checkPositive, if_pos hPositive]
  cases s.dates.head? with
  | none => exact ⟨_, rfl, by simp [empty]⟩
  | some first =>
    cases s.dates.getLast? with
    | none => exact ⟨_, rfl, by simp [empty]⟩
    | some last =>
      obtain ⟨t, ht, hSampled⟩ := derived_sample_ok s (intervalDates first last interval unit)
        fun d _ => exists_valueNear h d
      exact ⟨t, ht, hSampled.values⟩

theorem exists_range_daily (h : s.IndexedBut []) (first last : Instant) :
    ∃ t, s.range first last .daily = .ok t ∧
      ∀ p ∈ t.points, s.valueNear p.date .previous = .ok p.value := by
  obtain ⟨points, hPoints, -, hValues⟩ := sample_ok fun d
    (_ : d ∈ first.grid last TimeUnit.day.seconds) => exists_valueNear h d
  refine ⟨s.derived (points.filter fun p => isFinite p.value), ?_, fun p hp => ?_⟩
  · rw [range, dailyIn, hPoints]
    rfl
  · rw [derived, points_ofPoints] at hp
    exact hValues p (List.mem_of_mem_filter hp)

end Lookups

/-- Every point of `t` at a date of `s` has the value that `s` gives on the date. -/
def Confirms (s t : Series Float) : Prop :=
  ∀ p ∈ t.points, p.date ∈ s.dates → ∃ x, s.valueOn p.date = .ok x ∧ agree p.value x = true

section Confirms
variable {s t : Series Float} {d : Instant}

theorem confirms_of_valueNear (h : s.IndexedBut [])
    (hValues : ∀ p ∈ t.points, s.valueNear p.date .previous = .ok p.value) : s.Confirms t := by
  intro p hp hDate
  refine ⟨p.value, ?_, agree_self p.value⟩
  rw [← valueNear_of_mem h hDate .previous, hValues p hp]

theorem LastAt.unique {i j : Nat} (hi : s.LastAt d i) (hj : s.LastAt d j) : i = j := by
  rcases Nat.lt_trichotomy i j with hLt | hEq | hLt
  · exact absurd hj.1 (hi.2 j hLt)
  · exact hEq
  · exact absurd hi.1 (hj.2 i hLt)

/-- The value on a date is the one at its last position. -/
theorem exists_valueOn_lastAt (h : s.IndexedBut []) (hd : d ∈ s.dates) :
    ∃ j q, s.LastAt d j ∧ s.points[j]? = some q ∧ s.valueOn d = .ok q.value := by
  obtain ⟨j, hj⟩ := h.exists_position? hd
  obtain ⟨q, hq, hValue⟩ := exists_valueAt (h.lt_count hj)
  refine ⟨j, q, lastAt_of_position? h hj, hq, ?_⟩
  rw [valueOn, hj]
  exact hValue

theorem confirms_monthEnds_iff (h : s.IndexedBut []) : s.Confirms s.monthEnds ↔
    ∀ i j p q, s.points[i]? = some p → s.points[j]? = some q → s.FirstAt p.date i →
      s.LastAt p.date j → s.EndsMonth p.date → agree p.value q.value = true := by
  have hMem : ∀ p, p ∈ s.monthEnds.points ↔ IsMonthEnd s.points p := fun p => by
    rw [monthEnds, derived, points_ofPoints, mem_monthEndPoints_iff]
  constructor
  · intro hConfirms i j p q hp hq hFirst hLast hEnds
    obtain ⟨x, hx, hAgree⟩ := hConfirms p
      ((hMem p).mpr (isMonthEnd_iff.mpr ⟨i, hp, hFirst, hEnds⟩)) (List.mem_of_getElem? hFirst.1)
    obtain ⟨k, r, hAt, hr, hValue⟩ := exists_valueOn_lastAt h (List.mem_of_getElem? hFirst.1)
    obtain rfl := hLast.unique hAt
    obtain rfl := Option.some.inj (hq.symm.trans hr)
    obtain rfl := Except.ok.inj (hx.symm.trans hValue)
    exact hAgree
  · intro hAgree p hp hDate
    obtain ⟨i, hHere, hFirst, hEnds⟩ := isMonthEnd_iff.mp ((hMem p).mp hp)
    obtain ⟨j, q, hLast, hq, hValue⟩ := exists_valueOn_lastAt h hDate
    exact ⟨q.value, hValue, hAgree i j p q hHere hq hFirst hLast hEnds⟩

end Confirms

/-- The regular samples and the daily windows of a series on a calendar without the sentinel have
the values that the series gives on its dates, whatever dates repeat. The month ends are the first
points at the dates that end a month, so they have these values exactly if no such date has a first
and a last point of different values. -/
theorem resampled_points_confirmed_iff {calendar : Calendar} {values : List Float}
    (hLength : values.length ≤ calendar.length) (hReal : .sentinel ∉ calendar) :
    ∃ s, ofCalendar? calendar values = .ok s ∧
      (∀ interval, 0 < interval → ∃ t, s.intervals interval .day = .ok t ∧ s.Confirms t) ∧
      (∀ first last, ∃ t, s.range first last .daily = .ok t ∧ s.Confirms t) ∧
      (∀ p, p ∈ s.monthEnds.points ↔
        ∃ i, s.points[i]? = some p ∧ s.FirstAt p.date i ∧ s.EndsMonth p.date) ∧
      (s.Confirms s.monthEnds ↔
        ∀ i j p q, s.points[i]? = some p → s.points[j]? = some q → s.FirstAt p.date i →
          s.LastAt p.date j → s.EndsMonth p.date → agree p.value q.value = true) := by
  let s : Series Float := ofPoints default (List.zipWith Point.mk calendar values)
  have hIndexed : s.IndexedBut [] := by
    refine (indexedBut_ofPoints _ _).of_real fun hSentinel => hReal ?_
    rw [dates_ofPoints, map_date_zipWith] at hSentinel
    exact List.mem_of_mem_take hSentinel
  refine ⟨s, if_neg (Nat.not_lt.mpr hLength), fun interval hPositive => ?_, fun first last => ?_,
    fun p => ?_, confirms_monthEnds_iff hIndexed⟩
  · obtain ⟨t, ht, hValues⟩ := exists_intervals hIndexed hPositive .day
    exact ⟨t, ht, confirms_of_valueNear hIndexed hValues⟩
  · obtain ⟨t, ht, hValues⟩ := exists_range_daily hIndexed first last
    exact ⟨t, ht, confirms_of_valueNear hIndexed hValues⟩
  · rw [monthEnds, derived, points_ofPoints, mem_monthEndPoints_iff, isMonthEnd_iff]

/-- Two points at the one date of a month: the month end has the value of the first, and the date
that of the last. -/
theorem month_end_is_first_of_repeat :
    let d : Instant := ⟨30 * nanosPerDay, by decide, by decide⟩
    ∃ s : Series Float, [(1 : Float), 2].length ≤ [d, d].length ∧ .sentinel ∉ [d, d] ∧
      ofCalendar? [d, d] [1, 2] = .ok s ∧ ⟨d, 1⟩ ∈ s.monthEnds.points ∧ s.valueOn d = .ok 2 ∧
      ¬ s.Confirms s.monthEnds := by
  intro d
  have hLength : [(1 : Float), 2].length ≤ [d, d].length := by decide
  have hReal : Instant.sentinel ∉ [d, d] := by decide
  obtain ⟨s, hMade, -, -, hEnds, hConfirms⟩ := resampled_points_confirmed_iff hLength hReal
  obtain rfl := Except.ok.inj hMade
  let s : Series Float := ofPoints default [⟨d, 1⟩, ⟨d, 2⟩]
  have hDates : s.dates = [d, d] := rfl
  have hFirst : s.FirstAt d 0 := ⟨rfl, fun j hj => absurd hj (Nat.not_lt_zero j)⟩
  have hLast : s.LastAt d 1 := by
    refine ⟨rfl, fun j hj => ?_⟩
    rw [hDates, List.getElem?_eq_none hj]
    exact Option.some_ne_none d |>.symm
  have hEndsMonth : s.EndsMonth d := by
    intro e he _
    obtain rfl : e = d := by simpa [hDates] using he
    exact Instant.le_refl _
  have hValue : s.valueOn d = .ok 2 := by
    have hIndexed : s.IndexedBut [] := (indexedBut_ofPoints _ _).of_real (by decide)
    obtain ⟨j, q, hAt, hq, hValue⟩ := exists_valueOn_lastAt hIndexed (d := d) (by decide)
    obtain rfl := hLast.unique hAt
    obtain rfl := Option.some.inj hq
    exact hValue
  refine ⟨s, hLength, hReal, rfl, (hEnds ⟨d, 1⟩).mpr ⟨0, rfl, hFirst, hEndsMonth⟩, hValue, ?_⟩
  intro hAll
  have hAgree : agree 1 2 = true := 
    hConfirms.mp hAll 0 1 ⟨d, 1⟩ ⟨d, 2⟩ rfl rfl hFirst hLast hEndsMonth
  exact absurd hAgree (by decide)

end Almanac.Series
