import Mathlib.Data.List.Pairwise
import Mathlib.Data.List.TakeWhile
import Almanac.Proofs.Grid
import Almanac.Proofs.Series.Neighbour
import Almanac.Series.Window

/-! # Windows of dates

A window of observed points is read up to the first point behind it. What it leaves out are the
points of the window that come later still, of which a series with ascending dates has none. A daily
window asks each of its days, whole days apart, for the value at the last position up to it.
-/
namespace Almanac.Series
set_option autoImplicit false

variable {α : Type} {s : Series α} {d : Instant} {x : α}

section Observed

/-- Where all that counts is read, none of it is lost exactly if none of it comes behind an entry at
which the reading stops. -/
theorem filter_dropWhile_eq_nil_iff {β : Type} {reads counts : β → Bool}
    (hReads : ∀ b, counts b = true → reads b = true) (l : List β) :
    (l.dropWhile reads).filter counts = [] ↔
      l.Pairwise fun a b => reads a = false → counts b = false := by
  induction l with
  | nil => simp
  | cons a l ih =>
    rw [List.dropWhile_cons, List.pairwise_cons]
    split
    · rename_i hRead
      rw [ih, and_iff_right]
      intro b _ hStop
      cases hRead.symm.trans hStop
    · rename_i hStop
      rw [Bool.not_eq_true] at hStop
      simp only [List.filter_eq_nil_iff, List.mem_cons, forall_eq_or_imp, Bool.not_eq_true]
      constructor
      · rintro ⟨-, hRest⟩
        exact ⟨fun b hb _ => hRest b hb,
          List.pairwise_of_forall_mem_list fun _ _ b hb _ => hRest b hb⟩
      · rintro ⟨hRest, -⟩
        refine ⟨?_, fun b hb => hRest b hb hStop⟩
        rw [Bool.eq_false_iff]
        intro hCounts
        cases hStop.symm.trans (hReads a hCounts)

variable [Hole α]

/-- A finite value in a window of dates. -/
def qualifies (first last : Instant) (p : Point α) : Bool :=
  first ≤ p.date && p.date ≤ last && isFinite p.value

theorem observedIn_eq (s : Series α) (first last : Instant) : s.observedIn first last =
    (s.points.takeWhile fun p => p.date ≤ last).filter (qualifies first last) := by
  apply List.filter_congr
  intro p hp
  have hLast := List.mem_takeWhile_imp hp
  rw [qualifies, hLast, Bool.and_true]

theorem observedIn_eq_filter_iff (s : Series α) (first last : Instant) :
    s.observedIn first last = s.points.filter (qualifies first last) ↔
      s.points.Pairwise fun p q => last < p.date → qualifies first last q = false := by
  have hReads : ∀ p : Point α, qualifies first last p = true → decide (p.date ≤ last) = true := by
    intro p hp
    simp only [qualifies, Bool.and_eq_true] at hp
    exact hp.1.2
  have hLost := filter_dropWhile_eq_nil_iff hReads s.points
  simp only [decide_eq_false_iff_not, Instant.not_le] at hLost
  rw [← hLost, observedIn_eq]
  generalize hSeen : s.points.takeWhile (fun p => p.date ≤ last) = seen
  generalize hRest : s.points.dropWhile (fun p => p.date ≤ last) = rest
  have hSplit : s.points = seen ++ rest := by
    rw [← hSeen, ← hRest, List.takeWhile_append_dropWhile]
  rw [hSplit, List.filter_append]
  exact List.self_eq_append_right

/-- A window of observed points holds the points that qualify up to the first date after the window.
It is complete exactly if no point that qualifies comes behind such a date. -/
theorem range_observed_complete_iff (s : Series α) (first last : Instant) :
    ∃ t, s.range first last .observed = .ok t ∧
      (∃ seen rest, s.points = seen ++ rest ∧ (∀ p ∈ seen, p.date ≤ last) ∧
        (∀ p, rest.head? = some p → last < p.date) ∧
        t.points = seen.filter (qualifies first last)) ∧
      (t.points = s.points.filter (qualifies first last) ↔
        s.points.Pairwise fun p q => last < p.date → qualifies first last q = false) ∧
      (s.dates.Pairwise (· ≤ ·) → t.points = s.points.filter (qualifies first last)) := by
  refine ⟨s.derived (s.observedIn first last), rfl, ?_⟩
  rw [derived, points_ofPoints]
  refine ⟨⟨s.points.takeWhile fun p => p.date ≤ last, s.points.dropWhile fun p => p.date ≤ last,
    List.takeWhile_append_dropWhile.symm, fun p hp => ?_, fun p hp => ?_, observedIn_eq s first last⟩,
    observedIn_eq_filter_iff s first last, fun hAscending => ?_⟩
  · simpa using List.mem_takeWhile_imp hp
  · have hStop := List.head?_dropWhile_not (fun p : Point α => decide (p.date ≤ last)) s.points
    rw [hp] at hStop
    simpa [Instant.not_le] using hStop
  · rw [observedIn_eq_filter_iff]
    refine (List.pairwise_map.mp hAscending).imp fun {p q} hpq hAfter => ?_
    have hLater : ¬ q.date ≤ last := Instant.not_le.mpr (Instant.lt_of_lt_of_le hAfter hpq)
    simp [qualifies, hLater]

/-- The window is the date of the last point, and a later date stands before it. -/
theorem late_point_hides_earlier_one :
    let first : Instant := ⟨0, by decide, by decide⟩
    let s : Series Float := ofPoints default [⟨.latest, 1⟩, ⟨first, 2⟩]
    ∃ t, s.range first first .observed = .ok t ∧ ⟨first, 2⟩ ∈ s.points ∧
      qualifies first first (⟨first, 2⟩ : Point Float) = true ∧
      t.points ≠ s.points.filter (qualifies first first) := by
  intro first s
  obtain ⟨t, ht, -, hComplete, -⟩ := range_observed_complete_iff s first first
  have hPoints : s.points = [⟨.latest, 1⟩, ⟨first, 2⟩] := rfl
  have hQualifies : qualifies first first (⟨first, 2⟩ : Point Float) = true := by decide
  refine ⟨t, ht, by simp [hPoints], hQualifies, fun hAll => ?_⟩
  have hNone := hComplete.mp hAll
  rw [hPoints] at hNone
  have hHidden := (List.pairwise_cons.mp hNone).1 _ (List.mem_singleton.mpr rfl) (by decide)
  cases hQualifies.symm.trans hHidden

end Observed

section Daily

/-- The value at the last position dated at or before a date. -/
def ValueUpTo (s : Series α) (d : Instant) (x : α) : Prop :=
  ∃ i, s.LastUpTo d i ∧ s.value? i = some x

theorem LastUpTo.eq {i j : Nat} (hi : s.LastUpTo d i) (hj : s.LastUpTo d j) : i = j := by
  obtain ⟨⟨e, he, hLe⟩, hAfter⟩ := hi
  obtain ⟨⟨f, hf, hLe'⟩, hAfter'⟩ := hj
  rcases Nat.lt_trichotomy i j with hLt | hSame | hLt
  · exact absurd hLe' (Instant.not_le.mpr (hAfter j f hLt hf))
  · exact hSame
  · exact absurd hLe (Instant.not_le.mpr (hAfter' i e hLt he))

theorem ValueUpTo.reached (h : s.ValueUpTo d x) (hAscending : s.dates.Pairwise (· ≤ ·)) :
    ¬ s.Unreached d := by
  obtain ⟨i, ⟨⟨e, he, hLe⟩, -⟩, -⟩ := h
  intro hNone
  have hLater := lt_of_unreached hAscending hNone (List.mem_of_getElem? he)
  exact Instant.not_lt.mpr hLe hLater

theorem reached_iff : ¬ s.Unreached d ↔ ∃ e, s.dates.head? = some e ∧ e ≤ d := by
  rw [Unreached]
  cases s.dates with
  | nil => simp
  | cons e dates => simp [Instant.not_lt]

variable [Hole α]

/-- The lookup of the previous neighbour gives the value up to a date, and a hole before the first
one. -/
theorem valueNear_eq_ok_iff (h : s.IndexedBut []) (hAscending : s.dates.Pairwise (· ≤ ·)) :
    s.valueNear d .previous = .ok x ↔ s.ValueUpTo d x ∨ s.Unreached d ∧ x = hole := by
  by_cases hReached : s.Unreached d
  · have hNone : ¬ s.ValueUpTo d x := fun hValue => hValue.reached hAscending hReached
    rw [valueNear, closest?_of_unreached h hAscending hReached, or_iff_right hNone,
      and_iff_right hReached]
    constructor
    · rintro ⟨⟩
      rfl
    · rintro rfl
      rfl
  · obtain ⟨e, he, hLe⟩ := exists_le_of_reached hReached
    obtain ⟨i, hClosest, hLast⟩ := closest?_eq_lastUpTo h hAscending he hLe
    have hHere : s.valueNear d .previous = present (s.value? i) := by
      rw [valueNear, hClosest]
      rfl
    rw [hHere, or_iff_left fun hNone => hReached hNone.1]
    constructor
    · intro hValue
      refine ⟨i, hLast, ?_⟩
      cases hAt : s.value? i with
      | none => cases hAt ▸ hValue
      | some y => cases hAt ▸ hValue; rfl
    · rintro ⟨j, hLast', hValue⟩
      rw [hLast.eq hLast', hValue]
      rfl

theorem exists_valueNear (h : s.IndexedBut []) (d : Instant) :
    ∃ x, s.valueNear d .previous = .ok x := valueNear_answers_iff.mpr (h.reachesNear d)

theorem valueNear_finite_iff (h : s.IndexedBut []) (hAscending : s.dates.Pairwise (· ≤ ·)) :
    s.valueNear d .previous = .ok x ∧ isFinite x = true ↔
      s.ValueUpTo d x ∧ isFinite x = true := by
  rw [valueNear_eq_ok_iff h hAscending, and_congr_left_iff, or_iff_left_iff_imp]
  rintro hFinite ⟨-, rfl⟩
  cases isFinite_hole.symm.trans hFinite

omit [Hole α] in
theorem mem_sampled_iff {dates : Calendar} (look : Instant → Checked α) {points : List (Point α)}
    (hDates : points.map Point.date = dates) (hValues : ∀ p ∈ points, look p.date = .ok p.value)
    (p : Point α) : p ∈ points ↔ p.date ∈ dates ∧ look p.date = .ok p.value := by
  constructor
  · intro hp
    exact ⟨hDates ▸ List.mem_map_of_mem hp, hValues p hp⟩
  · rintro ⟨hDate, hValue⟩
    rw [← hDates] at hDate
    obtain ⟨q, hq, hSame⟩ := List.mem_map.mp hDate
    have hEq := hValues q hq
    rw [hSame, hValue] at hEq
    obtain ⟨d, x⟩ := p
    obtain ⟨e, y⟩ := q
    cases hSame
    cases hEq
    exact hq

/-- A daily window holds, in strictly ascending order, the days of the window that are whole days
after its start, reach the first date of the series and have a finite value up to them. -/
theorem range_daily_samples_days (h : s.IndexedBut []) (hAscending : s.dates.Pairwise (· ≤ ·))
    (first last : Instant) :
    ∃ t, s.range first last .daily = .ok t ∧ t.dates.Pairwise (· < ·) ∧
      (∀ p, p ∈ t.points ↔
        (∃ k : Nat, p.date.nanos = first.nanos + k * nanosPerDay) ∧ p.date ≤ last ∧
        (∃ e, s.dates.head? = some e ∧ e ≤ p.date) ∧ s.ValueUpTo p.date p.value ∧
        isFinite p.value = true) ∧
      (last < first → t.points = []) := by
  have hStep : 0 < TimeUnit.day.seconds := by decide
  obtain ⟨points, hPoints, hDates, hValues⟩ := sample_ok fun d
    (_ : d ∈ first.grid last TimeUnit.day.seconds) => exists_valueNear h d
  have hRange : s.range first last .daily =
      .ok (s.derived (points.filter fun p => isFinite p.value)) := by
    rw [range, dailyIn, hPoints]
    rfl
  refine ⟨_, hRange, ?_, fun p => ?_, fun hEmpty => ?_⟩
  · rw [derived, dates_ofPoints]
    have hAll : (points.map Point.date).Pairwise (· < ·) := hDates ▸ Instant.pairwise_grid hStep
    exact hAll.sublist (List.filter_sublist.map Point.date)
  · rw [derived, points_ofPoints, List.mem_filter,
      mem_sampled_iff (s.valueNear · .previous) hDates hValues, and_assoc,
      valueNear_finite_iff h hAscending, Instant.mem_grid_iff hStep]
    constructor
    · rintro ⟨⟨hLast, hDays⟩, hValue, hFinite⟩
      exact ⟨hDays, hLast, reached_iff.mp (hValue.reached hAscending), hValue, hFinite⟩
    · rintro ⟨hDays, hLast, -, hValue, hFinite⟩
      exact ⟨⟨hLast, hDays⟩, hValue, hFinite⟩
  · rw [derived, points_ofPoints]
    rw [Instant.grid_eq hStep, if_neg (Instant.not_le.mpr hEmpty), List.map_eq_nil_iff] at hDates
    rw [hDates]
    rfl

/-- The window of the last two days of the calendar, behind two points at one date. -/
theorem daily_points_reach_the_latest :
    let day : Instant := ⟨Instant.greatestNanos - nanosPerDay, by decide, by decide⟩
    let s : Series Float := ofPoints default [⟨day, 1⟩, ⟨day, 2⟩]
    s.IndexedBut [] ∧ s.dates.Pairwise (· ≤ ·) ∧
      ∃ t, s.range day .latest .daily = .ok t ∧ ⟨day, 2⟩ ∈ t.points ∧ ⟨.latest, 2⟩ ∈ t.points := by
  intro day s
  have hIndexed : s.IndexedBut [] := (indexedBut_ofPoints _ _).of_real (by decide)
  have hAscending : s.dates.Pairwise (· ≤ ·) := by decide
  obtain ⟨t, ht, -, hPoints, -⟩ := range_daily_samples_days hIndexed hAscending day .latest
  have hValue : ∀ d : Instant, day ≤ d → s.ValueUpTo d 2 := by
    intro d hd
    refine ⟨1, ⟨⟨day, rfl, hd⟩, ?_⟩, rfl⟩
    rintro (_ | _ | j) e hj he
    · cases hj
    · exact absurd hj (Nat.lt_irrefl 1)
    · cases he
  have hReached : ∀ d : Instant, day ≤ d → ∃ e, s.dates.head? = some e ∧ e ≤ d :=
    fun d hd => ⟨day, rfl, hd⟩
  refine ⟨hIndexed, hAscending, t, ht, (hPoints _).mpr ?_, (hPoints _).mpr ?_⟩
  · have hDay : day ≤ day := by decide
    exact ⟨⟨0, by decide⟩, by decide, hReached day hDay, hValue day hDay, by decide⟩
  · have hDay : day ≤ .latest := by decide
    exact ⟨⟨1, by decide⟩, by decide, hReached .latest hDay, hValue .latest hDay, by decide⟩

end Daily
end Almanac.Series
