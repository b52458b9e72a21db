import Almanac.Proofs.Series.Crossing
import Almanac.Proofs.Series.Template

/-! # Directions and level crossings

An observation is compared with the one before it, whatever holes lie between the two. Read along
the points, the flags depend on the last observation alone, so that further holes change none of
them.
-/
namespace Almanac.Series
set_option autoImplicit false

variable {α : Type} [Hole α]

section Before
variable {s : Series α} {i : Nat}

theorem before?_succ (s : Series α) (i : Nat) :
    s.before? (i + 1) = if Holes.isGap i s then s.before? i else some i := rfl

theorem before?_eq_none_iff : s.before? i = none ↔ ∀ j < i, Holes.isGap j s = true := by
  constructor
  · intro hNone j hj
    by_contra hKept
    obtain ⟨k, hk⟩ : ∃ k, s.before? i = some k :=
      exists_lastKept?_of_lt hj (Bool.eq_false_iff.mpr hKept)
    cases hNone.symm.trans hk
  · intro hGaps
    cases hBefore : s.before? i with
    | none => rfl
    | some j =>
      obtain ⟨hj, hKept, -⟩ := (lastKept?_eq_some_iff i j).mp hBefore
      rw [hGaps j hj] at hKept
      cases hKept

end Before

section Steps
variable [Zero α] [One α] (test : α → α → Bool)

/-- The flag of a test of the observation before a position and the one at it. -/
def stepFlag (s : Series α) (i : Nat) : α :=
  if Holes.isGap i s then hole
  else (s.before? i).elim hole fun j => flag (test (s.reading j) (s.reading i))

theorem reading_combine_shift_back (s : Series α) (i : Nat) :
    ((s.shift (-1)).combine (fun x y => flag (test x y)) s).reading i = s.stepFlag test i := by
  rw [reading_combine, reading_shift_back, stepFlag]
  cases hGap : Holes.isGap i s with
  | true => exact unlessHole_of_hole_left _ isHole_hole _
  | false =>
    rw [if_neg Bool.false_ne_true, if_neg Bool.false_ne_true]
    cases hBefore : s.before? i with
    | none => exact unlessHole_of_hole_left _ isHole_hole _
    | some j =>
      have hKept := ((lastKept?_eq_some_iff i j).mp hBefore).2.1
      rw [isGap_eq_isHole_reading] at hGap hKept
      exact unlessHole_of_observed _ hKept hGap

omit [Zero α] [One α] in
theorem dates_combine_shift_back (s : Series α) (f : α → α → α) :
    ((s.shift (-1)).combine f s).dates = s.dates := by
  have hShift := dates_shift s (-1)
  have hCount := count_eq_of_dates hShift
  rcases Nat.eq_zero_or_pos s.count with hEmpty | hCountPos
  · rw [combine_of_empty f (.inr hEmpty)]
    exact (List.eq_nil_of_length_eq_zero (s.length_dates.trans hEmpty)).symm
  · have hDates := (combined_combine f (s := s.shift (-1)) (t := s) (by omega) (by omega)).dates
    rwa [hCount, if_neg (Nat.lt_irrefl _), hShift] at hDates

section Level
variable (rule : Crossing α) (s : Series α) (level : α)

omit [Zero α] [One α] in
theorem longest?_level : Holes.longest? [s.shift (-1), s] = some (s.shift (-1)) := by
  have hCount := count_eq_of_dates (dates_shift s (-1))
  simp [Holes.longest?, hCount]

theorem dates_crossing_level : (s.crossing rule (.value level)).dates = s.dates := by
  have hLongest := s.longest?_level
  rw [crossing, (Holes.marks_ofGroup hLongest).dates_restore, Holes.calendar_ofGroup hLongest,
    dates_shift]

theorem reading_crossing_level (i : Nat) : (s.crossing rule (.value level)).reading i =
    s.stepFlag (fun p x => rule.test p level x level) i := by
  have hMarks := Holes.marks_ofGroup s.longest?_level
  rw [crossing, hMarks.reading_restore, stepFlag]
  cases hGap : [s.shift (-1), s].any (Holes.isGap i) with
  | true =>
    rw [if_pos rfl]
    simp only [List.any_cons, List.any_nil, Bool.or_false, isGap_shift_back] at hGap
    cases hs : Holes.isGap i s with
    | true => rfl
    | false =>
      have hNone : s.before? i = none := by
        rw [hs] at hGap
        simpa using hGap
      rw [if_neg Bool.false_ne_true, hNone]
      rfl
  | false =>
    have hObserved := hGap
    simp only [List.any_cons, List.any_nil, Bool.or_false, Bool.or_eq_false_iff] at hObserved
    obtain ⟨hBack, hs⟩ := hObserved
    obtain ⟨j, hj, hReading⟩ := reading_shift_back_of_observed hBack
    rw [if_neg Bool.false_ne_true, reading, value?_relabelled _ _ (by
      rw [List.length_zipWith, length_values]
      omega)]
    simp only [List.getElem?_zipWith, hMarks.values_compact hGap hBack,
      hMarks.values_compact hGap hs, hs, hj, hReading]
    rfl

end Level

/-- A flag at every observation but the first, which compares it with the observation before it. -/
structure Compared (s t : Series α) : Prop where
  count : t.count = s.count
  dates : t.dates = s.dates
  gap_iff : ∀ i, Holes.isGap i t = true ↔
    Holes.isGap i s = true ∨ ∀ j < i, Holes.isGap j s = true
  flag : ∀ j i x y, s.value? j = some x → s.value? i = some y → isHole x = false →
    isHole y = false → j < i → (∀ k, j < k → k < i → Holes.isGap k s = true) →
    t.value? i = some (flag (test x y))

theorem compared_of_reading {test : α → α → Bool} {s t : Series α}
    (hFlag : ∀ b, isHole (Almanac.flag b : α) = false) (hDates : t.dates = s.dates)
    (h : ∀ i, t.reading i = s.stepFlag test i) : Compared test s t := by
  have hCount : t.count = s.count := count_eq_of_dates hDates
  constructor
  case count => exact hCount
  case dates => exact hDates
  case gap_iff =>
    intro i
    rw [isGap_eq_isHole_reading t i, h, stepFlag, ← before?_eq_none_iff]
    cases hGap : Holes.isGap i s with
    | true => exact iff_of_true isHole_hole (.inl rfl)
    | false =>
      cases hBefore : s.before? i with
      | none => exact iff_of_true isHole_hole (.inr rfl)
      | some j => simp [hFlag]
  case flag =>
    intro j i x y hx hy hxObserved hyObserved hLt hBetween
    have hBefore : s.before? i = some j :=
      (lastKept?_eq_some_iff i j).mpr ⟨hLt, (isGap_of_value? hx).trans hxObserved, hBetween⟩
    have hi := lt_count_of_value? hy
    rw [value?_of_lt (hCount ▸ hi), h, stepFlag, isGap_of_value? hy, hyObserved, hBefore,
      if_neg Bool.false_ne_true, Option.elim_some, reading_of_value? hx, reading_of_value? hy]

section Points

/-- The flags of a list of points, `last` being the observation before them. -/
def flagPoints (last : Option α) : List (Point α) → List (Point α)
  | [] => []
  | p :: points =>
    if isHole p.value then ⟨p.date, hole⟩ :: flagPoints last points
    else ⟨p.date, last.elim hole fun x => flag (test x p.value)⟩ :: flagPoints (some p.value) points

theorem flagPoints_eq_mapIdx (s : Series α) (n : Nat) {points : List (Point α)}
    (h : s.points.drop n = points) :
    flagPoints test ((s.before? n).map s.reading) points =
      points.mapIdx fun i p => ⟨p.date, s.stepFlag test (n + i)⟩ := by
  induction points generalizing n with
  | nil => rfl
  | cons p points ih =>
    have hHead : s.points[n]? = some p := by rw [← List.head?_drop, h, List.head?_cons]
    have hValue : s.value? n = some p.value := by rw [value?, hHead]; rfl
    have hReading := reading_of_value? hValue
    have hRest := ih (n + 1) (by rw [← List.tail_drop, h, List.tail_cons])
    rw [before?_succ, isGap_of_value? hValue] at hRest
    rw [flagPoints, List.mapIdx_cons, Nat.add_zero, stepFlag, isGap_of_value? hValue, hReading]
    simp only [← Nat.add_assoc, Nat.add_right_comm n _ 1, ← hRest]
    cases hHole : isHole p.value with
    | true => rfl
    | false =>
      rw [if_neg Bool.false_ne_true, if_neg Bool.false_ne_true, if_neg Bool.false_ne_true,
        Option.map_some, hReading]
      cases s.before? n <;> rfl

theorem points_eq_flagPoints {test : α → α → Bool} {s t : Series α} (hDates : t.dates = s.dates)
    (h : ∀ i, t.reading i = s.stepFlag test i) : t.points = flagPoints test none s.points := by
  have hFlags := s.flagPoints_eq_mapIdx test 0 (List.drop_zero ..)
  refine Eq.trans ?_ hFlags.symm
  apply List.ext_getElem?
  intro i
  have hDate : t.points[i]?.map Point.date = s.points[i]?.map Point.date := by
    rw [← List.getElem?_map, ← List.getElem?_map]
    exact congrArg (·[i]?) hDates
  rw [List.getElem?_mapIdx, Nat.zero_add, ← h, reading, value?]
  cases ht : t.points[i]? with
  | none =>
    rw [ht] at hDate
    rw [Option.map_eq_none_iff.mp hDate.symm]
    rfl
  | some q =>
    rw [ht] at hDate
    obtain ⟨p, hp, hSame⟩ := Option.map_eq_some_iff.mp hDate.symm
    rw [hp, Option.map_some, hSame]
    rfl

/-- Holes that are left out take no other flag with them. -/
theorem filter_flagPoints (keep : Instant → Bool) (last : Option α) {points : List (Point α)}
    (h : ∀ p ∈ points, keep p.date = false → isHole p.value = true) :
    (flagPoints test last points).filter (fun p => keep p.date) =
      flagPoints test last (points.filter fun p => keep p.date) := by
  induction points generalizing last with
  | nil => rfl
  | cons p points ih =>
    obtain ⟨hHead, hRest⟩ := List.forall_mem_cons.mp h
    rw [List.filter_cons, flagPoints]
    cases hKeep : keep p.date with
    | true =>
      rw [if_pos rfl, flagPoints]
      split
      · rw [List.filter_cons, if_pos hKeep, ih last hRest]
      · rw [List.filter_cons, if_pos hKeep, ih _ hRest]
    | false =>
      rw [if_pos (hHead hKeep), if_neg Bool.false_ne_true,
        List.filter_cons_of_neg (by simp [hKeep]), ih last hRest]

end Points
end Steps

/-- The points of `s` among holes on other dates. -/
structure Padded (s t : Series α) : Prop where
  kept : t.points.filter (fun p => p.date ∈ s.dates) = s.points
  holes : ∀ p ∈ t.points, p.date ∉ s.dates → isHole p.value = true

/-- What an observation and the one before it are compared for. -/
inductive Movement (α : Type) where
  | rising
  | falling
  | crossing (level : α)
  | crossingAbove (level : α)
  | crossingBelow (level : α)

namespace Movement
variable [Zero α] [One α] [LT α] [DecidableLT α] [LE α] [DecidableLE α]

def flags : Movement α → Series α → Series α
  | rising, s => s.isRising
  | falling, s => s.isFalling
  | crossing level, s => s.crossing .anyway (.value level)
  | crossingAbove level, s => s.crossing .above (.value level)
  | crossingBelow level, s => s.crossing .below (.value level)

omit [Hole α] [Zero α] [One α] in
def test : Movement α → (before now : α) → Bool
  | rising, x, y => x < y
  | falling, x, y => y < x
  | crossing level, x, y => (level ≤ x && y < level) || (x ≤ level && level < y)
  | crossingAbove level, x, y => x ≤ level && level < y
  | crossingBelow level, x, y => level ≤ x && y < level

omit [LE α] [DecidableLE α] in
theorem isRising_eq (s : Series α) :
    s.isRising = (s.shift (-1)).combine (fun x y => Almanac.flag (x < y)) s := rfl

omit [LE α] [DecidableLE α] in
theorem isFalling_eq (s : Series α) :
    s.isFalling = (s.shift (-1)).combine (fun x y => Almanac.flag (y < x)) s := rfl

theorem dates_flags (m : Movement α) (s : Series α) : (m.flags s).dates = s.dates := by
  cases m with
  | rising => rw [flags, isRising_eq, dates_combine_shift_back]
  | falling => rw [flags, isFalling_eq, dates_combine_shift_back]
  | crossing level | crossingAbove level | crossingBelow level =>
    exact dates_crossing_level _ s level

theorem reading_flags (m : Movement α) (s : Series α) (i : Nat) :
    (m.flags s).reading i = s.stepFlag m.test i := by
  cases m with
  | rising =>
    rw [flags, isRising_eq]
    exact reading_combine_shift_back (rising : Movement α).test s i
  | falling =>
    rw [flags, isFalling_eq]
    exact reading_combine_shift_back (falling : Movement α).test s i
  | crossing level => exact reading_crossing_level .anyway s level i
  | crossingAbove level => exact reading_crossing_level .above s level i
  | crossingBelow level => exact reading_crossing_level .below s level i

theorem points_flags (m : Movement α) (s : Series α) :
    (m.flags s).points = flagPoints m.test none s.points :=
  points_eq_flagPoints (m.dates_flags s) (m.reading_flags s)

theorem compared_flags (hFlag : ∀ b, isHole (flag b : α) = false) (m : Movement α) (s : Series α) :
    Compared m.test s (m.flags s) :=
  compared_of_reading hFlag (m.dates_flags s) (m.reading_flags s)

theorem filter_flags (m : Movement α) {s t : Series α} (h : s.Padded t) :
    (m.flags t).points.filter (fun p => p.date ∈ s.dates) = (m.flags s).points := by
  rw [m.points_flags, m.points_flags, filter_flagPoints _ fun date => date ∈ s.dates, h.kept]
  intro p hp hNew
  exact h.holes p hp (by simpa using hNew)

end Movement

/-- Every observation but the first is flagged by a comparison with the one before it, and holes on
further dates change the flag of no other point. -/
theorem flags_pass_over_holes (m : Movement Float) (s : Series Float) :
    Compared m.test s (m.flags s) ∧
    ∀ t, s.Padded t →
      (m.flags t).points.filter (fun p => p.date ∈ s.dates) = (m.flags s).points := by
  have hFlag : ∀ b, isHole (flag b : Float) = false := by decide
  exact ⟨m.compared_flags hFlag s, fun t hPadded => m.filter_flags hPadded⟩

/-- A hole between two observations leaves the crossing of the second. -/
theorem crossing_over_an_added_hole :
    let between : Instant := ⟨0, by decide, by decide⟩
    let s : Series Float := ofPoints default [⟨.sentinel, 1⟩, ⟨.latest, 3⟩]
    let t : Series Float := ofPoints default [⟨.sentinel, 1⟩, ⟨between, hole⟩, ⟨.latest, 3⟩]
    s.Padded t ∧ (s.crossing .above (.value 2)).value? 1 = some 1 ∧
      (t.crossing .above (.value 2)).points.filter (fun p => p.date ∈ s.dates) =
        (s.crossing .above (.value 2)).points := by
  intro between s t
  have hPadded : s.Padded t := by
    refine ⟨by decide, fun p hp hNew => ?_⟩
    rcases List.mem_cons.mp hp with rfl | hp
    · exact absurd (by decide) hNew
    rcases List.mem_cons.mp hp with rfl | hp
    · exact isHole_hole
    rcases List.mem_cons.mp hp with rfl | hp
    · exact absurd (by decide) hNew
    · cases hp
  obtain ⟨hCompared, hFiltered⟩ := flags_pass_over_holes (.crossingAbove 2) s
  refine ⟨hPadded, ?_, hFiltered t hPadded⟩
  exact (hCompared.flag 0 1 1 3 rfl rfl (by decide) (by decide) Nat.one_pos fun k hLow hHigh => by
    omega).trans (by decide)

end Almanac.Series
