import Almanac.Proofs.Edit
import Almanac.Proofs.Series.Index
import Almanac.Proofs.Series.Lookup
import Almanac.Proofs.Series.RoundTrip

/-! # Drafts of series

A series is built from dates and values that were made apart from each other, and it keeps only the
pairs that both lists have. A draft keeps the two lists; where it fits, nothing is cut.
-/
namespace Almanac
set_option autoImplicit false

namespace Holes
variable {α : Type} [Hole α]

/-- The values alone of a list of dates: a hole at every gap, and the kept values elsewhere. -/
def refillValues (start : Nat) (gaps : List Nat) (kept : List α) : Nat → List α
  | 0 => []
  | length + 1 =>
    if gaps.head? = some start then hole :: refillValues (start + 1) gaps.tail kept length
    else kept.headD hole :: refillValues (start + 1) gaps kept.tail length

theorem length_refillValues (start : Nat) (gaps : List Nat) (kept : List α) (length : Nat) :
    (refillValues start gaps kept length).length = length := by
  induction length generalizing start gaps kept with
  | zero => rfl
  | succ length ih =>
    rw [refillValues]
    split
    · rw [List.length_cons, ih]
    · rw [List.length_cons, ih]

theorem refill_eq_zipWith (start : Nat) (gaps : List Nat) (kept : List α) (dates : Calendar) :
    refill start gaps kept dates =
      List.zipWith Point.mk dates (refillValues start gaps kept dates.length) := by
  induction dates generalizing start gaps kept with
  | nil => rfl
  | cons d dates ih =>
    rw [refill, List.length_cons, refillValues]
    split
    · rw [List.zipWith_cons_cons, ih]
    · rw [List.zipWith_cons_cons, ih]

section Group
variable {group : List (Series α)} {s : Series α}

theorem length_kept_of_mem (hs : s ∈ group) :
    (dropAt 0 (ofGroup group).positions s.values).length = (ofGroup group).keptLength ∧
      (ofGroup group).keptDates.length = (ofGroup group).keptLength := by
  cases group with
  | nil => cases hs
  | cons first others =>
    obtain ⟨before, longest, after, hSplit, hLongest, hBefore, hAfter⟩ := longest?_cons first others
    have hLength : ∀ t ∈ first :: others, t.count ≤ longest.count := by
      intro t ht
      rw [hSplit, List.mem_append, List.mem_cons] at ht
      rcases ht with ht | rfl | ht
      · exact Nat.le_of_lt (hBefore t ht)
      · exact Nat.le_refl _
      · exact hAfter t ht
    have hMarks := marks_ofGroup hLongest
    have hCovers := covers_of_mem hLongest hLength hs
    constructor
    · rw [hMarks.length_keptValues hCovers, hMarks.length_kept]
    · rw [hMarks.length_keptDates, hMarks.length_kept]

end Group
end Holes

namespace Series
variable {α : Type}

/-- What a series is built from: a list of dates and a list of values, or a calendar with gaps and
the values for the dates between them. -/
inductive Draft (α : Type) where
  | direct (dates : Calendar) (values : List α)
  | restored (holes : Holes) (kept : List α)

namespace Draft

def ofPoints (points : List (Point α)) : Draft α :=
  direct (points.map Point.date) (points.map Point.value)

def sampled (dates : Calendar) (look : Instant → Checked α) : Checked (Draft α) := do
  return direct dates (← dates.mapM look)

/-- As many values as dates that want one. -/
def Fits : Draft α → Prop
  | direct dates values => dates.length = values.length
  | restored holes kept => holes.keptLength = kept.length

def dates : Draft α → Calendar
  | direct dates _ => dates
  | restored holes _ => holes.calendar

variable [Hole α]

def values : Draft α → List α
  | direct _ values => values
  | restored holes kept => Holes.refillValues 0 holes.positions kept holes.fullLength

def series (options : Options) (d : Draft α) : Series α :=
  Series.ofPoints options (List.zipWith Point.mk d.dates d.values)

end Draft

/-- A series that holds a draft whole, with an index of its own dates and no more slots than it
needs. -/
structure WellFormed [Hole α] (options : Options) (d : Draft α) (s : Series α) : Prop where
  fits : d.Fits
  dates : s.dates = d.dates
  values : s.values = d.values
  length : s.dates.length = s.values.length
  index : ∀ date i, s.index[date]? = some i ↔
    date ≠ .sentinel ∧ s.dates[i]? = some date ∧ date ∉ s.dates.drop (i + 1)
  spare : s.spareCapacity = if s.dates = [] then 1 else 0
  options : s.options = options

namespace Draft
variable [Hole α]

theorem Fits.length_eq {d : Draft α} (h : d.Fits) : d.dates.length = d.values.length := by
  cases d with
  | direct dates values => exact h
  | restored holes kept => exact (Holes.length_refillValues ..).symm

theorem Fits.dates_series {d : Draft α} (h : d.Fits) (options : Options) :
    (d.series options).dates = d.dates := by
  rw [series, dates_ofPoints, map_date_zipWith, ← h.length_eq, List.take_length]

theorem Fits.values_series {d : Draft α} (h : d.Fits) (options : Options) :
    (d.series options).values = d.values := by
  rw [series, Series.values, points_ofPoints, map_value_zipWith, h.length_eq, List.take_length]

theorem Fits.wellFormed {d : Draft α} (h : d.Fits) (options : Options) :
    (d.series options).WellFormed options d := by
  constructor
  case fits => exact h
  case dates => exact h.dates_series options
  case values => exact h.values_series options
  case length => rw [h.dates_series, h.values_series, h.length_eq]
  case index =>
    intro date i
    rw [← Calendar.lastPosition?_eq_some_iff]
    have hIndex := indexedBut_ofPoints options (List.zipWith Point.mk d.dates d.values) date
    rw [position?] at hIndex
    rw [series, hIndex]
    simp
  case spare =>
    have hEmpty : List.zipWith Point.mk d.dates d.values = [] ↔ d.dates = [] := by
      have hLength := h.length_eq
      rw [List.zipWith_eq_nil_iff, ← List.length_eq_zero_iff, ← List.length_eq_zero_iff]
      omega
    rw [h.dates_series, series, spareCapacity_ofPoints]
    simp only [hEmpty]
  case options => exact options_ofPoints options _

theorem series_ofPoints (options : Options) (points : List (Point α)) :
    (ofPoints points).series options = Series.ofPoints options points := by
  rw [series, ofPoints, dates, values]
  congr 1
  induction points with
  | nil => rfl
  | cons p points ih => rw [List.map_cons, List.map_cons, List.zipWith_cons_cons, ih]

omit [Hole α] in
theorem fits_ofPoints (points : List (Point α)) : (ofPoints points).Fits := by
  rw [ofPoints, Fits, List.length_map, List.length_map]

theorem restore_eq (holes : Holes) (s : Series α) :
    holes.restore s = (restored holes s.values).series s.options := by
  rw [Holes.restore, Holes.refill_eq_zipWith]
  rfl

section Sampling
variable {look : Instant → Checked α} {dates : Calendar}

omit [Hole α] in
theorem sample_eq (dates : Calendar) (look : Instant → Checked α) :
    sample dates look = do return List.zipWith Point.mk dates (← dates.mapM look) := by
  induction dates with
  | nil => rfl
  | cons d dates ih =>
    rw [sample] at ih ⊢
    rw [List.mapM_cons, List.mapM_cons, ih]
    cases look d with
    | error failure => rfl
    | ok x =>
      cases dates.mapM look with
      | error failure => rfl
      | ok values => rfl

omit [Hole α] in
theorem length_of_mapM {values : List α} (h : dates.mapM look = .ok values) :
    dates.length = values.length := by
  induction dates generalizing values with
  | nil =>
    cases h
    rfl
  | cons d dates ih =>
    rw [List.mapM_cons] at h
    obtain ⟨x, -, hLater⟩ := exists_of_bind_ok h
    obtain ⟨rest, hRest, hValues⟩ := exists_of_bind_ok hLater
    cases hValues
    rw [List.length_cons, List.length_cons, ih hRest]

omit [Hole α] in
theorem fits_of_sampled {d : Draft α} (h : sampled dates look = .ok d) : d.Fits := by
  obtain ⟨values, hValues, hDraft⟩ := exists_of_bind_ok h
  cases hDraft
  exact length_of_mapM hValues

theorem series_sampled (s : Series α) :
    (do return s.derived (← sample dates look)) =
      (sampled dates look).map (series s.options) := by
  rw [sample_eq, sampled]
  cases dates.mapM look with
  | error failure => rfl
  | ok values => rfl

omit [Hole α] in
theorem sampled_answers_iff :
    (∃ d, sampled dates look = .ok d) ↔ ∀ date ∈ dates, ∃ x, look date = .ok x := by
  induction dates with
  | nil => exact iff_of_true ⟨_, rfl⟩ (by simp)
  | cons d dates ih =>
    rw [List.forall_mem_cons, ← ih, sampled, sampled, List.mapM_cons]
    cases look d with
    | error failure => exact iff_of_false (by rintro ⟨_, ⟨⟩⟩) (by rintro ⟨⟨_, ⟨⟩⟩, -⟩)
    | ok x =>
      cases dates.mapM look with
      | error failure => exact iff_of_false (by rintro ⟨_, ⟨⟩⟩) (by rintro ⟨-, _, ⟨⟩⟩)
      | ok values => exact iff_of_true ⟨_, rfl⟩ ⟨⟨x, rfl⟩, _, rfl⟩

omit [Hole α] in
theorem sample_answers_iff :
    (∃ points, sample dates look = .ok points) ↔ ∀ date ∈ dates, ∃ x, look date = .ok x := by
  rw [← sampled_answers_iff, sample_eq]
  exact map_answers_iff.trans map_answers_iff.symm

end Sampling
end Draft
end Series
end Almanac
