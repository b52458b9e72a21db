import Almanac.Proofs.Series.Rule
import Almanac.Proofs.Series.Synchronization
import Almanac.Series.Resampling

/-! # Sampled calendars

Synchronized series, grids of dates and payments look a value up for each date of a calendar. They
are answered exactly if every lookup ends in its series.
-/
namespace Almanac.Series
set_option autoImplicit false

variable {α : Type} [Hole α]

section Shared

def alignedDraft (s other : Series α) (method : SyncMethod) : Checked (Draft α) :=
  Draft.sampled (s.calendarBy other method) (other.lookBy method)

/-- A lookup for each date of a group from the first shared one on. -/
def spanDraft (s : Series α) (others : List (Series α)) (look : Instant → Checked α) :
    Checked (Draft α) :=
  match (s.commonDates others).earliest? with
  | none => .ok (.direct [] [])
  | some first => Draft.sampled (groupCalendar first (s :: others)) look

def groupDraft (s : Series α) (others : List (Series α)) : SyncMethod → Checked (Draft α)
  | .union => Draft.sampled (s.commonDates others) s.valueOn
  | .exact => s.spanDraft others (s.lookBy .exact)
  | .latest => s.spanDraft others (s.lookBy .latest)

theorem synchronize_eq_draft (s other : Series α) (method : SyncMethod) :
    s.synchronize other method = (s.alignedDraft other method).map (Draft.series s.options) := by
  rw [synchronize_eq]
  exact Draft.series_sampled s

theorem sampled_of_synchronize {s other r : Series α} {method : SyncMethod}
    (h : s.synchronize other method = .ok r) :
    Sampled (s.calendarBy other method) (other.lookBy method) r := by
  have hDraft : ∃ d, s.alignedDraft other method = .ok d := by
    rw [synchronize_eq_draft] at h
    exact map_answers_iff.mp ⟨r, h⟩
  obtain ⟨r', hr', hSampled⟩ := derived_sample_ok s _ (Draft.sampled_answers_iff.mp hDraft)
  rw [synchronize_eq] at h
  obtain rfl := Except.ok.inj (h.symm.trans hr')
  exact hSampled

theorem span_eq (s : Series α) (others : List (Series α)) (look : Instant → Checked α) :
    s.span others look = (s.spanDraft others look).map (Draft.series s.options) := by
  rw [span, spanDraft]
  cases (s.commonDates others).earliest? with
  | none => rfl
  | some first => exact Draft.series_sampled s

theorem synchronizeMany_eq_draft (s : Series α) (others : List (Series α)) (method : SyncMethod) :
    s.synchronizeMany others method =
      (s.groupDraft others method).map (Draft.series s.options) := by
  cases method with
  | union => exact Draft.series_sampled s
  | exact => exact (synchronizeMany_eq_span s others (by decide)).trans (span_eq s others _)
  | latest => exact (synchronizeMany_eq_span s others (by decide)).trans (span_eq s others _)

theorem spanDraft_answers_iff {s : Series α} {others : List (Series α)} {method : SyncMethod} :
    (∃ d, s.spanDraft others (s.lookBy method) = .ok d) ↔
      ∀ first, (s.commonDates others).earliest? = some first →
        ∀ d ∈ groupCalendar first (s :: others), s.ReachesBy method d := by
  rw [spanDraft]
  cases (s.commonDates others).earliest? with
  | none => exact iff_of_true ⟨_, rfl⟩ (by rintro _ ⟨⟩)
  | some first =>
    simp only [Option.some.injEq, forall_eq', Draft.sampled_answers_iff, lookBy_answers_iff]

omit [Hole α] in
theorem fits_of_spanDraft {s : Series α} {others : List (Series α)} {look : Instant → Checked α}
    {d : Draft α} (h : s.spanDraft others look = .ok d) : d.Fits := by
  rw [spanDraft] at h
  split at h
  · cases h
    rfl
  · exact Draft.fits_of_sampled h

end Shared

section Grid

def intervalDates (first last : Instant) (interval : Nat) (unit : TimeUnit) : Calendar :=
  ((unit.truncate first).grid last (unit.step interval)).map fun t => if first < t then t else first

/-- A lookup for each date of the grid that a series spans. -/
def gridDraft (s : Series α) (interval : Nat) (unit : TimeUnit) : Checked (Draft α) :=
  match s.dates.head?, s.dates.getLast? with
  | some first, some last =>
    Draft.sampled (intervalDates first last interval unit) (s.valueNear · .previous)
  | _, _ => .ok (.direct [] [])

theorem intervals_eq (s : Series α) (interval : Nat) (unit : TimeUnit) :
    s.intervals interval unit = (checkPositive "interval" interval) >>= fun _ =>
      (s.gridDraft interval unit).map (Draft.series s.options) := by
  rw [intervals]
  congr 1
  funext _
  rw [gridDraft]
  cases s.dates.head? with
  | none => rfl
  | some first =>
    cases s.dates.getLast? with
    | none => rfl
    | some last => exact Draft.series_sampled s

theorem gridDraft_answers_iff {s : Series α} {interval : Nat} {unit : TimeUnit} :
    (∃ d, s.gridDraft interval unit = .ok d) ↔
      ∀ first last, s.dates.head? = some first → s.dates.getLast? = some last →
        ∀ d ∈ intervalDates first last interval unit, s.ReachesNear d := by
  rw [gridDraft]
  cases s.dates.head? with
  | none => exact iff_of_true ⟨_, rfl⟩ (by rintro _ _ ⟨⟩)
  | some first =>
    cases s.dates.getLast? with
    | none => exact iff_of_true ⟨_, rfl⟩ (by rintro _ _ _ ⟨⟩)
    | some last =>
      simp only [Option.some.injEq, Draft.sampled_answers_iff, valueNear_answers_iff]
      constructor
      · rintro h _ _ rfl rfl
        exact h
      · intro h
        exact h first last rfl rfl

theorem fits_of_gridDraft {s : Series α} {interval : Nat} {unit : TimeUnit} {d : Draft α}
    (h : s.gridDraft interval unit = .ok d) : d.Fits := by
  rw [gridDraft] at h
  split at h
  · exact Draft.fits_of_sampled h
  · cases h
    rfl

theorem dailyIn_answers_iff {s : Series α} {first last : Instant} :
    (∃ points, s.dailyIn first last = .ok points) ↔
      ∀ d ∈ first.grid last TimeUnit.day.seconds, s.ReachesNear d := by
  refine map_answers_iff.trans (Draft.sample_answers_iff.trans ?_)
  exact forall₂_congr fun d _ => valueNear_answers_iff

end Grid

section Payments

theorem values_fillHoles (s : Series α) (x : α) :
    (s.fillHoles x).values = s.values.map fun y => if isHole y then x else y := by
  let rule : Rule α := .each (fun y => if isHole y then x else y) s
  have hSeries : (s.fillHoles x).values = (rule.draft.series s.options).values :=
    congrArg Series.values rule.series_eq
  rw [hSeries, rule.fits_draft.values_series]
  rfl

theorem length_fillHoles (s : Series α) (x : α) : (s.fillHoles x).values.length = s.count := by
  rw [values_fillHoles, List.length_map, length_values]

variable [Zero α] {s dividends : Series α}

theorem payments_answers_iff : (∃ payments, s.payments dividends = .ok payments) ↔
    s.dates = dividends.dates ∨ ∀ d ∈ s.dates, dividends.Reaches d := by
  rw [payments]
  split
  · rename_i hDates
    exact iff_of_true ⟨_, rfl⟩ (.inl hDates)
  · rename_i hDates
    rw [or_iff_right hDates, synchronize_eq_draft]
    refine map_answers_iff.trans (map_answers_iff.trans ?_)
    exact Draft.sampled_answers_iff.trans (forall₂_congr fun d _ => valueOn_answers_iff)

theorem length_payments {payments : List α} (h : s.payments dividends = .ok payments) :
    payments.length = s.count := by
  rw [Series.payments] at h
  split at h
  · rename_i hDates
    cases h
    rw [length_fillHoles, ← length_dates, ← hDates, length_dates]
  · obtain ⟨aligned, hAligned, hPayments⟩ := exists_of_bind_ok h
    cases hPayments
    rw [synchronize_eq_draft, map_eq_ok_iff] at hAligned
    obtain ⟨d, hDraft, rfl⟩ := hAligned
    have hFits := Draft.fits_of_sampled hDraft
    obtain ⟨values, -, hDirect⟩ := exists_of_bind_ok hDraft
    cases hDirect
    rw [length_fillHoles, ← length_dates, hFits.dates_series, ← s.length_dates]
    rfl

end Payments

end Almanac.Series
