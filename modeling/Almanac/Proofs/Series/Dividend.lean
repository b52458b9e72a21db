import Almanac.Proofs.Series.TotalReturn

/-! # Dividends by date

A total return takes what is paid by position from dividends on the calendar of the prices, and by
date from all others. Where the prices have each date once, both are lookups by date, so that only
what is paid on the dates of the prices counts.
-/
namespace Almanac.Series
set_option autoImplicit false

variable {α : Type} [Hole α] {s dividends other : Series α}

/-- One value, or two holes. -/
def EqualOrHoles (x y : α) : Prop := x = y ∨ isHole x = true ∧ isHole y = true

/-- On each date two series show one value, or each of them a hole or no point. -/
def AgreeOn (dates : Calendar) (s t : Series α) : Prop :=
  ∀ d ∈ dates, ∀ x y, s.valueOn d = .ok x → t.valueOn d = .ok y → EqualOrHoles x y

theorem EqualOrHoles.filled_eq {x y : α} (h : EqualOrHoles x y) (z : α) :
    (if isHole x then z else x) = if isHole y then z else y := by
  obtain rfl | ⟨hx, hy⟩ := h
  · rfl
  · rw [if_pos hx, if_pos hy]

section Shown

omit [Hole α] in
theorem not_mem_sentinel {dates : Calendar} (hReal : .sentinel ∉ dates) {d : Instant}
    (hd : d ∈ dates) : d ∉ [Instant.sentinel] := by
  rw [List.mem_singleton]
  rintro rfl
  exact hReal hd

/-- Where each date has one point, two series that have the same points on some dates agree on
them, whatever the order of the points. -/
theorem agreeOn_of_points {dates : Calendar} (hReal : .sentinel ∉ dates)
    (h : dividends.IndexedBut [.sentinel]) (hOther : other.IndexedBut [.sentinel])
    (hDistinct : other.dates.Nodup)
    (hPoints : ∀ p : Point α, p.date ∈ dates → (p ∈ dividends.points ↔ p ∈ other.points)) :
    AgreeOn dates dividends other := by
  intro d hd x y hx hy
  have hKnown := not_mem_sentinel hReal hd
  by_cases hShown : d ∈ other.dates
  · obtain ⟨q, hq, rfl, hLater⟩ := hOther.exists_point hShown hKnown
    have hMem := (hPoints q hd).mpr hq
    obtain ⟨p, hp, hDate, hEarlier⟩ := h.exists_point (List.mem_map_of_mem hMem) hKnown
    have hBoth := (hPoints p (hDate ▸ hd)).mp hp
    obtain rfl := List.inj_on_of_nodup_map hDistinct hBoth hq hDate
    cases hEarlier.symm.trans hx
    cases hLater.symm.trans hy
    exact .inl rfl
  · have hHidden : d ∉ dividends.dates := by
      intro hMem
      obtain ⟨p, hp, rfl⟩ := List.mem_map.mp hMem
      exact hShown (List.mem_map_of_mem ((hPoints p hd).mp hp))
    cases (h.valueOn_of_not_mem hHidden).symm.trans hx
    cases (hOther.valueOn_of_not_mem hShown).symm.trans hy
    exact .inl rfl

/-- What is paid at a position is what the dividends show on its date. -/
theorem valueOn_eq_dividendAt (hDistinct : s.dates.Nodup) (hReal : .sentinel ∉ s.dates)
    (h : dividends.IndexedBut [.sentinel]) {i : Nat} {d : Instant} (hd : s.dates[i]? = some d) :
    dividends.valueOn d = .ok (s.dividendAt dividends i) := by
  have hKnown := not_mem_sentinel hReal (List.mem_of_getElem? hd)
  rw [dividendAt]
  split
  · rename_i hDates
    have hEntry : dividends.dates[i]? = some d := by rw [← hDates, hd]
    have hCount : i < dividends.count := by
      rw [← length_dates]
      exact (List.getElem?_eq_some_iff.mp hEntry).1
    exact h.valueOn_of_lastPosition? hKnown
      (Calendar.lastPosition?_of_nodup (hDates ▸ hDistinct) hEntry) (value?_of_lt hCount)
  · obtain ⟨x, hx⟩ := valueOn_answers_iff.mpr (h.reaches d)
    rw [date?_eq_getElem?, hd, Option.bind_some, hx]
    rfl

end Shown

section Payments
variable [Zero α]

theorem payments_eq_of_agree (hDistinct : s.dates.Nodup) (hReal : .sentinel ∉ s.dates)
    (h : dividends.IndexedBut [.sentinel]) (hOther : other.IndexedBut [.sentinel])
    (hAgree : AgreeOn s.dates dividends other) : s.payments other = s.payments dividends := by
  obtain ⟨before, hBefore⟩ := payments_answers_iff.mpr (.inr fun d (_ : d ∈ s.dates) => h.reaches d)
  obtain ⟨after, hAfter⟩ := payments_answers_iff.mpr (.inr fun d (_ : d ∈ s.dates) => hOther.reaches d)
  rw [hBefore, hAfter]
  congr 1
  apply List.ext_getElem?
  intro i
  by_cases hi : i < s.count
  · have hd := List.getElem?_eq_getElem (s.length_dates.symm ▸ hi)
    have hSame := hAgree _ (List.mem_of_getElem? hd) _ _
      (valueOn_eq_dividendAt hDistinct hReal h hd) (valueOn_eq_dividendAt hDistinct hReal hOther hd)
    rw [getElem?_payments hBefore hi, getElem?_payments hAfter hi, hSame.filled_eq]
  · have hEnd := Nat.not_lt.mp hi
    rw [List.getElem?_eq_none ((length_payments hBefore).trans_le hEnd),
      List.getElem?_eq_none ((length_payments hAfter).trans_le hEnd)]

end Payments

section Return
variable [Zero α] [Add α] [Mul α] [Div α]

theorem totalReturn_eq_of_agree (hDistinct : s.dates.Nodup) (hReal : .sentinel ∉ s.dates)
    (h : dividends.IndexedBut [.sentinel]) (hOther : other.IndexedBut [.sentinel])
    (hAgree : AgreeOn s.dates dividends other) : s.totalReturn other = s.totalReturn dividends := by
  rw [totalReturn, totalReturn, payments_eq_of_agree hDistinct hReal h hOther hAgree]

/-- A total return depends on the dividends only through what they show on the dates of the prices.
It is that of the dividends on the calendar of the prices, so that payments by position and by date
are the same; dividends on other dates and the order of the dividends do not count. -/
theorem totalReturn_sees_dates (hDistinct : s.dates.Nodup) (hReal : .sentinel ∉ s.dates)
    (h : dividends.IndexedBut [.sentinel]) :
    ∃ t aligned, s.totalReturn dividends = .ok t ∧
      s.synchronize dividends .exact = .ok aligned ∧ aligned.dates = s.dates ∧
      s.totalReturn aligned = .ok t ∧
      ∀ other : Series α, other.IndexedBut [.sentinel] →
        (AgreeOn s.dates dividends other → s.totalReturn other = .ok t) ∧
        (other.dates.Nodup → (∀ p : Point α, p.date ∈ s.dates →
          (p ∈ dividends.points ↔ p ∈ other.points)) → s.totalReturn other = .ok t) := by
  have hReached : ∀ d ∈ s.dates, dividends.Reaches d := fun d _ => h.reaches d
  obtain ⟨t, ht⟩ := totalReturn_answers_iff.mpr (.inr hReached)
  obtain ⟨aligned, hAligned, hSampled⟩ :=
    derived_sample_ok s s.dates fun d hd => valueOn_answers_iff.mpr (hReached d hd)
  have hSame : ∀ other : Series α, other.IndexedBut [.sentinel] →
      AgreeOn s.dates dividends other → s.totalReturn other = .ok t := by
    intro other hOther hAgree
    rw [totalReturn_eq_of_agree hDistinct hReal h hOther hAgree, ht]
  refine ⟨t, aligned, ht, hAligned, hSampled.dates, ?_, fun other hOther => ?_⟩
  · refine hSame aligned hSampled.indexed fun d hd x y hx hy => ?_
    have hLook : aligned.valueOn d = dividends.valueOn d := hSampled.lookBy hReal hd .exact
    exact .inl (Except.ok.inj (hx.symm.trans (hLook.symm.trans hy)))
  · refine ⟨hSame other hOther, fun hOnce hPoints => ?_⟩
    exact hSame other hOther (agreeOn_of_points hReal h hOther hOnce hPoints)

/-- The hole of the dividends on the calendar of the prices is a date that the others lack. These
have a date of their own instead, out of order. -/
theorem dividends_with_a_date_of_their_own :
    let first : Instant := ⟨0, by decide, by decide⟩
    let between : Instant := ⟨1, by decide, by decide⟩
    let s : Series Float := ofPoints default [⟨first, 100⟩, ⟨.latest, 110⟩]
    let dividends : Series Float := ofPoints default [⟨first, hole⟩, ⟨.latest, 1⟩]
    let other : Series Float := ofPoints default [⟨.latest, 1⟩, ⟨between, 7⟩]
    s.dates = dividends.dates ∧ first ∉ other.dates ∧ AgreeOn s.dates dividends other ∧
      ∃ t, s.totalReturn dividends = .ok t ∧ s.totalReturn other = .ok t := by
  intro first between s dividends other
  have hIndexed : dividends.IndexedBut [.sentinel] := indexedBut_ofPoints _ _
  have hOther : other.IndexedBut [.sentinel] := indexedBut_ofPoints _ _
  have hAgree : AgreeOn s.dates dividends other := by
    have hDates : s.dates = [first, .latest] := rfl
    rw [hDates, AgreeOn, List.forall_mem_cons, List.forall_mem_singleton]
    refine ⟨fun x y hx hy => ?_, fun x y hx hy => ?_⟩
    · rw [hIndexed.valueOn_of_lastPosition? (i := 0) (by decide) (by decide) rfl] at hx
      rw [hOther.valueOn_of_not_mem (by decide)] at hy
      exact .inl (Except.ok.inj (hx.symm.trans hy))
    · rw [hIndexed.valueOn_of_lastPosition? (i := 1) (by decide) (by decide) rfl] at hx
      rw [hOther.valueOn_of_lastPosition? (i := 0) (by decide) (by decide) rfl] at hy
      exact .inl (Except.ok.inj (hx.symm.trans hy))
  obtain ⟨t, -, ht, -, -, -, hSees⟩ :=
    totalReturn_sees_dates (s := s) (by decide) (by decide) hIndexed
  exact ⟨by decide, by decide, hAgree, t, ht, (hSees other hOther).1 hAgree⟩

end Return
end Almanac.Series
