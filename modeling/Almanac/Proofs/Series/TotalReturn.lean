import Mathlib.Algebra.BigOperators.Intervals
import Mathlib.Tactic.FieldSimp
import Mathlib.Tactic.Ring
import Almanac.Proofs.Gapped
import Almanac.Proofs.Series.Register
import Almanac.Proofs.Series.Template
import Almanac.Proofs.Series.Transform

/-! # The total return as a sum

From the first price on a level is the last one times the price ratio, and what is paid. In exact
arithmetic the ratios cancel: the level is the price, times the sum of one and the dividends paid so
far, each over the price on its date.
-/
namespace Almanac.Series
set_option autoImplicit false

section Dividends
variable {α : Type} [Hole α] {s dividends : Series α} {i : Nat}

/-- What is paid at a position of the prices: the dividend at the same position of an equal
calendar, or else the one on the date of the position. -/
def dividendAt (s dividends : Series α) (i : Nat) : α :=
  if s.dates = dividends.dates then dividends.reading i
  else ((s.date? i).bind fun d => (dividends.valueOn d).toOption).getD hole

theorem value?_fillHoles (s : Series α) (x : α) (i : Nat) :
    (s.fillHoles x).value? i = (s.value? i).map fun y => if isHole y then x else y := by
  rw [value?_eq_getElem?, values_fillHoles, List.getElem?_map, ← value?_eq_getElem?]

theorem value?_of_synchronize {r : Series α} (h : s.synchronize dividends .exact = .ok r)
    (hDates : s.dates ≠ dividends.dates) (hi : i < s.count) :
    r.value? i = some (s.dividendAt dividends i) := by
  obtain ⟨d, hd⟩ : ∃ d, s.dates[i]? = some d :=
    ⟨_, List.getElem?_eq_getElem (s.length_dates.symm ▸ hi)⟩
  obtain ⟨x, hLook, hValue⟩ := (sampled_of_synchronize h).exists_value? hd
  have hOn : dividends.valueOn d = .ok x := hLook
  rw [hValue, dividendAt, if_neg hDates, date?_eq_getElem?, hd, Option.bind_some, hOn]
  rfl

theorem getElem?_payments [Zero α] {payments : List α} (h : s.payments dividends = .ok payments)
    (hi : i < s.count) : payments[i]? =
      some (if isHole (s.dividendAt dividends i) then 0 else s.dividendAt dividends i) := by
  rw [Series.payments] at h
  split at h
  · rename_i hDates
    cases h
    have hCount : i < dividends.count := by rwa [← length_dates, ← hDates, length_dates]
    rw [← value?_eq_getElem?, value?_fillHoles, value?_of_lt hCount, dividendAt, if_pos hDates]
    rfl
  · rename_i hDates
    obtain ⟨aligned, hAligned, hPayments⟩ := exists_of_bind_ok h
    cases hPayments
    rw [← value?_eq_getElem?, value?_fillHoles, value?_of_synchronize hAligned hDates hi]
    rfl

end Dividends

section Levels
variable {α : Type} [Add α] [Mul α] [Div α]

theorem getElem?_compound (level price : α) {prices payments : List α} {k : Nat} {y p q paid : α}
    (hLevel : (level :: compound level price prices payments)[k]? = some y)
    (hPrice : (price :: prices)[k]? = some p) (hNext : prices[k]? = some q)
    (hPaid : payments[k]? = some paid) :
    (compound level price prices payments)[k]? = some (y * (q / p) + paid) := by
  induction prices generalizing level price payments k with
  | nil => cases hNext
  | cons next prices ih =>
    cases payments with
    | nil => cases hPaid
    | cons payment payments =>
      cases k with
      | zero =>
        cases hLevel
        cases hPrice
        cases hNext
        cases hPaid
        rfl
      | succ k => exact ih _ _ hLevel hPrice hNext hPaid

end Levels

section Stretches
variable {α : Type} [Hole α] {s : Series α} {start stop i : Nat}

/-- The first observed position, and the next gap behind it. -/
structure Stretch (s : Series α) (start stop : Nat) : Prop where
  leading : ∀ i < start, Holes.isGap i s = true
  observed : ∀ i, start ≤ i → i < stop → Holes.isGap i s = false
  nonempty : start < stop
  ended : Holes.isGap stop s = true

namespace Stretch

theorem lt_count (h : s.Stretch start stop) (hLow : start ≤ i) (hHigh : i < stop) :
    i < s.count := lt_count_of_observed (h.observed i hLow hHigh)

theorem exists_of_observed (h : ∃ i, Holes.isGap i s = false) :
    ∃ start stop, s.Stretch start stop := by
  have hEnd : ∃ j, Nat.find h < j ∧ Holes.isGap j s = true :=
    ⟨s.count, lt_count_of_observed (Nat.find_spec h), isGap_of_count_le (Nat.le_refl _)⟩
  obtain ⟨hAfter, hGap⟩ := Nat.find_spec hEnd
  refine ⟨Nat.find h, Nat.find hEnd, fun i hi => ?_, fun i hLow hHigh => ?_, hAfter, hGap⟩
  · exact Bool.eq_true_of_not_eq_false (Nat.find_min h hi)
  · rcases Nat.eq_or_lt_of_le hLow with rfl | hLow
    · exact Nat.find_spec h
    · have hNot := Nat.find_min hEnd hHigh
      exact Bool.eq_false_iff.mpr fun hHole => hNot ⟨hLow, hHole⟩

theorem length_take (h : s.Stretch start stop) : (s.values.take start).length = start := by
  have hCount := h.lt_count (Nat.le_refl start) h.nonempty
  rw [List.length_take, length_values]
  omega

theorem drop_eq (h : s.Stretch start stop) :
    s.values.drop start = s.reading start :: s.values.drop (start + 1) := by
  have hCount := h.lt_count (Nat.le_refl start) h.nonempty
  have hLt : start < s.values.length := by rwa [length_values]
  have hValue := value?_of_lt hCount
  rw [value?_eq_getElem?, List.getElem?_eq_getElem hLt] at hValue
  rw [List.drop_eq_getElem_cons hLt, Option.some.inj hValue]

theorem takeWhile_eq (h : s.Stretch start stop) :
    s.values.takeWhile isHole = s.values.take start := by
  have hLeading : ∀ x ∈ s.values.take start, isHole x = true := by
    intro x hx
    obtain ⟨j, hj⟩ := List.mem_iff_getElem?.mp hx
    rw [List.getElem?_take, Option.ite_none_right_eq_some, ← value?_eq_getElem?] at hj
    rw [← isGap_of_value? hj.2, h.leading j hj.1]
  have hStart := h.observed start (Nat.le_refl _) h.nonempty
  rw [isGap_eq_isHole_reading] at hStart
  conv_lhs => rw [← List.take_append_drop start s.values, h.drop_eq]
  rw [List.takeWhile_append_of_pos hLeading, List.takeWhile_cons_of_neg (by simp [hStart]),
    List.append_nil]

variable [Add α] [Mul α] [Div α] (payments : List α)

theorem returnLevels_eq (h : s.Stretch start stop) : returnLevels s.values payments =
    s.values.take start ++ s.reading start ::
      compound (s.reading start) (s.reading start) (s.values.drop (start + 1))
        (payments.drop (start + 1)) := by
  rw [returnLevels, h.takeWhile_eq, h.length_take, h.drop_eq]

theorem getElem?_levels_of_le (h : s.Stretch start stop) (hi : i ≤ start) :
    (returnLevels s.values payments)[i]? = s.value? i := by
  have hCount := h.lt_count (Nat.le_refl start) h.nonempty
  rw [h.returnLevels_eq]
  rcases Nat.lt_or_eq_of_le hi with hLt | rfl
  · rw [List.getElem?_append_left (by rwa [h.length_take]), List.getElem?_take_of_lt hLt,
      value?_eq_getElem?]
  · rw [List.getElem?_append_right (Nat.le_of_eq h.length_take), h.length_take, Nat.sub_self,
      value?_of_lt hCount]
    rfl

theorem getElem?_levels_succ (h : s.Stretch start stop) (hi : start ≤ i)
    (hCount : i + 1 < s.count) {level paid : α}
    (hLevel : (returnLevels s.values payments)[i]? = some level)
    (hPaid : payments[i + 1]? = some paid) :
    (returnLevels s.values payments)[i + 1]? =
      some (level * (s.reading (i + 1) / s.reading i) + paid) := by
  obtain ⟨k, rfl⟩ := Nat.exists_eq_add_of_le hi
  have hLength := h.length_take
  have hAt : ∀ j < s.count, s.values[j]? = some (s.reading j) := by
    intro j hj
    rw [← value?_eq_getElem?, value?_of_lt hj]
  rw [h.returnLevels_eq, List.getElem?_append_right (by omega), hLength,
    Nat.add_sub_cancel_left] at hLevel
  rw [h.returnLevels_eq, List.getElem?_append_right (by omega), hLength,
    Nat.add_assoc, Nat.add_sub_cancel_left, List.getElem?_cons_succ]
  apply getElem?_compound _ _ hLevel
  · rw [← h.drop_eq, List.getElem?_drop, hAt _ (by omega)]
  · rw [List.getElem?_drop, Nat.add_right_comm]
    exact hAt _ hCount
  · rw [List.getElem?_drop, Nat.add_right_comm, hPaid]

end Stretch
end Stretches

section Exact
variable {K : Type} [Field K] {s dividends : Series (Gapped K)} {start stop i : Nat}
  {payments : List (Gapped K)}

/-- The price and what is paid, each time with every dividend since the first price reinvested. -/
def reinvested (s dividends : Series (Gapped K)) (start i : Nat) : K :=
  (s.reading i).amount *
    (1 + ∑ j ∈ Finset.Ioc start i, (s.dividendAt dividends j).amount / (s.reading j).amount)

theorem reinvested_start (s dividends : Series (Gapped K)) (start : Nat) :
    s.reinvested dividends start start = (s.reading start).amount := by
  rw [reinvested, Finset.Ioc_self, Finset.sum_empty, add_zero, mul_one]

theorem reinvested_succ (hi : start ≤ i) (hPrice : (s.reading i).amount ≠ 0)
    (hNext : (s.reading (i + 1)).amount ≠ 0) :
    s.reinvested dividends start (i + 1) =
      s.reinvested dividends start i * ((s.reading (i + 1)).amount / (s.reading i).amount) +
        (s.dividendAt dividends (i + 1)).amount := by
  rw [reinvested, reinvested, Finset.sum_Ioc_succ_top hi]
  field_simp
  ring

theorem reading_eq_exact (h : Holes.isGap i s = false) :
    s.reading i = .exact (s.reading i).amount := by
  rw [isGap_eq_isHole_reading] at h
  exact Gapped.eq_exact_amount h

theorem value?_eq_exact (h : Holes.isGap i s = false) :
    s.value? i = some (.exact (s.reading i).amount) := by
  rw [value?_of_observed h, ← reading_eq_exact h]

variable (hPrices : ∀ i x, s.value? i = some (.exact x) → x ≠ 0)
  (hPayments : s.payments dividends = .ok payments) (h : s.Stretch start stop)
include hPrices hPayments h

theorem getElem?_levels_eq_exact (hLow : start ≤ i) (hHigh : i < stop) :
    (returnLevels s.values payments)[i]? = some (.exact (s.reinvested dividends start i)) := by
  have hPrice : ∀ j, start ≤ j → j < stop → (s.reading j).amount ≠ 0 := by
    intro j hj hjStop
    exact hPrices j _ (value?_eq_exact (h.observed j hj hjStop))
  induction i, hLow using Nat.le_induction with
  | base =>
    rw [h.getElem?_levels_of_le payments (Nat.le_refl _), reinvested_start,
      value?_eq_exact (h.observed start (Nat.le_refl _) hHigh)]
  | succ i hLow ih =>
    have hCount := h.lt_count (by omega) hHigh
    have hPaid := getElem?_payments hPayments hCount
    rw [Gapped.filled_eq] at hPaid
    -- The ratio of the prices carries the sum over, and the payment adds the next term.
    rw [h.getElem?_levels_succ payments hLow hCount (ih (by omega)) hPaid,
      reading_eq_exact (h.observed (i + 1) (by omega) hHigh),
      reading_eq_exact (h.observed i hLow (by omega)), Gapped.exact_div, Gapped.exact_mul,
      Gapped.exact_add, reinvested_succ hLow (hPrice i hLow (by omega))
        (hPrice (i + 1) (by omega) hHigh)]

/-- A gap behind the first price takes in every level from there on. -/
theorem getElem?_levels_eq_gap (hLow : stop ≤ i) (hCount : i < s.count) :
    (returnLevels s.values payments)[i]? = some .gap := by
  have hPaid := getElem?_payments hPayments hCount
  induction i, hLow using Nat.le_induction with
  | base =>
    obtain ⟨k, rfl⟩ := Nat.exists_eq_add_one_of_ne_zero (Nat.ne_zero_of_lt h.nonempty)
    have hLast : start ≤ k := Nat.le_of_lt_succ h.nonempty
    have hEnded := h.ended
    rw [isGap_eq_isHole_reading] at hEnded
    have hLevel := getElem?_levels_eq_exact hPrices hPayments h hLast (Nat.lt_succ_self k)
    rw [h.getElem?_levels_succ payments hLast hCount hLevel hPaid, Gapped.eq_gap_of_isHole hEnded,
      Gapped.gap_div, Gapped.mul_gap, Gapped.gap_add]
  | succ i hLow ih =>
    have hLast := ih (by omega) (getElem?_payments hPayments (by omega))
    rw [h.getElem?_levels_succ payments (Nat.le_trans (Nat.le_of_lt h.nonempty) hLow) hCount hLast
      hPaid, Gapped.gap_mul, Gapped.gap_add]

end Exact

section Answer
variable {α : Type} [Hole α] [Zero α] [Add α] [Mul α] [Div α] {s dividends t : Series α}

theorem totalReturn_answers_iff : (∃ t, s.totalReturn dividends = .ok t) ↔
    s.dates = dividends.dates ∨ ∀ d ∈ s.dates, dividends.Reaches d :=
  map_answers_iff.trans payments_answers_iff

theorem exists_payments (h : s.totalReturn dividends = .ok t) :
    ∃ payments, s.payments dividends = .ok payments ∧
      t = (Draft.direct s.dates (returnLevels s.values payments)).series s.options := by
  obtain ⟨payments, hPayments, hReturn⟩ := exists_of_bind_ok h
  exact ⟨payments, hPayments, (Except.ok.inj hReturn).symm⟩

omit [Zero α] in
theorem returnLevels_of_unobserved (h : ∀ i, Holes.isGap i s = true) (payments : List α) :
    returnLevels s.values payments = s.values := by
  have hHoles : ∀ x ∈ s.values, isHole x = true := by
    intro x hx
    obtain ⟨i, hi⟩ := List.mem_iff_getElem?.mp hx
    rw [← value?_eq_getElem?] at hi
    rw [← isGap_of_value? hi, h i]
  rw [returnLevels, List.takeWhile_eq_self_iff.mpr hHoles, List.drop_length]

end Answer

section Result
variable {K : Type} [Field K] {s dividends : Series (Gapped K)}

/-- The levels of a total return: holes outside of the first stretch of prices, and in it the price
with the dividends reinvested, which is the price as long as none is paid. -/
structure Reinvests (s dividends t : Series (Gapped K)) (start stop : Nat) : Prop where
  stretch : s.Stretch start stop
  outside : ∀ i < s.count, i < start ∨ stop ≤ i → t.value? i = some hole
  level : ∀ i, start ≤ i → i < stop → t.value? i = some (.exact (s.reinvested dividends start i))
  unpaid : ∀ i < stop, (∀ j, start < j → j ≤ i → (s.dividendAt dividends j).amount = 0) →
    t.value? i = s.value? i

theorem reinvested_of_unpaid {start i : Nat}
    (h : ∀ j, start < j → j ≤ i → (s.dividendAt dividends j).amount = 0) :
    s.reinvested dividends start i = (s.reading i).amount := by
  have hNone : ∑ j ∈ Finset.Ioc start i,
      (s.dividendAt dividends j).amount / (s.reading j).amount = 0 := by
    apply Finset.sum_eq_zero
    intro j hj
    obtain ⟨hLow, hHigh⟩ := Finset.mem_Ioc.mp hj
    rw [h j hLow hHigh, zero_div]
  rw [reinvested, hNone, add_zero, mul_one]

theorem Stretch.reinvests {t : Series (Gapped K)} {payments : List (Gapped K)} {start stop : Nat}
    (h : s.Stretch start stop) (hPrices : ∀ i x, s.value? i = some (.exact x) → x ≠ 0)
    (hPayments : s.payments dividends = .ok payments)
    (hLevels : t.values = returnLevels s.values payments) : s.Reinvests dividends t start stop := by
  have hValue : ∀ i, t.value? i = (returnLevels s.values payments)[i]? := by
    intro i
    rw [value?_eq_getElem?, hLevels]
  have hEarly : ∀ i ≤ start, t.value? i = s.value? i := by
    intro i hi
    rw [hValue, h.getElem?_levels_of_le payments hi]
  have hLevel : ∀ i, start ≤ i → i < stop →
      t.value? i = some (.exact (s.reinvested dividends start i)) := by
    intro i hLow hHigh
    rw [hValue, getElem?_levels_eq_exact hPrices hPayments h hLow hHigh]
  refine ⟨h, fun i hi hOutside => ?_, hLevel, fun i hHigh hUnpaid => ?_⟩
  · rcases hOutside with hBefore | hBehind
    · have hGap := h.leading i hBefore
      rw [isGap_eq_isHole_reading] at hGap
      rw [hEarly i (Nat.le_of_lt hBefore), value?_of_lt hi, Gapped.eq_gap_of_isHole hGap]
      rfl
    · rw [hValue, getElem?_levels_eq_gap hPrices hPayments h hBehind hi]
      rfl
  · rcases Nat.le_total i start with hBefore | hLow
    · exact hEarly i hBefore
    · rw [hLevel i hLow hHigh, reinvested_of_unpaid hUnpaid,
        value?_eq_exact (h.observed i hLow hHigh)]

/-- In exact arithmetic a total return is the price with the dividends reinvested. It is answered
unless the dividends, on a calendar of their own, have no point left and a date of the prices is
stray in their index. -/
theorem totalReturn_reinvests (s dividends : Series (Gapped K))
    (hPrices : ∀ i x, s.value? i = some (.exact x) → x ≠ 0) :
    (∀ t, s.totalReturn dividends = .ok t →
      t.dates = s.dates ∧ t.options = s.options ∧
      ((∀ i, Holes.isGap i s = true) → t.points = s.points) ∧
      ((∃ i, Holes.isGap i s = false) → ∃ start stop, s.Reinvests dividends t start stop)) ∧
    ((∃ t, s.totalReturn dividends = .ok t) ↔
      s.dates = dividends.dates ∨ ∀ d ∈ s.dates, ∃ x, dividends.valueOn d = .ok x) ∧
    ∀ origin : Series (Gapped K), origin.IndexedBut [.sentinel] → ∀ actions answers,
      origin.run actions = some (answers, dividends) →
      ((∃ t, s.totalReturn dividends = .ok t) ↔ s.dates = dividends.dates ∨
        ¬ (dividends.dates = [] ∧
          ∃ d ∈ s.dates, d ∈ (Census.after origin.dates actions).strays)) := by
  refine ⟨fun t hReturn => ?_, ?_, fun origin hOrigin actions answers hRun => ?_⟩
  · obtain ⟨payments, hPayments, rfl⟩ := exists_payments hReturn
    have hFits := fits_returnLevels hPayments
    refine ⟨hFits.dates_series _, options_ofPoints _ _, fun hGaps => ?_, fun hObserved => ?_⟩
    · have hSame : Draft.direct s.dates s.values = .ofPoints s.points := rfl
      rw [returnLevels_of_unobserved hGaps, hSame, Draft.series_ofPoints, points_ofPoints]
    · obtain ⟨start, stop, hStretch⟩ := Stretch.exists_of_observed hObserved
      exact ⟨start, stop, hStretch.reinvests hPrices hPayments (hFits.values_series _)⟩
  · rw [totalReturn_answers_iff]
    simp only [valueOn_answers_iff]
  · have hEnd := surveyed_run hOrigin actions hRun
    simp only [totalReturn_answers_iff, hEnd.reaches_iff, not_and, not_exists]
    exact or_congr_right ⟨fun h hNone d hd => h d hd hNone, fun h d hd hNone => h hNone d hd⟩

/-- The date of the price has taken the slot of the dividend at the sentinel. The removal of the
sentinel takes the point in the slot, and leaves the date in the index. -/
theorem stray_date_stops_totalReturn :
    let s : Series (Gapped ℚ) := ofPoints default [⟨.latest, .exact 5⟩]
    let actions : List (Action (Gapped ℚ)) :=
      [.add .sentinel (.exact 1), .add .latest (.exact 2), .remove .sentinel]
    s.Stretch 0 1 ∧ (∀ i x, s.value? i = some (.exact x) → x ≠ 0) ∧ ∃ answers dividends,
      (empty default).run actions = some (answers, dividends) ∧ dividends.dates = [] ∧
        ∀ t, s.totalReturn dividends ≠ .ok t := by
  intro s actions
  let postings : List (Posting (Gapped ℚ)) :=
    [.add .sentinel (.exact 1), .add .latest (.exact 2), .remove .sentinel]
  have hPrices : ∀ i x, s.value? i = some (.exact x) → x ≠ 0 := by
    rintro (_ | i) x hx
    · cases hx
      decide
    · cases hx
  have hStretch : s.Stretch 0 1 := by
    refine ⟨fun i hi => absurd hi (Nat.not_lt_zero i), fun i _ hi => ?_, Nat.one_pos, rfl⟩
    obtain rfl := Nat.lt_one_iff.mp hi
    rfl
  have hRegister : runBy Register.post (.blank default) postings =
      some ([.done, .done, .removed true], ⟨[], [.latest], 1, default⟩) := rfl
  have hAgree := agree_run_empty default postings
  rw [hRegister] at hAgree
  obtain ⟨dividends, hPosted, hTracks⟩ := hAgree.exists_left
  have hRun : (empty default).run actions = some ([.done, .done, .removed true], dividends) :=
    hPosted
  have hOrigin : (empty default : Series (Gapped ℚ)).IndexedBut [.sentinel] :=
    indexedBut_of_index rfl
  obtain ⟨-, -, hAnswers⟩ := totalReturn_reinvests s dividends hPrices
  refine ⟨hStretch, hPrices, _, dividends, hRun, hTracks.dates, fun t hReturn => ?_⟩
  rcases (hAnswers _ hOrigin actions _ hRun).mp ⟨t, hReturn⟩ with hSame | hReached
  · rw [hTracks.dates] at hSame
    cases hSame
  · exact hReached ⟨hTracks.dates, .latest, List.mem_singleton_self _, by decide⟩

example :
    let prices : List (Gapped ℚ) := [.gap, .exact 100, .exact 110, .exact 99]
    let payments : List (Gapped ℚ) := [.exact 5, .exact 5, .exact 1, .exact 0]
    returnLevels prices payments = [.gap, .exact 100, .exact 111, .exact (999 / 10)] := by
  decide +kernel

end Result

end Almanac.Series
