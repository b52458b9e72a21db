import Almanac.Proofs.Series.Restoration
import Almanac.Proofs.Series.Sampling

/-! # Transforms

Every operation that makes a new series of others is compared with a draft, in which the dates and
the values are made apart from each other. The drafts fit, so that no date is cut and no value lost.
-/
namespace Almanac.Series
set_option autoImplicit false

variable {α : Type}

section Arguments

theorem checkWindow_answers_iff {s : Series α} {first last : Nat} :
    (∃ u, s.checkWindow first last = .ok u) ↔ first ≤ last ∧ last < s.count := by
  rw [checkWindow]
  split
  · rename_i hLt
    exact iff_of_false (by rintro ⟨_, ⟨⟩⟩) (by omega)
  · rename_i hLe
    exact (guard_answers_iff ⟨_, rfl⟩).trans (by omega)

theorem checkPositive_answers_iff (parameter : String) {value : Nat} :
    (∃ u, checkPositive parameter value = .ok u) ↔ 0 < value := guard_answers_iff ⟨_, rfl⟩

end Arguments

section Positions

def laggedDraft (f : (before now : α) → α) (s : Series α) : Draft α :=
  .direct s.dates.tail (List.zipWith f s.values s.values.tail)

def sliceDraft (s : Series α) (first last : Nat) : Draft α :=
  .direct ((s.dates.drop first).take (last + 1 - first))
    ((s.values.drop first).take (last + 1 - first))

theorem fits_laggedDraft (f : α → α → α) (s : Series α) : (s.laggedDraft f).Fits := by
  rw [laggedDraft, Draft.Fits, List.length_zipWith, List.length_tail, List.length_tail,
    length_dates, length_values]
  omega

theorem sliceDraft_eq (s : Series α) (first last : Nat) :
    s.sliceDraft first last = .ofPoints (s.slice first last) := by
  rw [sliceDraft, Draft.ofPoints, slice, dates, values, List.map_take, List.map_drop, List.map_take,
    List.map_drop]

variable [Hole α]

theorem lagged_eq (f : α → α → α) (s : Series α) :
    s.lagged f = (s.laggedDraft f).series s.options := by
  have hPairs : ∀ points later : List (Point α),
      List.zipWith (fun p q => (⟨q.date, f p.value q.value⟩ : Point α)) points later =
        List.zipWith Point.mk (later.map Point.date)
          (List.zipWith f (points.map Point.value) (later.map Point.value)) := by
    intro points
    induction points with
    | nil => intro later; simp
    | cons p points ih =>
      intro later
      cases later with
      | nil => rfl
      | cons q later => simp [ih]
  rw [lagged, hPairs, laggedDraft, Draft.series, Draft.dates, Draft.values, derived, dates, values,
    List.map_tail, List.map_tail]

theorem combine_shift_eq (f : α → α → α) (s : Series α) (amount : Int) :
    (s.shift amount).combine f s =
      (Rule.joint f (s.shift amount) s).draft.series s.options := by
  rw [← options_shift s amount]
  exact (Rule.joint f (s.shift amount) s).series_eq

end Positions

section TotalReturn
variable [Add α] [Mul α] [Div α]

theorem length_compound (level price : α) (prices payments : List α)
    (h : prices.length ≤ payments.length) :
    (compound level price prices payments).length = prices.length := by
  induction prices generalizing level price payments with
  | nil => rfl
  | cons next prices ih =>
    cases payments with
    | nil => simp at h
    | cons paid payments =>
      rw [compound, List.length_cons, List.length_cons, ih]
      simpa using h

theorem length_returnLevels [Hole α] (prices payments : List α) (h : prices.length ≤ payments.length) :
    (returnLevels prices payments).length = prices.length := by
  rw [returnLevels]
  split
  · rfl
  · rename_i price rest hRest
    have hLength := congrArg List.length hRest
    rw [List.length_drop, List.length_cons] at hLength
    rw [List.length_append, List.length_cons, length_compound]
    · omega
    · rw [List.length_drop]
      omega

theorem fits_returnLevels [Hole α] [Zero α] {s dividends : Series α} {payments : List α}
    (h : s.payments dividends = .ok payments) :
    (Draft.direct s.dates (returnLevels s.values payments)).Fits := by
  have hLength : s.values.length ≤ payments.length := by rw [length_payments h, length_values]
  rw [Draft.Fits, length_returnLevels _ _ hLength, length_dates, length_values]

end TotalReturn

/-- An operation that makes a new series of others, or refuses to. -/
inductive Transform (α : Type) where
  | elementwise (op : Elementwise α)
  | isRising (s : Series α)
  | isFalling (s : Series α)
  | crossing (rule : Crossing α) (s : Series α) (other : Operand α)
  | addHoles (s : Series α) (holes : Holes)
  | shiftLeft (s : Series α) (amount : Int)
  | shiftRight (s : Series α) (amount : Int)
  | synchronize (s other : Series α) (method : SyncMethod)
  | synchronizeMany (s : Series α) (others : List (Series α)) (method : SyncMethod)
  | range (s : Series α) (first last : Instant) (filling : Filling)
  | rangeByIndex (s : Series α) (first last : Nat)
  | monthEnds (s : Series α)
  | intervals (s : Series α) (interval : Nat) (unit : TimeUnit)
  | sparseSubset (s : Series α) (distance : Nat)
  | dropNonFinite (s : Series α)
  | logReturn (s : Series α)
  | ratioReturn (s : Series α)
  | differenceReturn (s : Series α)
  | totalReturn (s dividends : Series α)

namespace Transform

/-- The series whose options the result has. -/
def receiver : Transform α → Series α
  | elementwise op => op.receiver
  | isRising s | isFalling s | crossing _ s _ | addHoles s _ | shiftLeft s _ | shiftRight s _
  | synchronize s .. | synchronizeMany s .. | range s .. | rangeByIndex s .. | monthEnds s
  | intervals s .. | sparseSubset s _ | dropNonFinite s | logReturn s | ratioReturn s
  | differenceReturn s | totalReturn s _ => s

variable [Hole α]

def InRange : Transform α → Prop
  | addHoles s holes => s.count = holes.keptLength
  | shiftLeft s amount => ∀ k < s.observedCount, isOffset (k + amount) = true
  | shiftRight s amount =>
    isOffset (-amount) = true ∧ ∀ k < s.observedCount, isOffset (k + -amount) = true
  | rangeByIndex s first last => first ≤ last ∧ last < s.count
  | intervals _ interval _ => 0 < interval
  | sparseSubset _ distance => 0 < distance
  | _ => True

/-- No lookup leaves its series. -/
def Reaching : Transform α → Prop
  | synchronize s other method => ∀ d ∈ s.calendarBy other method, other.ReachesBy method d
  | synchronizeMany s others .union => ∀ d ∈ s.commonDates others, s.Reaches d
  | synchronizeMany s others method => ∀ first, (s.commonDates others).earliest? = some first →
    ∀ d ∈ groupCalendar first (s :: others), s.ReachesBy method d
  | range s first last .daily => ∀ d ∈ first.grid last TimeUnit.day.seconds, s.ReachesNear d
  | intervals s interval unit => ∀ first last, s.dates.head? = some first →
    s.dates.getLast? = some last → ∀ d ∈ intervalDates first last interval unit, s.ReachesNear d
  | totalReturn s dividends => s.dates = dividends.dates ∨ ∀ d ∈ s.dates, dividends.Reaches d
  | _ => True

/-- The series in which values are looked up. -/
def source : Transform α → Series α
  | synchronize _ other _ => other
  | totalReturn _ dividends => dividends
  | t => t.receiver

omit [Hole α] in
theorem reaching_of_indexed {t : Transform α} (h : t.source.IndexedBut []) : t.Reaching := by
  cases t with
  | synchronize s other method => exact fun d _ => h.reachesBy method d
  | synchronizeMany s others method =>
    cases method with
    | union => exact fun d _ => h.reaches d
    | exact => exact fun _ _ d _ => h.reachesBy .exact d
    | latest => exact fun _ _ d _ => h.reachesBy .latest d
  | range s first last filling =>
    cases filling with
    | observed => trivial
    | daily => exact fun d _ => h.reachesNear d
  | intervals s interval unit => exact fun _ _ _ _ d _ => h.reachesNear d
  | totalReturn s dividends => exact .inr fun d _ => h.reaches d
  | _ => trivial

variable [Zero α] [One α] [Add α] [Sub α] [Mul α] [Div α] [Neg α] [BEq α] [Magnitude α]
  [Elementary α] [LT α] [DecidableLT α] [LE α] [DecidableLE α]

def perform : Transform α → Checked (Series α)
  | elementwise op => .ok op.perform
  | isRising s => .ok s.isRising
  | isFalling s => .ok s.isFalling
  | crossing rule s other => .ok (s.crossing rule other)
  | addHoles s holes => s.addHoles holes
  | shiftLeft s amount => s.shiftLeft amount
  | shiftRight s amount => s.shiftRight amount
  | synchronize s other method => s.synchronize other method
  | synchronizeMany s others method => s.synchronizeMany others method
  | range s first last filling => s.range first last filling
  | rangeByIndex s first last => s.rangeByIndex first last
  | monthEnds s => .ok s.monthEnds
  | intervals s interval unit => s.intervals interval unit
  | sparseSubset s distance => s.sparseSubset distance
  | dropNonFinite s => .ok s.dropNonFinite
  | logReturn s => .ok s.logReturn
  | ratioReturn s => .ok s.ratioReturn
  | differenceReturn s => .ok s.differenceReturn
  | totalReturn s dividends => s.totalReturn dividends

/-- The dates and the values that the result is made of. -/
def draft : Transform α → Checked (Draft α)
  | elementwise op => .ok op.rule.draft
  | isRising s => .ok (Rule.joint (fun x y => flag (x < y)) (s.shift (-1)) s).draft
  | isFalling s => .ok (Rule.joint (fun x y => flag (y < x)) (s.shift (-1)) s).draft
  | crossing rule s other => .ok (s.crossingDraft rule other)
  | addHoles s holes =>
    if s.count = holes.keptLength then .ok (.restored holes s.values)
    else refuse (.lengthMismatch holes.keptLength s.count)
  | shiftLeft s amount => s.offsetDraft amount
  | shiftRight s amount => if isOffset (-amount) then s.offsetDraft (-amount) else fault
  | synchronize s other method => s.alignedDraft other method
  | synchronizeMany s others method => s.groupDraft others method
  | range s first last .observed => .ok (.ofPoints (s.observedIn first last))
  | range s first last .daily => do return .ofPoints (← s.dailyIn first last)
  | rangeByIndex s first last => do
    s.checkWindow first last
    return s.sliceDraft first last
  | monthEnds s => .ok (.ofPoints (monthEndPoints s.points))
  | intervals s interval unit => do
    checkPositive "interval" interval
    s.gridDraft interval unit
  | sparseSubset s distance => do
    checkPositive "distance" distance
    return .ofPoints (thin distance 0 s.points.reverse).reverse
  | dropNonFinite s => .ok (.ofPoints s.finitePoints)
  | logReturn s => .ok (s.laggedDraft fun before now => finiteOr hole (log (now / before)))
  | ratioReturn s => .ok (s.laggedDraft fun before now => finiteOr hole (now / before - 1))
  | differenceReturn s => .ok (s.laggedDraft fun before now => finiteOr 0 (now - before))
  | totalReturn s dividends => do
    return .direct s.dates (returnLevels s.values (← s.payments dividends))

theorem perform_eq (t : Transform α) :
    t.perform = t.draft.map (Draft.series t.receiver.options) := by
  cases t with
  | elementwise op =>
    rw [perform, draft, op.perform_eq, op.rule.series_eq, op.receiver_rule]
    rfl
  | isRising s => exact congrArg Except.ok (combine_shift_eq _ s _)
  | isFalling s => exact congrArg Except.ok (combine_shift_eq _ s _)
  | crossing rule s other => exact congrArg Except.ok (crossing_eq rule s other).2
  | addHoles s holes =>
    rw [perform, draft, Series.addHoles]
    split
    · exact congrArg Except.ok (Draft.restore_eq holes s)
    · rfl
  | shiftLeft s amount => exact shiftLeft_eq s amount
  | shiftRight s amount =>
    rw [perform, draft, Series.shiftRight]
    split
    · exact shiftLeft_eq s (-amount)
    · rfl
  | synchronize s other method => exact synchronize_eq_draft s other method
  | synchronizeMany s others method => exact synchronizeMany_eq_draft s others method
  | range s first last filling =>
    cases filling with
    | observed => exact congrArg Except.ok (Draft.series_ofPoints _ _).symm
    | daily =>
      rw [perform, draft, Series.range]
      cases s.dailyIn first last with
      | error failure => rfl
      | ok points => exact congrArg Except.ok (Draft.series_ofPoints _ _).symm
  | rangeByIndex s first last =>
    rw [perform, draft, Series.rangeByIndex]
    cases s.checkWindow first last with
    | error failure => rfl
    | ok _ =>
      rw [sliceDraft_eq]
      exact congrArg Except.ok (Draft.series_ofPoints _ _).symm
  | monthEnds s => exact congrArg Except.ok (Draft.series_ofPoints _ _).symm
  | intervals s interval unit =>
    rw [perform, draft, intervals_eq]
    cases checkPositive "interval" interval with
    | error failure => rfl
    | ok _ => rfl
  | sparseSubset s distance =>
    rw [perform, draft, Series.sparseSubset]
    cases checkPositive "distance" distance with
    | error failure => rfl
    | ok _ => exact congrArg Except.ok (Draft.series_ofPoints _ _).symm
  | dropNonFinite s => exact congrArg Except.ok (Draft.series_ofPoints _ _).symm
  | logReturn s => exact congrArg Except.ok (lagged_eq _ s)
  | ratioReturn s => exact congrArg Except.ok (lagged_eq _ s)
  | differenceReturn s => exact congrArg Except.ok (lagged_eq _ s)
  | totalReturn s dividends =>
    rw [perform, draft, Series.totalReturn]
    cases s.payments dividends with
    | error failure => rfl
    | ok payments => rfl

theorem fits_of_draft {t : Transform α} {d : Draft α} (h : t.draft = .ok d) : d.Fits := by
  cases t with
  | elementwise op =>
    cases h
    exact op.rule.fits_draft
  | isRising s =>
    cases h
    exact Rule.fits_draft _
  | isFalling s =>
    cases h
    exact Rule.fits_draft _
  | crossing rule s other =>
    cases h
    exact (crossing_eq rule s other).1
  | addHoles s holes =>
    rw [draft] at h
    split at h
    · rename_i hCount
      cases h
      exact hCount.symm.trans s.length_values.symm
    · cases h
  | shiftLeft s amount => exact fits_of_offsetDraft h
  | shiftRight s amount =>
    rw [draft] at h
    split at h
    · exact fits_of_offsetDraft h
    · cases h
  | synchronize s other method => exact Draft.fits_of_sampled h
  | synchronizeMany s others method =>
    cases method with
    | union => exact Draft.fits_of_sampled h
    | exact => exact fits_of_spanDraft h
    | latest => exact fits_of_spanDraft h
  | range s first last filling =>
    cases filling with
    | observed =>
      cases h
      exact Draft.fits_ofPoints _
    | daily =>
      obtain ⟨points, -, hDraft⟩ := exists_of_bind_ok h
      cases hDraft
      exact Draft.fits_ofPoints points
  | rangeByIndex s first last =>
    obtain ⟨_, -, hDraft⟩ := exists_of_bind_ok h
    cases hDraft
    rw [sliceDraft_eq]
    exact Draft.fits_ofPoints _
  | monthEnds s =>
    cases h
    exact Draft.fits_ofPoints _
  | intervals s interval unit =>
    obtain ⟨_, -, hDraft⟩ := exists_of_bind_ok h
    exact fits_of_gridDraft hDraft
  | sparseSubset s distance =>
    obtain ⟨_, -, hDraft⟩ := exists_of_bind_ok h
    cases hDraft
    exact Draft.fits_ofPoints _
  | dropNonFinite s =>
    cases h
    exact Draft.fits_ofPoints _
  | logReturn s =>
    cases h
    exact fits_laggedDraft _ s
  | ratioReturn s =>
    cases h
    exact fits_laggedDraft _ s
  | differenceReturn s =>
    cases h
    exact fits_laggedDraft _ s
  | totalReturn s dividends =>
    obtain ⟨payments, hPayments, hDraft⟩ := exists_of_bind_ok h
    cases hDraft
    exact fits_returnLevels hPayments

theorem draft_answers_iff (t : Transform α) : (∃ d, t.draft = .ok d) ↔ t.InRange ∧ t.Reaching := by
  cases t with
  | addHoles s holes => exact (guard_answers_iff ⟨_, rfl⟩).trans (and_iff_left trivial).symm
  | shiftLeft s amount => exact offsetDraft_answers_iff.trans (and_iff_left trivial).symm
  | shiftRight s amount =>
    rw [draft, InRange, ← offsetDraft_answers_iff]
    refine Iff.trans ?_ (and_iff_left trivial).symm
    split
    · rename_i hOffset
      exact (and_iff_right hOffset).symm
    · rename_i hOffset
      exact iff_of_false (by rintro ⟨_, ⟨⟩⟩) fun h => hOffset h.1
  | synchronize s other method =>
    refine Iff.trans ?_ (and_iff_right trivial).symm
    exact Draft.sampled_answers_iff.trans (forall₂_congr fun d _ => lookBy_answers_iff)
  | synchronizeMany s others method =>
    refine Iff.trans ?_ (and_iff_right trivial).symm
    cases method with
    | union => exact Draft.sampled_answers_iff.trans (forall₂_congr fun d _ => valueOn_answers_iff)
    | exact => exact spanDraft_answers_iff
    | latest => exact spanDraft_answers_iff
  | range s first last filling =>
    refine Iff.trans ?_ (and_iff_right trivial).symm
    cases filling with
    | observed => exact iff_of_true ⟨_, rfl⟩ trivial
    | daily => exact map_answers_iff.trans dailyIn_answers_iff
  | rangeByIndex s first last =>
    exact (map_answers_iff.trans checkWindow_answers_iff).trans (and_iff_left trivial).symm
  | intervals s interval unit =>
    rw [InRange, Reaching, ← gridDraft_answers_iff, ← checkPositive_answers_iff "interval",
      ← exists_and_right]
    exact bind_answers_iff
  | sparseSubset s distance =>
    exact (map_answers_iff.trans (checkPositive_answers_iff _)).trans (and_iff_left trivial).symm
  | totalReturn s dividends =>
    refine Iff.trans ?_ (and_iff_right trivial).symm
    exact map_answers_iff.trans payments_answers_iff
  | _ => exact iff_of_true ⟨_, rfl⟩ ⟨trivial, trivial⟩

theorem perform_answers_iff (t : Transform α) :
    (∃ r, t.perform = .ok r) ↔ t.InRange ∧ t.Reaching := by
  rw [t.perform_eq]
  exact map_answers_iff.trans t.draft_answers_iff

theorem wellFormed_of_perform {t : Transform α} {r : Series α} (h : t.perform = .ok r) :
    ∃ d, t.draft = .ok d ∧ r.WellFormed t.receiver.options d := by
  rw [t.perform_eq] at h
  obtain ⟨d, hDraft, rfl⟩ := map_eq_ok_iff.mp h
  exact ⟨d, hDraft, (fits_of_draft hDraft).wellFormed t.receiver.options⟩

end Transform

/-- A transform answers exactly if its arguments are in their ranges and its lookups end in their
series, as they do in an indexed one. What it makes, of one series or of each member of a group,
holds the dates and the values of its draft, all of them, under the options of the series that it is
made from. -/
theorem transforms_give_wellFormed [Hole α] [Zero α] [One α] [Add α] [Sub α] [Mul α] [Div α]
    [Neg α] [BEq α] [Magnitude α] [Elementary α] [LT α] [DecidableLT α] [LE α] [DecidableLE α] :
    (∀ t : Transform α, ((∃ r, t.perform = .ok r) ↔ t.InRange ∧ t.Reaching) ∧
      (t.source.IndexedBut [] → t.Reaching) ∧
      ∀ r, t.perform = .ok r → ∃ d, t.draft = .ok d ∧ r.WellFormed t.receiver.options d) ∧
    ∀ (group : List (Series α)) (made : List (Series α)) (holes : Holes),
      removeHoles group = (made, holes) → made.length = group.length ∧
        ∀ (i : Nat) (s : Series α), group[i]? = some s → ∃ r, made[i]? = some r ∧
          r.WellFormed s.options (.direct holes.keptDates (s.keptValues holes)) := by
  constructor
  · intro t
    exact ⟨t.perform_answers_iff, Transform.reaching_of_indexed,
      fun r hr => Transform.wellFormed_of_perform hr⟩
  · rintro group _ _ ⟨⟩
    refine ⟨List.length_map _, fun i s hs => ?_⟩
    rw [List.getElem?_map, hs]
    exact ⟨_, rfl, (fits_compact (List.mem_of_getElem? hs)).wellFormed s.options⟩

/-- A crossing over a gap, a lookup on a repeated date, and the two series without the gap. -/
theorem wellFormed_over_a_gap :
    let first : Instant := ⟨0, by decide, by decide⟩
    let dates : Calendar := [first, .latest, .latest]
    let s : Series Float := ofPoints default (List.zipWith Point.mk dates [5, hole, 2])
    let t : Series Float := ofPoints ⟨2, Nat.two_pos⟩ (List.zipWith Point.mk dates [3, 9, 1])
    (∃ r, (Transform.crossing .above s (.series t)).perform = .ok r ∧ r.dates = dates ∧
      r.values = [hole, hole, 1] ∧ r.index[Instant.latest]? = some 2 ∧ r.spareCapacity = 0 ∧
      r.options = s.options) ∧
    (∃ r, (Transform.synchronize t s .latest).perform = .ok r ∧ r.dates = dates ∧
      r.options = t.options) ∧
    ∃ r, (removeHoles [s, t]).1[1]? = some r ∧ r.dates = [first, .latest] ∧
      r.values = [3, 1] ∧ r.options = t.options := by
  intro first dates s t
  obtain ⟨hTransforms, hRemoval⟩ := transforms_give_wellFormed (α := Float)
  refine ⟨?_, ?_, ?_⟩
  · obtain ⟨hAnswered, -, hMade⟩ := hTransforms (.crossing .above s (.series t))
    obtain ⟨r, hr⟩ := hAnswered.mpr ⟨trivial, trivial⟩
    obtain ⟨d, hDraft, h⟩ := hMade r hr
    cases hDraft
    have hDates : r.dates = dates := h.dates.trans (by decide)
    refine ⟨r, hr, hDates, h.values.trans (by decide), ?_, ?_, h.options⟩
    · rw [h.index, hDates]
      decide
    · rw [h.spare, hDates]
      decide
  · obtain ⟨hAnswered, hReaching, hMade⟩ := hTransforms (.synchronize t s .latest)
    have hIndexed : s.IndexedBut [] := (indexedBut_ofPoints _ _).of_real (by decide)
    obtain ⟨r, hr⟩ := hAnswered.mpr ⟨trivial, hReaching hIndexed⟩
    obtain ⟨d, hDraft, h⟩ := hMade r hr
    obtain ⟨values, -, hDirect⟩ := exists_of_bind_ok hDraft
    cases hDirect
    exact ⟨r, hr, h.dates, h.options⟩
  · obtain ⟨-, hMembers⟩ := hRemoval [s, t] _ _ rfl
    obtain ⟨r, hr, h⟩ := hMembers 1 t rfl
    exact ⟨r, hr, h.dates.trans (by decide), h.values.trans (by decide), h.options⟩

end Almanac.Series
