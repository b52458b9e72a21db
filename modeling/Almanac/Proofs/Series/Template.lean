import Almanac.Proofs.Series.Rule

/-! # The hole template

Whatever an operation makes of two values, it is applied at the positions where both operands hold
one, and every other position of the longer operand is a hole. A scalar holds its value everywhere,
so that only the series has holes to pass on.
-/
namespace Almanac.Series
set_option autoImplicit false

variable {α : Type} [Hole α]

section Joint
variable (f : α → α → α) {s t : Series α}

theorem unlessHole_of_hole_left {x : α} (h : isHole x = true) (y : α) : unlessHole f x y = hole := by
  rw [unlessHole, h]
  rfl

theorem unlessHole_of_hole_right (x : α) {y : α} (h : isHole y = true) :
    unlessHole f x y = hole := by
  rw [unlessHole, h, Bool.or_true]
  rfl

theorem unlessHole_of_observed {x y : α} (hx : isHole x = false) (hy : isHole y = false) :
    unlessHole f x y = f x y := by
  rw [unlessHole, hx, hy]
  rfl

theorem Rule.value?_series (rule : Rule α) (i : Nat) :
    rule.series.value? i = rule.draft.values[i]? := by
  rw [rule.series_eq, value?_eq_getElem?, rule.fits_draft.values_series]

theorem Rule.dates_series (rule : Rule α) : rule.series.dates = rule.draft.dates := by
  rw [rule.series_eq, rule.fits_draft.dates_series]

theorem Rule.options_series (rule : Rule α) : rule.series.options = rule.receiver.options := by
  rw [rule.series_eq]
  exact options_ofPoints _ _

/-- Past the shorter operand the reading of it is a hole, so that one rule gives all positions. -/
theorem value?_combine (hs : s.count ≠ 0) (ht : t.count ≠ 0) (i : Nat) :
    (s.combine f t).value? i =
      if i < max s.count t.count then some (unlessHole f (s.reading i) (t.reading i)) else none := by
  have hValue := (Rule.joint f s t).value?_series i
  rw [Rule.series, Rule.draft, if_neg (by omega), Draft.values, List.getElem?_append,
    List.length_zipWith, length_values, length_values] at hValue
  rw [hValue]
  split
  · have hsLt : i < s.count := by omega
    have htLt : i < t.count := by omega
    rw [List.getElem?_zipWith, ← value?_eq_getElem?, ← value?_eq_getElem?, value?_of_lt hsLt,
      value?_of_lt htLt, if_pos (by omega)]
  · rename_i hEnded
    have hHole : unlessHole f (s.reading i) (t.reading i) = hole := by
      rcases Nat.lt_or_ge i s.count with hLt | hLe
      · exact unlessHole_of_hole_right f _ (isHole_reading_of_count_le (by omega))
      · exact unlessHole_of_hole_left f (isHole_reading_of_count_le hLe) _
    rw [List.getElem?_replicate, hHole]
    simp only [show i - min s.count t.count < max s.count t.count - min s.count t.count ↔
      i < max s.count t.count by omega]

theorem combine_of_empty (h : s.count = 0 ∨ t.count = 0) : s.combine f t = empty s.options := by
  rw [combine, if_pos (by omega)]

theorem reading_combine (s t : Series α) (i : Nat) :
    (s.combine f t).reading i = unlessHole f (s.reading i) (t.reading i) := by
  by_cases hEmpty : s.count = 0 ∨ t.count = 0
  · rw [combine_of_empty f hEmpty]
    rcases hEmpty with hs | ht
    · exact (unlessHole_of_hole_left f (isHole_reading_of_count_le (by omega)) _).symm
    · exact (unlessHole_of_hole_right f _ (isHole_reading_of_count_le (by omega))).symm
  · obtain ⟨hs, ht⟩ := not_or.mp hEmpty
    rw [reading, value?_combine f hs ht]
    split
    · rfl
    · exact (unlessHole_of_hole_left f (isHole_reading_of_count_le (by omega)) _).symm

end Joint

/-- The result of an operation on two series of which none is empty. -/
structure Combined (f : α → α → α) (s t r : Series α) : Prop where
  count : r.count = max s.count t.count
  dates : r.dates = if s.count < t.count then t.dates else s.dates
  options : r.options = s.options
  gap : ∀ i < r.count, Holes.isGap i s = true ∨ Holes.isGap i t = true → r.value? i = some hole
  meet : ∀ i x y, s.value? i = some x → t.value? i = some y → isHole x = false →
    isHole y = false → r.value? i = some (f x y)

/-- The result of an operation on the values of one series. -/
structure Mapped (f : α → α) (s r : Series α) : Prop where
  count : r.count = s.count
  dates : r.dates = s.dates
  options : r.options = s.options
  gap : ∀ i x, s.value? i = some x → isHole x = true → r.value? i = some x
  observed : ∀ i x, s.value? i = some x → isHole x = false → r.value? i = some (f x)

/-- An operation whose right operand is a series or a scalar. -/
structure Template (f : α → α → α) (perform : Series α → Operand α → Series α) : Prop where
  combined : ∀ s t, s.count ≠ 0 → t.count ≠ 0 → Combined f s t (perform s (.series t))
  empty : ∀ s t, s.count = 0 ∨ t.count = 0 → perform s (.series t) = empty s.options
  mapped : ∀ s x, Mapped (f · x) s (perform s (.value x))

theorem combined_combine (f : α → α → α) {s t : Series α} (hs : s.count ≠ 0) (ht : t.count ≠ 0) :
    Combined f s t (s.combine f t) := by
  have hDates : (s.combine f t).dates = (s.longer t).dates := by
    have h := (Rule.joint f s t).dates_series
    rwa [Rule.series, Rule.draft, if_neg (by omega)] at h
  have hCount : (s.combine f t).count = max s.count t.count := by
    rw [← length_dates, hDates, length_dates, Rule.count_longer]
  constructor
  case count => exact hCount
  case dates =>
    rw [hDates, longer]
    split
    · rfl
    · rfl
  case options => exact (Rule.joint f s t).options_series
  case gap =>
    intro i hi hGap
    rw [value?_combine f hs ht, if_pos (hCount ▸ hi)]
    rw [isGap_eq_isHole_reading, isGap_eq_isHole_reading] at hGap
    rcases hGap with hGap | hGap
    · rw [unlessHole_of_hole_left f hGap]
    · rw [unlessHole_of_hole_right f _ hGap]
  case meet =>
    intro i x y hx hy hxObserved hyObserved
    have hi := lt_count_of_value? hx
    rw [value?_combine f hs ht, if_pos (by omega), reading_of_value? hx, reading_of_value? hy,
      unlessHole_of_observed f hxObserved hyObserved]

theorem mapped_mapObserved (f : α → α) (s : Series α) : Mapped f s (s.mapObserved f) := by
  have hValue : ∀ i x, s.value? i = some x →
      (s.mapObserved f).value? i = some (if isHole x then x else f x) := by
    intro i x hx
    have h := (Rule.observed f s).value?_series i
    rw [value?_eq_getElem?] at hx
    rw [Rule.observed, Rule.series, Rule.draft, Draft.values, List.getElem?_map, hx] at h
    exact h
  have hDates : (s.mapObserved f).dates = s.dates := (Rule.observed f s).dates_series
  constructor
  case count => exact by rw [← length_dates, hDates, length_dates]
  case dates => exact hDates
  case options => exact (Rule.observed f s).options_series
  case gap =>
    intro i x hx hHole
    rw [hValue i x hx, if_pos hHole]
  case observed =>
    intro i x hx hObserved
    rw [hValue i x hx, hObserved, if_neg Bool.false_ne_true]

theorem template_of_rule {f : α → α → α} {perform : Series α → Operand α → Series α}
    (h : ∀ s other, perform s other = (Rule.applied f s other).series) : Template f perform := by
  constructor
  case combined =>
    intro s t hs ht
    rw [h]
    exact combined_combine f hs ht
  case empty =>
    intro s t hEmpty
    rw [h]
    exact combine_of_empty f hEmpty
  case mapped =>
    intro s x
    rw [h]
    exact mapped_mapObserved (f · x) s

section Flags
variable [Zero α] [One α]

/-- Whether an operation answers with a flag. -/
def Relation.Flags : Relation → Prop
  | higher | lower => False
  | both | either | equal | notEqual | greater | greaterEqual | less | lessEqual => True

def IsFlag (x : α) : Prop := x = 0 ∨ x = 1

omit [Hole α] in
theorem isFlag_flag (test : Bool) : IsFlag (flag test : α) := by
  cases test with
  | false => exact .inl rfl
  | true => exact .inr rfl

theorem Relation.Flags.isFlag [BEq α] [LT α] [DecidableLT α] [LE α] [DecidableLE α]
    {op : Relation} (h : op.Flags) (x y : α) : IsFlag (op.value x y) := by
  cases op with
  | higher | lower => exact h.elim
  | both | either | equal | notEqual | greater | greaterEqual | less | lessEqual =>
    exact isFlag_flag _

variable {f : α → α → α} {perform : Series α → Operand α → Series α}
  (hZero : isHole (0 : α) = false) (hOne : isHole (1 : α) = false)

include hZero hOne

theorem not_isFlag_of_hole {x : α} (h : isHole x = true) : ¬ IsFlag x := by
  rintro (rfl | rfl)
  · exact Bool.false_ne_true (hZero.symm.trans h)
  · exact Bool.false_ne_true (hOne.symm.trans h)

theorem Template.flagged_iff (h : Template f perform) (hFlag : ∀ x y, IsFlag (f x y))
    (s t : Series α) (i : Nat) :
    (∃ x, (perform s (.series t)).value? i = some x ∧ IsFlag x) ↔
      Holes.isGap i s = false ∧ Holes.isGap i t = false := by
  constructor
  · rintro ⟨x, hx, hxFlag⟩
    have hi := lt_count_of_value? hx
    by_cases hEmpty : s.count = 0 ∨ t.count = 0
    · rw [h.empty s t hEmpty] at hi
      cases hi
    · obtain ⟨hs, ht⟩ := not_or.mp hEmpty
      by_contra hGap
      have hHole := (h.combined s t hs ht).gap i hi (by grind)
      obtain rfl := Option.some.inj (hx.symm.trans hHole)
      exact not_isFlag_of_hole hZero hOne isHole_hole hxFlag
  · rintro ⟨hs, ht⟩
    have hsLt := lt_count_of_observed hs
    have htLt := lt_count_of_observed ht
    refine ⟨_, (h.combined s t (by omega) (by omega)).meet i _ _ (value?_of_observed hs)
      (value?_of_observed ht) ?_ ?_, hFlag _ _⟩
    · rw [← isGap_eq_isHole_reading, hs]
    · rw [← isGap_eq_isHole_reading, ht]

theorem Mapped.flagged_iff {g : α → α} {s r : Series α} (h : Mapped g s r)
    (hFlag : ∀ x, IsFlag (g x)) (i : Nat) :
    (∃ x, r.value? i = some x ∧ IsFlag x) ↔ Holes.isGap i s = false := by
  constructor
  · rintro ⟨x, hx, hxFlag⟩
    have hi := lt_count_of_value? hx
    rw [h.count] at hi
    by_contra hGap
    rw [Bool.not_eq_false, isGap_eq_isHole_reading] at hGap
    obtain rfl := Option.some.inj (hx.symm.trans (h.gap i _ (value?_of_lt hi) hGap))
    exact not_isFlag_of_hole hZero hOne hGap hxFlag
  · intro hs
    refine ⟨_, h.observed i _ (value?_of_observed hs) ?_, hFlag _⟩
    rw [← isGap_eq_isHole_reading, hs]

end Flags

/-- Every operation on two series follows the template, with the scalar on either side in the order
that is written; what it makes of two values is open. Comparisons and logical operations answer with
zero or one exactly where both operands hold a value. -/
theorem operations_follow_template [Zero α] [One α] [Add α] [Sub α] [Mul α] [Div α] [BEq α] [LT α]
    [DecidableLT α] [LE α] [DecidableLE α] (hZero : isHole (0 : α) = false)
    (hOne : isHole (1 : α) = false) :
    (∀ op : Arithmetic, Template (α := α) op.value op.perform ∧
      ∀ x (s : Series α), Mapped (op.value x) s (op.performFirst x s)) ∧
    ∀ op : Relation, Template (α := α) op.value op.perform ∧ (op.Flags →
      (∀ (s t : Series α) (i : Nat),
        (∃ x, (op.perform s (.series t)).value? i = some x ∧ IsFlag x) ↔
          Holes.isGap i s = false ∧ Holes.isGap i t = false) ∧
      ∀ (s : Series α) (y : α) (i : Nat),
        (∃ x, (op.perform s (.value y)).value? i = some x ∧ IsFlag x) ↔
          Holes.isGap i s = false) := by
  refine ⟨fun op => ⟨template_of_rule op.perform_eq, fun x s => ?_⟩, fun op => ?_⟩
  · rw [op.performFirst_eq]
    exact mapped_mapObserved (op.value x) s
  · have hTemplate : Template (α := α) op.value op.perform := template_of_rule op.perform_eq
    refine ⟨hTemplate, fun hFlags => ⟨?_, fun s y => ?_⟩⟩
    · exact hTemplate.flagged_iff hZero hOne hFlags.isFlag
    · exact (hTemplate.mapped s y).flagged_iff hZero hOne fun x => hFlags.isFlag x y

/-- A quotient of series of two lengths, and a scalar divided by a series. -/
theorem quotients_over_holes :
    let dates : Calendar := [.sentinel, .sentinel, .latest]
    let s : Series Float := ofPoints ⟨2, Nat.two_pos⟩ [⟨.latest, 8⟩, ⟨.latest, 3⟩]
    let t : Series Float := ofPoints default (List.zipWith Point.mk dates [2, hole, 4])
    isHole (0 : Float) = false ∧ isHole (1 : Float) = false ∧
    (s / t).dates = dates ∧ (s / t).options = ⟨2, Nat.two_pos⟩ ∧ (s / t).value? 0 = some 4 ∧
      (s / t).value? 1 = some hole ∧ (s / t).value? 2 = some hole ∧
    ((16 : Float) / t).value? 0 = some 8 ∧ ((16 : Float) / t).value? 2 = some 4 ∧
    ∃ x, (s.isLess (.series t)).value? 0 = some x ∧ IsFlag x := by
  intro dates s t
  have hZero : isHole (0 : Float) = false := by decide
  have hOne : isHole (1 : Float) = false := by decide
  obtain ⟨hArithmetic, hRelation⟩ := operations_follow_template hZero hOne
  obtain ⟨hQuotient, hFirst⟩ := hArithmetic .divide
  have hJoint : Combined (· / ·) s t (s / t) := hQuotient.combined s t (by decide) (by decide)
  have hScalar : Mapped (16 / ·) t ((16 : Float) / t) := hFirst 16 t
  refine ⟨hZero, hOne, ?_, ?_, ?_, ?_, ?_, ?_, ?_, ?_⟩
  · exact hJoint.dates.trans (by decide)
  · exact hJoint.options
  · exact (hJoint.meet 0 8 2 rfl rfl (by decide) (by decide)).trans (by decide)
  · exact hJoint.gap 1 (by rw [hJoint.count]; decide) (.inr (by decide))
  · exact hJoint.gap 2 (by rw [hJoint.count]; decide) (.inl (by decide))
  · exact (hScalar.observed 0 2 rfl (by decide)).trans (by decide)
  · exact (hScalar.observed 2 4 rfl (by decide)).trans (by decide)
  · exact ((hRelation .less).2 trivial).1 s t 0 |>.mpr ⟨by decide, by decide⟩

end Almanac.Series
