import Mathlib.Data.Bool.Basic
import Almanac.Proofs.Series.Gaps
import Almanac.Series.Crossing

/-! # What a crossing looks back to

Each side of a crossing is compared at its own last observation. When the sides have holes at
different dates these are not observations of one date, and the crossing may differ from the one
that the dates with both observations give.
-/
namespace Almanac.Series
set_option autoImplicit false

variable {α : Type} [Hole α]

/-- The last observed position before a position. -/
def before? (s : Series α) (i : Nat) : Option Nat := lastKept? (Holes.isGap · s) i

/-- The last position before a position where both series are observed. -/
def jointBefore? (s t : Series α) (i : Nat) : Option Nat :=
  lastKept? (fun j => Holes.isGap j s || Holes.isGap j t) i

omit [Hole α] in
theorem count_eq_of_dates {s t : Series α} (h : s.dates = t.dates) : s.count = t.count := by
  simpa [dates, count] using congrArg List.length h

theorem displace_back (values : List α) :
    displace values (-1) = (hole :: values).take values.length := by
  change List.replicate (min 1 values.length) hole ++ values.take (values.length - 1) = _
  cases values with
  | nil => rfl
  | cons x values => simp

section Shift
variable (s : Series α)

theorem marks_single : (Holes.ofGroup [s]).Marks (Holes.isGap · s) := by
  have hMarks : (Holes.ofGroup [s]).Marks fun i => [s].any (Holes.isGap i) := Holes.marks_ofGroup rfl
  simpa using hMarks

theorem dates_shift (amount : Int) : (s.shift amount).dates = s.dates := (marks_single s).dates_restore _

theorem reading_shift_back (i : Nat) : (s.shift (-1)).reading i =
    if Holes.isGap i s then hole else (s.before? i).elim hole s.reading := by
  have hMarks := marks_single s
  rw [shift, onObserved, hMarks.reading_restore]
  cases hGap : Holes.isGap i s with
  | true => rfl
  | false =>
    rw [if_neg Bool.false_ne_true, if_neg Bool.false_ne_true, displace_back]
    have hHere := hMarks.value?_compact s hGap
    rw [value?_of_observed hGap, value?_eq_getElem?] at hHere
    have hLt := (List.getElem?_eq_some_iff.mp hHere).1
    rw [reading, value?_relabelled _ _ (by simp [length_values]), List.getElem?_take_of_lt hLt]
    cases hBefore : s.before? i with
    | none =>
      rw [rank_of_lastKept?_eq_none hBefore]
      rfl
    | some j =>
      have hKept := ((lastKept?_eq_some_iff i j).mp hBefore).2.1
      rw [rank_of_lastKept?_eq_some hBefore, List.getElem?_cons_succ, ← value?_eq_getElem?,
        hMarks.value?_compact s hKept]
      rfl

theorem isGap_shift_back (i : Nat) :
    Holes.isGap i (s.shift (-1)) = (Holes.isGap i s || (s.before? i).isNone) := by
  rw [isGap_eq_isHole_reading, reading_shift_back]
  cases Holes.isGap i s with
  | true => exact isHole_hole
  | false =>
    cases hBefore : s.before? i with
    | none => exact isHole_hole
    | some j =>
      have hKept := ((lastKept?_eq_some_iff i j).mp hBefore).2.1
      rw [isGap_eq_isHole_reading] at hKept
      exact hKept

theorem reading_shift_back_of_observed {s : Series α} {i : Nat}
    (h : Holes.isGap i (s.shift (-1)) = false) :
    ∃ j, s.before? i = some j ∧ (s.shift (-1)).reading i = s.reading j := by
  rw [isGap_shift_back, Bool.or_eq_false_iff] at h
  rw [reading_shift_back, h.1]
  cases hBefore : s.before? i with
  | none =>
    rw [hBefore] at h
    cases h.2
  | some j => exact ⟨j, rfl, rfl⟩

theorem longest?_crossing (t : Series α) : Holes.longest? [s.shift (-1), t.shift (-1), s, t] =
    some (if s.count < t.count then t.shift (-1) else s.shift (-1)) := by
  have hs := count_eq_of_dates (dates_shift s (-1))
  have ht := count_eq_of_dates (dates_shift t (-1))
  by_cases h : s.count < t.count
  · have hs' : ¬t.count < s.count := by omega
    simp [Holes.longest?, hs, ht, h, hs']
  · simp [Holes.longest?, hs, ht, h]

end Shift

theorem before?_of_jointBefore? {s t : Series α} {i m : Nat}
    (h : jointBefore? s t i = some m) :
    (∃ j, s.before? i = some j) ∧ ∃ k, t.before? i = some k := by
  obtain ⟨hm, hKept, -⟩ := (lastKept?_eq_some_iff i m).mp h
  obtain ⟨hs, ht⟩ := Bool.or_eq_false_iff.mp hKept
  exact ⟨exists_lastKept?_of_lt hm hs, exists_lastKept?_of_lt hm ht⟩

section Flags
variable [Zero α] [One α] (rule : Crossing α) (s t : Series α)

/-- The crossing at a position by the last observation of each side. -/
def ownCrossing (i : Nat) : α :=
  if Holes.isGap i s || Holes.isGap i t then hole
  else match s.before? i, t.before? i with
    | some j, some k =>
      flag (rule.test (s.reading j) (t.reading k) (s.reading i) (t.reading i))
    | _, _ => hole

/-- The crossing at a position by the last date on which both sides are observed. -/
def jointCrossing (i : Nat) : α :=
  if Holes.isGap i s || Holes.isGap i t then hole
  else match jointBefore? s t i with
    | some j => flag (rule.test (s.reading j) (t.reading j) (s.reading i) (t.reading i))
    | none => hole

theorem dates_crossing : (s.crossing rule (.series t)).dates = (s.longer t).dates := by
  have hLongest := longest?_crossing s t
  rw [crossing, (Holes.marks_ofGroup hLongest).dates_restore, Holes.calendar_ofGroup hLongest, longer]
  split
  · exact dates_shift t (-1)
  · exact dates_shift s (-1)

theorem reading_crossing (i : Nat) :
    (s.crossing rule (.series t)).reading i = s.ownCrossing rule t i := by
  have hMarks := Holes.marks_ofGroup (longest?_crossing s t)
  rw [crossing, hMarks.reading_restore, ownCrossing]
  cases hGap : [s.shift (-1), t.shift (-1), s, t].any (Holes.isGap i) with
  | true =>
    rw [if_pos rfl]
    simp only [List.any_cons, List.any_nil, Bool.or_false, isGap_shift_back] at hGap
    by_cases hSides : (Holes.isGap i s || Holes.isGap i t) = true
    · rw [if_pos hSides]
    · rw [if_neg hSides]
      cases hs : s.before? i with
      | none => rfl
      | some j =>
        cases ht : t.before? i with
        | none => rfl
        | some k =>
          rw [hs, ht] at hGap
          exact absurd (by grind) hSides
  | false =>
    have hObserved := hGap
    simp only [List.any_cons, List.any_nil, Bool.or_false, Bool.or_eq_false_iff] at hObserved
    obtain ⟨hsBack, htBack, hs, ht⟩ := hObserved
    obtain ⟨j, hj, hsReading⟩ := reading_shift_back_of_observed hsBack
    obtain ⟨k, hk, htReading⟩ := reading_shift_back_of_observed htBack
    rw [if_neg Bool.false_ne_true, reading, value?_relabelled _ _ (by
      rw [List.length_zipWith, List.length_zip, length_values]
      omega)]
    simp only [List.zip, List.getElem?_zipWith, hMarks.values_compact hGap hsBack,
      hMarks.values_compact hGap htBack, hMarks.values_compact hGap hs,
      hMarks.values_compact hGap ht, hs, ht, hj, hk, hsReading, htReading]
    rfl

/-- The two agree where no own last observations exist, and where the last common date exists and
gives the same answer. -/
theorem ownCrossing_eq_jointCrossing_iff (hFlag : ∀ b, isHole (flag b : α) = false)
    (hDistinct : (flag false : α) ≠ flag true) (i : Nat) :
    s.ownCrossing rule t i = s.jointCrossing rule t i ↔
      (Holes.isGap i s = false → Holes.isGap i t = false →
        ∀ j k, s.before? i = some j → t.before? i = some k →
          ∃ m, jointBefore? s t i = some m ∧
            rule.test (s.reading j) (t.reading k) (s.reading i) (t.reading i) =
              rule.test (s.reading m) (t.reading m) (s.reading i) (t.reading i)) := by
  have hNe : ∀ b, (flag b : α) ≠ hole := by
    intro b hEq
    have hHole := hFlag b
    rw [hEq, isHole_hole] at hHole
    cases hHole
  rw [ownCrossing, jointCrossing]
  by_cases hSides : (Holes.isGap i s || Holes.isGap i t) = true
  · rw [if_pos hSides, if_pos hSides]
    refine iff_of_true rfl fun hs ht => ?_
    rw [hs, ht] at hSides
    cases hSides
  · rw [if_neg hSides, if_neg hSides]
    obtain ⟨hs, ht⟩ := Bool.or_eq_false_iff.mp (Bool.eq_false_iff.mpr hSides)
    cases hJoint : jointBefore? s t i with
    | some m =>
      obtain ⟨⟨j, hj⟩, k, hk⟩ := before?_of_jointBefore? hJoint
      simp [hs, ht, hj, hk, (Bool.injective_iff.mpr hDistinct).eq_iff]
    | none =>
      cases hj : s.before? i with
      | none => simp
      | some j =>
        cases hk : t.before? i with
        | none => simp
        | some k => simp [hs, ht, hNe]

end Flags

/-- A crossing is a hole unless both sides are observed and each has an observation before. It then
compares each side with its own last observation. It gives the crossing by common dates exactly where
two own last observations come with a last common date that gives the same answer. -/
theorem crossing_looks_back_on_each_side (rule : Crossing Float) (s t : Series Float) :
    (s.crossing rule (.series t)).dates = (s.longer t).dates ∧
    ∀ i, (s.crossing rule (.series t)).reading i = s.ownCrossing rule t i ∧
      ((s.crossing rule (.series t)).reading i = s.jointCrossing rule t i ↔
        (Holes.isGap i s = false → Holes.isGap i t = false →
          ∀ j k, s.before? i = some j → t.before? i = some k →
            ∃ m, jointBefore? s t i = some m ∧
              rule.test (s.reading j) (t.reading k) (s.reading i) (t.reading i) =
                rule.test (s.reading m) (t.reading m) (s.reading i) (t.reading i))) := by
  refine ⟨dates_crossing rule s t, fun i => ⟨reading_crossing rule s t i, ?_⟩⟩
  rw [reading_crossing]
  exact ownCrossing_eq_jointCrossing_iff rule s t (by decide) (by decide) i

example :
    let dates : Calendar := [.sentinel, .latest, .latest]
    let s : Series Float := ofPoints default (List.zipWith Point.mk dates [5, hole, 2])
    let t : Series Float := ofPoints default (List.zipWith Point.mk dates [3, 9, 1])
    (s.crossing .above (.series t)).reading 2 = 1 ∧ s.jointCrossing .above t 2 = 0 := by
  decide

end Almanac.Series
