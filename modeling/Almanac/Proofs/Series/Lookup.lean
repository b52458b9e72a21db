import Almanac.Proofs.Edit
import Almanac.Proofs.Order
import Almanac.Proofs.Series.Index
import Almanac.Series.Lookup

/-! # Lookups of an indexed series

In a series whose index knows the last position of every visible date, a lookup on a date gives the
value at that position, and a lookup near a date never leaves the series. The search by halves ends
between a position before the date and one that is not, whatever the order of the dates; where they
ascend, the lookup of a previous neighbour finds the last position dated at or before the date.
-/
namespace Almanac.Series
set_option autoImplicit false

variable {α : Type} {s : Series α}

/-- The last position dated at or before a date. -/
def LastUpTo (s : Series α) (d : Instant) (i : Nat) : Prop :=
  (∃ e, s.dates[i]? = some e ∧ e ≤ d) ∧ ∀ j e, i < j → s.dates[j]? = some e → d < e

theorem IndexedBut.position?_eq (h : s.IndexedBut []) (d : Instant) :
    s.position? d = s.dates.lastPosition? d := by simpa using h d

/-- A date is visible exactly if it has a position. -/
theorem IndexedBut.position?_eq_none_iff (h : s.IndexedBut []) (d : Instant) :
    s.position? d = none ↔ d ∉ s.dates := by
  rw [h.position?_eq, Calendar.lastPosition?_eq_none_iff]

theorem IndexedBut.exists_position? (h : s.IndexedBut []) {d : Instant} (hd : d ∈ s.dates) :
    ∃ i, s.position? d = some i := by
  rw [← Option.ne_none_iff_exists', ne_eq, h.position?_eq_none_iff]
  exact not_not.mpr hd

theorem exists_valueAt {i : Nat} (hi : i < s.count) :
    ∃ p, s.points[i]? = some p ∧ s.valueAt i = .ok p.value := by
  refine ⟨s.points[i], List.getElem?_eq_getElem hi, ?_⟩
  rw [valueAt, value?, List.getElem?_eq_getElem hi]
  rfl

section Halving
variable {before : Nat → Bool} {first size split : Nat}

/-- A place in a range of positions: what stands right in front of it is before it, and what stands
at the place is not. -/
structure Splits (before : Nat → Bool) (first size split : Nat) : Prop where
  first_le : first ≤ split
  le_end : split ≤ first + size
  front : first < split → before (split - 1) = true
  back : split < first + size → before split = false

/-- A place that splits the later half of a range splits the range, where the half begins with a
position before the place. -/
theorem Splits.of_later {half : Nat} (h : Splits before (first + half) (size - half) split)
    (hHalf : half < size) (hMiddle : before (first + half) = true) :
    Splits before first size split where
  first_le := Nat.le_trans (Nat.le_add_right first half) h.first_le
  le_end := by
    have hEnd := h.le_end
    omega
  front _ := by
    refine h.front (Nat.lt_of_le_of_ne h.first_le ?_)
    rintro rfl
    exact Bool.false_ne_true ((h.back (by omega)).symm.trans hMiddle)
  back hInside := h.back (by omega)

/-- A place that splits the earlier half of a range splits the range: at the end of the half it
stands at its middle, or right behind the middle, which is then before it. -/
theorem Splits.of_earlier (h : Splits before first (size - size / 2) split)
    (hMiddle : before (first + size / 2) = false) : Splits before first size split where
  first_le := h.first_le
  le_end := Nat.le_trans h.le_end (by omega)
  front := h.front
  back hInside := by
    rcases Nat.lt_or_eq_of_le h.le_end with hHalf | hHalf
    · exact h.back hHalf
    rcases Nat.eq_or_lt_of_le (show first + size / 2 ≤ split by omega) with hHere | hBehind
    · exact hHere ▸ hMiddle
    · have hFront := h.front (by omega)
      rw [show split - 1 = first + size / 2 by omega, hMiddle] at hFront
      cases hFront

theorem splits_halve (before : Nat → Bool) (first size : Nat) :
    Splits before first size (halve before first size) := by
  fun_induction halve before first size with
  | case1 first size hSize middle ih =>
    by_cases hMiddle : before middle = true
    · rw [if_pos hMiddle]
      rw [dif_pos hMiddle] at ih
      exact ih.of_later (by omega) hMiddle
    · rw [if_neg hMiddle]
      rw [dif_neg hMiddle] at ih
      exact ih.of_earlier (Bool.eq_false_iff.mpr hMiddle)
  | case2 first size hSize hBefore =>
    exact ⟨Nat.le_succ first, by omega, fun _ => hBefore.2, by omega⟩
  | case3 first size hSize hNot =>
    refine ⟨Nat.le_refl first, Nat.le_add_right first size, by omega, fun hInside => ?_⟩
    exact Bool.eq_false_iff.mpr fun hBefore => hNot ⟨by omega, hBefore⟩

example : halve (fun i => [1, 5, 2, 6][i]?.any (· < 3)) 0 4 = 3 := by cbv

end Halving

section Dates
variable {dates : List Instant} {d : Instant}

theorem le_of_getElem? (h : dates.Pairwise (· ≤ ·)) {i j : Nat} {e f : Instant} (hij : i ≤ j)
    (hi : dates[i]? = some e) (hj : dates[j]? = some f) : e ≤ f := by
  obtain ⟨hiLt, rfl⟩ := List.getElem?_eq_some_iff.mp hi
  obtain ⟨hjLt, rfl⟩ := List.getElem?_eq_some_iff.mp hj
  rcases Nat.lt_or_eq_of_le hij with hLt | rfl
  · exact List.pairwise_iff_getElem.mp h i j hiLt hjLt hLt
  · exact Instant.le_refl _

theorem lt_getLast?_iff (h : dates.Pairwise (· ≤ ·)) :
    (∃ last, dates.getLast? = some last ∧ d < last) ↔ ∃ e ∈ dates, d < e := by
  constructor
  · rintro ⟨last, hLast, hLt⟩
    exact ⟨last, List.mem_of_getLast? hLast, hLt⟩
  · rintro ⟨e, he, hLt⟩
    obtain ⟨k, hk⟩ := List.mem_iff_getElem?.mp he
    have hEnd := (List.getElem?_eq_some_iff.mp hk).1
    have hLast := List.getLast?_eq_some_getLast (List.ne_nil_of_mem he)
    refine ⟨_, hLast, Instant.lt_of_lt_of_le hLt ?_⟩
    rw [List.getLast?_eq_getElem?] at hLast
    exact le_of_getElem? h (by omega) hk hLast

end Dates

section Near
variable {d : Instant}

theorem closest?_of_position? {i : Nat} (hi : s.position? d = some i) (direction : Direction) :
    s.closest? d direction = .ok (some i) := by
  unfold closest?
  rw [hi]

theorem closest?_of_empty (hUnknown : s.position? d = none) (hEmpty : s.dates = [])
    (direction : Direction) : s.closest? d direction = .ok none := by
  unfold closest?
  rw [hUnknown, hEmpty]
  rfl

/-- The neighbour before a date that is not observed, from the dates at both ends. -/
theorem closest?_of_unknown (hUnknown : s.position? d = none) {first last : Instant}
    (hFirst : s.dates[0]? = some first) (hLast : s.dates[s.count - 1]? = some last) :
    s.closest? d .previous =
      if last ≤ d then .ok (some (s.count - 1))
      else if d < first then .ok none
      else match s.partitionPoint d with
        | 0 => fault
        | before + 1 => .ok (some before) := by
  have hGetLast : s.dates.getLast? = some last := by
    rw [List.getLast?_eq_getElem?, s.length_dates, hLast]
  unfold closest?
  rw [hUnknown, hGetLast, List.head?_eq_getElem?, hFirst]
  rcases s.partitionPoint d with _ | before <;> rfl

theorem exists_ends (hSome : s.dates ≠ []) : ∃ first last,
    s.dates[0]? = some first ∧ s.dates[s.count - 1]? = some last ∧ 0 < s.count := by
  have hPositive : 0 < s.count := s.length_dates ▸ List.length_pos_iff.mpr hSome
  have hFirst : 0 < s.dates.length := s.length_dates ▸ hPositive
  have hLast : s.count - 1 < s.dates.length := by rw [s.length_dates]; omega
  exact ⟨_, _, List.getElem?_eq_getElem hFirst, List.getElem?_eq_getElem hLast, hPositive⟩

theorem splits_partitionPoint (s : Series α) (d : Instant) :
    Splits (s.isBefore d) 0 s.count (s.partitionPoint d) := splits_halve _ _ _

theorem isBefore_of_getElem? {i : Nat} {e : Instant} (hi : s.dates[i]? = some e) :
    s.isBefore d i = decide (e < d) := by
  rw [isBefore, hi]
  rfl

theorem partitionPoint_le_count (s : Series α) (d : Instant) : s.partitionPoint d ≤ s.count := by
  have hEnd := (s.splits_partitionPoint d).le_end
  rwa [Nat.zero_add] at hEnd

theorem not_lt_of_partitionPoint_eq_zero (hZero : s.partitionPoint d = 0) {first : Instant}
    (hFirst : s.dates[0]? = some first) : ¬ first < d := by
  have hSome : 0 < s.count := s.length_dates ▸ (List.getElem?_eq_some_iff.mp hFirst).1
  have hBack := (s.splits_partitionPoint d).back (by omega)
  rw [hZero, isBefore_of_getElem? hFirst] at hBack
  exact of_decide_eq_false hBack

theorem partitionPoint_lt_count {last : Instant} (hLast : s.dates.getLast? = some last)
    (hEnd : ¬ last < d) : s.partitionPoint d < s.count := by
  refine Nat.lt_of_le_of_ne (s.partitionPoint_le_count d) fun hAll => hEnd ?_
  have hSome : 0 < s.count :=
    s.length_dates ▸ List.length_pos_of_mem (List.mem_of_getLast? hLast)
  have hFront := (s.splits_partitionPoint d).front (by omega)
  rw [List.getLast?_eq_getElem?, s.length_dates] at hLast
  rw [hAll, isBefore_of_getElem? hLast] at hFront
  exact of_decide_eq_true hFront

/-- Where dates ascend, those before a date are the ones in front of the place where they split. -/
theorem lt_partitionPoint_iff (hAscending : s.dates.Pairwise (· ≤ ·)) {j : Nat} {e : Instant}
    (hj : s.dates[j]? = some e) : j < s.partitionPoint d ↔ e < d := by
  have hSplits := s.splits_partitionPoint d
  have hBound := s.partitionPoint_le_count d
  have hInside := (List.getElem?_eq_some_iff.mp hj).1
  rw [s.length_dates] at hInside
  have hDate : ∀ i < s.count, ∃ f, s.dates[i]? = some f := fun i hi =>
    ⟨_, List.getElem?_eq_getElem (s.length_dates ▸ hi)⟩
  constructor
  · intro hLt
    obtain ⟨f, hf⟩ := hDate (s.partitionPoint d - 1) (by omega)
    have hFront := hSplits.front (by omega)
    rw [isBefore_of_getElem? hf] at hFront
    exact Instant.lt_of_le_of_lt (le_of_getElem? hAscending (by omega) hj hf)
      (of_decide_eq_true hFront)
  · intro hLt
    refine Nat.lt_of_not_le fun hLe => ?_
    obtain ⟨f, hf⟩ := hDate (s.partitionPoint d) (by omega)
    have hBack := hSplits.back (by omega)
    rw [isBefore_of_getElem? hf] at hBack
    exact of_decide_eq_false hBack
      (Instant.lt_of_le_of_lt (le_of_getElem? hAscending hLe hf hj) hLt)

theorem closest?_ok_or_fault (s : Series α) (d : Instant) (direction : Direction) :
    (∃ found, s.closest? d direction = .ok found) ∨ s.closest? d direction = fault := by
  unfold closest?
  split
  · exact .inl ⟨_, rfl⟩
  · split
    · exact .inl ⟨_, rfl⟩
    · split
      · exact .inl ⟨_, rfl⟩
      · split
        · exact .inr rfl
        · exact .inl ⟨_, rfl⟩
        · exact .inl ⟨_, rfl⟩
  · exact .inl ⟨_, rfl⟩

/-- A lookup near a date faults only where it is to look before the first date: that date is not
known to the index, not the last one, and the search ends in front of it. -/
theorem closest?_eq_fault_iff {direction : Direction} :
    s.closest? d direction = fault ↔ direction = .previous ∧ s.position? d = none ∧
      s.dates.head? = some d ∧ (∃ last, s.dates.getLast? = some last ∧ d < last) ∧
      s.partitionPoint d = 0 := by
  cases hPosition : s.position? d with
  | some i =>
    rw [closest?_of_position? hPosition]
    exact iff_of_false nofun (by rintro ⟨-, ⟨⟩, -⟩)
  | none =>
    unfold closest?
    rw [hPosition]
    cases hFirst : s.dates.head? with
    | none => exact iff_of_false nofun (by rintro ⟨-, -, ⟨⟩, -⟩)
    | some first =>
      cases hLast : s.dates.getLast? with
      | none => exact iff_of_false nofun (by rintro ⟨-, -, -, ⟨_, ⟨⟩, -⟩, -⟩)
      | some last =>
        simp only
        split
        · rename_i hAfter
          refine iff_of_false nofun ?_
          rintro ⟨-, -, -, ⟨_, ⟨⟩, hLt⟩, -⟩
          exact Instant.not_lt.mpr hAfter hLt
        rename_i hAfter
        split
        · rename_i hBefore
          refine iff_of_false nofun ?_
          rintro ⟨-, -, ⟨⟩, -⟩
          exact Instant.lt_irrefl d hBefore
        rename_i hBefore
        cases direction with
        | next => exact iff_of_false nofun (by rintro ⟨⟨⟩, -⟩)
        | previous =>
          cases hBound : s.partitionPoint d with
          | zero =>
            have hNot := not_lt_of_partitionPoint_eq_zero hBound (List.head?_eq_getElem? ▸ hFirst)
            have hSame : first = d :=
              Instant.le_antisymm (Instant.not_lt.mp hBefore) (Instant.not_lt.mp hNot)
            exact iff_of_true rfl
              ⟨rfl, trivial, congrArg some hSame, ⟨last, rfl, Instant.not_le.mp hAfter⟩, rfl⟩
          | succ before => exact iff_of_false nofun (by rintro ⟨-, -, -, -, ⟨⟩⟩)

theorem closest?_answers_iff (hUnknown : s.position? d = none) :
    (∃ found, s.closest? d .previous = .ok found) ↔
      (s.dates.head? = some d → (∃ last, s.dates.getLast? = some last ∧ last ≤ d) ∨
        0 < s.partitionPoint d) := by
  constructor
  · rintro ⟨found, hFound⟩ hHead
    have hSome : s.dates ≠ [] := List.ne_nil_of_mem (List.mem_of_mem_head? hHead)
    have hLast := List.getLast?_eq_some_getLast hSome
    refine or_iff_not_imp_left.mpr fun hNotLast => Nat.pos_of_ne_zero fun hZero => ?_
    have hLt : d < s.dates.getLast hSome :=
      Instant.not_le.mp fun hLe => hNotLast ⟨_, hLast, hLe⟩
    cases hFound.symm.trans
      (closest?_eq_fault_iff.mpr ⟨rfl, hUnknown, hHead, ⟨_, hLast, hLt⟩, hZero⟩)
  · intro hEnds
    refine (s.closest?_ok_or_fault d .previous).resolve_right fun hFault => ?_
    obtain ⟨-, -, hHead, ⟨last, hLast, hLt⟩, hZero⟩ := closest?_eq_fault_iff.mp hFault
    rcases hEnds hHead with ⟨_, hLast', hLe⟩ | hPassed
    · obtain rfl := Option.some.inj (hLast.symm.trans hLast')
      exact Instant.not_lt.mpr hLe hLt
    · exact Nat.ne_of_gt hPassed hZero

theorem lt_count_of_closest? (hUnknown : s.position? d = none) {direction : Direction} {i : Nat}
    (h : s.closest? d direction = .ok (some i)) : i < s.count := by
  unfold closest? at h
  rw [hUnknown] at h
  cases hFirst : s.dates.head? with
  | none =>
    rw [hFirst] at h
    cases h
  | some first =>
    cases hLast : s.dates.getLast? with
    | none =>
      rw [hFirst, hLast] at h
      cases h
    | some last =>
      rw [hFirst, hLast] at h
      simp only at h
      have hPositive : 0 < s.count :=
        s.length_dates ▸ List.length_pos_of_mem (List.mem_of_getLast? hLast)
      split at h
      · cases h
        omega
      · rename_i hEnd
        have hInside := partitionPoint_lt_count hLast fun hLt => hEnd (Instant.le_of_lt hLt)
        split at h
        · cases h
        · split at h
          · cases h
          · cases h
            omega
          · cases h
            exact hInside

/-- The lookup of the previous neighbour finds the last position dated at or before a date, if there
is one. -/
theorem closest?_eq_lastUpTo (h : s.IndexedBut []) (hAscending : s.dates.Pairwise (· ≤ ·))
    {e : Instant} (he : e ∈ s.dates) (hLe : e ≤ d) :
    ∃ i, s.closest? d .previous = .ok (some i) ∧ s.LastUpTo d i := by
  cases hPosition : s.position? d with
  | some i =>
    refine ⟨i, closest?_of_position? hPosition .previous, ?_⟩
    obtain ⟨hHere, hLater⟩ :=
      (Calendar.lastPosition?_eq_some_iff _ _ _).mp (h.eq_lastPosition? hPosition)
    refine ⟨⟨d, hHere, Instant.le_refl d⟩, fun j f hij hj => ?_⟩
    refine Instant.lt_of_le_of_ne (le_of_getElem? hAscending (Nat.le_of_lt hij) hHere hj) ?_
    rintro rfl
    refine hLater (List.mem_iff_getElem?.mpr ⟨j - (i + 1), ?_⟩)
    rw [List.getElem?_drop, Nat.add_sub_cancel' hij, hj]
  | none =>
    have hUnknown := (h.position?_eq_none_iff d).mp hPosition
    obtain ⟨first, last, hFirst, hLast, hPositive⟩ := exists_ends (List.ne_nil_of_mem he)
    rw [closest?_of_unknown hPosition hFirst hLast]
    by_cases hAfter : last ≤ d
    · rw [if_pos hAfter]
      refine ⟨_, rfl, ⟨last, hLast, hAfter⟩, fun j f hij hj => ?_⟩
      have hLt := (List.getElem?_eq_some_iff.mp hj).1
      rw [s.length_dates] at hLt
      omega
    · obtain ⟨k, hk⟩ := List.mem_iff_getElem?.mp he
      have hNotBefore : ¬ d < first := by
        have hFirstLe := le_of_getElem? hAscending (Nat.zero_le k) hFirst hk
        exact Instant.not_lt.mpr (Instant.le_trans hFirstLe hLe)
      rw [if_neg hAfter, if_neg hNotBefore]
      have hCount : ∀ j f, s.dates[j]? = some f → (j < s.partitionPoint d ↔ f < d) :=
        fun j f hj => lt_partitionPoint_iff hAscending hj
      have hLt : e < d := by
        refine Instant.lt_of_le_of_ne hLe ?_
        rintro rfl
        exact hUnknown he
      have hSome := (hCount k e hk).mpr hLt
      obtain ⟨before, hBefore⟩ := Nat.exists_eq_succ_of_ne_zero (Nat.ne_zero_of_lt hSome)
      rw [hBefore]
      have hBound : s.partitionPoint d ≤ s.dates.length :=
        s.length_dates ▸ s.partitionPoint_le_count d
      have hHere : before < s.dates.length := by omega
      refine ⟨before, rfl, ⟨_, List.getElem?_eq_getElem hHere, ?_⟩, fun j f hij hj => ?_⟩
      · exact Instant.le_of_lt ((hCount before _ (List.getElem?_eq_getElem hHere)).mp (by omega))
      · refine Instant.lt_of_le_of_ne (Instant.not_lt.mp fun hf => ?_) ?_
        · have hEarlier := (hCount j f hj).mpr hf
          omega
        · rintro rfl
          exact hUnknown (List.mem_of_getElem? hj)

end Near

section Value
variable [Hole α] {d : Instant}

/-- The position of a date, where the index gives one, lies in the series. -/
def Reaches (s : Series α) (d : Instant) : Prop := ∀ i, s.position? d = some i → i < s.count

/-- Nothing is looked for before the first date: where a date stands first without being known to the
index, the last date is not after it, or the search passes it. -/
def ReachesNear (s : Series α) (d : Instant) : Prop :=
  s.Reaches d ∧ (s.position? d = none → s.dates.head? = some d →
    (∃ last, s.dates.getLast? = some last ∧ last ≤ d) ∨ 0 < s.partitionPoint d)

omit [Hole α] in
theorem valueAt_answers_iff {i : Nat} : (∃ x, s.valueAt i = .ok x) ↔ i < s.count := by
  constructor
  · rintro ⟨x, hx⟩
    by_contra hNot
    rw [valueAt, value?, List.getElem?_eq_none (Nat.not_lt.mp hNot)] at hx
    cases hx
  · intro hi
    obtain ⟨p, -, hValue⟩ := exists_valueAt hi
    exact ⟨p.value, hValue⟩

theorem valueOrHole_answers_iff {found : Option Nat} :
    (∃ x, s.valueOrHole found = .ok x) ↔ ∀ i, found = some i → i < s.count := by
  cases found with
  | none => exact iff_of_true ⟨hole, rfl⟩ (by rintro _ ⟨⟩)
  | some i => exact valueAt_answers_iff.trans (by simp)

theorem valueOn_answers_iff : (∃ x, s.valueOn d = .ok x) ↔ s.Reaches d := valueOrHole_answers_iff

theorem valueNear_answers_iff : (∃ x, s.valueNear d .previous = .ok x) ↔ s.ReachesNear d := by
  refine bind_answers_iff.trans ?_
  simp only [valueOrHole_answers_iff]
  rw [ReachesNear, Reaches]
  cases hPosition : s.position? d with
  | some i =>
    rw [closest?_of_position? hPosition .previous]
    constructor
    · rintro ⟨_, ⟨⟩, hFound⟩
      exact ⟨hFound, by rintro ⟨⟩⟩
    · rintro ⟨hFound, -⟩
      exact ⟨_, rfl, hFound⟩
  | none =>
    have hNear := closest?_answers_iff hPosition
    constructor
    · rintro ⟨found, hFound, -⟩
      exact ⟨by rintro _ ⟨⟩, fun _ => hNear.mp ⟨found, hFound⟩⟩
    · rintro ⟨-, hEnds⟩
      obtain ⟨found, hFound⟩ := hNear.mpr (hEnds rfl)
      refine ⟨found, hFound, ?_⟩
      rintro i rfl
      exact lt_count_of_closest? hPosition hFound

section Indexed

omit [Hole α] in
/-- An index of the visible dates leads every lookup on a date into the series. -/
theorem IndexedBut.reaches {missing : List Instant} (h : s.IndexedBut missing) (d : Instant) :
    s.Reaches d := fun _ hi => h.lt_count hi

omit [Hole α] in
theorem IndexedBut.reachesNear (h : s.IndexedBut []) (d : Instant) : s.ReachesNear d := by
  refine ⟨h.reaches d, fun hUnknown hHead => ?_⟩
  exact absurd (List.mem_of_head? hHead) ((h.position?_eq_none_iff d).mp hUnknown)

theorem exists_valueOn (h : s.IndexedBut []) (d : Instant) : ∃ x, s.valueOn d = .ok x :=
  valueOn_answers_iff.mpr (h.reaches d)

theorem IndexedBut.valueOn_of_lastPosition? {missing : List Instant} (h : s.IndexedBut missing)
    (hKnown : d ∉ missing) {i : Nat} {x : α} (hLast : s.dates.lastPosition? d = some i)
    (hValue : s.value? i = some x) : s.valueOn d = .ok x := by
  rw [valueOn, h d, if_neg hKnown, hLast, valueOrHole, valueAt, hValue]
  rfl

theorem IndexedBut.valueOn_of_not_mem {missing : List Instant} (h : s.IndexedBut missing)
    (hd : d ∉ s.dates) : s.valueOn d = .ok hole := by
  have hUnknown : s.position? d = none := by
    rw [h d, (Calendar.lastPosition?_eq_none_iff _ _).mpr hd, ite_self]
  rw [valueOn, hUnknown]
  rfl

/-- The value on a date that the index knows is that of the last point at the date. -/
theorem IndexedBut.exists_point {missing : List Instant} (h : s.IndexedBut missing)
    (hd : d ∈ s.dates) (hKnown : d ∉ missing) :
    ∃ p ∈ s.points, p.date = d ∧ s.valueOn d = .ok p.value := by
  cases hLast : s.dates.lastPosition? d with
  | none => exact absurd hd ((Calendar.lastPosition?_eq_none_iff _ _).mp hLast)
  | some i =>
    have hDate := ((Calendar.lastPosition?_eq_some_iff _ _ _).mp hLast).1
    obtain ⟨p, hp, rfl⟩ := Option.map_eq_some_iff.mp (List.getElem?_map.symm.trans hDate)
    refine ⟨p, List.mem_of_getElem? hp, rfl, h.valueOn_of_lastPosition? hKnown hLast ?_⟩
    rw [value?, hp]
    rfl

theorem valueOn_of_mem (h : s.IndexedBut []) (hd : d ∈ s.dates) :
    ∃ p ∈ s.points, p.date = d ∧ s.valueOn d = .ok p.value := h.exists_point hd List.not_mem_nil

theorem valueNear_of_mem (h : s.IndexedBut []) (hd : d ∈ s.dates) (direction : Direction) :
    s.valueNear d direction = s.valueOn d := by
  obtain ⟨i, hi⟩ := h.exists_position? hd
  rw [valueNear, closest?_of_position? hi, valueOn, hi]
  rfl

end Indexed
end Value

section Sample
variable {look look' : Instant → Checked α}

theorem sample_ok {dates : Calendar} (hLook : ∀ d ∈ dates, ∃ x, look d = .ok x) :
    ∃ points : List (Point α), sample dates look = .ok points ∧ points.map Point.date = dates ∧
      ∀ p ∈ points, look p.date = .ok p.value := by
  induction dates with
  | nil => exact ⟨[], rfl, rfl, by simp⟩
  | cons d dates ih =>
    obtain ⟨x, hx⟩ := hLook d List.mem_cons_self
    obtain ⟨points, hPoints, hDates, hValues⟩ := ih fun e he => hLook e (List.mem_cons_of_mem d he)
    refine ⟨⟨d, x⟩ :: points, ?_, by rw [List.map_cons, hDates], fun p hp => ?_⟩
    · rw [sample] at hPoints ⊢
      rw [List.mapM_cons, hx, hPoints]
      rfl
    · rcases List.mem_cons.mp hp with rfl | hp
      · exact hx
      · exact hValues p hp

theorem sample_congr {dates : Calendar} (hSame : ∀ d ∈ dates, look d = look' d) :
    sample dates look = sample dates look' := by
  induction dates with
  | nil => rfl
  | cons d dates ih =>
    have hRest := ih fun e he => hSame e (List.mem_cons_of_mem d he)
    rw [sample] at hRest ⊢
    rw [sample, List.mapM_cons, List.mapM_cons, hSame d List.mem_cons_self, hRest, sample]

end Sample
end Almanac.Series
