import Almanac.Proofs.Series.Lookup

/-! # Neighbours of a date

Where the dates of an indexed series ascend, the lookups on either side of a date reach the same
dates: those from the first date on. The previous neighbour is the last position up to the date. The
next one is the date itself where it is observed, the first position after it, or the end.
-/
namespace Almanac.Series
set_option autoImplicit false

variable {α : Type} {s : Series α} {d : Instant}

/-- A series without points, or a date before the first one. -/
def Unreached (s : Series α) (d : Instant) : Prop :=
  s.dates = [] ∨ ∃ first, s.dates.head? = some first ∧ d < first

def LastAt (s : Series α) (d : Instant) (i : Nat) : Prop :=
  s.dates[i]? = some d ∧ ∀ j, i < j → s.dates[j]? ≠ some d

def FirstAfter (s : Series α) (d : Instant) (i : Nat) : Prop :=
  (∃ e, s.dates[i]? = some e ∧ d < e) ∧ ∀ j e, j < i → s.dates[j]? = some e → e ≤ d

/-- The positions that stand in for a date on either side. -/
structure Neighbours (s : Series α) (d : Instant) (previous next : Option Nat) : Prop where
  previous_none : previous = none ↔ s.Unreached d
  next_none : next = none ↔ s.Unreached d
  upTo : ∀ i, previous = some i → s.LastUpTo d i
  beyond : ∀ i last, next = some i → s.dates.getLast? = some last → last ≤ d → i + 1 = s.count
  observed : ∀ i, next = some i → d ∈ s.dates → s.LastAt d i
  between : ∀ i last, next = some i → s.dates.getLast? = some last → d < last → d ∉ s.dates →
    s.FirstAfter d i

theorem lastAt_of_position? (h : s.IndexedBut []) {i : Nat} (hi : s.position? d = some i) :
    s.LastAt d i := by
  obtain ⟨hHere, hLater⟩ :=
    (Calendar.lastPosition?_eq_some_iff _ _ _).mp (h.eq_lastPosition? hi)
  refine ⟨hHere, fun j hij hj => hLater (List.mem_iff_getElem?.mpr ⟨j - (i + 1), ?_⟩)⟩
  rw [List.getElem?_drop, Nat.add_sub_cancel' hij, hj]

section Ascending

theorem lt_of_unreached (hAscending : s.dates.Pairwise (· ≤ ·)) (h : s.Unreached d) {e : Instant}
    (he : e ∈ s.dates) : d < e := by
  rcases h with hEmpty | ⟨first, hFirst, hLt⟩
  · rw [hEmpty] at he
    cases he
  · obtain ⟨k, hk⟩ := List.mem_iff_getElem?.mp he
    rw [List.head?_eq_getElem?] at hFirst
    exact Instant.lt_of_lt_of_le hLt (le_of_getElem? hAscending (Nat.zero_le k) hFirst hk)

theorem closest?_of_unreached (hIndexed : s.IndexedBut []) (hAscending : s.dates.Pairwise (· ≤ ·))
    (h : s.Unreached d) (direction : Direction) : s.closest? d direction = .ok none := by
  have hLater := fun e => lt_of_unreached hAscending h (e := e)
  have hUnknown : s.position? d = none :=
    (hIndexed.position?_eq_none_iff d).mpr fun hd => Instant.lt_irrefl d (hLater d hd)
  rcases h with hEmpty | ⟨first, hFirst, hLt⟩
  · exact closest?_of_empty hUnknown hEmpty direction
  · have hSome : s.dates ≠ [] := List.ne_nil_of_mem (List.mem_of_mem_head? hFirst)
    have hLast := hLater _ (List.getLast_mem hSome)
    unfold closest?
    rw [hUnknown, hFirst, List.getLast?_eq_some_getLast hSome]
    simp only
    rw [if_neg (Instant.not_le.mpr hLast), if_pos hLt]

theorem exists_le_of_reached (h : ¬ s.Unreached d) : ∃ e ∈ s.dates, e ≤ d := by
  obtain ⟨hSome, hFirst⟩ := not_or.mp h
  refine ⟨s.dates.head hSome, List.head_mem hSome, Instant.not_lt.mp fun hLt => hFirst ?_⟩
  exact ⟨_, List.head?_eq_some_head hSome, hLt⟩

theorem closest?_next_of_unknown (hUnknown : s.position? d = none) (h : ¬ s.Unreached d)
    {last : Instant} (hLast : s.dates.getLast? = some last) :
    s.closest? d .next = .ok (some (if last ≤ d then s.count - 1 else s.partitionPoint d)) := by
  obtain ⟨hSome, hFirst⟩ := not_or.mp h
  have hReached : ¬ d < s.dates.head hSome := fun hLt =>
    hFirst ⟨_, List.head?_eq_some_head hSome, hLt⟩
  unfold closest?
  rw [hUnknown, hLast, List.head?_eq_some_head hSome]
  simp only [if_neg hReached]
  split <;> rfl

/-- Between two neighbouring dates, as many dates come before as the position of the later one. -/
theorem firstAfter_partitionPoint (hAscending : s.dates.Pairwise (· ≤ ·)) (hUnknown : d ∉ s.dates)
    {last : Instant} (hLast : s.dates.getLast? = some last) (hBefore : d < last) :
    s.FirstAfter d (s.partitionPoint d) := by
  have hCount : ∀ j e, s.dates[j]? = some e → (j < s.partitionPoint d ↔ e < d) :=
    fun j e hj => lt_partitionPoint_iff hAscending hj
  have hEnd : s.partitionPoint d < s.dates.length :=
    s.length_dates ▸ partitionPoint_lt_count hLast fun hLt =>
      Instant.lt_irrefl d (Instant.lt_of_lt_of_le hBefore (Instant.le_of_lt hLt))
  constructor
  · refine ⟨_, List.getElem?_eq_getElem hEnd, ?_⟩
    have hHere := List.getElem?_eq_getElem hEnd
    apply Instant.lt_of_le_of_ne
    · exact Instant.not_lt.mp fun hLt => Nat.lt_irrefl _ ((hCount _ _ hHere).mpr hLt)
    · rintro hEq
      exact hUnknown (hEq ▸ List.getElem_mem hEnd)
  · intro j e hj he
    exact Instant.le_of_lt ((hCount j e he).mp hj)

theorem succ_eq_count_of_lastAt (hAscending : s.dates.Pairwise (· ≤ ·)) {i : Nat}
    (h : s.LastAt d i) {last : Instant} (hLast : s.dates.getLast? = some last) (hLe : last ≤ d) :
    i + 1 = s.count := by
  rw [List.getLast?_eq_getElem?, s.length_dates] at hLast
  have hLt := (List.getElem?_eq_some_iff.mp h.1).1
  rw [s.length_dates] at hLt
  have hEq : last = d := by
    apply Instant.le_antisymm hLe
    exact le_of_getElem? hAscending (by omega) h.1 hLast
  rw [hEq] at hLast
  have hNot : ¬ i < s.count - 1 := fun hij => h.2 _ hij hLast
  omega

/-- The next neighbour of a date that is reached: the end of the series, the date itself, or the
first position after it. -/
theorem closest?_next_of_reached (hIndexed : s.IndexedBut [])
    (hAscending : s.dates.Pairwise (· ≤ ·)) (h : ¬ s.Unreached d) :
    ∃ i, s.closest? d .next = .ok (some i) ∧ i < s.count ∧
      (∀ last, s.dates.getLast? = some last → last ≤ d → i + 1 = s.count) ∧
      (d ∈ s.dates → s.LastAt d i) ∧
      ∀ last, s.dates.getLast? = some last → d < last → d ∉ s.dates → s.FirstAfter d i := by
  cases hPosition : s.position? d with
  | some i =>
    have hHere := lastAt_of_position? hIndexed hPosition
    refine ⟨i, closest?_of_position? hPosition .next, hIndexed.lt_count hPosition, ?_,
      fun _ => hHere, ?_⟩
    · intro last hLast hLe
      exact succ_eq_count_of_lastAt hAscending hHere hLast hLe
    · intro _ _ _ hUnknown
      exact absurd (List.mem_of_getElem? hHere.1) hUnknown
  | none =>
    have hUnknown := (hIndexed.position?_eq_none_iff d).mp hPosition
    obtain ⟨first, last, -, hLast, hPositive⟩ := exists_ends (not_or.mp h).1
    rw [← s.length_dates, ← List.getLast?_eq_getElem?] at hLast
    have hNext := closest?_next_of_unknown hPosition h hLast
    refine ⟨_, hNext, lt_count_of_closest? hPosition hNext, ?_, fun hd => absurd hd hUnknown, ?_⟩
    · rintro last' hLast' hLe
      obtain rfl := Option.some.inj (hLast.symm.trans hLast')
      rw [if_pos hLe]
      omega
    · rintro last' hLast' hLt -
      obtain rfl := Option.some.inj (hLast.symm.trans hLast')
      rw [if_neg (Instant.not_le.mpr hLt)]
      exact firstAfter_partitionPoint hAscending hUnknown hLast hLt

theorem neighbours_of_unreached (h : s.Unreached d) : s.Neighbours d none none where
  previous_none := by simp [h]
  next_none := by simp [h]
  upTo := by simp
  beyond := by simp
  observed := by simp
  between := by simp

end Ascending

theorem valueNear_of_closest [Hole α] {direction : Direction} {found : Option Nat}
    (h : s.closest? d direction = .ok found) (hFound : ∀ i, found = some i → i < s.count) :
    ∃ x, s.valueNear d direction = .ok x ∧ (found = none → x = hole) ∧
      ∀ i, found = some i → s.value? i = some x := by
  rw [valueNear, h]
  cases found with
  | none => exact ⟨hole, rfl, fun _ => rfl, by simp⟩
  | some i =>
    obtain ⟨p, hp, hValue⟩ := exists_valueAt (hFound i rfl)
    refine ⟨p.value, hValue, by simp, ?_⟩
    rintro _ ⟨⟩
    rw [value?, hp]
    rfl

/-- Lookups near a date always answer. They give the neighbours of the date, and the values there or
a hole where there is none. -/
theorem closest?_gives_neighbours [Hole α] (h : s.IndexedBut [])
    (hAscending : s.dates.Pairwise (· ≤ ·)) (d : Instant) :
    ∃ previous next, s.closest? d .previous = .ok previous ∧ s.closest? d .next = .ok next ∧
      s.Neighbours d previous next ∧
      ∀ direction found, s.closest? d direction = .ok found →
        ∃ x, s.valueNear d direction = .ok x ∧ (found = none → x = hole) ∧
          ∀ i, found = some i → s.value? i = some x := by
  by_cases hReached : s.Unreached d
  · have hNone := closest?_of_unreached h hAscending hReached
    refine ⟨none, none, hNone .previous, hNone .next, neighbours_of_unreached hReached, ?_⟩
    intro direction found hFound
    apply valueNear_of_closest hFound
    rintro i rfl
    cases hFound.symm.trans (hNone direction)
  · obtain ⟨e, he, hLe⟩ := exists_le_of_reached hReached
    obtain ⟨i, hPrevious, hUpTo⟩ := closest?_eq_lastUpTo h hAscending he hLe
    obtain ⟨j, hNext, hInside, hBeyond, hObserved, hBetween⟩ :=
      closest?_next_of_reached h hAscending hReached
    refine ⟨some i, some j, hPrevious, hNext, ?_, ?_⟩
    · constructor
      · simp [hReached]
      · simp [hReached]
      · rintro _ ⟨⟩
        exact hUpTo
      · rintro _ last ⟨⟩
        exact hBeyond last
      · rintro _ ⟨⟩
        exact hObserved
      · rintro _ last ⟨⟩
        exact hBetween last
    · intro direction found hFound
      apply valueNear_of_closest hFound
      rintro k rfl
      cases direction with
      | previous =>
        obtain rfl : k = i := by simpa [hPrevious] using hFound.symm
        obtain ⟨e, he, -⟩ := hUpTo.1
        exact s.length_dates ▸ (List.getElem?_eq_some_iff.mp he).1
      | next =>
        obtain rfl : k = j := by simpa [hNext] using hFound.symm
        exact hInside

/-- A date between the second of two points at one date and the last point. -/
theorem neighbours_behind_a_repeat :
    let first : Instant := ⟨0, by decide, by decide⟩
    let between : Instant := ⟨1, by decide, by decide⟩
    let s : Series Float := ofPoints default [⟨first, 1⟩, ⟨first, 2⟩, ⟨.latest, 3⟩]
    s.IndexedBut [] ∧ s.dates.Pairwise (· ≤ ·) ∧ s.closest? between .previous = .ok (some 1) ∧
      s.closest? between .next = .ok (some 2) ∧ s.valueNear between .previous = .ok 2 := by
  intro first between s
  have hIndexed : s.IndexedBut [] := (indexedBut_ofPoints _ _).of_real (by decide)
  have hAscending : s.dates.Pairwise (· ≤ ·) := by decide
  obtain ⟨previous, next, hPrevious, hNext, hNeighbours, hValues⟩ :=
    closest?_gives_neighbours hIndexed hAscending between
  have hDates : s.dates = [first, first, .latest] := rfl
  have hReached : ¬ s.Unreached between := by
    rw [Unreached, hDates]
    rintro (hEmpty | ⟨e, he, hLt⟩)
    · cases hEmpty
    · obtain rfl := Option.some.inj he
      exact absurd hLt (by decide)
  have hPreviousIs : previous = some 1 := by
    cases hFound : previous with
    | none => exact absurd (hNeighbours.previous_none.mp hFound) hReached
    | some i =>
      have hUpTo := hNeighbours.upTo i hFound
      rw [LastUpTo, hDates] at hUpTo
      obtain ⟨⟨e, he, hLe⟩, hLater⟩ := hUpTo
      rcases i with _ | _ | _ | i
      · exact absurd (hLater 1 first (by decide) rfl) (by decide)
      · rfl
      · obtain rfl := Option.some.inj he
        exact absurd hLe (by decide)
      · cases he
  have hNextIs : next = some 2 := by
    cases hFound : next with
    | none => exact absurd (hNeighbours.next_none.mp hFound) hReached
    | some i =>
      have hAfter := hNeighbours.between i .latest hFound rfl (by decide) (by decide)
      rw [FirstAfter, hDates] at hAfter
      obtain ⟨⟨e, he, hLt⟩, -⟩ := hAfter
      rcases i with _ | _ | _ | i
      · obtain rfl := Option.some.inj he
        exact absurd hLt (by decide)
      · obtain rfl := Option.some.inj he
        exact absurd hLt (by decide)
      · rfl
      · cases he
  rw [hPreviousIs] at hPrevious
  rw [hNextIs] at hNext
  obtain ⟨x, hx, -, hAt⟩ := hValues .previous _ hPrevious
  obtain rfl : (2 : Float) = x := Option.some.inj (hAt 1 rfl)
  exact ⟨hIndexed, hAscending, hPrevious, hNext, hx⟩

end Almanac.Series
