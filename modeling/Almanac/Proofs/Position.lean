import Mathlib.Data.List.Nodup
import Almanac.Calendar

/-! # Last positions in a calendar

The last position of a date, when calendars are joined, lose a position or hold each date once, and
the index that notes it.
-/
namespace Almanac.Calendar
set_option autoImplicit false

theorem lastPositionFrom?_eq_map (date : Instant) (start : Nat) (dates : Calendar) :
    lastPositionFrom? date start dates = (dates.lastPosition? date).map (· + start) := by
  rw [lastPosition?]
  suffices h : ∀ offset, lastPositionFrom? date (offset + start) dates =
      (lastPositionFrom? date offset dates).map (· + start) by simpa using h 0
  induction dates with
  | nil => intro offset; rfl
  | cons d rest ih =>
    intro offset
    rw [lastPositionFrom?, lastPositionFrom?, Nat.add_right_comm, ih, Option.map_or]
    by_cases hDate : d = date <;> simp [hDate]

theorem lastPositionFrom?_append (date : Instant) (start : Nat) (dates later : Calendar) :
    lastPositionFrom? date start (dates ++ later) =
      (lastPositionFrom? date (start + dates.length) later).or (lastPositionFrom? date start dates) := by
  induction dates generalizing start with
  | nil => simp [lastPositionFrom?]
  | cons d rest ih =>
    rw [List.cons_append, lastPositionFrom?, ih, lastPositionFrom?, Option.or_assoc,
      List.length_cons]
    congr 2
    omega

theorem lastPosition?_append (dates later : Calendar) (date : Instant) :
    (dates ++ later).lastPosition? date =
      ((later.lastPosition? date).map (· + dates.length)).or (dates.lastPosition? date) := by
  rw [lastPosition?, lastPositionFrom?_append, lastPositionFrom?_eq_map, Nat.zero_add]
  rfl

@[simp] theorem lastPosition?_nil (date : Instant) : lastPosition? [] date = none := rfl

theorem lastPosition?_cons (d : Instant) (dates : Calendar) (date : Instant) :
    lastPosition? (d :: dates) date =
      ((dates.lastPosition? date).map (· + 1)).or (if d = date then some 0 else none) := by
  rw [lastPosition?, lastPositionFrom?, lastPositionFrom?_eq_map]

theorem lastPosition?_append_singleton (dates : Calendar) (d date : Instant) :
    (dates ++ [d]).lastPosition? date =
      if d = date then some dates.length else dates.lastPosition? date := by
  rw [lastPosition?_append, lastPosition?_cons]
  by_cases hDate : d = date <;> simp [hDate]

@[simp] theorem lastPosition?_eq_none_iff (dates : Calendar) (date : Instant) :
    dates.lastPosition? date = none ↔ date ∉ dates := by
  induction dates with
  | nil => simp
  | cons d dates ih =>
    rw [lastPosition?_cons, Option.or_eq_none_iff, Option.map_eq_none_iff, ih]
    by_cases hDate : d = date
    · simp [hDate]
    · simp [hDate, Ne.symm hDate]

theorem lastPositionFrom?_eq_none_iff (date : Instant) (start : Nat) (dates : Calendar) :
    lastPositionFrom? date start dates = none ↔ date ∉ dates := by
  rw [lastPositionFrom?_eq_map, Option.map_eq_none_iff, lastPosition?_eq_none_iff]

theorem mem_of_lastPositionFrom? {date : Instant} {start i : Nat} {dates : Calendar}
    (h : lastPositionFrom? date start dates = some i) : date ∈ dates := by
  by_contra hNot
  rw [(lastPositionFrom?_eq_none_iff date start dates).mpr hNot] at h
  cases h

/-- The last position holds the date, and no later position does. -/
theorem lastPosition?_eq_some_iff (dates : Calendar) (date : Instant) (i : Nat) :
    dates.lastPosition? date = some i ↔ dates[i]? = some date ∧ date ∉ dates.drop (i + 1) := by
  induction dates generalizing i with
  | nil => simp
  | cons d dates ih =>
    rw [lastPosition?_cons]
    cases hLast : lastPosition? dates date with
    | some j =>
      have hMem : date ∈ dates := mem_of_lastPositionFrom? hLast
      cases i with
      | zero => simp [hMem]
      | succ i => simpa [hLast] using ih i
    | none =>
      have hNot : date ∉ dates := (lastPosition?_eq_none_iff dates date).mp hLast
      cases i with
      | zero => by_cases hDate : d = date <;> simp [hDate, hNot]
      | succ i =>
        have hEntry : dates[i]? ≠ some date := fun h => hNot (List.mem_of_getElem? h)
        by_cases hDate : d = date <;> simp [hDate, hEntry]

theorem lt_length_of_lastPosition? {dates : Calendar} {date : Instant} {i : Nat}
    (h : dates.lastPosition? date = some i) : i < dates.length :=
  (List.getElem?_eq_some_iff.mp ((lastPosition?_eq_some_iff dates date i).mp h).1).1

theorem lastPosition?_of_nodup {dates : Calendar} (hDistinct : dates.Nodup) {date : Instant}
    {i : Nat} (h : dates[i]? = some date) : dates.lastPosition? date = some i := by
  have hi := (List.getElem?_eq_some_iff.mp h).1
  cases hLast : dates.lastPosition? date with
  | none => exact absurd (List.mem_of_getElem? h) ((lastPosition?_eq_none_iff _ _).mp hLast)
  | some j =>
    have hEntry := ((lastPosition?_eq_some_iff _ _ _).mp hLast).1
    rw [(List.getElem?_inj hi hDistinct).mp (h.trans hEntry.symm)]

/-- A calendar is cut at the last position of a date. -/
theorem eq_take_cons_drop {dates : Calendar} {date : Instant} {i : Nat}
    (h : dates.lastPosition? date = some i) : dates = dates.take i ++ date :: dates.drop (i + 1) := by
  obtain ⟨hLt, hEntry⟩ :=
    List.getElem?_eq_some_iff.mp ((lastPosition?_eq_some_iff dates date i).mp h).1
  calc
    dates = dates.take i ++ dates.drop i := (List.take_append_drop i dates).symm
    _ = dates.take i ++ date :: dates.drop (i + 1) := by rw [List.drop_eq_getElem_cons hLt, hEntry]

theorem mem_eraseIdx_of_ne {dates : Calendar} {d e : Instant} {i : Nat} (hEntry : dates[i]? = some d)
    (hNe : d ≠ e) (he : e ∈ dates) : e ∈ dates.eraseIdx i := by
  obtain ⟨j, hj⟩ := List.mem_iff_getElem?.mp he
  refine List.mem_eraseIdx_iff_getElem?.mpr ⟨j, ?_, hj⟩
  rintro rfl
  exact hNe (Option.some.inj (hEntry.symm.trans hj))

theorem lastPosition?_eq_idxOf? {dates : Calendar} (hDistinct : dates.Nodup) (date : Instant) :
    dates.lastPosition? date = dates.idxOf? date := by
  induction dates with
  | nil => rfl
  | cons d dates ih =>
    obtain ⟨hFresh, hDistinct⟩ := List.nodup_cons.mp hDistinct
    rw [lastPosition?_cons, ih hDistinct, List.idxOf?_cons]
    by_cases hDate : d = date
    · subst hDate
      simp [List.idxOf?_eq_none_iff.mpr hFresh]
    · simp [hDate]

/-- Without a position, the dates behind it are one position further left. -/
theorem lastPosition?_eraseIdx (dates : Calendar) (date : Instant) {i : Nat} (hi : i < dates.length) :
    lastPosition? (dates.eraseIdx i) date =
      (lastPositionFrom? date i (dates.drop (i + 1))).or (lastPosition? (dates.take i) date) := by
  rw [List.eraseIdx_eq_take_drop_succ, lastPosition?_append, lastPositionFrom?_eq_map,
    List.length_take_of_le (Nat.le_of_lt hi)]

/-- A date that a position does not hold is found behind the position, or else before it. -/
theorem lastPosition?_eq_or_take (dates : Calendar) {d date : Instant} {i : Nat}
    (hEntry : dates[i]? = some d) (hDate : d ≠ date) :
    dates.lastPosition? date =
      (lastPositionFrom? date (i + 1) (dates.drop (i + 1))).or (lastPosition? (dates.take i) date) := by
  obtain ⟨hi, rfl⟩ := List.getElem?_eq_some_iff.mp hEntry
  conv_lhs => rw [← List.take_append_drop i dates, List.drop_eq_getElem_cons hi]
  rw [lastPosition?_append, lastPosition?_cons, lastPositionFrom?_eq_map, if_neg hDate,
    Option.or_none, Option.map_map, List.length_take_of_le (Nat.le_of_lt hi)]
  congr 2
  funext j
  exact Nat.add_right_comm j 1 i

/-- An index that misses some dates, after the last position of a date is removed and the dates
behind it are noted: what is left of the date is missed as well, and what moves is found again. -/
theorem lastPosition?_eraseIdx_but {dates : Calendar} (missing : List Instant) {date : Instant}
    {i : Nat} (hi : dates.lastPosition? date = some i) (d : Instant) :
    (lastPositionFrom? d i (dates.drop (i + 1))).or
        (if date = d then none else if d ∈ missing then none else dates.lastPosition? d) =
      if d ∈ (if date ∈ dates.eraseIdx i then date :: missing else missing).filter
          (· ∉ dates.drop (i + 1)) then none
      else lastPosition? (dates.eraseIdx i) d := by
  obtain ⟨hEntry, hLater⟩ := (lastPosition?_eq_some_iff _ _ _).mp hi
  rw [lastPosition?_eraseIdx _ _ (lt_length_of_lastPosition? hi)]
  cases hBehind : lastPositionFrom? d i (dates.drop (i + 1)) with
  | some j =>
    have hMem : d ∈ dates.drop (i + 1) := mem_of_lastPositionFrom? hBehind
    simp [hMem]
  | none =>
    have hNot := (lastPositionFrom?_eq_none_iff _ _ _).mp hBehind
    rw [Option.none_or, Option.none_or]
    by_cases hDate : date = d
    · subst hDate
      have hErased : date ∈ dates.eraseIdx i ↔ date ∈ dates.take i := by
        rw [List.eraseIdx_eq_take_drop_succ, List.mem_append, or_iff_left hNot]
      by_cases hBefore : date ∈ dates.take i
      · simp [hErased, hBefore, hNot]
      · have hNone := (lastPosition?_eq_none_iff _ _).mpr hBefore
        simp [hNone]
    · have hMoved : lastPositionFrom? d (i + 1) (dates.drop (i + 1)) = none :=
        (lastPositionFrom?_eq_none_iff _ _ _).mpr hNot
      have hMissing : d ∈ (if date ∈ dates.eraseIdx i then date :: missing else missing).filter
          (· ∉ dates.drop (i + 1)) ↔ d ∈ missing := by
        split <;> simp [hNot, Ne.symm hDate]
      rw [if_neg hDate, lastPosition?_eq_or_take dates hEntry hDate, hMoved, Option.none_or]
      simp only [hMissing]

end Almanac.Calendar
