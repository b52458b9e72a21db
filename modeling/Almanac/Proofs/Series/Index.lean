import Almanac.Proofs.Position
import Almanac.Series.Update

/-! # The index of a series

What each change does to the points, the reserve and the index. The index gives the visible dates
their last positions, some dates apart: the sentinel where a series is built, and what a removal
leaves out.
-/
namespace Almanac.Series
set_option autoImplicit false

variable {α : Type}

/-- The index knows the last position of every visible date, apart from the missing ones. -/
def IndexedBut (missing : List Instant) (s : Series α) : Prop :=
  ∀ d, s.position? d = if d ∈ missing then none else s.dates.lastPosition? d

section Read
variable (s : Series α)

theorem length_dates : s.dates.length = s.count := by simp [dates, count]

theorem isUninitialized_iff : s.isUninitialized = true ↔ s.dates = [.sentinel] := by
  rw [isUninitialized, dates]
  split
  · rename_i p hPoints
    simp [hPoints]
  · rename_i hNot
    refine iff_of_false Bool.false_ne_true fun hDates => ?_
    obtain ⟨p, hPoints, -⟩ := List.map_eq_singleton_iff.mp hDates
    exact hNot p hPoints

theorem contains_eq_isSome (d : Instant) : s.contains d = (s.position? d).isSome :=
  Std.HashMap.contains_eq_isSome_getElem?

variable {s}

/-- What the index misses counts only as far as it is visible. -/
theorem IndexedBut.congr {missing missing' : List Instant} (h : s.IndexedBut missing)
    (hSame : ∀ d ∈ s.dates, d ∈ missing ↔ d ∈ missing') : s.IndexedBut missing' := by
  intro d
  rw [h d]
  by_cases hd : d ∈ s.dates
  · simp only [hSame d hd]
  · have hNone : s.dates.lastPosition? d = none := (Calendar.lastPosition?_eq_none_iff _ _).mpr hd
    simp [hNone]

theorem IndexedBut.of_real (h : s.IndexedBut [.sentinel]) (hReal : .sentinel ∉ s.dates) :
    s.IndexedBut [] := by
  refine h.congr fun d hd => ?_
  have hNe : d ≠ .sentinel := fun hEq => hReal (hEq ▸ hd)
  simp [hNe]

theorem IndexedBut.contains_iff {missing : List Instant} (h : s.IndexedBut missing) (d : Instant) :
    s.contains d = true ↔ d ∈ s.dates ∧ d ∉ missing := by
  rw [contains_eq_isSome, h d]
  by_cases hMissing : d ∈ missing
  · simp [hMissing]
  · rw [if_neg hMissing, ← Option.ne_none_iff_isSome, ne_eq, Calendar.lastPosition?_eq_none_iff]
    simp [hMissing]

theorem IndexedBut.eq_lastPosition? {missing : List Instant} (h : s.IndexedBut missing)
    {d : Instant} {i : Nat} (hi : s.position? d = some i) : s.dates.lastPosition? d = some i := by
  rw [h d] at hi
  split at hi
  · cases hi
  · exact hi

theorem IndexedBut.lt_count {missing : List Instant} (h : s.IndexedBut missing) {d : Instant}
    {i : Nat} (hi : s.position? d = some i) : i < s.count :=
  s.length_dates ▸ Calendar.lt_length_of_lastPosition? (h.eq_lastPosition? hi)

end Read

section Build
variable [Hole α]

theorem dates_ofPoints (options : Options) (points : List (Point α)) :
    (ofPoints options points).dates = points.map Point.date := by
  rw [dates, points_ofPoints]

omit [Hole α] in
theorem indexedBut_of_index {s : Series α} (h : s.index = s.dates.positions) :
    s.IndexedBut [.sentinel] := by
  intro d
  rw [position?, h, Calendar.getElem?_positions]
  simp

theorem indexedBut_ofPoints (options : Options) (points : List (Point α)) :
    (ofPoints options points).IndexedBut [.sentinel] := by
  apply indexedBut_of_index
  rw [index_ofPoints, dates_ofPoints]

omit [Hole α] in
theorem dates_sort (s : Series α) : s.sort.dates = s.dates.sorted :=
  List.map_mergeSort fun _ _ _ _ => rfl

omit [Hole α] in
theorem indexedBut_sort (s : Series α) : s.sort.IndexedBut [.sentinel] := indexedBut_of_index rfl

end Build

section Overwrite
variable (s : Series α) (slot : Nat) (x : α)

@[simp] theorem dates_overwrite : (s.overwrite slot x).dates = s.dates := by
  unfold overwrite dates
  split
  · apply List.ext_getElem?
    intro i
    simp only [List.getElem?_map, List.getElem?_modify]
    split <;> simp [Function.comp_def]
  · rfl

@[simp] theorem position?_overwrite (d : Instant) :
    (s.overwrite slot x).position? d = s.position? d := by
  unfold overwrite position?
  split <;> rfl

@[simp] theorem options_overwrite : (s.overwrite slot x).options = s.options := by
  unfold overwrite
  split <;> rfl

variable {s slot}

theorem IndexedBut.overwrite {missing : List Instant} (h : s.IndexedBut missing) :
    (s.overwrite slot x).IndexedBut missing := by
  intro d
  rw [position?_overwrite, dates_overwrite]
  exact h d

theorem points_overwrite (hSlot : slot < s.count) :
    (s.overwrite slot x).points = s.points.modify slot fun p => { p with value := x } := by
  rw [Series.overwrite, if_pos hSlot]

theorem spare_overwrite (hSlot : slot < s.count) : (s.overwrite slot x).spare = s.spare := by
  rw [Series.overwrite, if_pos hSlot]

end Overwrite

section Append
variable [Hole α] (s : Series α) (date : Instant) (x : α)

theorem dates_append : (s.append date x).dates = s.dates ++ [date] := by
  simp [append, dates]

theorem position?_append (d : Instant) :
    (s.append date x).position? d = if date = d then some s.count else s.position? d := by
  simp [append, position?, Std.HashMap.getElem?_insert]

variable {s}

theorem IndexedBut.append {missing : List Instant} (h : s.IndexedBut missing) :
    (s.append date x).IndexedBut (missing.filter (· ≠ date)) := by
  intro d
  rw [position?_append, dates_append, Calendar.lastPosition?_append_singleton, s.length_dates, h d]
  by_cases hDate : date = d
  · simp [hDate]
  · simp [hDate, Ne.symm hDate]

variable {date x}

theorem insert_of_position? {slot : Nat} (h : s.position? date = some slot) :
    s.insert date x = s.overwrite slot x := by
  rw [insert, h]

theorem insert_of_isUninitialized (h : s.position? date = none) (hFirst : s.isUninitialized) :
    s.insert date x =
      { s with points := [⟨date, x⟩], index := s.index.insert date 0 } := by
  rw [insert, h]
  exact if_pos hFirst

theorem insert_of_fresh (h : s.position? date = none) (hFirst : s.isUninitialized = false) :
    s.insert date x = s.append date x := by
  rw [insert, h]
  exact if_neg (by simp [hFirst])

theorem insert?_of_hasRoom (h : s.hasRoom date = true) :
    s.insert? date x = .ok (s.insert date x) := by
  simp [insert?, h, pure, Except.pure]

/-- Without room a new chunk is taken, and has to fit. -/
theorem insert?_of_not_hasRoom (h : s.hasRoom date = false) :
    s.insert? date x =
      if s.count + s.options.growthChunk < bufferBound then .ok (s.insert date x) else fault := by
  rw [insert?, h, if_neg Bool.false_ne_true, checkAllocation]
  split <;> rfl

theorem insert?_ok_or_fault (s : Series α) (date : Instant) (x : α) :
    s.insert? date x = .ok (s.insert date x) ∨ s.insert? date x = fault := by
  cases hRoom : s.hasRoom date with
  | true => exact .inl (insert?_of_hasRoom hRoom)
  | false =>
    rw [insert?_of_not_hasRoom hRoom]
    split
    · exact .inl rfl
    · exact .inr rfl

end Append

section Remove
variable [Hole α] (s : Series α) (date : Instant) (position : Nat)

/-- The series without a point: its slot is blank and in reserve, and the points behind it have
their new positions in the index. -/
def withoutPoint : Series α :=
  let points := s.points.eraseIdx position
  { s with
    points
    spare := .blank :: s.spare
    index := indexFrom position points (s.index.erase date) }

omit [Hole α] in
theorem getElem?_indexFrom (start : Nat) (points : List (Point α))
    (index : Std.HashMap Instant Nat) (d : Instant) :
    (indexFrom start points index)[d]? =
      (Calendar.lastPositionFrom? d start ((points.drop start).map Point.date)).or index[d]? := by
  rw [indexFrom]
  generalize points.drop start = rest
  induction rest generalizing start index with
  | nil => rfl
  | cons p rest ih =>
    rw [List.zipIdx_cons, List.foldl_cons, ih, List.map_cons, Calendar.lastPositionFrom?,
      Option.or_assoc, Std.HashMap.getElem?_insert]
    by_cases hDate : p.date = d <;> simp [hDate]

omit [Hole α] in
theorem drop_eraseIdx (points : List (Point α)) (i : Nat) :
    (points.eraseIdx i).drop i = points.drop (i + 1) := by
  induction points generalizing i with
  | nil => simp
  | cons p points ih =>
    cases i with
    | zero => rfl
    | succ i => exact ih i

theorem dates_withoutPoint :
    (s.withoutPoint date position).dates = s.dates.eraseIdx position := by
  simp [withoutPoint, dates, List.eraseIdx_eq_take_drop_succ]

theorem position?_withoutPoint (d : Instant) :
    (s.withoutPoint date position).position? d =
      (Calendar.lastPositionFrom? d position (s.dates.drop (position + 1))).or
        (if date = d then none else s.position? d) := by
  have hRest : ((s.points.eraseIdx position).drop position).map Point.date =
      s.dates.drop (position + 1) := by
    rw [dates, ← List.map_drop, drop_eraseIdx]
  rw [position?, withoutPoint, getElem?_indexFrom, hRest, Std.HashMap.getElem?_erase]
  simp [position?]

variable {s date position}

/-- What is left of a repeated date drops out of the index, and the dates that move are noted. -/
theorem IndexedBut.withoutPoint {missing : List Instant} (h : s.IndexedBut missing)
    (hPosition : s.position? date = some position) :
    (s.withoutPoint date position).IndexedBut
      ((if date ∈ s.dates.eraseIdx position then date :: missing else missing).filter
        (· ∉ s.dates.drop (position + 1))) := by
  intro d
  rw [position?_withoutPoint, h d, dates_withoutPoint]
  exact Calendar.lastPosition?_eraseIdx_but missing (h.eq_lastPosition? hPosition) d

theorem remove_of_position? {missing : List Instant} (h : s.IndexedBut missing)
    (hPosition : s.position? date = some position) :
    s.remove date = .ok (true, s.withoutPoint date position) := by
  rw [remove, hPosition]
  exact if_pos (h.lt_count hPosition)

theorem remove_of_unknown (hPosition : s.position? date = none) :
    s.remove date = .ok (false, s) := by
  rw [remove, hPosition]

end Remove
end Almanac.Series
