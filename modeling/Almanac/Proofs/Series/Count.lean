import Almanac.Proofs.Series.Step

/-! # The number of points

Which actions change the number of points of a series: a date takes a point of its own unless it is
known or a placeholder is left, and a removal of a known date takes one away.
-/
namespace Almanac.Series
set_option autoImplicit false

variable {α : Type} {s t : Series α}

theorem count_overwrite (s : Series α) (slot : Nat) (x : α) :
    (s.overwrite slot x).count = s.count := by
  rw [← length_dates, dates_overwrite, length_dates]

theorem count_of_isUninitialized (h : s.isUninitialized = true) : s.count = 1 := by
  rw [← length_dates, s.isUninitialized_iff.mp h]
  rfl

theorem count_sort (s : Series α) : s.sort.count = s.count := List.length_mergeSort _

theorem count_of_setValue {i : Nat} {x : α} (h : s.setValue i x = .ok t) : t.count = s.count := by
  rw [setValue, checkIndex] at h
  split at h
  · obtain rfl := Except.ok.inj h
    exact count_overwrite s i x
  · cases h

variable [Hole α]

/-- A date takes a point of its own if it is not known and no placeholder is left to take. -/
def takesPoint (s : Series α) (d : Instant) : Bool := !s.contains d && !s.isUninitialized

theorem count_insert (s : Series α) (d : Instant) (x : α) :
    (s.insert d x).count = s.count + if s.takesPoint d then 1 else 0 := by
  rw [takesPoint, contains_eq_isSome]
  cases hPosition : s.position? d with
  | some i =>
    rw [insert_of_position? hPosition, count_overwrite]
    rfl
  | none =>
    cases hFirst : s.isUninitialized with
    | true =>
      rw [insert_of_isUninitialized hPosition hFirst, count_of_isUninitialized hFirst]
      rfl
    | false =>
      rw [insert_of_fresh hPosition hFirst, ← length_dates, dates_append, List.length_append,
        length_dates]
      rfl

/-- Whether one of several points, added in turn, takes a point of its own. -/
def takesPoints (s : Series α) : List (Point α) → Bool
  | [] => false
  | p :: points => s.takesPoint p.date || (s.insert p.date p.value).takesPoints points

theorem count_insertEach (s : Series α) (points : List (Point α)) :
    s.count ≤ (s.insertEach points).count ∧
      ((s.insertEach points).count = s.count ↔ s.takesPoints points = false) := by
  induction points generalizing s with
  | nil => exact ⟨Nat.le_refl _, iff_of_true rfl rfl⟩
  | cons p points ih =>
    obtain ⟨hLe, hSame⟩ := ih (s.insert p.date p.value)
    rw [count_insert] at hLe hSame
    rw [insertEach, List.foldl_cons, ← insertEach, takesPoints]
    cases hTakes : s.takesPoint p.date with
    | true =>
      simp only [hTakes, if_true] at hLe
      simp only [Bool.true_or, Bool.true_eq_false, iff_false]
      omega
    | false =>
      simp only [hTakes, Bool.false_eq_true, if_false, Nat.add_zero] at hLe hSame
      exact ⟨hLe, by simpa using hSame⟩

theorem count_withoutPoint {d : Instant} {i : Nat} (hInside : i < s.count) :
    (s.withoutPoint d i).count + 1 = s.count := List.length_eraseIdx_add_one hInside

/-- Whether an action, if it is answered, changes the number of points. -/
def Action.resizes (s : Series α) : Action α → Bool
  | add d _ => s.takesPoint d
  | extend points => s.takesPoints points
  | remove d => s.contains d
  | setValue .. | setValueOn .. | sort => false

theorem count_of_step {action : Action α} {r : Answer × Series α} (h : s.step action = some r) :
    r.2.count = s.count ↔ action.resizes s = false := by
  have hBecomes := becomes_of_step h
  generalize r.2 = t at hBecomes
  cases hBecomes with
  | added d x =>
    rw [count_insert, Action.resizes]
    cases s.takesPoint d <;> simp
  | extended points => exact (s.count_insertEach points).2
  | absent hUnknown =>
    rw [Action.resizes, contains_eq_isSome, hUnknown]
    exact iff_of_true rfl rfl
  | removed hPosition hInside =>
    rw [Action.resizes, contains_eq_isSome, hPosition, ← count_withoutPoint hInside]
    exact iff_of_false (Nat.ne_of_lt (Nat.lt_succ_self _)) nofun
  | outside | unknown => exact iff_of_true rfl rfl
  | set i x => exact iff_of_true (count_overwrite s i x) rfl
  | setOn _ i x => exact iff_of_true (count_overwrite s i x) rfl
  | sorted => exact iff_of_true s.count_sort rfl

end Almanac.Series
