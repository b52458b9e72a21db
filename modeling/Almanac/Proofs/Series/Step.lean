import Almanac.Proofs.Series.Action
import Almanac.Proofs.Series.Index

/-! # What a step makes of a series

An action that is answered revises values in place, takes a point in or out, or sorts; a refused one
changes nothing.
-/
namespace Almanac.Series
set_option autoImplicit false

variable {α : Type} [Hole α]

def insertEach (s : Series α) (points : List (Point α)) : Series α :=
  points.foldl (fun t p => t.insert p.date p.value) s

inductive Becomes (s : Series α) : Action α → Series α → Prop
  | added (date : Instant) (value : α) : Becomes s (.add date value) (s.insert date value)
  | extended (points : List (Point α)) : Becomes s (.extend points) (s.insertEach points)
  | absent {date : Instant} (hUnknown : s.position? date = none) : Becomes s (.remove date) s
  | removed {date : Instant} {position : Nat} (hPosition : s.position? date = some position)
      (hInside : position < s.count) : Becomes s (.remove date) (s.withoutPoint date position)
  | outside (position : Nat) (value : α) : Becomes s (.setValue position value) s
  | set (position : Nat) (value : α) :
      Becomes s (.setValue position value) (s.overwrite position value)
  | unknown (date : Instant) (value : α) : Becomes s (.setValueOn date value) s
  | setOn (date : Instant) (position : Nat) (value : α) :
      Becomes s (.setValueOn date value) (s.overwrite position value)
  | sorted : Becomes s .sort s.sort

variable {s t : Series α}

theorem insertAll?_ok_or_fault (s : Series α) (points : List (Point α)) :
    s.insertAll? points = .ok (s.insertEach points) ∨ s.insertAll? points = fault := by
  induction points generalizing s with
  | nil => exact .inl rfl
  | cons p points ih =>
    rw [insertAll?, List.foldlM_cons]
    rcases insert?_ok_or_fault s p.date p.value with hFirst | hFirst
    · rw [hFirst]
      exact ih (s.insert p.date p.value)
    · rw [hFirst]
      exact .inr rfl

theorem becomes_of_step {action : Action α} {result : Answer × Series α}
    (hStep : s.step action = some result) : s.Becomes action result.2 := by
  rw [step] at hStep
  cases action with
  | add d x =>
    rw [perform] at hStep
    rcases insert?_ok_or_fault s d x with hInsert | hInsert
    · rw [hInsert] at hStep
      obtain rfl := Option.some.inj hStep
      exact .added d x
    · rw [hInsert] at hStep
      cases hStep
  | extend points =>
    rw [perform] at hStep
    rcases insertAll?_ok_or_fault s points with hInsert | hInsert
    · rw [hInsert] at hStep
      obtain rfl := Option.some.inj hStep
      exact .extended points
    · rw [hInsert] at hStep
      cases hStep
  | remove d =>
    rw [perform, remove] at hStep
    cases hPosition : s.position? d with
    | none =>
      rw [hPosition] at hStep
      obtain rfl := Option.some.inj hStep
      exact .absent hPosition
    | some i =>
      rw [hPosition] at hStep
      by_cases hInside : i < s.count
      · simp only [if_pos hInside] at hStep
        obtain rfl := Option.some.inj hStep
        exact .removed hPosition hInside
      · simp only [if_neg hInside] at hStep
        cases hStep
  | setValue i x =>
    rw [perform, setValue, checkIndex] at hStep
    by_cases hInside : i < s.count
    · rw [if_pos hInside] at hStep
      obtain rfl := Option.some.inj hStep
      exact .set i x
    · rw [if_neg hInside] at hStep
      obtain rfl := Option.some.inj hStep
      exact .outside i x
  | setValueOn d x =>
    rw [perform, setValueOn] at hStep
    cases hPosition : s.position? d with
    | none =>
      rw [hPosition] at hStep
      obtain rfl := Option.some.inj hStep
      exact .unknown d x
    | some i =>
      rw [hPosition] at hStep
      obtain rfl := Option.some.inj hStep
      exact .setOn d i x
  | sort =>
    obtain rfl := Option.some.inj hStep
    exact .sorted

end Almanac.Series
