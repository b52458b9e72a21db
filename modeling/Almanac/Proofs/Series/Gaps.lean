import Mathlib.Data.List.Basic
import Almanac.Series.Shift

/-! # Gaps and the positions between them

What is left of a list without its gaps is numbered by rank, the number of kept positions before a
position. Compaction moves an entry to its rank and restoring moves it back, so that a change of the
kept values is read off at every position of the calendar.
-/
namespace Almanac
set_option autoImplicit false

section Rank
variable (gap : Nat → Bool)

def keptFrom (start length : Nat) : Nat := (List.range' start length).countP fun i => !gap i

def rank (i : Nat) : Nat := keptFrom gap 0 i

/-- The last kept position before a position. -/
def lastKept? : Nat → Option Nat
  | 0 => none
  | i + 1 => if gap i then lastKept? i else some i

variable {gap}

theorem keptFrom_succ (start length : Nat) : keptFrom gap start (length + 1) =
    keptFrom gap (start + 1) length + if gap start then 0 else 1 := by
  rw [keptFrom, List.range'_succ, List.countP_cons, keptFrom]
  cases gap start <;> rfl

theorem rank_succ (i : Nat) : rank gap (i + 1) = rank gap i + if gap i then 0 else 1 := by
  rw [rank, keptFrom, List.range'_1_concat, List.countP_append, Nat.zero_add]
  cases h : gap i <;> simp [h, rank, keptFrom]

theorem lastKept?_eq_some_iff (i j : Nat) : lastKept? gap i = some j ↔
    j < i ∧ gap j = false ∧ ∀ k, j < k → k < i → gap k = true := by
  induction i with
  | zero => simp [lastKept?]
  | succ i ih =>
    rw [lastKept?]
    split
    · rename_i hGap
      rw [ih]
      constructor
      · rintro ⟨hj, hKept, hBetween⟩
        refine ⟨by omega, hKept, fun k hLow hHigh => ?_⟩
        rcases Nat.lt_succ_iff_lt_or_eq.mp hHigh with hHigh | rfl
        · exact hBetween k hLow hHigh
        · exact hGap
      · rintro ⟨hj, hKept, hBetween⟩
        have hNe : j ≠ i := by
          rintro rfl
          rw [hGap] at hKept
          cases hKept
        exact ⟨by omega, hKept, fun k hLow hHigh => hBetween k hLow (by omega)⟩
    · rename_i hGap
      constructor
      · intro hEq
        obtain rfl := Option.some.inj hEq
        exact ⟨by omega, Bool.eq_false_iff.mpr hGap, fun k hLow hHigh => by omega⟩
      · rintro ⟨hj, hKept, hBetween⟩
        by_contra hNe
        exact hGap (hBetween i (by grind) (by omega))

theorem exists_lastKept?_of_lt {i j : Nat} (hj : j < i) (hKept : gap j = false) :
    ∃ k, lastKept? gap i = some k := by
  induction i with
  | zero => exact absurd hj (Nat.not_lt_zero j)
  | succ i ih =>
    rw [lastKept?]
    split
    · rename_i hGap
      refine ih (Nat.lt_of_le_of_ne (Nat.le_of_lt_succ hj) ?_)
      rintro rfl
      rw [hGap] at hKept
      cases hKept
    · exact ⟨i, rfl⟩

theorem rank_of_lastKept?_eq_none {i : Nat} (h : lastKept? gap i = none) : rank gap i = 0 := by
  induction i with
  | zero => rfl
  | succ i ih =>
    rw [lastKept?] at h
    split at h
    · rename_i hGap
      rw [rank_succ, ih h, hGap]
      rfl
    · cases h

theorem rank_of_lastKept?_eq_some {i j : Nat} (h : lastKept? gap i = some j) :
    rank gap i = rank gap j + 1 := by
  induction i with
  | zero => cases h
  | succ i ih =>
    rw [lastKept?] at h
    rw [rank_succ]
    split at h
    · rename_i hGap
      rw [ih h, hGap]
      rfl
    · rename_i hGap
      obtain rfl := Option.some.inj h
      rw [if_neg hGap]

end Rank

namespace Holes
variable {α β : Type} {gap : Nat → Bool}

theorem dropAt_of_later {start : Nat} {gaps : List Nat} (h : ∀ g ∈ gaps, start < g) (entry : β)
    (entries : List β) :
    dropAt start gaps (entry :: entries) = entry :: dropAt (start + 1) gaps entries := by
  cases gaps with
  | nil => cases entries <;> rfl
  | cons g gaps =>
    have hg := h g List.mem_cons_self
    rw [dropAt, if_neg (by omega)]

theorem later_of_mem {start length g : Nat} (h : g ∈ (List.range' (start + 1) length).filter gap) :
    start < g := by
  have hRange := List.mem_range'_1.mp (List.mem_of_mem_filter h)
  omega

theorem getElem?_dropAt (entries : List β) {start length i : Nat} (hi : i < length)
    (hKept : gap (start + i) = false) :
    (dropAt start ((List.range' start length).filter gap) entries)[keptFrom gap start i]? =
      entries[i]? := by
  induction entries generalizing start length i with
  | nil => simp [dropAt]
  | cons entry entries ih =>
    obtain ⟨length, rfl⟩ : ∃ m, length = m + 1 := ⟨length - 1, by omega⟩
    rw [List.range'_succ, List.filter_cons]
    cases i with
    | zero =>
      rw [Nat.add_zero] at hKept
      rw [hKept, if_neg Bool.false_ne_true, dropAt_of_later fun g => later_of_mem]
      rfl
    | succ i =>
      have hRest := @ih (start + 1) length i (by omega) (by rw [← hKept]; congr 1; omega)
      rw [keptFrom_succ, List.getElem?_cons_succ, ← hRest]
      cases hGap : gap start with
      | true =>
        rw [if_pos rfl, dropAt, if_pos rfl]
        rfl
      | false =>
        rw [if_neg Bool.false_ne_true, dropAt_of_later fun g => later_of_mem]
        rfl

variable [Hole α]

theorem getElem?_refill (dates : Calendar) {start length : Nat} (hDates : dates.length ≤ length)
    (kept : List α) (i : Nat) :
    (refill start ((List.range' start length).filter gap) kept dates)[i]? =
      dates[i]?.map fun d =>
        ⟨d, if gap (start + i) then hole else kept[keptFrom gap start i]?.getD hole⟩ := by
  induction dates generalizing start length kept i with
  | nil => rfl
  | cons d dates ih =>
    obtain ⟨length, rfl⟩ : ∃ m, length = m + 1 :=
      ⟨length - 1, by rw [List.length_cons] at hDates; omega⟩
    have hRest := @ih (start + 1) length (by simpa using hDates)
    rw [List.range'_succ, List.filter_cons, refill]
    cases hGap : gap start with
    | true =>
      rw [if_pos rfl, if_pos List.head?_cons, List.tail_cons]
      cases i with
      | zero => simp [hGap]
      | succ i =>
        rw [List.getElem?_cons_succ, hRest, List.getElem?_cons_succ, keptFrom_succ, hGap]
        simp [Nat.add_right_comm, Nat.add_assoc]
    | false =>
      have hHead : ((List.range' (start + 1) length).filter gap).head? ≠ some start := by
        intro hHead
        exact Nat.lt_irrefl start (later_of_mem (List.mem_of_head? hHead))
      rw [if_neg Bool.false_ne_true, if_neg hHead]
      cases i with
      | zero => simp [hGap, keptFrom, List.headD_eq_head?_getD, List.head?_eq_getElem?]
      | succ i =>
        rw [List.getElem?_cons_succ, hRest, List.getElem?_cons_succ, keptFrom_succ, hGap]
        simp [Nat.add_right_comm, Nat.add_assoc]

end Holes

namespace Series
variable {α : Type} [Hole α]

/-- The value at a position, a hole beyond the end. -/
def reading (s : Series α) (i : Nat) : α := (s.value? i).getD hole

theorem isGap_eq_isHole_reading (s : Series α) (i : Nat) :
    Holes.isGap i s = isHole (s.reading i) := by
  rw [Holes.isGap, reading]
  cases s.value? i with
  | none => exact isHole_hole.symm
  | some x => rfl

theorem value?_of_observed {s : Series α} {i : Nat} (h : Holes.isGap i s = false) :
    s.value? i = some (s.reading i) := by
  rw [reading]
  cases hValue : s.value? i with
  | none =>
    rw [Holes.isGap, hValue] at h
    cases h
  | some x => rfl

theorem isGap_of_count_le {s : Series α} {i : Nat} (h : s.count ≤ i) : Holes.isGap i s = true := by
  rw [Holes.isGap, value?, List.getElem?_eq_none h]
  rfl

theorem isHole_reading_of_count_le {s : Series α} {i : Nat} (h : s.count ≤ i) :
    isHole (s.reading i) = true := by
  rw [← isGap_eq_isHole_reading, isGap_of_count_le h]

theorem isGap_of_value? {s : Series α} {i : Nat} {x : α} (h : s.value? i = some x) :
    Holes.isGap i s = isHole x := by
  rw [Holes.isGap, h]
  rfl

theorem reading_of_value? {s : Series α} {i : Nat} {x : α} (h : s.value? i = some x) :
    s.reading i = x := by
  rw [reading, h]
  rfl

theorem value?_of_lt {s : Series α} {i : Nat} (h : i < s.count) :
    s.value? i = some (s.reading i) := by
  rw [reading, value?, List.getElem?_eq_getElem h]
  rfl

omit [Hole α] in
theorem lt_count_of_value? {s : Series α} {i : Nat} {x : α} (h : s.value? i = some x) :
    i < s.count := by
  rw [value?, Option.map_eq_some_iff] at h
  obtain ⟨p, hp, -⟩ := h
  exact (List.getElem?_eq_some_iff.mp hp).1

theorem lt_count_of_observed {s : Series α} {i : Nat} (h : Holes.isGap i s = false) : i < s.count :=
  lt_count_of_value? (value?_of_observed h)

omit [Hole α] in
theorem length_values (s : Series α) : s.values.length = s.count := List.length_map _

omit [Hole α] in
theorem value?_eq_getElem? (s : Series α) (i : Nat) : s.value? i = s.values[i]? :=
  List.getElem?_map.symm

omit [Hole α] in
theorem date?_eq_getElem? (s : Series α) (i : Nat) : s.date? i = s.dates[i]? :=
  List.getElem?_map.symm

theorem dates_derived (s : Series α) (points : List (Point α)) :
    (s.derived points).dates = points.map Point.date := by
  rw [derived, dates, points_ofPoints]

theorem value?_derived (s : Series α) (points : List (Point α)) (i : Nat) :
    (s.derived points).value? i = points[i]?.map Point.value := by
  rw [derived, value?, points_ofPoints]

theorem value?_relabelled (s t : Series α) {values : List α} (h : values.length ≤ t.count) (i : Nat) :
    (s.derived (List.zipWith Point.mk t.dates values)).value? i = values[i]? := by
  rw [value?_derived, List.getElem?_zipWith, dates, List.getElem?_map]
  by_cases hi : i < values.length
  · rw [List.getElem?_eq_getElem hi, List.getElem?_eq_getElem (Nat.lt_of_lt_of_le hi h)]
    rfl
  · rw [List.getElem?_eq_none (Nat.not_lt.mp hi)]
    cases t.points[i]? <;> rfl

end Series

namespace Holes
variable {α : Type} [Hole α] {gap : Nat → Bool} {holes : Holes}

/-- A record of exactly these gaps, every position beyond the calendar being one. -/
structure Marks (holes : Holes) (gap : Nat → Bool) : Prop where
  positions : holes.positions = (List.range holes.fullLength).filter gap
  beyond : ∀ i, holes.fullLength ≤ i → gap i = true

omit [Hole α] in
theorem mem_of_longest? {group : List (Series α)} {longest : Series α}
    (h : longest? group = some longest) : longest ∈ group := by
  cases group with
  | nil => cases h
  | cons s group =>
    obtain rfl := Option.some.inj h
    clear h
    induction group generalizing s with
    | nil => exact List.mem_cons_self
    | cons t group ih =>
      rcases List.mem_cons.mp (ih (if s.count < t.count then t else s)) with hBest | hRest
      · rw [List.foldl_cons, hBest]
        split
        · exact List.mem_cons_of_mem _ List.mem_cons_self
        · exact List.mem_cons_self
      · exact List.mem_cons_of_mem _ (List.mem_cons_of_mem _ hRest)

theorem calendar_ofGroup {group : List (Series α)} {longest : Series α}
    (h : longest? group = some longest) : (ofGroup group).calendar = longest.dates := by
  rw [ofGroup, h]

theorem marks_ofGroup {group : List (Series α)} {longest : Series α}
    (h : longest? group = some longest) : (ofGroup group).Marks fun i => group.any (isGap i) := by
  have hLength : longest.dates.length = longest.count := List.length_map _
  rw [ofGroup, h]
  refine ⟨?_, fun i hi => ?_⟩
  · rw [fullLength, hLength]
  · rw [fullLength, hLength] at hi
    exact List.any_eq_true.mpr ⟨longest, mem_of_longest? h, Series.isGap_of_count_le hi⟩

namespace Marks

theorem lt_fullLength (h : holes.Marks gap) {i : Nat} (hKept : gap i = false) :
    i < holes.fullLength := by
  by_contra hLe
  rw [h.beyond i (Nat.not_lt.mp hLe)] at hKept
  cases hKept

theorem getElem?_kept {β : Type} (h : holes.Marks gap) (entries : List β) {i : Nat}
    (hKept : gap i = false) : (dropAt 0 holes.positions entries)[rank gap i]? = entries[i]? := by
  rw [h.positions, List.range_eq_range']
  exact getElem?_dropAt entries (h.lt_fullLength hKept) (by rwa [Nat.zero_add])

theorem value?_compact (h : holes.Marks gap) (s : Series α) {i : Nat} (hKept : gap i = false) :
    (holes.compact s).value? (rank gap i) = s.value? i := by
  have hDate := h.getElem?_kept holes.calendar hKept
  rw [List.getElem?_eq_getElem (h.lt_fullLength hKept)] at hDate
  rw [compact, Series.value?_derived, List.getElem?_zipWith, keptDates, hDate,
    h.getElem?_kept s.values hKept, Series.value?_eq_getElem?]
  cases s.values[i]? <;> rfl

theorem getElem?_refill (h : holes.Marks gap) (kept : List α) (i : Nat) :
    (refill 0 holes.positions kept holes.calendar)[i]? =
      holes.calendar[i]?.map fun d => ⟨d, if gap i then hole else kept[rank gap i]?.getD hole⟩ := by
  rw [h.positions, List.range_eq_range', fullLength,
    Holes.getElem?_refill holes.calendar (Nat.le_refl _), Nat.zero_add]
  rfl

theorem values_compact (h : holes.Marks gap) {s : Series α} {i : Nat} (hKept : gap i = false)
    (hValue : isGap i s = false) :
    (holes.compact s).values[rank gap i]? = some (s.reading i) := by
  rw [← Series.value?_eq_getElem?, h.value?_compact s hKept, Series.value?_of_observed hValue]

theorem dates_restore (h : holes.Marks gap) (s : Series α) :
    (holes.restore s).dates = holes.calendar := by
  rw [restore, Series.dates_derived]
  apply List.ext_getElem?
  intro i
  rw [List.getElem?_map, h.getElem?_refill]
  cases holes.calendar[i]? <;> rfl

theorem reading_restore (h : holes.Marks gap) (s : Series α) (i : Nat) :
    (holes.restore s).reading i = if gap i then hole else s.reading (rank gap i) := by
  rw [Series.reading, restore, Series.value?_derived, h.getElem?_refill, Series.reading,
    Series.value?_eq_getElem?]
  by_cases hi : i < holes.fullLength
  · rw [List.getElem?_eq_getElem hi]
    rfl
  · rw [List.getElem?_eq_none (Nat.not_lt.mp hi), h.beyond i (Nat.not_lt.mp hi)]
    rfl

end Marks
end Holes

end Almanac
