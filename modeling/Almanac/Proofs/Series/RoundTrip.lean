import Almanac.Proofs.Double
import Almanac.Proofs.Pass
import Almanac.Proofs.Series.Gaps
import Almanac.Proofs.Series.Points

/-! # Compaction and restoration of a group

Compaction keeps of every member the values at the positions that are no gaps, in order. Restoring
puts them back at these positions, so that a second compaction finds the same gaps and the same
values.
-/
namespace Almanac
set_option autoImplicit false

namespace Holes
variable {α β : Type} {gap : Nat → Bool} {holes : Holes}

/-- The positions of the calendar that are no gaps. -/
def kept (holes : Holes) : List Nat :=
  (List.range holes.fullLength).filter fun i => i ∉ holes.positions

theorem dropAt_eq_filter (entries : List β) {start length : Nat} (h : entries.length ≤ length) :
    dropAt start ((List.range' start length).filter gap) entries =
      ((entries.zipIdx start).filter fun p => !gap p.2).map Prod.fst := by
  induction entries generalizing start length with
  | nil => simp [dropAt]
  | cons entry entries ih =>
    obtain ⟨length, rfl⟩ : ∃ m, length = m + 1 :=
      ⟨length - 1, by rw [List.length_cons] at h; omega⟩
    have hRest := @ih (start + 1) length (by simpa using h)
    rw [List.range'_succ, List.filter_cons, List.zipIdx_cons, List.filter_cons]
    cases hGap : gap start with
    | true =>
      rw [if_pos rfl, dropAt, if_pos rfl, hRest]
      simp
    | false =>
      rw [if_neg Bool.false_ne_true, dropAt_of_later (fun g => later_of_mem), hRest]
      simp

theorem filter_range_of_beyond {m n : Nat} (hLe : m ≤ n) (hBeyond : ∀ i, m ≤ i → gap i = true) :
    ((List.range n).filter fun i => !gap i) = (List.range m).filter fun i => !gap i := by
  obtain ⟨k, rfl⟩ := Nat.exists_eq_add_of_le hLe
  have hNone : ((List.range k).map (m + ·)).filter (fun i => !gap i) = [] := by
    rw [List.filter_eq_nil_iff]
    intro i hi
    obtain ⟨j, -, rfl⟩ := List.mem_map.mp hi
    simp [hBeyond (m + j) (Nat.le_add_right m j)]
  rw [List.range_add, List.filter_append, hNone, List.append_nil]

/-- The longest member comes behind shorter ones, and none behind it is longer. -/
theorem longest?_cons (first : Series α) (others : List (Series α)) :
    ∃ before longest after, first :: others = before ++ longest :: after ∧
      longest? (first :: others) = some longest ∧ (∀ s ∈ before, s.count < longest.count) ∧
      ∀ s ∈ after, s.count ≤ longest.count := by
  obtain ⟨before, after, hSplit, hBefore, hAfter⟩ :=
    Pass.foldl_first_greatest Series.count first others
  exact ⟨before, _, after, hSplit, rfl, hBefore, hAfter⟩

namespace Marks

theorem mem_positions_iff (h : holes.Marks gap) (i : Nat) :
    i ∈ holes.positions ↔ i < holes.fullLength ∧ gap i = true := by
  rw [h.positions, List.mem_filter, List.mem_range]

theorem kept_eq (h : holes.Marks gap) :
    holes.kept = (List.range holes.fullLength).filter fun i => !gap i := by
  apply List.filter_congr
  intro i hi
  have hLt := List.mem_range.mp hi
  cases hGap : gap i <;> simp [h.mem_positions_iff, hLt, hGap]

theorem mem_kept_iff (h : holes.Marks gap) (i : Nat) : i ∈ holes.kept ↔ gap i = false := by
  rw [h.kept_eq, List.mem_filter, List.mem_range]
  constructor
  · rintro ⟨-, hKept⟩
    simpa using hKept
  · intro hKept
    exact ⟨h.lt_fullLength hKept, by simpa using hKept⟩

theorem length_kept (h : holes.Marks gap) : holes.kept.length = holes.keptLength := by
  have hSplit := List.length_eq_length_filter_add (l := List.range holes.fullLength) gap
  rw [List.length_range, ← h.positions, ← h.kept_eq] at hSplit
  rw [keptLength]
  omega

/-- What compaction keeps of a list, where all positions behind its end are gaps. -/
theorem map_some_dropAt (h : holes.Marks gap) (entries : List β)
    (hLength : entries.length ≤ holes.fullLength)
    (hBeyond : ∀ i, entries.length ≤ i → gap i = true) :
    (dropAt 0 holes.positions entries).map some = holes.kept.map fun i => entries[i]? := by
  have hEntries : ∀ p ∈ entries.zipIdx.filter fun p => !gap p.2, some p.1 = entries[p.2]? := by
    intro p hp
    exact (List.mem_zipIdx_iff_getElem?.mp (List.mem_of_mem_filter hp)).symm
  have hPositions : (entries.zipIdx.filter fun p => !gap p.2).map Prod.snd = holes.kept := by
    rw [h.kept_eq, filter_range_of_beyond hLength hBeyond, List.range_eq_range',
      ← List.zipIdx_map_snd 0 entries, List.filter_map]
    rfl
  rw [h.positions, List.range_eq_range', dropAt_eq_filter entries hLength, List.map_map,
    ← hPositions, List.map_map]
  exact List.map_congr_left hEntries

end Marks

section Compact
variable [Hole α] {s : Series α}

/-- A series that ends within the calendar and has its holes at gaps, as each of a group has. -/
structure Covers (holes : Holes) (gap : Nat → Bool) (s : Series α) : Prop where
  length : s.count ≤ holes.fullLength
  gaps : ∀ i, isGap i s = true → gap i = true

theorem Covers.observed (h : holes.Covers gap s) {i : Nat} (hKept : gap i = false) :
    isGap i s = false := by
  cases hGap : isGap i s with
  | false => rfl
  | true =>
    rw [h.gaps i hGap] at hKept
    cases hKept

theorem covers_of_mem {group : List (Series α)} {longest : Series α}
    (hLongest : longest? group = some longest) (hLength : ∀ s ∈ group, s.count ≤ longest.count)
    (hs : s ∈ group) : (ofGroup group).Covers (fun i => group.any (isGap i)) s where
  length := by
    rw [fullLength, calendar_ofGroup hLongest, Series.dates, List.length_map]
    exact hLength s hs
  gaps i hGap := List.any_eq_true.mpr ⟨s, hs, hGap⟩

namespace Marks

theorem map_some_keptDates (h : holes.Marks gap) :
    holes.keptDates.map some = holes.kept.map fun i => holes.calendar[i]? :=
  h.map_some_dropAt holes.calendar (Nat.le_refl _) h.beyond

theorem map_some_keptValues (h : holes.Marks gap) (hs : holes.Covers gap s) :
    (dropAt 0 holes.positions s.values).map some = holes.kept.map s.value? := by
  have hLength : s.values.length = s.count := s.length_values
  have hEntries : s.value? = fun i => s.values[i]? := funext s.value?_eq_getElem?
  rw [hEntries]
  apply h.map_some_dropAt
  · rw [hLength]
    exact hs.length
  · intro i hi
    exact hs.gaps i (Series.isGap_of_count_le (hLength ▸ hi))

theorem length_keptDates (h : holes.Marks gap) : holes.keptDates.length = holes.kept.length := by
  simpa using congrArg List.length h.map_some_keptDates

theorem length_keptValues (h : holes.Marks gap) (hs : holes.Covers gap s) :
    (dropAt 0 holes.positions s.values).length = holes.kept.length := by
  simpa using congrArg List.length (h.map_some_keptValues hs)

theorem dates_compact (h : holes.Marks gap) (hs : holes.Covers gap s) :
    (holes.compact s).dates = holes.keptDates := by
  rw [compact, Series.dates_derived, Series.map_date_zipWith, h.length_keptValues hs,
    ← h.length_keptDates, List.take_length]

theorem map_some_values_compact (h : holes.Marks gap) (hs : holes.Covers gap s) :
    (holes.compact s).values.map some = holes.kept.map s.value? := by
  rw [← h.map_some_keptValues hs]
  congr 1
  rw [compact, Series.derived, Series.values, Series.points_ofPoints, Series.map_value_zipWith,
    h.length_keptDates, ← h.length_keptValues hs, List.take_length]

theorem observed_of_mem_compact (h : holes.Marks gap) (hs : holes.Covers gap s) {x : α}
    (hx : x ∈ (holes.compact s).values) : isHole x = false := by
  have hMem : some x ∈ (holes.compact s).values.map some := List.mem_map_of_mem hx
  rw [h.map_some_values_compact hs] at hMem
  obtain ⟨i, hi, hValue⟩ := List.mem_map.mp hMem
  have hObserved := hs.observed ((h.mem_kept_iff i).mp hi)
  rwa [isGap, hValue] at hObserved

theorem addHoles_compact (h : holes.Marks gap) (hs : holes.Covers gap s) :
    (holes.compact s).addHoles holes = .ok (holes.restore (holes.compact s)) := by
  have hCount : (holes.compact s).count = holes.keptLength := by
    rw [← h.length_kept, ← h.length_keptDates, ← h.dates_compact hs, Series.dates, List.length_map]
    rfl
  rw [Series.addHoles, if_pos hCount]

/-- What restoring makes of a compacted member at a position of the calendar. -/
theorem value?_restore_compact (h : holes.Marks gap) (hs : holes.Covers gap s) {i : Nat}
    (hi : i < holes.fullLength) : (holes.restore (holes.compact s)).value? i =
      if i ∈ holes.positions then some hole else s.value? i := by
  rw [restore, Series.value?_derived, h.getElem?_refill, List.getElem?_eq_getElem hi]
  cases hGap : gap i with
  | true =>
    rw [if_pos ((h.mem_positions_iff i).mpr ⟨hi, hGap⟩)]
    rfl
  | false =>
    have hNot : i ∉ holes.positions := by
      rw [h.mem_positions_iff, hGap]
      simp
    have hObserved := hs.observed hGap
    rw [if_neg hNot, h.values_compact hGap hObserved, Series.value?_of_observed hObserved]
    rfl

theorem isGap_restore_compact (h : holes.Marks gap) (hs : holes.Covers gap s) (i : Nat) :
    isGap i (holes.restore (holes.compact s)) = gap i := by
  rw [Series.isGap_eq_isHole_reading, h.reading_restore]
  cases hGap : gap i with
  | true => exact isHole_hole
  | false =>
    have hObserved := hs.observed hGap
    rw [if_neg Bool.false_ne_true, Series.reading, h.value?_compact s hGap, ← Series.reading,
      ← Series.isGap_eq_isHole_reading, hObserved]

theorem covers_restore_compact (h : holes.Marks gap) (hs : holes.Covers gap s) :
    holes.Covers gap (holes.restore (holes.compact s)) where
  length := by
    rw [fullLength, ← h.dates_restore (holes.compact s), Series.dates, List.length_map]
    exact Nat.le_refl _
  gaps i hGap := by rwa [h.isGap_restore_compact hs] at hGap

theorem compact_restore_compact (h : holes.Marks gap) (hs : holes.Covers gap s) :
    holes.compact (holes.restore (holes.compact s)) = holes.compact s := by
  have hValues : dropAt 0 holes.positions (holes.restore (holes.compact s)).values =
      dropAt 0 holes.positions s.values := by
    apply List.map_injective_iff.mpr (Option.some_injective α)
    rw [h.map_some_keptValues (h.covers_restore_compact hs), h.map_some_keptValues hs]
    apply List.map_congr_left
    intro i hi
    have hKept := (h.mem_kept_iff i).mp hi
    have hNot : i ∉ holes.positions := by simp [h.mem_positions_iff, hKept]
    rw [h.value?_restore_compact hs (h.lt_fullLength hKept), if_neg hNot]
  have hOptions : (holes.restore (holes.compact s)).options = s.options := by
    rw [restore, Series.derived, Series.options_ofPoints, compact, Series.derived,
      Series.options_ofPoints]
  rw [compact, hValues, Series.derived, hOptions]
  rfl

/-- The restored members have the gaps of the group, each of them all. -/
theorem ofGroup_restored (h : holes.Marks gap) {group : List (Series α)} (hGroup : group ≠ [])
    (hCovers : ∀ s ∈ group, holes.Covers gap s) :
    ofGroup (group.map fun s => holes.restore (holes.compact s)) = holes := by
  obtain ⟨first, others, rfl⟩ := List.exists_cons_of_ne_nil hGroup
  obtain ⟨before, longest, after, hSplit, hLongest, -⟩ := longest?_cons
    (holes.restore (holes.compact first)) (others.map fun s => holes.restore (holes.compact s))
  rw [← List.map_cons (f := fun s => holes.restore (holes.compact s))] at hSplit hLongest
  have hMem : longest ∈ (first :: others).map fun s => holes.restore (holes.compact s) := by
    rw [hSplit]
    simp
  obtain ⟨s, -, rfl⟩ := List.mem_map.mp hMem
  have hCalendar := h.dates_restore (holes.compact s)
  have hLength : (holes.restore (holes.compact s)).count = holes.fullLength := by
    rw [fullLength, ← hCalendar, Series.dates, List.length_map]
    rfl
  have hGaps : ∀ i, ((first :: others).map fun s => holes.restore (holes.compact s)).any (isGap i) =
      gap i := by
    intro i
    rw [Bool.eq_iff_iff, List.any_eq_true]
    constructor
    · rintro ⟨r, hr, hGap⟩
      obtain ⟨t, ht, rfl⟩ := List.mem_map.mp hr
      rwa [h.isGap_restore_compact (hCovers t ht)] at hGap
    · intro hGap
      refine ⟨_, List.mem_map_of_mem List.mem_cons_self, ?_⟩
      rwa [h.isGap_restore_compact (hCovers first List.mem_cons_self)]
  rw [ofGroup, hLongest]
  simp only [hGaps, hLength, hCalendar, ← h.positions]

end Marks

/-- What becomes of a member of a group when it is compacted to `c` and restored to `r`. -/
structure Restores (holes : Holes) (longest s c r : Series α) : Prop where
  values : c.values.map some = holes.kept.map s.value?
  dates : c.dates.map some = holes.kept.map longest.date?
  observed : ∀ x ∈ c.values, isHole x = false
  restored : c.addHoles holes = .ok r
  calendar : r.dates = longest.dates
  value : ∀ i < longest.count, r.value? i =
    if i ∈ holes.positions then some hole else s.value? i

theorem Marks.restores (h : holes.Marks gap) {longest : Series α}
    (hCalendar : holes.calendar = longest.dates) (hs : holes.Covers gap s) :
    holes.Restores longest s (holes.compact s) (holes.restore (holes.compact s)) where
  values := h.map_some_values_compact hs
  dates := by
    have hDate : longest.date? = fun i => holes.calendar[i]? := by
      funext i
      rw [hCalendar, Series.date?, Series.dates, List.getElem?_map]
    rw [h.dates_compact hs, hDate]
    exact h.map_some_keptDates
  observed _ hx := h.observed_of_mem_compact hs hx
  restored := h.addHoles_compact hs
  calendar := (h.dates_restore _).trans hCalendar
  value i hi := h.value?_restore_compact hs (by
    rwa [fullLength, hCalendar, Series.dates, List.length_map])

theorem isGap_iff (i : Nat) (s : Series α) :
    isGap i s = true ↔ s.count ≤ i ∨ ∃ x, s.value? i = some x ∧ isHole x = true := by
  constructor
  · intro hGap
    cases hValue : s.value? i with
    | none =>
      rw [Series.value?_eq_getElem?, List.getElem?_eq_none_iff, s.length_values] at hValue
      exact .inl hValue
    | some x =>
      rw [isGap, hValue] at hGap
      exact .inr ⟨x, rfl, hGap⟩
  · rintro (hEnd | ⟨x, hValue, hHole⟩)
    · exact Series.isGap_of_count_le hEnd
    · rw [isGap, hValue]
      exact hHole

/-- The calendar of the longest member, and in it the positions where some member has a hole or has
ended. -/
structure Records (holes : Holes) (group : List (Series α)) (longest : Series α) : Prop where
  calendar : holes.calendar = longest.dates
  ascending : holes.positions.Pairwise (· < ·)
  length_le : holes.positions.length ≤ holes.fullLength
  mem_iff : ∀ i, i ∈ holes.positions ↔ i < longest.count ∧
    ∃ s ∈ group, s.count ≤ i ∨ ∃ x, s.value? i = some x ∧ isHole x = true

theorem records_ofGroup {group : List (Series α)} {longest : Series α}
    (hLongest : longest? group = some longest) : (ofGroup group).Records group longest where
  calendar := calendar_ofGroup hLongest
  ascending := by
    rw [(marks_ofGroup hLongest).positions]
    exact List.pairwise_lt_range.filter _
  length_le := by
    rw [(marks_ofGroup hLongest).positions]
    exact (List.length_filter_le _ _).trans_eq List.length_range
  mem_iff i := by
    have hLength : (ofGroup group).fullLength = longest.count := by
      rw [fullLength, calendar_ofGroup hLongest, Series.dates, List.length_map]
      rfl
    rw [(marks_ofGroup hLongest).mem_positions_iff, hLength, List.any_eq_true]
    simp only [isGap_iff]

end Compact
end Holes

namespace Series

section Same
variable {α : Type} [Hole α] [BEq α] {r s : Series α}

theorem same_of_value (hSelf : ∀ x : α, isHole x = false → (x == x) = true)
    (hDates : r.dates = s.dates) (hValue : ∀ i < s.count, r.value? i =
      if Holes.isGap i s then some hole else s.value? i) : (r == s) = true := by
  have hValues : (List.zipWith (fun x y => x == y || (isHole x && isHole y))
      r.values s.values).all id = true := by
    rw [List.all_eq_true]
    intro b hb
    obtain ⟨i, hi⟩ := List.mem_iff_getElem?.mp hb
    rw [List.getElem?_zipWith, ← value?_eq_getElem?, ← value?_eq_getElem?] at hi
    cases hy : s.value? i with
    | none => simp [hy] at hi
    | some y =>
      have hLt : i < s.count := by
        rw [value?_eq_getElem?] at hy
        exact s.length_values ▸ (List.getElem?_eq_some_iff.mp hy).1
      rw [hValue i hLt, Holes.isGap, hy] at hi
      cases hHole : isHole y with
      | true =>
        obtain rfl : (hole == y || (isHole (hole : α) && isHole y)) = b := by simpa [hHole] using hi
        simp [hHole, isHole_hole]
      | false =>
        obtain rfl : (y == y || (isHole y && isHole y)) = b := by simpa [hHole] using hi
        simp [hSelf y hHole]
  change (r.dates == s.dates && _) = true
  rw [hDates, beq_self_eq_true, Bool.true_and]
  exact hValues

end Same

section Refusal
variable {α : Type} [Hole α] (s : Series α) (holes : Holes)

theorem count_eq_iff_restored : s.count = holes.keptLength ↔ ∃ r, s.addHoles holes = .ok r := by
  rw [addHoles]
  split
  · rename_i hCount
    exact iff_of_true hCount ⟨_, rfl⟩
  · rename_i hCount
    refine iff_of_false hCount ?_
    rintro ⟨r, hr⟩
    cases hr

theorem count_ne_iff_refused : s.count ≠ holes.keptLength ↔
    s.addHoles holes = refuse (.lengthMismatch holes.keptLength s.count) := by
  rw [addHoles]
  split
  · rename_i hCount
    refine iff_of_false (not_not_intro hCount) ?_
    intro hRefused
    cases hRefused
  · rename_i hCount
    exact iff_of_true hCount rfl

end Refusal

/-- Compaction keeps what all members observe, on the dates of the longest, and restoring undoes it:
every member is back on the full calendar with its values between the gaps, and compacts to the same
record. A series of another length than the kept one is refused. -/
theorem addHoles_inverts_removeHoles (first : Series Float) (others : List (Series Float)) :
    let group := first :: others
    let compacted := (removeHoles group).1
    let holes := (removeHoles group).2
    ∃ before longest after restored, group = before ++ longest :: after ∧
      (∀ s ∈ before, s.count < longest.count) ∧ (∀ s ∈ after, s.count ≤ longest.count) ∧
      holes.Records group longest ∧
      compacted.length = group.length ∧ restored.length = group.length ∧
      (∀ (k : Nat) (s c r : Series Float), group[k]? = some s → compacted[k]? = some c →
        restored[k]? = some r → holes.Restores longest s c r) ∧
      removeHoles restored = (compacted, holes) ∧
      (others = [] → restored.map (· == first) = [true]) ∧
      ∀ t : Series Float,
        (t.count = holes.fullLength - holes.positions.length ↔ ∃ r, t.addHoles holes = .ok r) ∧
        (t.count ≠ holes.fullLength - holes.positions.length ↔ t.addHoles holes =
          refuse (.lengthMismatch (holes.fullLength - holes.positions.length) t.count)) := by
  intro group compacted holes
  obtain ⟨before, longest, after, hSplit, hLongest, hBefore, hAfter⟩ :=
    Holes.longest?_cons first others
  have hMarks : holes.Marks fun i => group.any (Holes.isGap i) := Holes.marks_ofGroup hLongest
  have hRecords : holes.Records group longest := Holes.records_ofGroup hLongest
  have hLength : ∀ s ∈ group, s.count ≤ longest.count := by
    intro s hs
    rw [show group = before ++ longest :: after from hSplit, List.mem_append, List.mem_cons] at hs
    rcases hs with hs | rfl | hs
    · exact Nat.le_of_lt (hBefore s hs)
    · exact Nat.le_refl _
    · exact hAfter s hs
  have hCovers : ∀ s ∈ group, holes.Covers (fun i => group.any (Holes.isGap i)) s := fun s hs =>
    Holes.covers_of_mem hLongest hLength hs
  have hRestores : ∀ s ∈ group,
      holes.Restores longest s (holes.compact s) (holes.restore (holes.compact s)) := fun s hs =>
    hMarks.restores hRecords.calendar (hCovers s hs)
  refine ⟨before, longest, after, group.map fun s => holes.restore (holes.compact s), hSplit,
    hBefore, hAfter, hRecords, List.length_map _, List.length_map _, ?_, ?_, ?_, ?_⟩
  · intro k s c r hs hc hr
    rw [show compacted = group.map holes.compact from rfl, List.getElem?_map, hs] at hc
    rw [List.getElem?_map, hs] at hr
    obtain rfl := Option.some.inj hc
    obtain rfl := Option.some.inj hr
    exact hRestores s (List.mem_of_getElem? hs)
  · have hAgain := hMarks.ofGroup_restored (List.cons_ne_nil first others) hCovers
    have hCompacted : (group.map fun s => holes.restore (holes.compact s)).map holes.compact =
        compacted := by
      rw [List.map_map]
      exact List.map_congr_left fun s hs => hMarks.compact_restore_compact (hCovers s hs)
    rw [removeHoles, hAgain, hCompacted]
  · rintro rfl
    have hFirst := hRestores first List.mem_cons_self
    obtain rfl : first = longest := Option.some.inj hLongest
    have hSame : (holes.restore (holes.compact first) == first) = true := by
      refine same_of_value (fun x => Double.beq_self_of_observed) hFirst.calendar fun i hi => ?_
      have hGap : i ∈ holes.positions ↔ Holes.isGap i first = true := by
        rw [hRecords.mem_iff, and_iff_right hi, Holes.isGap_iff]
        simp [group]
      rw [hFirst.value i hi]
      simp only [hGap]
    simpa [group] using hSame
  · intro t
    exact ⟨t.count_eq_iff_restored holes, t.count_ne_iff_refused holes⟩

end Series
end Almanac
