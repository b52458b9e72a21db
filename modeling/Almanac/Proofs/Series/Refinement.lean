import Almanac.Proofs.Series.Ledger

/-! # Histories of a series and of its ledger

Every action keeps the representation, so that histories agree from every origin with distinct dates.
-/
namespace Almanac.Series
set_option autoImplicit false

variable {α : Type} [Hole α] {s : Series α} {l : Ledger α}

namespace Represents

theorem entry_of_position? (h : s.Represents l) {d : Instant} {i : Nat}
    (hd : s.position? d = some i) : (l.entries.map Point.date)[i]? = some d := by
  have hLast := h.indexed.eq_lastPosition? hd
  rw [h.dates_eq] at hLast
  exact ((Calendar.lastPosition?_eq_some_iff _ _ _).mp hLast).1

theorem contains_of_position? (h : s.Represents l) {d : Instant} {i : Nat}
    (hd : s.position? d = some i) : l.contains d = true := by
  rw [← h.contains_eq, contains_eq_isSome, hd, Option.isSome_some]

theorem not_contains_of_unknown (h : s.Represents l) {d : Instant} (hd : s.position? d = none) :
    l.contains d = false := by
  rw [← h.contains_eq, contains_eq_isSome, hd, Option.isSome_none]

theorem not_mem_of_unknown (h : s.Represents l) {d : Instant} (hSentinel : .sentinel ∉ l.dates)
    (hd : s.position? d = none) : d ∉ l.dates := by
  have hNot := h.not_contains_of_unknown hd
  rw [Ledger.contains, known_of_not_mem hSentinel] at hNot
  exact of_decide_eq_false hNot

theorem isUninitialized_eq (h : s.Represents l) :
    s.isUninitialized = decide (.sentinel ∈ l.dates) := by
  by_cases hSentinel : .sentinel ∈ l.dates
  · obtain ⟨x, hEntries⟩ := h.placeholder hSentinel
    rw [isUninitialized, h.points, hEntries]
    simpa using hSentinel
  · rw [decide_eq_false hSentinel, isUninitialized, h.points]
    split
    · rename_i p hEntries
      have hDate : p.date ≠ .sentinel := date_ne_of_fresh hSentinel (by rw [hEntries]; simp)
      simpa using hDate
    · rfl

theorem revise (h : s.Represents l) {d : Instant} {i : Nat} (hd : s.position? d = some i) (x : α) :
    (s.overwrite i x).Represents (l.revise d x) := by
  have hLt := h.indexed.lt_count hd
  have hDates : (l.revise d x).dates = l.dates := by
    simp only [Ledger.revise, Ledger.dates, List.map_map]
    apply List.map_congr_left
    intro p _
    by_cases hDate : p.date = d <;> simp [hDate]
  exact {
    points := by
      rw [points_overwrite x hLt, h.points, modify_eq_map h.distinct (h.entry_of_position? hd)]
      rfl
    spare := by rw [spare_overwrite x hLt, h.spare]; rfl
    options := by rw [options_overwrite, h.options]; rfl
    indexed := h.indexed.overwrite x
    distinct := by rw [hDates]; exact h.distinct
    placeholder := by
      rw [hDates]
      intro hSentinel
      exact absurd hSentinel (h.not_sentinel_of_position? hd) }

/-- The first date takes the slot of the placeholder. -/
theorem replace (h : s.Represents l) {d : Instant} (hd : d ≠ .sentinel) (x : α)
    (hSentinel : .sentinel ∈ l.dates) :
    ({ s with points := [⟨d, x⟩], index := s.index.insert d 0 } : Series α).Represents
      { l with entries := l.known ++ [⟨d, x⟩] } := by
  obtain ⟨y, hEntries⟩ := h.placeholder hSentinel
  rw [known_of_placeholder hEntries]
  refine ⟨rfl, h.spare, h.options, ?_, by simp [Ledger.dates], ?_⟩
  · intro e
    have hOld : s.position? e = none := by
      rw [h.position?_eq, Ledger.position?, known_of_placeholder hEntries]
      rfl
    have hNew : (s.index.insert d 0)[e]? = if d = e then some 0 else none := by
      rw [Std.HashMap.getElem?_insert]
      simpa [position?] using congrArg (fun o => if d = e then some 0 else o) hOld
    rw [position?, hNew]
    by_cases hDate : d = e
    · subst hDate
      simp [hd, Series.dates, Calendar.lastPosition?_cons]
    · simp [hDate, Series.dates, Calendar.lastPosition?_cons]
  · intro hMem
    simp [Ledger.dates, Ne.symm hd] at hMem

theorem append (h : s.Represents l) {d : Instant} (hd : d ≠ .sentinel) (x : α)
    (hSentinel : .sentinel ∉ l.dates) (hNew : s.position? d = none) {reserve : Nat}
    (hReserve : s.grownSpare.tail = List.replicate reserve .blank) :
    (s.append d x).Represents { l with entries := l.known ++ [⟨d, x⟩], reserve } := by
  rw [known_of_not_mem hSentinel]
  have hFresh := h.not_mem_of_unknown hSentinel hNew
  refine ⟨by rw [Series.append, h.points], hReserve, h.options, ?_, ?_, ?_⟩
  · simpa [hd.symm] using h.indexed.append d x
  · rw [Ledger.dates, List.map_append, List.map_singleton]
    exact List.concat_eq_append ▸ h.distinct.concat hFresh
  · intro hMem
    rw [Ledger.dates, List.map_append, List.mem_append] at hMem
    rcases hMem with hMem | hMem
    · exact absurd hMem hSentinel
    · simp [Ne.symm hd] at hMem

theorem insert? (h : s.Represents l) {d : Instant} (hd : d ≠ .sentinel) (x : α) :
    Meets Represents (s.insert? d x) (l.add d x) := by
  cases hPosition : s.position? d with
  | some i =>
    have hContains := h.contains_of_position? hPosition
    have hRoom : s.hasRoom d = true := by simp [hasRoom, h.contains_eq, hContains]
    rw [insert?_of_hasRoom hRoom, insert_of_position? hPosition, Ledger.add, if_pos hContains]
    exact .ok (h.revise hPosition x)
  | none =>
    have hContains := h.not_contains_of_unknown hPosition
    have hFirst := h.isUninitialized_eq
    rw [Ledger.add, if_neg (by simp [hContains]), Ledger.reserve?]
    by_cases hSentinel : .sentinel ∈ l.dates
    · rw [decide_eq_true hSentinel] at hFirst
      have hRoom : s.hasRoom d = true := by simp [hasRoom, hFirst]
      rw [insert?_of_hasRoom hRoom, insert_of_isUninitialized hPosition hFirst, if_pos hSentinel]
      exact .ok (h.replace hd x hSentinel)
    · rw [decide_eq_false hSentinel] at hFirst
      rw [if_neg hSentinel]
      by_cases hReserve : 0 < l.reserve
      · have hRoom : s.hasRoom d = true := by simp [hasRoom, spareCapacity, h.spare, hReserve]
        rw [insert?_of_hasRoom hRoom, insert_of_fresh hPosition hFirst, if_pos hReserve]
        refine .ok (h.append hd x hSentinel hPosition ?_)
        simp [grownSpare, h.spare, Nat.ne_of_gt hReserve]
      · have hRoom : s.hasRoom d = false := by
          simp [hasRoom, h.contains_eq, hContains, hFirst, spareCapacity, h.spare, hReserve]
        rw [insert?_of_not_hasRoom hRoom, insert_of_fresh hPosition hFirst, if_neg hReserve,
          h.count_eq, h.options]
        split
        · refine .ok (h.append hd x hSentinel hPosition ?_)
          have hNone : l.reserve = 0 := by omega
          simp [grownSpare, h.spare, hNone, h.options]
        · exact .fault

theorem insertAll? (h : s.Represents l) (points : List (Point α))
    (hPoints : ∀ p ∈ points, p.date ≠ .sentinel) :
    Meets Represents (s.insertAll? points) (l.addAll points) :=
  meets_foldlM (fun _ _ p hs hp => hs.insert? hp p.value) h points hPoints

theorem withoutPoint (h : s.Represents l) {d : Instant} {i : Nat}
    (hd : s.position? d = some i) : (s.withoutPoint d i).Represents (l.remove d) := by
  have hEntry := h.entry_of_position? hd
  have hSentinel := h.not_sentinel_of_position? hd
  have hErased := eraseIdx_eq_filter h.distinct hEntry
  rw [Ledger.remove, if_pos (h.contains_of_position? hd), ← hErased]
  have hDates : s.dates.eraseIdx i = (l.entries.eraseIdx i).map Point.date := by
    rw [h.dates_eq, Ledger.dates, List.eraseIdx_map]
  have hGone : d ∉ s.dates.eraseIdx i := by
    rw [hDates, hErased]
    simp
  have hOthers : .sentinel ∉ s.dates.eraseIdx i := by
    rw [h.dates_eq]
    exact fun hMem => hSentinel (List.mem_of_mem_eraseIdx hMem)
  refine ⟨by rw [Series.withoutPoint, h.points], ?_, h.options, ?_, ?_, ?_⟩
  · simp [Series.withoutPoint, h.spare, List.replicate_succ]
  · apply (h.indexed.withoutPoint hd).congr
    intro e he
    rw [dates_withoutPoint] at he
    have hNe : e ≠ .sentinel := fun hEq => hOthers (hEq ▸ he)
    simp [hGone, hNe]
  · rw [Ledger.dates, ← hDates, h.dates_eq]
    exact h.distinct.eraseIdx i
  · intro hMem
    rw [Ledger.dates, ← hDates] at hMem
    exact absurd hMem hOthers

theorem sort (h : s.Represents l) : s.sort.Represents l.sort := by
  have hPoints : s.sort.points = l.sort.entries := by
    rw [Series.sort, Ledger.sort, h.points, mergeSort_eq_insertionSort h.distinct]
  have hPerm : l.sort.dates.Perm l.dates := (List.perm_insertionSort _ l.entries).map Point.date
  refine ⟨hPoints, h.spare, h.options, indexedBut_sort s, hPerm.nodup_iff.mpr h.distinct, ?_⟩
  intro hMem
  obtain ⟨x, hEntries⟩ := h.placeholder (hPerm.mem_iff.mp hMem)
  exact ⟨x, by simp [Ledger.sort, hEntries]⟩

theorem setValue (h : s.Represents l) {i : Nat} (hi : i < l.entries.length) (x : α) :
    (s.overwrite i x).Represents
      { l with entries := l.entries.modify i fun p => { p with value := x } } := by
  have hLt : i < s.count := h.count_eq ▸ hi
  have hPoints := points_overwrite x hLt
  rw [h.points] at hPoints
  have hDates : (l.entries.modify i fun p => { p with value := x }).map Point.date = l.dates := by
    rw [← hPoints, ← Series.dates, dates_overwrite, h.dates_eq]
  refine ⟨hPoints, by rw [spare_overwrite x hLt, h.spare], by rw [options_overwrite, h.options],
    h.indexed.overwrite x, by rw [Ledger.dates, hDates]; exact h.distinct, ?_⟩
  intro hMem
  rw [Ledger.dates, hDates] at hMem
  obtain ⟨y, hEntries⟩ := h.placeholder hMem
  obtain rfl : i = 0 := by simpa [hEntries] using hi
  exact ⟨x, by simp [hEntries]⟩

theorem step (h : s.Represents l) (action : Action α) (hDates : ∀ d ∈ action.dates, d ≠ .sentinel) :
    Agree Represents (s.step action) (l.step action) := by
  cases action with
  | add d x =>
    have hAdd := h.insert? (hDates d List.mem_cons_self) x
    rw [Series.step, perform, Ledger.step]
    generalize s.insert? d x = outcome, l.add d x = next at hAdd
    cases hAdd with
    | ok hNext => exact .some ⟨rfl, hNext⟩
    | fault => exact .none
  | extend points =>
    have hAdd := h.insertAll? points fun p hp => hDates p.date (List.mem_map_of_mem hp)
    rw [Series.step, perform, Ledger.step]
    generalize s.insertAll? points = outcome, l.addAll points = next at hAdd
    cases hAdd with
    | ok hNext => exact .some ⟨rfl, hNext⟩
    | fault => exact .none
  | remove d =>
    rw [Series.step, perform, Ledger.step]
    cases hd : s.position? d with
    | none =>
      have hNot := h.not_contains_of_unknown hd
      rw [remove_of_unknown hd, Ledger.remove, hNot]
      exact .some ⟨rfl, h⟩
    | some i =>
      rw [remove_of_position? h.indexed hd, h.contains_of_position? hd]
      exact .some ⟨rfl, h.withoutPoint hd⟩
  | setValue i x =>
    rw [Series.step, perform, Ledger.step, Series.setValue, checkIndex, h.count_eq]
    by_cases hi : i < l.entries.length
    · rw [if_pos hi, if_pos hi]
      exact .some ⟨rfl, h.setValue hi x⟩
    · rw [if_neg hi, if_neg hi]
      exact .some ⟨rfl, h⟩
  | setValueOn d x =>
    rw [Series.step, perform, Ledger.step, setValueOn]
    cases hd : s.position? d with
    | none =>
      rw [h.not_contains_of_unknown hd]
      exact .some ⟨rfl, h⟩
    | some i =>
      rw [h.contains_of_position? hd]
      exact .some ⟨rfl, h.revise hd x⟩
  | sort => exact .some ⟨rfl, h.sort⟩

end Represents

theorem represents_ofPoints (points : List (Point α))
    (hDistinct : (points.map Point.date).Nodup) (hDates : .sentinel ∉ points.map Point.date) :
    (ofPoints default points).Represents (.ofPoints points) where
  points := points_ofPoints default points
  spare := by cases points <;> rfl
  options := options_ofPoints default points
  indexed := indexedBut_ofPoints default points
  distinct := hDistinct
  placeholder hMem := absurd hMem hDates

theorem represents_uninitialized (options : Options) :
    (uninitialized options : Series α).Represents ⟨[.blank], 0, options⟩ where
  points := rfl
  spare := rfl
  options := rfl
  indexed := indexedBut_of_index rfl
  distinct := List.nodup_singleton _
  placeholder _ := ⟨hole, rfl⟩

theorem represents_origin (origin : Origin α) (hDistinct : origin.dates.Nodup)
    (hDates : ∀ d ∈ origin.dates, d ≠ .sentinel) :
    Option.Rel Represents origin.make?.toOption (Ledger.ofOrigin? origin) := by
  have hSentinel : .sentinel ∉ origin.dates := fun hMem => hDates _ hMem rfl
  cases origin with
  | uninitialized options => exact .some (represents_uninitialized options)
  | empty => exact .some (represents_ofPoints [] List.nodup_nil List.not_mem_nil)
  | ofSize size calendar =>
    rw [Origin.make?, ofSize?, Ledger.ofOrigin?]
    by_cases hShort : calendar.length < size
    · rw [if_pos hShort, if_neg (Nat.not_le.mpr hShort)]
      exact .none
    · rw [if_neg hShort, if_pos (Nat.not_lt.mp hShort)]
      have hMap : ((calendar.take size).map fun d => (⟨d, hole⟩ : Point α)).map Point.date =
          calendar.take size := by simp [Function.comp_def]
      refine .some (represents_ofPoints _ ?_ ?_) <;> rwa [hMap]
  | ofCalendar calendar values =>
    rw [Origin.make?, ofCalendar?, Ledger.ofOrigin?]
    by_cases hShort : calendar.length < values.length
    · rw [if_pos hShort, if_neg (Nat.not_le.mpr hShort)]
      exact .none
    · rw [if_neg hShort, if_pos (Nat.not_lt.mp hShort)]
      refine .some (represents_ofPoints _ ?_ ?_) <;> rwa [map_date_zipWith]
  | collect points =>
    have hCollect := (represents_ofPoints ([] : List (Point α)) List.nodup_nil
      List.not_mem_nil).insertAll? points fun p hp => hDates _ (List.mem_map_of_mem hp)
    rw [Origin.make?, collect?, Ledger.ofOrigin?]
    change Meets Represents (Series.insertAll? (empty default) points) _ at hCollect
    generalize Series.insertAll? (empty default) points = outcome,
      Ledger.addAll (.ofPoints []) points = next at hCollect
    cases hCollect with
    | ok h => exact .some h
    | fault => exact .none

/-- From distinct dates, every history has the answers and the state of its ledger: the dates with
their values in order of insertion, each date once. -/
theorem run_agrees_with_ledger (origin : Origin α) (actions : List (Action α))
    (hDistinct : origin.dates.Nodup) (hOrigin : ∀ d ∈ origin.dates, d ≠ .sentinel)
    (hActions : ∀ action ∈ actions, ∀ d ∈ action.dates, d ≠ .sentinel) :
    Agree Shows (origin.make?.toOption.bind fun s => s.run actions)
      ((Ledger.ofOrigin? origin).bind fun l => l.run actions) := by
  apply rel_bind (represents_origin origin hDistinct hOrigin)
  intro s l h
  have hRun := agree_runBy (fun _ _ action hs ha => hs.step action ha) h actions hActions
  exact hRun.mono fun _ _ ht => ht.shows

theorem run_agrees_with_ledger_of_three_points :
    Agree Shows
      (((Origin.ofCalendar [⟨2, by decide, by decide⟩, ⟨0, by decide, by decide⟩,
          ⟨1, by decide, by decide⟩] [(10 : Float), 20, 30]).make?.toOption).bind fun s => s.run
        [.remove ⟨0, by decide, by decide⟩, .add ⟨3, by decide, by decide⟩ 40,
          .setValueOn ⟨0, by decide, by decide⟩ 50, .sort, .add ⟨1, by decide, by decide⟩ 60])
      (some ([.removed true, .done, .refused (.dateNotFound ⟨0, by decide, by decide⟩), .done,
          .done],
        ⟨[⟨⟨1, by decide, by decide⟩, 60⟩, ⟨⟨2, by decide, by decide⟩, 10⟩,
          ⟨⟨3, by decide, by decide⟩, 40⟩], 0, default⟩)) :=
  run_agrees_with_ledger _ _ (by decide) (by decide) (by decide)

end Almanac.Series
