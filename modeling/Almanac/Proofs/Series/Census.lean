import Almanac.Proofs.Series.Lookup
import Almanac.Proofs.Series.Repeats

/-! # Dates that an index forgets or leads astray

Besides the dates it has forgotten, the index of a series can know stray ones, which are not visible
and lead to the first slot: the sentinel, once a new date has taken the place of a lone point at it,
and the first date, once a stray date has been removed in its place. Together they say where a
lookup near a date faults, and where it leaves the series.
-/
namespace Almanac
set_option autoImplicit false

structure Census extends Roster where
  strays : List Instant

namespace Census

def ofDates (dates : Calendar) : Census := ⟨⟨dates, dates.filter (· = .sentinel)⟩, []⟩

section Change
variable (c : Census)

def position? (d : Instant) : Option Nat :=
  if d ∈ c.strays then some 0 else if d ∈ c.forgotten then none else c.dates.lastPosition? d

/-- A lone point at the sentinel is taken over by a new date. -/
def add (d : Instant) : Census :=
  if d ∈ c.strays then c
  else if c.dates = [.sentinel] ∧ c.position? d = none then
    ⟨⟨[d], []⟩, if .sentinel ∈ c.forgotten then c.strays else .sentinel :: c.strays⟩
  else { c with toRoster := c.toRoster.add d }

def remove (d : Instant) : Census :=
  if d ∈ c.strays then
    match c.dates with
    | [] => c
    | first :: rest => ⟨⟨rest, []⟩, first :: c.strays.filter (· ≠ d)⟩
  else { c with toRoster := c.toRoster.remove d }

def act {α : Type} (c : Census) : Series.Action α → Census
  | .add d _ => c.add d
  | .extend points => (points.map Point.date).foldl add c
  | .remove d => c.remove d
  | .setValue .. | .setValueOn .. => c
  | .sort => ofDates c.dates.sorted

def after {α : Type} (dates : Calendar) (actions : List (Series.Action α)) : Census :=
  actions.foldl act (ofDates dates)

/-- Forgotten dates are visible, stray ones are not. While there are stray dates, every visible date
has one point and none is forgotten. -/
structure Sound : Prop where
  visible : ∀ d ∈ c.forgotten, d ∈ c.dates
  apart : ∀ d ∈ c.strays, d ∉ c.dates
  distinct : c.strays ≠ [] → c.dates.Nodup ∧ c.forgotten = []

end Change

variable {c : Census} {d : Instant}

theorem position?_of_stray (hStray : d ∈ c.strays) : c.position? d = some 0 := if_pos hStray

theorem position?_of_not_stray (hStray : d ∉ c.strays) :
    c.position? d = if d ∈ c.forgotten then none else c.dates.lastPosition? d := if_neg hStray

theorem not_stray_of_unknown (h : c.position? d = none) : d ∉ c.strays := by
  intro hStray
  rw [position?_of_stray hStray] at h
  cases h

theorem Sound.position?_of_forgotten (h : c.Sound) (hd : d ∈ c.forgotten) :
    c.position? d = none := by
  rw [position?_of_not_stray fun hStray => h.apart d hStray (h.visible d hd), if_pos hd]

theorem mem_forgotten_of_unknown (hd : d ∈ c.dates) (h : c.position? d = none) :
    d ∈ c.forgotten := by
  rw [position?] at h
  split at h
  · cases h
  · split at h
    · assumption
    · exact absurd hd ((Calendar.lastPosition?_eq_none_iff _ _).mp h)

theorem lastPosition?_of_known (hStray : d ∉ c.strays) {i : Nat} (h : c.position? d = some i) :
    d ∉ c.forgotten ∧ c.dates.lastPosition? d = some i := by
  rw [position?_of_not_stray hStray] at h
  split at h
  · cases h
  · exact ⟨‹_›, h⟩

theorem add_of_known {i : Nat} (h : c.position? d = some i) : c.add d = c := by
  rw [add]
  split
  · rfl
  · rename_i hStray
    obtain ⟨hKnown, hLast⟩ := lastPosition?_of_known hStray h
    have hEntry := ((Calendar.lastPosition?_eq_some_iff _ _ _).mp hLast).1
    rw [if_neg (by simp [h]), Roster.add, if_pos ⟨List.mem_of_getElem? hEntry, hKnown⟩]

theorem mem_strays_of_capture (c : Census) (e : Instant) :
    e ∈ (if .sentinel ∈ c.forgotten then c.strays else .sentinel :: c.strays) ↔
      e ∈ c.strays ∨ e = .sentinel ∧ .sentinel ∉ c.forgotten := by
  split <;> simp [*, or_comm]

end Census

namespace Series
variable {α : Type} {s : Series α} {c : Census}

/-- A census of a series: its dates, and where its index sends each date. -/
structure Surveyed (s : Series α) (c : Census) : Prop where
  dates : s.dates = c.dates
  position : ∀ d, s.position? d = c.position? d
  sound : c.Sound

theorem IndexedBut.surveyed {missing : List Instant} (h : s.IndexedBut missing)
    (hVisible : ∀ d ∈ missing, d ∈ s.dates) : s.Surveyed ⟨⟨s.dates, missing⟩, []⟩ := by
  refine ⟨rfl, fun d => ?_, hVisible, by simp, by simp⟩
  rw [Census.position?_of_not_stray List.not_mem_nil]
  exact h d

theorem surveyed_ofDates (h : s.IndexedBut [.sentinel]) : s.Surveyed (.ofDates s.dates) := by
  refine (h.congr fun d hd => ?_).surveyed fun d hd => List.mem_of_mem_filter hd
  simp [hd]

/-- A lookup near a date answers with a position of the series or with none. -/
def FindsNear (s : Series α) (d : Instant) (direction : Direction) : Prop :=
  ∃ found, s.closest? d direction = .ok found ∧ ∀ i, found = some i → i < s.count

/-- The first date is forgotten, and later dates follow it. -/
def MissesFirst (s : Series α) (forgotten : List Instant) (d : Instant) : Prop :=
  d ∈ forgotten ∧ s.dates.head? = some d ∧ ∃ e ∈ s.dates, d < e

namespace Surveyed

theorem overwrite (h : s.Surveyed c) (i : Nat) (x : α) : (s.overwrite i x).Surveyed c :=
  ⟨by rw [dates_overwrite, h.dates], fun d => by rw [position?_overwrite, h.position], h.sound⟩

theorem sort (h : s.Surveyed c) : s.sort.Surveyed (.ofDates c.dates.sorted) := by
  rw [← h.dates, ← dates_sort]
  exact surveyed_ofDates (indexedBut_sort s)

variable [Hole α] {d : Instant}

theorem append (h : s.Surveyed c) (hUnknown : c.position? d = none) (x : α) :
    (s.append d x).Surveyed
      { c with toRoster := ⟨c.dates ++ [d], c.forgotten.filter (· ≠ d)⟩ } := by
  have hStray := Census.not_stray_of_unknown hUnknown
  refine ⟨by rw [dates_append, h.dates], fun e => ?_, ?_, ?_, ?_⟩
  · rw [position?_append, h.position, ← s.length_dates, h.dates, Census.position?,
      Census.position?, Calendar.lastPosition?_append_singleton]
    by_cases hDate : d = e
    · subst hDate
      simp [hStray]
    · simp [hDate, Ne.symm hDate]
  · intro e he
    exact List.mem_append_left _ (h.sound.visible e (List.mem_of_mem_filter he))
  · intro e he
    rw [List.mem_append, List.mem_singleton, not_or]
    refine ⟨h.sound.apart e he, ?_⟩
    rintro rfl
    exact hStray he
  · intro hStrays
    obtain ⟨hDistinct, hNone⟩ := h.sound.distinct hStrays
    have hFresh : d ∉ c.dates := fun hd => by
      have hForgotten := Census.mem_forgotten_of_unknown hd hUnknown
      rw [hNone] at hForgotten
      cases hForgotten
    exact ⟨List.concat_eq_append ▸ hDistinct.concat hFresh, by simp [hNone]⟩

omit [Hole α] in
theorem capture (h : s.Surveyed c) (hUnknown : c.position? d = none) (hLone : c.dates = [.sentinel])
    (x : α) : ({ s with points := [⟨d, x⟩], index := s.index.insert d 0 } : Series α).Surveyed
      ⟨⟨[d], []⟩, if .sentinel ∈ c.forgotten then c.strays else .sentinel :: c.strays⟩ := by
  have hStray := Census.not_stray_of_unknown hUnknown
  refine ⟨rfl, fun e => ?_, by simp, fun e he => ?_, fun _ => ⟨List.nodup_singleton d, rfl⟩⟩
  · have hOld : s.index[e]? = c.position? e := h.position e
    rw [Series.position?, Std.HashMap.getElem?_insert, hOld, Census.position?, Census.position?,
      hLone]
    simp only [Census.mem_strays_of_capture, Calendar.lastPosition?_cons,
      Calendar.lastPosition?_nil]
    by_cases hDate : d = e
    · simp [hDate]
    by_cases hOld : e ∈ c.strays
    · simp [hDate, hOld]
    by_cases hSentinel : e = .sentinel
    · subst hSentinel
      by_cases hForgotten : .sentinel ∈ c.forgotten <;> simp [hDate, hOld, hForgotten]
    · by_cases hForgotten : e ∈ c.forgotten <;>
        simp [hDate, hOld, hSentinel, hForgotten, Ne.symm hSentinel]
  · rw [List.mem_singleton]
    rintro rfl
    rcases (Census.mem_strays_of_capture c e).mp he with hOld | ⟨hSentinel, hKnown⟩
    · exact hStray hOld
    · refine hKnown (hSentinel ▸ Census.mem_forgotten_of_unknown ?_ hUnknown)
      simp [hLone, hSentinel]

theorem insert (h : s.Surveyed c) (d : Instant) (x : α) : (s.insert d x).Surveyed (c.add d) := by
  have hPosition := h.position d
  cases hKnown : c.position? d with
  | some i =>
    rw [hKnown] at hPosition
    rw [insert_of_position? hPosition, Census.add_of_known hKnown]
    exact h.overwrite i x
  | none =>
    rw [hKnown] at hPosition
    have hStray := Census.not_stray_of_unknown hKnown
    rw [Census.add, if_neg hStray]
    cases hFirst : s.isUninitialized with
    | true =>
      have hLone := s.isUninitialized_iff.mp hFirst
      rw [h.dates] at hLone
      rw [insert_of_isUninitialized hPosition hFirst, if_pos ⟨hLone, hKnown⟩]
      exact h.capture hKnown hLone x
    | false =>
      have hNotLone : ¬ (c.dates = [.sentinel] ∧ c.position? d = none) := by
        rintro ⟨hLone, -⟩
        rw [s.isUninitialized_iff.mpr (h.dates.trans hLone)] at hFirst
        cases hFirst
      have hUnknown : ¬ (d ∈ c.dates ∧ d ∉ c.forgotten) := by
        rintro ⟨hd, hNot⟩
        exact hNot (Census.mem_forgotten_of_unknown hd hKnown)
      rw [insert_of_fresh hPosition hFirst, if_neg hNotLone, Roster.add, if_neg hUnknown]
      exact h.append hKnown x

theorem insertEach (h : s.Surveyed c) (points : List (Point α)) :
    (s.insertEach points).Surveyed ((points.map Point.date).foldl Census.add c) := by
  induction points generalizing s c with
  | nil => exact h
  | cons p points ih => exact ih (h.insert p.date p.value)

/-- A visible date is removed at its last position, and stray dates stay where they are. -/
theorem withoutPoint (h : s.Surveyed c) (hStray : d ∉ c.strays) {i : Nat}
    (hPosition : c.position? d = some i) :
    (s.withoutPoint d i).Surveyed { c with toRoster := c.toRoster.remove d } := by
  obtain ⟨hKnown, hLast⟩ := Census.lastPosition?_of_known hStray hPosition
  have hVisible := Roster.visible_remove h.sound.visible d
  have hForgotten : c.strays ≠ [] → (c.toRoster.remove d).forgotten = [] := by
    intro hStrays
    obtain ⟨hDistinct, hNone⟩ := h.sound.distinct hStrays
    exact (Roster.forgotten_remove hNone d).mpr (List.nodup_iff_count_le_one.mp hDistinct d)
  rw [Roster.remove, if_neg hKnown, hLast] at hVisible hForgotten ⊢
  refine ⟨by rw [dates_withoutPoint, h.dates], fun e => ?_, hVisible, fun e he hMem => ?_,
    fun hStrays => ⟨?_, hForgotten hStrays⟩⟩
  · have hRest := Calendar.lastPosition?_eraseIdx_but c.forgotten hLast e
    rw [position?_withoutPoint, h.position, h.dates, Census.position?, Census.position?]
    by_cases hStrayHere : e ∈ c.strays
    · have hGone : e ∉ c.dates.drop (i + 1) := fun hMem =>
        h.sound.apart e hStrayHere (List.mem_of_mem_drop hMem)
      rw [(Calendar.lastPositionFrom?_eq_none_iff _ _ _).mpr hGone, if_pos hStrayHere,
        if_pos hStrayHere, if_neg (ne_of_mem_of_not_mem hStrayHere hStray).symm, Option.none_or]
    · rw [if_neg hStrayHere, if_neg hStrayHere]
      exact hRest
  · exact h.sound.apart e he (List.mem_of_mem_eraseIdx hMem)
  · exact (h.sound.distinct hStrays).1.sublist (List.eraseIdx_sublist _ _)

/-- The removal of a stray date takes the first point. -/
theorem withoutHead (h : s.Surveyed c) (hStray : d ∈ c.strays) {first : Instant}
    {rest : Calendar} (hDates : c.dates = first :: rest) :
    (s.withoutPoint d 0).Surveyed ⟨⟨rest, []⟩, first :: c.strays.filter (· ≠ d)⟩ := by
  obtain ⟨hDistinct, hNone⟩ := h.sound.distinct (List.ne_nil_of_mem hStray)
  have hApart := h.sound.apart
  rw [hDates] at hDistinct hApart
  obtain ⟨hFirst, hRest⟩ := List.nodup_cons.mp hDistinct
  refine ⟨by rw [dates_withoutPoint, h.dates, hDates]; rfl, fun e => ?_, by simp, fun e he => ?_,
    fun _ => ⟨hRest, rfl⟩⟩
  · have hBehind : Calendar.lastPositionFrom? e 0 (s.dates.drop (0 + 1)) =
        rest.lastPosition? e := by rw [h.dates, hDates]; rfl
    rw [position?_withoutPoint, hBehind, h.position, Census.position?, Census.position?, hNone,
      hDates, Calendar.lastPosition?_cons]
    cases hMoved : rest.lastPosition? e with
    | some j =>
      have hMem : e ∈ rest := Calendar.mem_of_lastPositionFrom? hMoved
      have hNe : e ≠ first := fun hEq => hFirst (hEq ▸ hMem)
      have hOld : e ∉ c.strays := fun he => hApart e he (List.mem_cons_of_mem first hMem)
      simp [hNe, hOld]
    | none =>
      by_cases hDate : d = e
      · subst hDate
        have hNe : d ≠ first := fun hEq => hApart d hStray (hEq ▸ List.mem_cons_self)
        simp [hNe]
      · by_cases hOld : e ∈ c.strays
        · simp [hDate, hOld, Ne.symm hDate]
        · simp [hDate, hOld, eq_comm]
  · rcases List.mem_cons.mp he with rfl | he
    · exact hFirst
    · exact fun hMem => hApart e (List.mem_of_mem_filter he) (List.mem_cons_of_mem first hMem)

theorem step (h : s.Surveyed c) {action : Action α} {result : Answer × Series α}
    (hStep : s.step action = some result) : result.2.Surveyed (c.act action) := by
  have hBecomes := becomes_of_step hStep
  generalize result.2 = t at hBecomes
  cases hBecomes with
  | added d x => exact h.insert d x
  | extended points => exact h.insertEach points
  | absent hUnknown =>
    rename_i d
    rw [h.position] at hUnknown
    have hStray := Census.not_stray_of_unknown hUnknown
    rw [Census.position?_of_not_stray hStray] at hUnknown
    rw [Census.act, Census.remove, if_neg hStray, Roster.remove, hUnknown]
    exact h
  | removed hPosition hInside =>
    rename_i d i
    rw [h.position] at hPosition
    rw [Census.act, Census.remove]
    split
    · rename_i hStray
      obtain rfl := Option.some.inj ((Census.position?_of_stray hStray).symm.trans hPosition)
      rw [← s.length_dates, h.dates] at hInside
      cases hDates : c.dates with
      | nil =>
        rw [hDates] at hInside
        cases hInside
      | cons first rest => exact h.withoutHead hStray hDates
    · rename_i hStray
      exact h.withoutPoint hStray hPosition
  | outside | unknown => exact h
  | set i x => exact h.overwrite i x
  | setOn _ i x => exact h.overwrite i x
  | sorted => exact h.sort

omit [Hole α] in
theorem closest?_eq_fault_iff (h : s.Surveyed c) (hAscending : s.dates.Pairwise (· ≤ ·))
    {direction : Direction} :
    s.closest? d direction = fault ↔ direction = .previous ∧ s.MissesFirst c.forgotten d := by
  rw [Series.closest?_eq_fault_iff, lt_getLast?_iff hAscending, h.position, MissesFirst]
  -- Where dates ascend, nothing comes before the first of them.
  have hZero : s.dates.head? = some d → s.partitionPoint d = 0 := fun hHead =>
    Nat.eq_zero_of_not_pos fun hPassed => Instant.lt_irrefl d
      ((lt_partitionPoint_iff hAscending (List.head?_eq_getElem? ▸ hHead)).mp hPassed)
  refine and_congr_right fun _ => ?_
  rw [and_congr_right fun hHead => and_iff_left (hZero hHead)]
  refine and_congr_left fun hEnds => ?_
  have hd : d ∈ c.dates := h.dates ▸ List.mem_of_mem_head? hEnds.1
  exact ⟨Census.mem_forgotten_of_unknown hd, h.sound.position?_of_forgotten⟩

omit [Hole α] in
theorem lt_count_of_position? (h : s.Surveyed c) {i : Nat} (hPosition : s.position? d = some i) :
    i < s.count ∨ s.dates = [] ∧ d ∈ c.strays := by
  rw [h.position] at hPosition
  by_cases hStray : d ∈ c.strays
  · obtain rfl := Option.some.inj ((Census.position?_of_stray hStray).symm.trans hPosition)
    rcases Nat.eq_zero_or_pos s.count with hNone | hSome
    · exact .inr ⟨List.length_eq_zero_iff.mp (s.length_dates.trans hNone), hStray⟩
    · exact .inl hSome
  · have hLast := (Census.lastPosition?_of_known hStray hPosition).2
    rw [← h.dates] at hLast
    exact .inl (s.length_dates ▸ Calendar.lt_length_of_lastPosition? hLast)

omit [Hole α] in
/-- Only a series without points leads a lookup out of it, at a stray date. -/
theorem reaches_iff (h : s.Surveyed c) (d : Instant) :
    s.Reaches d ↔ ¬ (s.dates = [] ∧ d ∈ c.strays) := by
  constructor
  · rintro hReaches ⟨hEmpty, hStray⟩
    have hPosition := (h.position d).trans (Census.position?_of_stray hStray)
    have hLt := hReaches 0 hPosition
    rw [← s.length_dates, hEmpty] at hLt
    cases hLt
  · intro hPoints i hPosition
    exact (h.lt_count_of_position? hPosition).resolve_right hPoints

omit [Hole α] in
theorem lt_count_or_stray (h : s.Surveyed c) {direction : Direction} {i : Nat}
    (hFound : s.closest? d direction = .ok (some i)) :
    i < s.count ∨ s.dates = [] ∧ d ∈ c.strays := by
  cases hPosition : s.position? d with
  | none => exact .inl (lt_count_of_closest? hPosition hFound)
  | some j =>
    obtain rfl : j = i := by simpa [closest?_of_position? hPosition] using hFound
    exact h.lt_count_of_position? hPosition

omit [Hole α] in
theorem findsNear_all_iff (h : s.Surveyed c) (hAscending : s.dates.Pairwise (· ≤ ·)) :
    (∀ d direction, s.FindsNear d direction) ↔
      (∀ d, ¬ s.MissesFirst c.forgotten d) ∧ (s.dates = [] → c.strays = []) := by
  constructor
  · intro hFinds
    constructor
    · intro d hMisses
      obtain ⟨found, hFound, -⟩ := hFinds d .previous
      cases hFound.symm.trans ((h.closest?_eq_fault_iff hAscending).mpr ⟨rfl, hMisses⟩)
    · intro hEmpty
      rw [List.eq_nil_iff_forall_not_mem]
      intro d hStray
      have hPosition := (h.position d).trans (Census.position?_of_stray hStray)
      obtain ⟨found, hFound, hInside⟩ := hFinds d .previous
      obtain rfl := Except.ok.inj ((closest?_of_position? hPosition _).symm.trans hFound)
      have hLt := hInside 0 rfl
      rw [← s.length_dates, hEmpty] at hLt
      cases hLt
  · rintro ⟨hKnown, hNone⟩ d direction
    rcases s.closest?_ok_or_fault d direction with ⟨found, hFound⟩ | hFault
    · refine ⟨found, hFound, ?_⟩
      rintro i rfl
      refine (h.lt_count_or_stray hFound).resolve_right ?_
      rintro ⟨hEmpty, hStray⟩
      rw [hNone hEmpty] at hStray
      cases hStray
    · exact absurd ((h.closest?_eq_fault_iff hAscending).mp hFault).2 (hKnown d)

end Surveyed

variable [Hole α]

theorem surveyed_run (h : s.IndexedBut [.sentinel]) (actions : List (Action α))
    {result : List Answer × Series α} (hRun : s.run actions = some result) :
    result.2.Surveyed (Census.after s.dates actions) :=
  runBy_foldl (fun _ _ _ _ hs (_ : True) hStep => hs.step hStep) (surveyed_ofDates h)
    (fun _ _ => trivial) hRun

/-- Where dates ascend, a lookup near a date can fail in two ways only: before a first date that the
index has forgotten, and at a stray date of a series without points. Neither can be as long as the
sentinel stays out of the history and no date is removed while it is visible at two positions. -/
theorem closest?_after_run
    (hMade : (∃ size calendar, ofSize? size calendar = .ok s) ∨
      ∃ calendar values, ofCalendar? calendar values = .ok s)
    (actions : List (Action α)) {answers : List Answer} {t : Series α}
    (hRun : s.run actions = some (answers, t)) (hAscending : t.dates.Pairwise (· ≤ ·)) :
    (∀ d direction, t.closest? d direction = fault ↔
      direction = .previous ∧ t.MissesFirst (Census.after s.dates actions).forgotten d) ∧
    (∀ d direction i, t.closest? d direction = .ok (some i) →
      i < t.count ∨ t.dates = [] ∧ d ∈ (Census.after s.dates actions).strays) ∧
    ((∀ d direction, t.FindsNear d direction) ↔
      (∀ d, ¬ t.MissesFirst (Census.after s.dates actions).forgotten d) ∧
        (t.dates = [] → (Census.after s.dates actions).strays = [])) ∧
    ((∀ d ∈ s.dates, d ≠ .sentinel) →
      (∀ action ∈ actions, ∀ d ∈ action.dates, d ≠ .sentinel) →
      (∀ before d rest, actions = before ++ .remove d :: rest →
        ∀ u, (s.run before).map Prod.snd = some u → u.dates.count d ≤ 1) →
      ∀ d direction, t.FindsNear d direction) := by
  have hIndexed : s.IndexedBut [.sentinel] := by
    obtain ⟨points, rfl⟩ := exists_points_of_made hMade
    exact indexedBut_ofPoints default points
  have hEnd := surveyed_run hIndexed actions hRun
  refine ⟨fun d direction => hEnd.closest?_eq_fault_iff hAscending,
    fun d direction i => hEnd.lt_count_or_stray, hEnd.findsNear_all_iff hAscending,
    fun hDates hActions hOnce => ?_⟩
  have hStart := recalls_made hMade hDates
  have hRecalls := recalls_run hStart hActions hRun
  have hNone : (Roster.after s.dates actions).forgotten = [] := by
    refine (Roster.forgotten_after_iff s.dates actions).mpr ?_ actions [] (by simp)
    intro before d rest hSplit
    obtain ⟨u, hBefore, hRoster⟩ := recalls_before hStart hActions hRun hSplit
    exact hRoster.dates ▸ hOnce before d rest hSplit u hBefore
  have hBare := (hNone ▸ hRecalls.indexed).surveyed (by simp)
  exact (hBare.findsNear_all_iff hAscending).mpr ⟨by simp [MissesFirst], fun _ => rfl⟩

theorem removal_hides_the_first_date :
    let first : Instant := ⟨0, by decide, by decide⟩
    ∃ s t : Series Float, ofCalendar? [first, first, .latest] [1, 2, 3] = .ok s ∧
      s.run [.remove first] = some ([.removed true], t) ∧ t.dates = [first, .latest] ∧
      t.closest? first .previous = fault := by
  intro first
  let s : Series Float := ofPoints default [⟨first, 1⟩, ⟨first, 2⟩, ⟨.latest, 3⟩]
  have hMade : ofCalendar? [first, first, .latest] [1, 2, 3] = .ok s := rfl
  have hPosition : s.position? first = some 1 := by
    rw [indexedBut_ofPoints]
    decide
  have hRun : s.run [.remove first] = some ([.removed true], s.withoutPoint first 1) := by
    rw [run, runBy, step, perform, remove_of_position? (indexedBut_ofPoints _ _) hPosition]
    rfl
  have hDates : (s.withoutPoint first 1).dates = [first, .latest] := by
    rw [dates_withoutPoint]
    rfl
  obtain ⟨hFault, -⟩ := closest?_after_run (.inr ⟨_, _, hMade⟩) [.remove first] hRun
    (hDates ▸ by decide)
  refine ⟨s, _, hMade, hRun, hDates, (hFault first .previous).mpr ⟨rfl, ?_⟩⟩
  rw [MissesFirst, hDates]
  decide

end Series
end Almanac
