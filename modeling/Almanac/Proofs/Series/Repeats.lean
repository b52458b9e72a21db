import Mathlib.Data.List.Induction
import Almanac.Proofs.Series.Step

/-! # The index of repeated dates

The index of a series never names a wrong position. It forgets a date when one of several points at
it is removed, and finds it again when the date is added, the series is sorted, or the point is moved
by another removal.
-/
namespace Almanac
set_option autoImplicit false

/-- The visible dates of a series and those among them that its index has forgotten. -/
structure Roster where
  dates : Calendar
  forgotten : List Instant

namespace Roster
variable (r : Roster)

def add (d : Instant) : Roster :=
  if d ∈ r.dates ∧ d ∉ r.forgotten then r
  else ⟨r.dates ++ [d], r.forgotten.filter (· ≠ d)⟩

def remove (d : Instant) : Roster :=
  match if d ∈ r.forgotten then none else r.dates.lastPosition? d with
  | none => r
  | some i =>
    let rest := r.dates.eraseIdx i
    ⟨rest, (if d ∈ rest then d :: r.forgotten else r.forgotten).filter
      (· ∉ r.dates.drop (i + 1))⟩

def act {α : Type} (r : Roster) : Series.Action α → Roster
  | .add d _ => r.add d
  | .extend points => (points.map Point.date).foldl add r
  | .remove d => r.remove d
  | .setValue .. | .setValueOn .. => r
  | .sort => ⟨r.dates.sorted, []⟩

def after {α : Type} (dates : Calendar) (actions : List (Series.Action α)) : Roster :=
  actions.foldl act ⟨dates, []⟩

section Visible
variable {r : Roster}

theorem visible_add (h : ∀ e ∈ r.forgotten, e ∈ r.dates) (d : Instant) :
    ∀ e ∈ (r.add d).forgotten, e ∈ (r.add d).dates := by
  rw [add]
  split
  · exact h
  · intro e he
    exact List.mem_append_left _ (h e (List.mem_of_mem_filter he))

theorem visible_remove (h : ∀ e ∈ r.forgotten, e ∈ r.dates) (d : Instant) :
    ∀ e ∈ (r.remove d).forgotten, e ∈ (r.remove d).dates := by
  rw [remove]
  split
  · exact h
  rename_i i hi
  split at hi
  · cases hi
  rename_i hForgotten
  have hEntry := ((Calendar.lastPosition?_eq_some_iff _ _ _).mp hi).1
  have hOld : ∀ e ∈ r.forgotten, e ∈ r.dates.eraseIdx i := fun e he =>
    Calendar.mem_eraseIdx_of_ne hEntry (fun hEq => hForgotten (hEq ▸ he)) (h e he)
  intro e he
  have he := List.mem_of_mem_filter he
  split at he
  · rcases List.mem_cons.mp he with rfl | he
    · assumption
    · exact hOld e he
  · exact hOld e he

end Visible

section Exact
variable {r : Roster}

theorem forgotten_foldl_add (h : r.forgotten = []) (dates : Calendar) :
    (dates.foldl add r).forgotten = [] := by
  induction dates generalizing r with
  | nil => exact h
  | cons d dates ih =>
    apply ih
    rw [add]
    split
    · exact h
    · simp [h]

/-- A date is forgotten when it is removed from one of several positions. -/
theorem forgotten_remove (h : r.forgotten = []) (d : Instant) :
    (r.remove d).forgotten = [] ↔ r.dates.count d ≤ 1 := by
  rw [remove, h, if_neg List.not_mem_nil]
  cases hLast : r.dates.lastPosition? d with
  | none =>
    have hNot := (Calendar.lastPosition?_eq_none_iff _ _).mp hLast
    simp [h, List.count_eq_zero.mpr hNot]
  | some i =>
    have hLater := ((Calendar.lastPosition?_eq_some_iff _ _ _).mp hLast).2
    have hCount : r.dates.count d = (r.dates.take i).count d + 1 := by
      conv_lhs => rw [Calendar.eq_take_cons_drop hLast]
      rw [List.count_append, List.count_cons_self, List.count_eq_zero.mpr hLater]
    have hMem : d ∈ r.dates.eraseIdx i ↔ 0 < (r.dates.take i).count d := by
      rw [List.eraseIdx_eq_take_drop_succ, List.mem_append, or_iff_left hLater, List.count_pos_iff]
    by_cases hErased : d ∈ r.dates.eraseIdx i
    · have hPositive := hMem.mp hErased
      simp only [hErased, if_true, List.filter_cons, decide_eq_true hLater]
      simp only [reduceCtorEq, false_iff]
      omega
    · have hZero := hMem.not.mp hErased
      simp only [hErased, if_false, List.filter_nil, true_iff]
      omega

theorem remove_of_nodup (hDistinct : r.dates.Nodup) (hNone : r.forgotten = []) {d : Instant} {i : Nat}
    (hi : r.dates.lastPosition? d = some i) : r.remove d = ⟨r.dates.eraseIdx i, []⟩ := by
  have hForgotten := (forgotten_remove hNone d).mpr (List.nodup_iff_count_le_one.mp hDistinct d)
  rw [remove, hNone, if_neg List.not_mem_nil, hi] at hForgotten ⊢
  exact congrArg (Roster.mk _) hForgotten

theorem forgotten_act {α : Type} (h : r.forgotten = []) (action : Series.Action α) :
    (r.act action).forgotten = [] ↔ ∀ d, action = .remove d → r.dates.count d ≤ 1 := by
  cases action with
  | remove d => simpa [act] using forgotten_remove h d
  | add d x => simpa [act] using forgotten_foldl_add h [d]
  | extend points => simpa [act] using forgotten_foldl_add h (points.map Point.date)
  | setValue i x => simpa [act] using h
  | setValueOn d x => simpa [act] using h
  | sort => simp [act]

theorem after_append {α : Type} (dates : Calendar) (before rest : List (Series.Action α)) :
    after dates (before ++ rest) = rest.foldl act (after dates before) := List.foldl_append

/-- Nothing is ever forgotten in a history exactly if it removes no date that is visible twice. -/
theorem forgotten_after_iff {α : Type} (dates : Calendar) (actions : List (Series.Action α)) :
    (∀ before rest, actions = before ++ rest → (after dates before).forgotten = []) ↔
      ∀ before d rest, actions = before ++ .remove d :: rest →
        (after dates before).dates.count d ≤ 1 := by
  constructor
  · intro hKnown before d rest hActions
    have hBefore := hKnown before (.remove d :: rest) hActions
    have hNext := hKnown (before ++ [.remove d]) rest (by simp [hActions])
    rw [after_append] at hNext
    exact (forgotten_act hBefore (.remove d : Series.Action α)).mp hNext d rfl
  · intro hOnce before
    induction before using List.reverseRecOn with
    | nil => exact fun _ _ => rfl
    | append_singleton before action ih =>
      intro rest hActions
      have hBefore := ih (action :: rest) (by simpa using hActions)
      rw [after_append]
      refine (forgotten_act hBefore action).mpr fun d hRemove => ?_
      exact hOnce before d rest (by simpa [hRemove] using hActions)

end Exact
end Roster

namespace Series
variable {α : Type} {s : Series α} {r : Roster}

/-- A lookup finds a date exactly where it is visible, and then at its last position. -/
def FindsLast (s : Series α) (d : Instant) : Prop :=
  (s.contains d = true ↔ d ∈ s.dates) ∧
    ∀ i, s.position? d = some i → s.dates[i]? = some d ∧ d ∉ s.dates.drop (i + 1)

structure Recalls (s : Series α) (r : Roster) : Prop where
  dates : s.dates = r.dates
  indexed : s.IndexedBut r.forgotten
  visible : ∀ d ∈ r.forgotten, d ∈ r.dates
  real : .sentinel ∉ r.dates

namespace Recalls

theorem findsLast_iff (h : s.Recalls r) (d : Instant) : s.FindsLast d ↔ d ∉ r.forgotten := by
  have hSound : ∀ i, s.position? d = some i → s.dates[i]? = some d ∧ d ∉ s.dates.drop (i + 1) :=
    fun i hi => (Calendar.lastPosition?_eq_some_iff _ _ _).mp (h.indexed.eq_lastPosition? hi)
  rw [FindsLast, and_iff_left hSound, h.indexed.contains_iff, and_iff_left_iff_imp, h.dates]
  constructor
  · intro hKnown hForgotten
    exact hKnown (h.visible d hForgotten) hForgotten
  · intro hNot _
    exact hNot

theorem findsLast_all_iff (h : s.Recalls r) : (∀ d, s.FindsLast d) ↔ r.forgotten = [] := by
  rw [List.eq_nil_iff_forall_not_mem]
  exact forall_congr' h.findsLast_iff

theorem not_isUninitialized (h : s.Recalls r) : s.isUninitialized = false := by
  rw [Bool.eq_false_iff, ne_eq, isUninitialized_iff, h.dates]
  intro hLone
  exact h.real (by simp [hLone])

theorem overwrite (h : s.Recalls r) (i : Nat) (x : α) : (s.overwrite i x).Recalls r :=
  ⟨by rw [dates_overwrite, h.dates], h.indexed.overwrite x, h.visible, h.real⟩

variable [Hole α]

theorem insert (h : s.Recalls r) {d : Instant} (hd : d ≠ .sentinel) (x : α) :
    (s.insert d x).Recalls (r.add d) := by
  have hContains := h.indexed.contains_iff d
  rw [h.dates, contains_eq_isSome] at hContains
  cases hPosition : s.position? d with
  | some i =>
    have hKnown : d ∈ r.dates ∧ d ∉ r.forgotten := hContains.mp (by simp [hPosition])
    rw [insert_of_position? hPosition, Roster.add, if_pos hKnown]
    exact h.overwrite i x
  | none =>
    have hUnknown : ¬(d ∈ r.dates ∧ d ∉ r.forgotten) := by
      rw [← hContains, hPosition]
      simp
    have hVisible := Roster.visible_add h.visible d
    rw [Roster.add, if_neg hUnknown] at hVisible
    rw [insert_of_fresh hPosition h.not_isUninitialized, Roster.add, if_neg hUnknown]
    refine ⟨by rw [dates_append, h.dates], h.indexed.append d x, hVisible, ?_⟩
    simp [h.real, hd.symm]

theorem withoutPoint (h : s.Recalls r) {d : Instant} {i : Nat} (hPosition : s.position? d = some i) :
    (s.withoutPoint d i).Recalls (r.remove d) := by
  have hKnown := hPosition
  rw [h.indexed d, h.dates] at hKnown
  have hVisible := Roster.visible_remove h.visible d
  rw [Roster.remove, hKnown] at hVisible ⊢
  refine ⟨by rw [dates_withoutPoint, h.dates], h.dates ▸ h.indexed.withoutPoint hPosition, hVisible,
    fun hMem => ?_⟩
  exact h.real (List.mem_of_mem_eraseIdx hMem)

theorem insertEach (h : s.Recalls r) (points : List (Point α))
    (hPoints : ∀ p ∈ points, p.date ≠ .sentinel) :
    (s.insertEach points).Recalls ((points.map Point.date).foldl Roster.add r) := by
  induction points generalizing s r with
  | nil => exact h
  | cons p points ih =>
    exact ih (h.insert (hPoints p List.mem_cons_self) p.value) fun q hq =>
      hPoints q (List.mem_cons_of_mem _ hq)

omit [Hole α] in
theorem sort (h : s.Recalls r) : s.sort.Recalls ⟨r.dates.sorted, []⟩ := by
  have hDates : s.sort.dates = r.dates.sorted := by rw [dates_sort, h.dates]
  have hReal : .sentinel ∉ r.dates.sorted := by
    rw [Calendar.sorted, List.mem_mergeSort]
    exact h.real
  exact ⟨hDates, (indexedBut_sort s).of_real (hDates ▸ hReal), by simp, hReal⟩

theorem step (h : s.Recalls r) {action : Action α} (hDates : ∀ d ∈ action.dates, d ≠ .sentinel)
    {result : Answer × Series α} (hStep : s.step action = some result) :
    result.2.Recalls (r.act action) := by
  obtain ⟨answer, t⟩ := result
  cases becomes_of_step hStep with
  | added d x => exact h.insert (hDates d List.mem_cons_self) x
  | extended points =>
    exact h.insertEach points fun p hp => hDates p.date (List.mem_map_of_mem hp)
  | absent hUnknown =>
    rw [h.indexed, h.dates] at hUnknown
    rw [Roster.act, Roster.remove, hUnknown]
    exact h
  | removed hPosition _ => exact h.withoutPoint hPosition
  | outside | unknown => exact h
  | set i x => exact h.overwrite i x
  | setOn _ i x => exact h.overwrite i x
  | sorted => exact h.sort

end Recalls

variable [Hole α]

theorem recalls_ofPoints (points : List (Point α)) (hReal : .sentinel ∉ points.map Point.date) :
    (ofPoints default points).Recalls ⟨points.map Point.date, []⟩ := by
  have hDates := dates_ofPoints (default : Options) points
  exact ⟨hDates, (indexedBut_ofPoints default points).of_real (hDates ▸ hReal), by simp, hReal⟩

theorem exists_points_of_made {s : Series α}
    (hMade : (∃ size calendar, ofSize? size calendar = .ok s) ∨
      ∃ calendar values, ofCalendar? calendar values = .ok s) :
    ∃ points, ofPoints default points = s := by
  rcases hMade with ⟨size, calendar, h⟩ | ⟨calendar, values, h⟩
  · rw [ofSize?] at h
    split at h
    · cases h
    · exact ⟨_, Except.ok.inj h⟩
  · rw [ofCalendar?] at h
    split at h
    · cases h
    · exact ⟨_, Except.ok.inj h⟩

theorem recalls_made {s : Series α}
    (hMade : (∃ size calendar, ofSize? size calendar = .ok s) ∨
      ∃ calendar values, ofCalendar? calendar values = .ok s)
    (hDates : ∀ d ∈ s.dates, d ≠ .sentinel) : s.Recalls ⟨s.dates, []⟩ := by
  obtain ⟨points, rfl⟩ := exists_points_of_made hMade
  rw [dates_ofPoints] at hDates ⊢
  exact recalls_ofPoints points fun hMem => hDates _ hMem rfl

theorem recalls_run {s : Series α} (h : s.Recalls ⟨s.dates, []⟩) {actions : List (Action α)}
    (hActions : ∀ action ∈ actions, ∀ d ∈ action.dates, d ≠ .sentinel)
    {result : List Answer × Series α} (hRun : s.run actions = some result) :
    result.2.Recalls (Roster.after s.dates actions) :=
  runBy_foldl (fun _ _ _ _ hs hDates hStep => hs.step hDates hStep) h hActions hRun

theorem recalls_before {s : Series α} (h : s.Recalls ⟨s.dates, []⟩) {actions : List (Action α)}
    (hActions : ∀ action ∈ actions, ∀ d ∈ action.dates, d ≠ .sentinel)
    {result : List Answer × Series α} (hRun : s.run actions = some result)
    {before rest : List (Action α)} (hSplit : actions = before ++ rest) :
    ∃ u, (s.run before).map Prod.snd = some u ∧ u.Recalls (Roster.after s.dates before) := by
  rw [hSplit, run, runBy_append] at hRun
  obtain ⟨q, hFirst, -⟩ := Option.bind_eq_some_iff.mp hRun
  refine ⟨q.2, congrArg (Option.map Prod.snd) hFirst, recalls_run h (fun action hMem => ?_) hFirst⟩
  exact hActions action (hSplit ▸ List.mem_append_left rest hMem)

/-- Every entry of the index is the last position of its date. What the index misses are the
forgotten dates of the roster, and a history forgets none exactly if it removes no date that is
visible at two positions. -/
theorem findsLast_after_run {s : Series α}
    (hMade : (∃ size calendar, ofSize? size calendar = .ok s) ∨
      ∃ calendar values, ofCalendar? calendar values = .ok s)
    (hDates : ∀ d ∈ s.dates, d ≠ .sentinel) (actions : List (Action α))
    (hActions : ∀ action ∈ actions, ∀ d ∈ action.dates, d ≠ .sentinel)
    {answers : List Answer} {t : Series α} (hRun : s.run actions = some (answers, t)) :
    (∀ d i, t.position? d = some i → t.dates[i]? = some d ∧ d ∉ t.dates.drop (i + 1)) ∧
    (∀ d, t.FindsLast d ↔ d ∉ (Roster.after s.dates actions).forgotten) ∧
    ((∀ before rest, actions = before ++ rest → ∀ u, (s.run before).map Prod.snd = some u →
        ∀ d, u.FindsLast d) ↔
      ∀ before d rest, actions = before ++ .remove d :: rest →
        ∀ u, (s.run before).map Prod.snd = some u → u.dates.count d ≤ 1) := by
  have hStart := recalls_made hMade hDates
  have hEnd := recalls_run hStart hActions hRun
  refine ⟨?_, hEnd.findsLast_iff, ?_⟩
  · intro d i hi
    exact (Calendar.lastPosition?_eq_some_iff _ _ _).mp (hEnd.indexed.eq_lastPosition? hi)
  · refine Iff.trans ?_ ((Roster.forgotten_after_iff s.dates actions).trans ?_)
    · refine forall₃_congr fun before rest hSplit => ?_
      obtain ⟨u, hBefore, hRecalls⟩ := recalls_before hStart hActions hRun hSplit
      rw [← hRecalls.findsLast_all_iff]
      simp [hBefore]
    · refine forall₄_congr fun before d rest hSplit => ?_
      obtain ⟨u, hBefore, hRecalls⟩ := recalls_before hStart hActions hRun hSplit
      simp [hBefore, hRecalls.dates]

theorem removal_forgets_a_repeated_date : ∃ s t : Series Float,
    ofCalendar? [.latest, .latest] [1, 2] = .ok s ∧
      s.run [.remove .latest] = some ([.removed true], t) ∧ .latest ∈ t.dates ∧
      t.contains .latest = false := by
  let s : Series Float := ofPoints default [⟨.latest, 1⟩, ⟨.latest, 2⟩]
  have hMade : ofCalendar? [.latest, .latest] [1, 2] = .ok s := rfl
  have hPosition : s.position? .latest = some 1 := by
    rw [indexedBut_ofPoints]
    decide
  have hRun : s.run [.remove .latest] = some ([.removed true], s.withoutPoint .latest 1) := by
    rw [run, runBy, step, perform, remove_of_position? (indexedBut_ofPoints _ _) hPosition]
    rfl
  have hMem : Instant.latest ∈ (s.withoutPoint .latest 1).dates := by
    rw [dates_withoutPoint]
    decide
  obtain ⟨hLast, hFinds, -⟩ := findsLast_after_run (.inr ⟨_, _, hMade⟩) (by decide)
    [.remove .latest] (by decide) hRun
  refine ⟨s, _, hMade, hRun, hMem, Bool.eq_false_iff.mpr fun hContains => ?_⟩
  have hFound := (hFinds .latest).mp ⟨⟨fun _ => hMem, fun _ => hContains⟩, hLast .latest⟩
  exact hFound (by decide)

end Series
end Almanac
