import Almanac.Proofs.Calendar
import Almanac.Proofs.Double
import Almanac.Proofs.Series.Lookup
import Almanac.Series.Synchronization

/-! # Synchronized series

A synchronized series takes the values of a lookup on a calendar that is settled first. For a group
this calendar comes from the dates that all members share, and the order and the repeats of the
others do not count. A series that is put on a calendar answers there as the series it comes from,
so that a second calendar with fewer dates may be reached in two stages or at once.
-/
namespace Almanac.Series
set_option autoImplicit false

variable {α : Type} {s r t : Series α} {others others' group : List (Series α)}

/-- All members of a group observe a date. -/
def Shared (group : List (Series α)) (d : Instant) : Prop := ∀ t ∈ group, d ∈ t.dates

/-- The first date that a group shares. -/
def FirstShared (group : List (Series α)) (first : Instant) : Prop :=
  Shared group first ∧ ∀ d, Shared group d → first ≤ d

/-- The dates that a group shares, each once, as they first occur in a member, with the values of
this member. -/
structure SharedPart [Hole α] (s : Series α) (group : List (Series α)) (r : Series α) : Prop where
  dates : ∀ d, d ∈ r.dates ↔ Shared group d
  once : r.dates.Nodup
  inOrder : r.dates.Pairwise fun d e => s.dates.idxOf d < s.dates.idxOf e
  values : ∀ p ∈ r.points, s.valueOn p.date = .ok p.value

/-- The ascending dates of all members from the first shared one on, with values that are held at
their dates. -/
structure Spanned (holds : Instant → α → Prop) (group : List (Series α)) (r : Series α) :
    Prop where
  dates : (r.points = [] ∧ ∀ d, ¬ Shared group d) ∨
    ∃ first, FirstShared group first ∧ ∀ d, d ∈ r.dates ↔ first ≤ d ∧ ∃ t ∈ group, d ∈ t.dates
  ascending : r.dates.Pairwise (· < ·)
  values : ∀ p ∈ r.points, holds p.date p.value

/-- What a series becomes in a group: an exact lookup leaves holes, and the latest value is the one
at the last position up to the date. -/
def Synchronized [Hole α] (s : Series α) (group : List (Series α)) :
    SyncMethod → Series α → Prop
  | .union => s.SharedPart group
  | .exact => Spanned (fun d x => s.valueOn d = .ok x) group
  | .latest => Spanned (fun d x => ∃ i, s.LastUpTo d i ∧ s.value? i = some x) group

/-- A series that a lookup has filled on a calendar, with a new index. -/
structure Sampled (dates : Calendar) (look : Instant → Checked α) (r : Series α) : Prop where
  dates : r.dates = dates
  values : ∀ p ∈ r.points, look p.date = .ok p.value
  indexed : r.IndexedBut [.sentinel]

section Lookup
variable [Hole α]

def lookBy (s : Series α) : SyncMethod → Instant → Checked α
  | .latest => (s.valueNear · .previous)
  | .exact | .union => s.valueOn

/-- What the lookup of a method asks of a series at a date. -/
def ReachesBy (s : Series α) : SyncMethod → Instant → Prop
  | .latest => s.ReachesNear
  | .exact | .union => s.Reaches

theorem lookBy_answers_iff {method : SyncMethod} {d : Instant} :
    (∃ x, s.lookBy method d = .ok x) ↔ s.ReachesBy method d := by
  cases method with
  | latest => exact valueNear_answers_iff
  | exact => exact valueOn_answers_iff
  | union => exact valueOn_answers_iff

omit [Hole α] in
theorem IndexedBut.reachesBy (h : s.IndexedBut []) (method : SyncMethod) (d : Instant) :
    s.ReachesBy method d := by
  cases method with
  | latest => exact h.reachesNear d
  | exact => exact h.reaches d
  | union => exact h.reaches d

theorem exists_lookBy (h : s.IndexedBut []) (method : SyncMethod) (d : Instant) :
    ∃ x, s.lookBy method d = .ok x := lookBy_answers_iff.mpr (h.reachesBy method d)

theorem lookBy_of_mem (h : s.IndexedBut []) {d : Instant} (hd : d ∈ s.dates)
    (method : SyncMethod) : s.lookBy method d = s.valueOn d := by
  cases method with
  | latest => exact valueNear_of_mem h hd .previous
  | exact => rfl
  | union => rfl

/-- Where dates ascend, the latest value is the one at the last position up to a date. -/
theorem lastUpTo_of_lookBy_latest (h : s.IndexedBut []) (hAscending : s.dates.Pairwise (· ≤ ·))
    {d e : Instant} (he : e ∈ s.dates) (hLe : e ≤ d) {x : α} (hx : s.lookBy .latest d = .ok x) :
    ∃ i, s.LastUpTo d i ∧ s.value? i = some x := by
  obtain ⟨i, hClosest, hLast⟩ := closest?_eq_lastUpTo h hAscending he hLe
  refine ⟨i, hLast, ?_⟩
  change s.valueNear d .previous = .ok x at hx
  rw [valueNear, hClosest] at hx
  change present (s.value? i) = .ok x at hx
  cases hValue : s.value? i with
  | none =>
    rw [hValue] at hx
    cases hx
  | some y =>
    rw [hValue] at hx
    cases hx
    rfl

end Lookup

section Sampled
variable [Hole α] {dates : Calendar} {look : Instant → Checked α} {d : Instant}

theorem derived_sample_ok (s : Series α) (dates : Calendar)
    (hLook : ∀ d ∈ dates, ∃ x, look d = .ok x) :
    ∃ r, (do return s.derived (← sample dates look)) = Except.ok r ∧ Sampled dates look r := by
  obtain ⟨points, hPoints, hDates, hValues⟩ := sample_ok hLook
  refine ⟨s.derived points, by rw [hPoints]; rfl, ?_, ?_, indexedBut_ofPoints _ _⟩
  · rw [derived, dates_ofPoints, hDates]
  · rw [derived, points_ofPoints]
    exact hValues

omit [Hole α] in
theorem Sampled.exists_value? (h : Sampled dates look r) {i : Nat} (hd : dates[i]? = some d) :
    ∃ x, look d = .ok x ∧ r.value? i = some x := by
  rw [← h.dates, Series.dates, List.getElem?_map] at hd
  obtain ⟨p, hp, rfl⟩ := Option.map_eq_some_iff.mp hd
  exact ⟨p.value, h.values p (List.mem_of_getElem? hp), by rw [value?, hp]; rfl⟩

/-- A sampled series answers by any method as the lookup that has filled it. -/
theorem Sampled.lookBy (h : Sampled dates look r) (hReal : .sentinel ∉ dates) (hd : d ∈ dates)
    (method : SyncMethod) : r.lookBy method d = look d := by
  have hIndexed := h.indexed.of_real (h.dates ▸ hReal)
  obtain ⟨p, hp, rfl, hValue⟩ := valueOn_of_mem hIndexed (h.dates ▸ hd)
  rw [lookBy_of_mem hIndexed (List.mem_map_of_mem hp), hValue, h.values p hp]

theorem exists_indexed (points : List (Point α)) (hReal : .sentinel ∉ points.map Point.date) :
    ∃ s : Series α, s.dates = points.map Point.date ∧ s.IndexedBut [] := by
  have hDates := dates_ofPoints default points
  exact ⟨_, hDates, (indexedBut_ofPoints _ _).of_real (hDates ▸ hReal)⟩

end Sampled

section Group

theorem observedDates_eq (h : s.IndexedBut []) : s.observedDates = s.dates :=
  List.filter_eq_self.mpr fun d hd => (h.contains_iff d).mpr ⟨hd, List.not_mem_nil⟩

theorem mem_commonDates (h : ∀ t ∈ s :: others, t.IndexedBut []) (d : Instant) :
    d ∈ s.commonDates others ↔ Shared (s :: others) d := by
  obtain ⟨hSelf, hOthers⟩ := List.forall_mem_cons.mp h
  rw [commonDates, List.mem_eraseDups, List.mem_filter, observedDates_eq hSelf, List.all_eq_true,
    Shared, List.forall_mem_cons]
  refine and_congr_right fun _ => forall₂_congr fun t ht => ?_
  simp [(hOthers t ht).contains_iff d]

theorem pairwise_commonDates (h : s.IndexedBut []) (others : List (Series α)) :
    (s.commonDates others).Pairwise fun d e => s.dates.idxOf d < s.dates.idxOf e := by
  rw [commonDates, observedDates_eq h, Calendar.eraseDups_filter]
  exact (Calendar.pairwise_idxOf_eraseDups s.dates).filter _

theorem mem_groupCalendar (h : ∀ t ∈ group, t.IndexedBut []) (first d : Instant) :
    d ∈ groupCalendar first group ↔ first ≤ d ∧ ∃ t ∈ group, d ∈ t.dates := by
  rw [groupCalendar, Calendar.mem_sorted_eraseReps, List.mem_filter, List.mem_flatMap,
    decide_eq_true_eq, and_comm]
  refine and_congr_right fun _ => exists_congr fun t => and_congr_right fun ht => ?_
  rw [observedDates_eq (h t ht)]

theorem firstShared_of_earliest? (h : ∀ t ∈ s :: others, t.IndexedBut []) {first : Instant}
    (hFirst : (s.commonDates others).earliest? = some first) :
    FirstShared (s :: others) first := by
  obtain ⟨hMem, hLeast⟩ := Calendar.least_of_earliest? hFirst
  exact ⟨(mem_commonDates h first).mp hMem, fun d hd => hLeast d ((mem_commonDates h d).mpr hd)⟩

theorem not_shared_of_earliest? (h : ∀ t ∈ s :: others, t.IndexedBut [])
    (hNone : (s.commonDates others).earliest? = none) (d : Instant) :
    ¬ Shared (s :: others) d := by
  rw [← mem_commonDates h d, (Calendar.earliest?_eq_none_iff _).mp hNone]
  exact List.not_mem_nil

variable (hSame : ∀ t, t ∈ s :: others' ↔ t ∈ s :: others)
include hSame

theorem commonDates_congr : s.commonDates others' = s.commonDates others := by
  rw [commonDates, commonDates]
  congr 1
  refine List.filter_congr fun d hd => ?_
  have hSelf : s.contains d = true := (List.mem_filter.mp hd).2
  -- The first series observes its own dates, so that it may count among the others or not.
  have hCons : ∀ rest : List (Series α),
      rest.all (·.contains d) = true ↔ ∀ t ∈ s :: rest, t.contains d = true := by
    intro rest
    rw [List.all_eq_true, List.forall_mem_cons, and_iff_right hSelf]
  rw [Bool.eq_iff_iff, hCons, hCons]
  exact forall_congr' fun t => imp_congr_left (hSame t)

theorem groupCalendar_congr (first : Instant) :
    groupCalendar first (s :: others') = groupCalendar first (s :: others) := by
  refine Calendar.sorted_eraseReps_congr fun d => ?_
  simp only [List.mem_filter, List.mem_flatMap, hSame]

theorem synchronizeMany_congr [Hole α] (method : SyncMethod) :
    s.synchronizeMany others' method = s.synchronizeMany others method := by
  simp only [synchronizeMany, commonDates_congr hSame, groupCalendar_congr hSame]

end Group

section Many
variable [Hole α]

theorem synchronizeMany_union (h : ∀ t ∈ s :: others, t.IndexedBut []) :
    ∃ r, s.synchronizeMany others .union = .ok r ∧ s.SharedPart (s :: others) r := by
  have hSelf := h s List.mem_cons_self
  obtain ⟨r, hr, hSampled⟩ := derived_sample_ok s (s.commonDates others)
    fun d _ => exists_valueOn hSelf d
  have hOrder := hSampled.dates ▸ pairwise_commonDates hSelf others
  refine ⟨r, hr, fun d => ?_, ?_, hOrder, hSampled.values⟩
  · rw [hSampled.dates, mem_commonDates h]
  · rw [hSampled.dates]
    exact Calendar.nodup_eraseDups _

/-- What a lookup gives on the dates of a group from the first shared one on. -/
def span (s : Series α) (others : List (Series α)) (look : Instant → Checked α) :
    Checked (Series α) :=
  match (s.commonDates others).earliest? with
  | none => .ok (empty s.options)
  | some first => do return s.derived (← sample (groupCalendar first (s :: others)) look)

theorem synchronizeMany_eq_span (s : Series α) (others : List (Series α)) {method : SyncMethod}
    (hMethod : method ≠ .union) :
    s.synchronizeMany others method = s.span others (s.lookBy method) := by
  simp only [synchronizeMany, span]
  cases method with
  | union => exact absurd rfl hMethod
  | exact => cases (s.commonDates others).earliest? <;> rfl
  | latest => cases (s.commonDates others).earliest? <;> rfl

theorem span_ok (h : ∀ t ∈ s :: others, t.IndexedBut []) {look : Instant → Checked α}
    (hLook : ∀ d, ∃ x, look d = .ok x) {holds : Instant → α → Prop}
    (hHolds : ∀ first, FirstShared (s :: others) first →
      ∀ d x, first ≤ d → look d = .ok x → holds d x) :
    ∃ r, s.span others look = .ok r ∧ Spanned holds (s :: others) r := by
  cases hEarliest : (s.commonDates others).earliest? with
  | none =>
    have hNone := not_shared_of_earliest? h hEarliest
    refine ⟨empty s.options, ?_, .inl ⟨rfl, hNone⟩, List.Pairwise.nil, by simp [empty]⟩
    simp only [span, hEarliest]
  | some first =>
    have hFirst := firstShared_of_earliest? h hEarliest
    obtain ⟨r, hr, hSampled⟩ := derived_sample_ok s (groupCalendar first (s :: others))
      fun d _ => hLook d
    have hMem : ∀ d, d ∈ r.dates ↔ first ≤ d ∧ ∃ t ∈ s :: others, d ∈ t.dates := by
      rw [hSampled.dates]
      exact mem_groupCalendar h first
    refine ⟨r, ?_, .inr ⟨first, hFirst, hMem⟩, ?_, fun p hp => ?_⟩
    · simp only [span, hEarliest]
      exact hr
    · rw [hSampled.dates]
      exact Calendar.pairwise_sorted_eraseReps _
    · have hDate := (hMem p.date).mp (List.mem_map_of_mem hp)
      exact hHolds first hFirst p.date p.value hDate.1 (hSampled.values p hp)

/-- In a group of indexed series a series becomes what its method says. Only the members count: the
others may come in any order, repeated, and with the series itself among them. -/
theorem synchronizeMany_meets_group (h : ∀ t ∈ s :: others, t.IndexedBut [])
    (method : SyncMethod) (hAscending : method = .latest → s.dates.Pairwise (· ≤ ·)) :
    ∃ r, s.synchronizeMany others method = .ok r ∧ s.Synchronized (s :: others) method r ∧
      ∀ others', (∀ t, t ∈ s :: others' ↔ t ∈ s :: others) →
        s.synchronizeMany others' method = .ok r := by
  have hSelf := h s List.mem_cons_self
  have hMade : ∃ r, s.synchronizeMany others method = .ok r ∧
      s.Synchronized (s :: others) method r := by
    cases method with
    | union => exact synchronizeMany_union h
    | exact =>
      rw [synchronizeMany_eq_span s others (by decide)]
      exact span_ok h (exists_lookBy hSelf .exact) fun _ _ _ _ _ hx => hx
    | latest =>
      rw [synchronizeMany_eq_span s others (by decide)]
      refine span_ok h (exists_lookBy hSelf .latest) fun first hFirst d x hLe hx => ?_
      have hMem : first ∈ s.dates := hFirst.1 s List.mem_cons_self
      exact lastUpTo_of_lookBy_latest hSelf (hAscending rfl) hMem hLe hx
  obtain ⟨r, hr, hMeets⟩ := hMade
  refine ⟨r, hr, hMeets, fun others' hSame => ?_⟩
  rw [synchronizeMany_congr hSame, hr]

/-- The latest value fills the date that only the other series observes. -/
theorem latest_fills_between_own_dates : ∃ (first between : Instant) (s t r : Series Float),
    s.dates = [first, .latest] ∧ t.dates = [first, between] ∧
      s.synchronizeMany [t] .latest = .ok r ∧ s.synchronizeMany [t, s, t] .latest = .ok r ∧
      between ∈ r.dates := by
  let first : Instant := ⟨0, by decide, by decide⟩
  let between : Instant := ⟨1, by decide, by decide⟩
  obtain ⟨s, hs, hsIndexed⟩ := exists_indexed [⟨first, (10 : Float)⟩, ⟨.latest, 20⟩] (by decide)
  obtain ⟨t, ht, htIndexed⟩ := exists_indexed [⟨first, (5 : Float)⟩, ⟨between, 6⟩] (by decide)
  have hIndexed : ∀ u ∈ [s, t], u.IndexedBut [] := by simp [hsIndexed, htIndexed]
  have hAscending : s.dates.Pairwise (· ≤ ·) := by
    rw [hs]
    decide
  obtain ⟨r, hr, hSpanned, hMembers⟩ :=
    synchronizeMany_meets_group hIndexed .latest fun _ => hAscending
  have hShared : Shared [s, t] first := by simp [Shared, hs, ht]
  have hBetween : between ∈ r.dates := by
    obtain ⟨-, hNone⟩ | ⟨start, hStart, hDates⟩ := hSpanned.dates
    · exact absurd hShared (hNone first)
    · refine (hDates between).mpr ⟨?_, t, by simp, by simp [ht]⟩
      exact Instant.le_trans (hStart.2 first hShared) (by decide)
  refine ⟨first, between, s, t, r, hs, ht, hr, hMembers _ fun u => ?_, hBetween⟩
  simp only [List.mem_cons, List.not_mem_nil]
  tauto

end Many

section Stages

/-- The dates that a method puts another series on. -/
def calendarBy (s other : Series α) : SyncMethod → Calendar
  | .union => s.commonDates [other]
  | .exact | .latest => s.dates

theorem mem_calendarBy (hs : s.IndexedBut []) (ht : t.IndexedBut []) (method : SyncMethod)
    (d : Instant) :
    d ∈ s.calendarBy t method ↔ d ∈ s.dates ∧ (method = .union → d ∈ t.dates) := by
  cases method with
  | union =>
    rw [calendarBy, mem_commonDates (by simp [hs, ht])]
    simp [Shared]
  | exact => simp [calendarBy]
  | latest => simp [calendarBy]

variable {A B : Series α}

/-- A smaller calendar meets a series where it meets the part of it on a greater calendar. -/
theorem calendarBy_through (hs : s.IndexedBut []) (hr : r.IndexedBut []) {method : SyncMethod}
    (hDates : ∀ d, d ∈ r.dates ↔ d ∈ A.dates ∧ (method = .union → d ∈ s.dates))
    (hWithin : ∀ d ∈ B.dates, d ∈ A.dates) : B.calendarBy r method = B.calendarBy s method := by
  cases method with
  | union =>
    rw [calendarBy, calendarBy, commonDates, commonDates]
    congr 1
    refine List.filter_congr fun d hd => ?_
    have hMem := hWithin d (List.mem_filter.mp hd).1
    simp [Bool.eq_iff_iff, hr.contains_iff, hs.contains_iff, hDates, hMem]
  | exact => rfl
  | latest => rfl

variable [Hole α]

theorem synchronize_eq (s other : Series α) (method : SyncMethod) :
    s.synchronize other method =
      do return s.derived (← sample (s.calendarBy other method) (other.lookBy method)) := by
  cases method <;> rfl

theorem synchronize_ok (A : Series α) (hs : s.IndexedBut []) (method : SyncMethod) :
    ∃ r, A.synchronize s method = .ok r ∧
      Sampled (A.calendarBy s method) (s.lookBy method) r := by
  rw [synchronize_eq]
  exact derived_sample_ok A _ fun d _ => exists_lookBy hs method d

/-- A series that is put on a greater calendar becomes on the smaller one what it becomes there at
once. -/
theorem synchronize_through (hA : A.IndexedBut []) (hB : B.IndexedBut []) (hs : s.IndexedBut [])
    (hReal : .sentinel ∉ A.dates) (hWithin : ∀ d ∈ B.dates, d ∈ A.dates) {method : SyncMethod}
    (hr : A.synchronize s method = .ok r) :
    B.synchronize r method = B.synchronize s method := by
  obtain ⟨r', hr', h⟩ := synchronize_ok A hs method
  obtain rfl : r = r' := Except.ok.inj (hr.symm.trans hr')
  have hDates := mem_calendarBy hA hs method
  have hRealHere : .sentinel ∉ A.calendarBy s method := fun hd => hReal ((hDates _).mp hd).1
  -- The part on the greater calendar has an index of its own, which holds all of its dates.
  have hIndexed := h.indexed.of_real (h.dates ▸ hRealHere)
  have hCalendar : B.calendarBy r method = B.calendarBy s method :=
    calendarBy_through hs hIndexed (by rw [h.dates]; exact hDates) hWithin
  have hLook : ∀ d ∈ B.calendarBy s method, r.lookBy method d = s.lookBy method d := by
    intro d hd
    obtain ⟨hOwn, hOther⟩ := (mem_calendarBy hB hs method d).mp hd
    exact h.lookBy hRealHere ((hDates d).mpr ⟨hWithin d hOwn, hOther⟩) method
  rw [synchronize_eq, synchronize_eq, hCalendar, sample_congr hLook]

/-- Equal values, or two holes. -/
def agree (x y : Float) : Bool := x == y || (isHole x && isHole y)

theorem agree_self (x : Float) : agree x x = true := by
  rw [agree]
  cases hHole : isHole x with
  | false => simp [Double.beq_self_of_observed hHole]
  | true => simp

/-- A series equals itself, holes included. -/
theorem beq_self (s : Series Float) : (s == s) = true := by
  change s.same s = true
  have hValues : ∀ x ∈ s.values, agree x x = true := fun x _ => agree_self x
  simpa [same, List.zipWith_self, agree] using hValues

/-- Synchronization in stages is synchronization at once: it makes no difference whether a series is
put on a calendar first that has all dates of the last one. On the same calendar a second time it
stays as it is. -/
theorem synchronize_in_stages {A B s : Series Float} (hA : A.IndexedBut [])
    (hB : B.IndexedBut []) (hs : s.IndexedBut []) (hReal : .sentinel ∉ A.dates)
    (hWithin : ∀ d ∈ B.dates, d ∈ A.dates) (method : SyncMethod) :
    ∃ r t u, A.synchronize s method = .ok r ∧ B.synchronize r method = .ok t ∧
      B.synchronize s method = .ok u ∧ t = u ∧ (t == u) = true ∧
      A.synchronize r method = .ok r := by
  obtain ⟨r, hr, -⟩ := synchronize_ok A hs method
  obtain ⟨u, hu, -⟩ := synchronize_ok B hs method
  refine ⟨r, u, u, hr, ?_, hu, rfl, beq_self u, ?_⟩
  · rw [synchronize_through hA hB hs hReal hWithin hr, hu]
  · rw [synchronize_through hA hA hs hReal (fun _ hd => hd) hr, hr]

/-- Both calendars repeat a date. -/
theorem latest_value_in_stages : ∃ (first : Instant) (A B s r t : Series Float),
    A.dates = [first, first, .latest] ∧ B.dates = [.latest, .latest] ∧ s.dates = [first] ∧
      A.synchronize s .latest = .ok r ∧ B.synchronize r .latest = .ok t ∧
      B.synchronize s .latest = .ok t ∧ A.synchronize r .latest = .ok r := by
  let first : Instant := ⟨0, by decide, by decide⟩
  obtain ⟨A, hA, hIndexedA⟩ :=
    exists_indexed [⟨first, (1 : Float)⟩, ⟨first, 2⟩, ⟨.latest, 3⟩] (by decide)
  obtain ⟨B, hB, hIndexedB⟩ := exists_indexed [⟨.latest, (4 : Float)⟩, ⟨.latest, 5⟩] (by decide)
  obtain ⟨s, hs, hIndexed⟩ := exists_indexed [⟨first, (6 : Float)⟩] (by decide)
  have hReal : .sentinel ∉ A.dates := by
    rw [hA]
    decide
  have hWithin : ∀ d ∈ B.dates, d ∈ A.dates := by
    rw [hA, hB]
    decide
  obtain ⟨r, t, u, hr, ht, hu, rfl, -, hAgain⟩ :=
    synchronize_in_stages hIndexedA hIndexedB hIndexed hReal hWithin .latest
  exact ⟨first, A, B, s, r, t, hA, hB, hs, hr, ht, hu, hAgain⟩

end Stages
end Almanac.Series
