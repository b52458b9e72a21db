import Almanac.Proofs.Series.Count
import Almanac.Proofs.Series.Ledger

/-! # Appends in any order

Points at new dates go behind those that are there, in the order in which they come. What they take
from the reserve, and whether the chunks that they need fit the machine, depends on their number
alone, and a sort forgets their order.
-/
namespace Almanac.Series
set_option autoImplicit false

variable {α : Type}

section Order
variable (s : Series α)

theorem perm_points_sort : s.sort.points.Perm s.points := List.mergeSort_perm s.points _

theorem ascending_points_sort : s.sort.points.Pairwise fun p q => p.date ≤ q.date :=
  Instant.pairwise_mergeSort Point.date s.points

theorem sort_sort : s.sort.sort = s.sort := by
  have hPoints : (s.sort.points.mergeSort fun p q => p.date ≤ q.date) = s.sort.points :=
    List.mergeSort_of_pairwise (s.ascending_points_sort.imp fun h => decide_eq_true h)
  unfold sort at hPoints ⊢
  simp only [hPoints]

theorem strict_dates_sort (hDistinct : s.dates.Nodup) : s.sort.dates.Pairwise (· < ·) := by
  have hPerm : s.sort.dates.Perm s.dates := s.perm_points_sort.map Point.date
  have hAscending : s.sort.dates.Pairwise (· ≤ ·) := List.pairwise_map.mpr s.ascending_points_sort
  exact hAscending.imp₂ (fun _ _ => Instant.lt_of_le_of_ne) (hPerm.nodup_iff.mpr hDistinct)

variable {s}

/-- A sort gives the same series, index included, from every order of points at distinct dates. -/
theorem sort_eq_of_perm {t : Series α} (hSpare : s.spare = t.spare) (hOptions : s.options = t.options)
    (hPoints : s.points.Perm t.points) (hDistinct : s.dates.Nodup) : s.sort = t.sort := by
  have hSame : s.sort.points = t.sort.points := by
    refine eq_of_perm_of_ascending ?_ ?_ s.ascending_points_sort t.ascending_points_sort
    · exact s.perm_points_sort.trans (hPoints.trans t.perm_points_sort.symm)
    · exact (s.perm_points_sort.map Point.date).nodup_iff.mpr hDistinct
  unfold sort at hSame ⊢
  simp only at hSame
  simp only [hSame, hSpare, hOptions]

end Order

/-- The points of a series but for a placeholder. -/
def kept (s : Series α) : List (Point α) := if s.isUninitialized then [] else s.points

/-- The number of points at new dates that a series takes without another chunk. -/
def room (s : Series α) : Nat := s.spareCapacity + if s.isUninitialized then 1 else 0

/-- The number of slots once `n` points at new dates are in: what the room does not hold goes into
chunks. -/
def allocated (s : Series α) (n : Nat) : Nat :=
  let chunk := s.options.growthChunk
  s.slots.length + (n - s.room + (chunk - 1)) / chunk * chunk

/-- Points at dates that a series does not know, no date twice and none the sentinel. -/
structure Admits (s : Series α) (points : List (Point α)) : Prop where
  distinct : (points.map Point.date).Nodup
  real : ∀ p ∈ points, p.date ≠ .sentinel
  unknown : ∀ p ∈ points, s.position? p.date = none

/-- Series whose next points at new dates take the same slots. -/
structure InStep (s t : Series α) : Prop where
  placeholder : s.isUninitialized = t.isUninitialized
  spare : s.spare = t.spare
  options : s.options = t.options

/-- A series without points, or with a placeholder for them, whose index knows no date. -/
structure Vacant (s : Series α) : Prop where
  empty : s.points = [] ∨ s.isUninitialized = true
  unknown : ∀ d, d ≠ .sentinel → s.position? d = none

section Vacant
variable {s : Series α} {points : List (Point α)}

theorem Vacant.kept_eq (h : s.Vacant) : s.kept = [] := by
  rw [kept]
  rcases h.empty with hNone | hFirst
  · rw [hNone, ite_self]
  · exact if_pos hFirst

theorem Vacant.admits (h : s.Vacant) (hDistinct : (points.map Point.date).Nodup)
    (hReal : ∀ p ∈ points, p.date ≠ .sentinel) : s.Admits points :=
  ⟨hDistinct, hReal, fun p hp => h.unknown p.date (hReal p hp)⟩

theorem Vacant.nodup_dates (h : s.Vacant) : s.dates.Nodup := by
  rcases h.empty with hNone | hFirst
  · rw [dates, hNone]
    exact List.nodup_nil
  · rw [s.isUninitialized_iff.mp hFirst]
    exact List.nodup_singleton _

/-- Where no point is left the index knows no date, whatever it misses. -/
theorem IndexedBut.vacant {missing : List Instant} (h : s.IndexedBut missing)
    (hEmpty : s.points = [] ∨ s.isUninitialized = true) : s.Vacant := by
  refine ⟨hEmpty, fun d hReal => ?_⟩
  have hUnseen : d ∉ s.dates := by
    rcases hEmpty with hNone | hFirst
    · rw [dates, hNone]
      exact List.not_mem_nil
    · rw [s.isUninitialized_iff.mp hFirst, List.mem_singleton]
      exact hReal
  rw [h d, (Calendar.lastPosition?_eq_none_iff _ _).mpr hUnseen, ite_self]

end Vacant

section Room
variable {s : Series α} {n : Nat}

theorem Admits.perm {points points' : List (Point α)} (h : s.Admits points)
    (hPerm : points.Perm points') : s.Admits points' where
  distinct := (hPerm.map Point.date).nodup_iff.mp h.distinct
  real p hp := h.real p (hPerm.mem_iff.mpr hp)
  unknown p hp := h.unknown p (hPerm.mem_iff.mpr hp)

theorem slots_le_allocated : s.slots.length ≤ s.allocated n := Nat.le_add_right ..

theorem allocated_of_le_room (h : n ≤ s.room) : s.allocated n = s.slots.length := by
  have hChunk := s.options.positive
  rw [allocated, Nat.sub_eq_zero_of_le h, Nat.zero_add, Nat.div_eq_of_lt (by omega), Nat.zero_mul,
    Nat.add_zero]

theorem chunks_succ {chunk : Nat} (hChunk : 0 < chunk) (n : Nat) :
    (n + 1 + (chunk - 1)) / chunk = 1 + (n - (chunk - 1) + (chunk - 1)) / chunk := by
  have hSum : n + 1 + (chunk - 1) = n + chunk := by omega
  have hRest : (n - (chunk - 1) + (chunk - 1)) / chunk = n / chunk := by
    by_cases hn : chunk - 1 ≤ n
    · rw [Nat.sub_add_cancel hn]
    · rw [Nat.div_eq_of_lt (by omega), Nat.div_eq_of_lt (by omega)]
  rw [hSum, hRest, Nat.add_div_right n hChunk, Nat.add_comm]

end Room

variable [Hole α]

def extended (s : Series α) (points : List (Point α)) : Series α :=
  points.foldl (fun s p => s.insert p.date p.value) s

section Step
variable {s t : Series α} {d e : Instant} {x y : α}

omit [Hole α] in
theorem hasRoom_of_unknown (hUnknown : s.position? d = none) :
    s.hasRoom d = decide (0 < s.room) := by
  rw [hasRoom, contains_eq_isSome, hUnknown, room]
  cases s.isUninitialized <;> simp

theorem points_insert (hUnknown : s.position? d = none) :
    (s.insert d x).points = s.kept ++ [⟨d, x⟩] := by
  cases hFirst : s.isUninitialized with
  | true =>
    rw [insert_of_isUninitialized hUnknown hFirst, kept, hFirst]
    rfl
  | false =>
    rw [insert_of_fresh hUnknown hFirst, kept, hFirst]
    rfl

theorem isUninitialized_insert (hReal : d ≠ .sentinel) (hUnknown : s.position? d = none) :
    (s.insert d x).isUninitialized = false := by
  rw [isUninitialized, points_insert hUnknown]
  cases s.kept with
  | nil => simpa using hReal
  | cons p points => cases points <;> rfl

theorem kept_insert (hReal : d ≠ .sentinel) (hUnknown : s.position? d = none) :
    (s.insert d x).kept = s.kept ++ [⟨d, x⟩] := by
  rw [kept, isUninitialized_insert hReal hUnknown, if_neg Bool.false_ne_true,
    points_insert hUnknown]

theorem options_insert (s : Series α) (d : Instant) (x : α) :
    (s.insert d x).options = s.options := by
  rw [insert]
  split
  · exact options_overwrite s _ x
  · split <;> rfl

theorem position?_insert_of_ne (hUnknown : s.position? d = none) (hNe : d ≠ e) :
    (s.insert d x).position? e = s.position? e := by
  cases hFirst : s.isUninitialized with
  | true =>
    rw [insert_of_isUninitialized hUnknown hFirst]
    simp [position?, Std.HashMap.getElem?_insert, hNe]
  | false => rw [insert_of_fresh hUnknown hFirst, position?_append, if_neg hNe]

theorem length_spare_append (s : Series α) (d : Instant) (x : α) : (s.append d x).spareCapacity =
    (if s.spareCapacity = 0 then s.options.growthChunk else s.spareCapacity) - 1 := by
  simp only [spareCapacity, append, grownSpare, List.length_tail, List.length_eq_zero_iff,
    List.isEmpty_iff]
  split
  · rw [List.length_replicate]
  · rfl

/-- A point takes a slot of the room, or the first slot of a new chunk. -/
theorem room_insert (hReal : d ≠ .sentinel) (hUnknown : s.position? d = none) :
    (s.insert d x).room = (if s.room = 0 then s.options.growthChunk else s.room) - 1 := by
  rw [room, isUninitialized_insert hReal hUnknown]
  cases hFirst : s.isUninitialized with
  | true =>
    rw [insert_of_isUninitialized hUnknown hFirst, room, hFirst]
    rfl
  | false =>
    rw [insert_of_fresh hUnknown hFirst, length_spare_append, room, hFirst]
    rfl

theorem length_slots_insert (hUnknown : s.position? d = none) : (s.insert d x).slots.length =
    s.slots.length + if s.room = 0 then s.options.growthChunk else 0 := by
  have hLength : ∀ u : Series α, u.slots.length = u.count + u.spareCapacity := fun u =>
    List.length_append
  have hChunk := s.options.positive
  rw [hLength, hLength, room]
  cases hFirst : s.isUninitialized with
  | true =>
    rw [insert_of_isUninitialized hUnknown hFirst, count_of_isUninitialized hFirst]
    rfl
  | false =>
    have hCount : (s.append d x).count = s.count + 1 := by simp [append, count]
    rw [insert_of_fresh hUnknown hFirst, length_spare_append, hCount]
    simp only [Bool.false_eq_true, if_false, Nat.add_zero]
    split <;> omega

theorem allocated_insert (hReal : d ≠ .sentinel) (hUnknown : s.position? d = none) (n : Nat) :
    (s.insert d x).allocated n = s.allocated (n + 1) := by
  simp only [allocated, options_insert, room_insert hReal hUnknown, length_slots_insert hUnknown]
  split
  · rename_i hFull
    rw [hFull, Nat.sub_zero, chunks_succ s.options.positive, Nat.add_mul, Nat.one_mul,
      Nat.add_assoc]
  · rename_i hRoom
    have hRest : n - (s.room - 1) = n + 1 - s.room := by omega
    rw [hRest, Nat.add_zero]

/-- One more point fits if it finds a slot itself, and the rest finds slots behind it. -/
theorem fits_succ (hReal : d ≠ .sentinel) (hUnknown : s.position? d = none) (x : α) (n bound : Nat) :
    n + 1 ≤ s.room ∨ s.allocated (n + 1) < bound ↔
      (0 < s.room ∨ s.slots.length + s.options.growthChunk < bound) ∧
        (n ≤ (s.insert d x).room ∨ (s.insert d x).allocated n < bound) := by
  have hLeast := slots_le_allocated (s := s.insert d x) (n := n)
  have hNone := allocated_of_le_room (s := s.insert d x) (n := n)
  rw [length_slots_insert hUnknown, room_insert hReal hUnknown,
    allocated_insert hReal hUnknown] at *
  by_cases hFull : s.room = 0
  · simp only [if_pos hFull] at hLeast hNone ⊢
    omega
  · simp only [if_neg hFull] at hLeast hNone ⊢
    omega

theorem insert?_of_unknown (hUnknown : s.position? d = none) (x : α) : s.insert? d x =
    if 0 < s.room ∨ s.slots.length + s.options.growthChunk < bufferBound then .ok (s.insert d x)
    else fault := by
  have hRoom := hasRoom_of_unknown hUnknown
  by_cases hFull : 0 < s.room
  · rw [if_pos (.inl hFull), insert?_of_hasRoom (hRoom.trans (decide_eq_true hFull))]
  · have hSlots : s.slots.length = s.count := by
      rw [room, spareCapacity] at hFull
      rw [slots, List.length_append, count]
      omega
    rw [insert?_of_not_hasRoom (hRoom.trans (decide_eq_false hFull)), hSlots]
    simp only [hFull, false_or]

theorem InStep.insert (h : s.InStep t) (hd : d ≠ .sentinel) (he : e ≠ .sentinel)
    (hs : s.position? d = none) (ht : t.position? e = none) (x y : α) :
    (s.insert d x).InStep (t.insert e y) := by
  refine ⟨?_, ?_, ?_⟩
  · rw [isUninitialized_insert hd hs, isUninitialized_insert he ht]
  · cases hFirst : s.isUninitialized with
    | true =>
      rw [insert_of_isUninitialized hs hFirst, insert_of_isUninitialized ht (h.placeholder ▸ hFirst)]
      exact h.spare
    | false =>
      rw [insert_of_fresh hs hFirst, insert_of_fresh ht (h.placeholder ▸ hFirst)]
      simp only [append, grownSpare, h.spare, h.options]
  · rw [options_insert, options_insert, h.options]

end Step

section Run
variable {s t : Series α} {p : Point α} {points points' : List (Point α)}

theorem Admits.cons (h : s.Admits (p :: points)) : p.date ≠ .sentinel ∧
    s.position? p.date = none ∧ (s.insert p.date p.value).Admits points := by
  obtain ⟨hFresh, hDistinct⟩ := List.nodup_cons.mp h.distinct
  have hUnknown := h.unknown p List.mem_cons_self
  refine ⟨h.real p List.mem_cons_self, hUnknown, hDistinct, fun q hq => ?_, fun q hq => ?_⟩
  · exact h.real q (List.mem_cons_of_mem p hq)
  · rw [position?_insert_of_ne hUnknown (date_ne_of_fresh hFresh hq).symm]
    exact h.unknown q (List.mem_cons_of_mem p hq)

theorem extended_cons (s : Series α) (p : Point α) (points : List (Point α)) :
    s.extended (p :: points) = (s.insert p.date p.value).extended points := rfl

theorem kept_extended (h : s.Admits points) : (s.extended points).kept = s.kept ++ points := by
  induction points generalizing s with
  | nil => exact (List.append_nil s.kept).symm
  | cons p points ih =>
    obtain ⟨hReal, hUnknown, hRest⟩ := h.cons
    rw [extended_cons, ih hRest, kept_insert hReal hUnknown, List.append_assoc]
    rfl

theorem InStep.extended (h : s.InStep t) (hs : s.Admits points) (ht : t.Admits points')
    (hLength : points.length = points'.length) :
    (s.extended points).InStep (t.extended points') := by
  induction points generalizing s t points' with
  | nil =>
    obtain rfl := List.length_eq_zero_iff.mp hLength.symm
    exact h
  | cons p points ih =>
    cases points' with
    | nil => cases hLength
    | cons q points' =>
      obtain ⟨hReal, hUnknown, hRest⟩ := hs.cons
      obtain ⟨hReal', hUnknown', hRest'⟩ := ht.cons
      rw [extended_cons, extended_cons]
      exact ih (h.insert hReal hReal' hUnknown hUnknown' p.value q.value) hRest hRest'
        (Nat.succ.inj hLength)

theorem length_slots_extended (h : s.Admits points) :
    (s.extended points).slots.length = s.allocated points.length := by
  induction points generalizing s with
  | nil => exact (allocated_of_le_room (Nat.zero_le s.room)).symm
  | cons p points ih =>
    obtain ⟨hReal, hUnknown, hRest⟩ := h.cons
    exact (ih hRest).trans (allocated_insert hReal hUnknown points.length)

/-- Points at new dates go in if the room holds them or the slots that they need fit the machine. -/
theorem insertAll?_of_admits (h : s.Admits points) : s.insertAll? points =
    if points.length ≤ s.room ∨ s.allocated points.length < bufferBound then
      .ok (s.extended points)
    else fault := by
  induction points generalizing s with
  | nil => rfl
  | cons p points ih =>
    obtain ⟨hReal, hUnknown, hRest⟩ := h.cons
    have hFits := fits_succ hReal hUnknown p.value points.length bufferBound
    rw [insertAll?, List.foldlM_cons, insert?_of_unknown hUnknown, List.length_cons]
    by_cases hHere : 0 < s.room ∨ s.slots.length + s.options.growthChunk < bufferBound
    · rw [if_pos hHere]
      exact (ih hRest).trans (if_congr (hFits.trans (and_iff_right hHere)).symm rfl rfl)
    · rw [if_neg hHere, if_neg fun h => hHere (hFits.mp h).1]
      rfl

end Run

section Order
variable {s : Series α} {points points' : List (Point α)}

theorem points_extended (h : s.Vacant) (hAdmits : s.Admits points) (hSome : points ≠ []) :
    (s.extended points).points = points := by
  have hKept := kept_extended hAdmits
  rw [h.kept_eq, List.nil_append, kept] at hKept
  split at hKept
  · exact absurd hKept.symm hSome
  · exact hKept

theorem nodup_dates_extended (h : s.Vacant) (hAdmits : s.Admits points) :
    (s.extended points).dates.Nodup := by
  cases points with
  | nil => exact h.nodup_dates
  | cons p rest =>
    rw [dates, points_extended h hAdmits (List.cons_ne_nil p rest)]
    exact hAdmits.distinct

theorem perm_points_extended (h : s.Vacant) (hAdmits : s.Admits points)
    (hPerm : points.Perm points') :
    (s.extended points).points.Perm (s.extended points').points := by
  cases points with
  | nil =>
    obtain rfl := hPerm.nil_eq
    exact .refl _
  | cons p rest =>
    have hSome : points' ≠ [] := by
      rintro rfl
      exact absurd hPerm.eq_nil (List.cons_ne_nil p rest)
    rw [points_extended h hAdmits (List.cons_ne_nil p rest),
      points_extended h (hAdmits.perm hPerm) hSome]
    exact hPerm

theorem sort_extended_eq (h : s.Vacant) (hAdmits : s.Admits points) (hPerm : points.Perm points') :
    (s.extended points).sort = (s.extended points').sort := by
  have hStep : (s.extended points).InStep (s.extended points') :=
    InStep.extended ⟨rfl, rfl, rfl⟩ hAdmits (hAdmits.perm hPerm) hPerm.length_eq
  exact sort_eq_of_perm hStep.spare hStep.options (perm_points_extended h hAdmits hPerm)
    (nodup_dates_extended h hAdmits)

end Order

/-- A vacant series takes points at distinct dates in every order or in none, by whether the slots
that they need fit the machine. After a sort nothing is left of the order, the index and the reserve
included. A sort itself can be repeated, and keeps the number of points, the reserve and the points
of every series, repeated dates included. -/
theorem sort_forgets_append_order :
    (∀ (s : Series α) (points points' : List (Point α)), s.Vacant → points.Perm points' →
      (points.map Point.date).Nodup → (∀ p ∈ points, p.date ≠ .sentinel) →
      (points.length ≤ s.room ∨ s.allocated points.length < bufferBound →
        ∃ t t', s.insertAll? points = .ok t ∧ s.insertAll? points' = .ok t' ∧
          t.slots.length = s.allocated points.length ∧ t.sort = t'.sort ∧
          t.sort.dates.Pairwise (· < ·) ∧ (points ≠ [] → t.sort.points.Perm points)) ∧
      (¬(points.length ≤ s.room ∨ s.allocated points.length < bufferBound) →
        s.insertAll? points = fault ∧ s.insertAll? points' = fault)) ∧
    ∀ u : Series α, u.sort.sort = u.sort ∧ u.sort.count = u.count ∧
      u.sort.spareCapacity = u.spareCapacity ∧ u.sort.points.Perm u.points := by
  refine ⟨fun s points points' hVacant hPerm hDistinct hReal => ?_, fun u =>
    ⟨u.sort_sort, u.count_sort, rfl, u.perm_points_sort⟩⟩
  have hAdmits := hVacant.admits hDistinct hReal
  have hRun := insertAll?_of_admits hAdmits
  have hRun' := insertAll?_of_admits (hAdmits.perm hPerm)
  rw [← hPerm.length_eq] at hRun'
  refine ⟨fun hFits => ?_, fun hNot => ?_⟩
  · rw [if_pos hFits] at hRun hRun'
    refine ⟨_, _, hRun, hRun', length_slots_extended hAdmits, sort_extended_eq hVacant hAdmits hPerm,
      strict_dates_sort _ (nodup_dates_extended hVacant hAdmits), fun hSome => ?_⟩
    have hPoints := points_extended hVacant hAdmits hSome
    exact (perm_points_sort _).trans (.of_eq hPoints)
  · rw [if_neg hNot] at hRun hRun'
    exact ⟨hRun, hRun'⟩

/-- Four points that come in two orders to a series that has lost its only point and grows by two
slots at a time. -/
theorem emptied_series_forgets_append_order :
    let s : Series Float := (ofPoints ⟨2, Nat.two_pos⟩ [⟨.latest, 1⟩]).withoutPoint .latest 0
    let day (nanos : Fin 9) : Instant := ⟨nanos, by decide +revert, by decide +revert⟩
    let points : List (Point Float) := [⟨day 3, 1⟩, ⟨day 1, 2⟩, ⟨day 4, hole⟩, ⟨day 2, 4⟩]
    ∃ t t', s.insertAll? points = .ok t ∧ s.insertAll? points.reverse = .ok t' ∧
      t.slots.length = 5 ∧ t.sort = t'.sort ∧ t.sort.dates.Pairwise (· < ·) ∧
      t.sort.points.Perm points := by
  intro s day points
  have hIndexed := indexedBut_ofPoints (α := Float) ⟨2, Nat.two_pos⟩ [⟨.latest, 1⟩]
  have hVacant : s.Vacant := (hIndexed.withoutPoint (hIndexed .latest)).vacant (.inl rfl)
  obtain ⟨hOrders, -⟩ := sort_forgets_append_order (α := Float)
  obtain ⟨t, t', hRun, hRun', hSlots, hSort, hAscending, hPoints⟩ :=
    (hOrders s points points.reverse hVacant (List.reverse_perm points).symm (by decide)
      (by decide)).1 (.inr (by decide))
  exact ⟨t, t', hRun, hRun', hSlots.trans (by decide), hSort, hAscending,
    hPoints (List.cons_ne_nil _ _)⟩

end Almanac.Series
