import Almanac.Proofs.Series.Census
import Almanac.Proofs.Series.Points

/-! # Additions and removals at any date, the sentinel included

A series that holds one point at the sentinel counts as new, so the next new date takes the slot of
that point. The index keeps the entry of the lost point: a stray date, which from then on answers
with whatever point stands first. Main statement: a history of additions and removals keeps every
point exactly if no new date follows on a lone point at the sentinel, and in every other history a
register with stray dates says what is answered.
-/
namespace Almanac
set_option autoImplicit false

/-- An addition or a removal. -/
inductive Posting (α : Type) where
  | add (date : Instant) (value : α)
  | remove (date : Instant)

namespace Posting
variable {α : Type}

def action : Posting α → Series.Action α
  | add date value => .add date value
  | remove date => .remove date

def date : Posting α → Instant
  | add date _ | remove date => date

/-- What the date of a posting answers after it. -/
def answer [Hole α] : Posting α → α
  | add _ value => value
  | remove _ => hole

/-- Points with one value revised. -/
def reviseAt (d : Instant) (x : α) (points : List (Point α)) : List (Point α) :=
  points.map fun p => if p.date = d then { p with value := x } else p

/-- The value at a date, or a hole. -/
def valueIn [Hole α] (points : List (Point α)) (d : Instant) : α :=
  ((points.find? fun p => p.date = d).map Point.value).getD hole

/-- What a posting is to do: a known date has its value replaced, a new one comes last, and a
removal takes the point at its date only. -/
def act (points : List (Point α)) : Posting α → List (Point α)
  | add d x =>
    if d ∈ points.map Point.date then reviseAt d x points else points ++ [⟨d, x⟩]
  | remove d => points.filter fun p => p.date ≠ d

theorem find?_reviseAt (d : Instant) (x : α) (points : List (Point α)) (e : Instant) :
    (reviseAt d x points).find? (fun p => p.date = e) =
      (points.find? fun p => p.date = e).map fun p =>
        if e = d then { p with value := x } else p := by
  induction points with
  | nil => rfl
  | cons p points ih =>
    rw [reviseAt, List.map_cons, List.find?_cons, List.find?_cons, ← reviseAt, ih]
    by_cases hDate : p.date = d
    · by_cases hFound : p.date = e
      · simp [hDate, ← hFound]
      · simp [hDate, hDate ▸ hFound]
    · by_cases hFound : p.date = e
      · simp [hDate, ← hFound]
      · simp [hDate, hFound]

/-- A posting decides what its own date answers, and leaves the answers of all others. -/
theorem valueIn_act [Hole α] (points : List (Point α)) (posting : Posting α) (e : Instant) :
    valueIn (posting.act points) e =
      if e = posting.date then posting.answer else valueIn points e := by
  cases posting with
  | add d x =>
    rw [act, valueIn, valueIn]
    split
    · rename_i hd
      obtain ⟨p, hp, hDate⟩ := List.mem_map.mp hd
      rw [find?_reviseAt]
      by_cases he : e = d
      · subst he
        obtain ⟨q, hq⟩ : ∃ q, points.find? (fun p => p.date = e) = some q := by
          rw [← Option.isSome_iff_exists, List.find?_isSome]
          exact ⟨p, hp, by simp [hDate]⟩
        simp [hq, date, answer]
      · simp [he, date]
    · rename_i hd
      rw [List.find?_append]
      by_cases he : e = d
      · subst he
        have hNone : points.find? (fun p => p.date = e) = none := by
          rw [List.find?_eq_none]
          intro p hp
          simpa using Series.date_ne_of_fresh hd hp
        simp [hNone, date, answer]
      · simp [he, Ne.symm he, date]
  | remove d =>
    rw [act, valueIn, valueIn, List.find?_filter]
    by_cases he : e = d
    · have hNone : points.find? (fun _ => false) = none := by simp
      simp [he, date, answer, hNone]
    · have hSame : ∀ p : Point α, (p.date ≠ d ∧ p.date = e) ↔ p.date = e := by
        intro p
        constructor
        · exact And.right
        · rintro rfl
          exact ⟨he, rfl⟩
      simp [hSame, date, he]

end Posting

/-- The visible points, each date once, the stray dates, which are not visible but lead to the first
slot, and the number of slots in reserve. -/
structure Register (α : Type) where
  entries : List (Point α)
  strays : List Instant
  reserve : Nat
  options : Series.Options

namespace Register
variable {α : Type}

def blank (options : Series.Options) : Register α := ⟨[], [], 1, options⟩

section Read
variable (r : Register α)

def dates : Calendar := r.entries.map Point.date

def contains (d : Instant) : Bool := d ∈ r.dates ∨ d ∈ r.strays

/-- Where the index sends a date. -/
def position? (d : Instant) : Option Nat :=
  (r.dates.lastPosition? d).or (if d ∈ r.strays then some 0 else none)

def census : Census := ⟨⟨r.dates, []⟩, r.strays⟩

/-- A stray date answers with the first point, and faults where there is none. -/
def valueOn [Hole α] (d : Instant) : Series.Checked α :=
  match r.entries.find? fun p => p.date = d with
  | some p => .ok p.value
  | none => if d ∈ r.strays then present (r.entries.head?.map Point.value) else .ok hole

end Read

section Change
variable (r : Register α)

/-- The reserve once a new date has its slot: one in reserve, or the first one of a new chunk, which
has to fit the machine. -/
def reserve? : Option Nat :=
  if 0 < r.reserve then some (r.reserve - 1)
  else if r.entries.length + r.options.growthChunk < bufferBound then
    some (r.options.growthChunk - 1)
  else none

def add (d : Instant) (x : α) : Option (Register α) :=
  if d ∈ r.dates then some { r with entries := Posting.reviseAt d x r.entries }
  else if d ∈ r.strays then
    some { r with entries := r.entries.modifyHead fun p => { p with value := x } }
  else if r.dates = [.sentinel] then
    some { r with entries := [⟨d, x⟩], strays := .sentinel :: r.strays }
  else r.reserve?.map fun reserve => { r with entries := r.entries ++ [⟨d, x⟩], reserve }

/-- The removal of a stray date takes the first point, whose date is stray from then on. -/
def remove (d : Instant) : Option (Bool × Register α) :=
  if d ∈ r.dates then
    some (true,
      { r with entries := r.entries.filter fun p => p.date ≠ d, reserve := r.reserve + 1 })
  else if d ∈ r.strays then
    match r.entries with
    | [] => none
    | p :: rest => some (true,
        { r with
          entries := rest
          strays := p.date :: r.strays.filter fun e => e ≠ d
          reserve := r.reserve + 1 })
  else some (false, r)

def post : Posting α → Option (Series.Answer × Register α)
  | .add d x => (r.add d x).map fun next => (.done, next)
  | .remove d => (r.remove d).map fun result => (.removed result.1, result.2)

/-- Whether a posting puts a new date on a lone point at the sentinel. -/
def Captures (points : List (Point α)) : Posting α → Prop
  | .add d _ => points.map Point.date = [.sentinel] ∧ d ≠ .sentinel
  | .remove _ => False

variable {r}

theorem position?_census (hApart : ∀ d ∈ r.strays, d ∉ r.dates) (d : Instant) :
    r.census.position? d = r.position? d := by
  rw [Census.position?, position?, census]
  by_cases hStray : d ∈ r.strays
  · simp [hStray, (Calendar.lastPosition?_eq_none_iff _ _).mpr (hApart d hStray)]
  · simp [hStray]

theorem lt_length_of_date {i : Nat} {d : Instant} (hEntry : r.dates[i]? = some d) :
    i < r.entries.length := by
  simpa [dates] using (List.getElem?_eq_some_iff.mp hEntry).1

theorem add_of_post {d : Instant} {x : α} {answer : Series.Answer} {next : Register α}
    (hPost : r.post (.add d x) = some (answer, next)) : r.add d x = some next := by
  obtain ⟨_, hAdd, hNext⟩ := Option.map_eq_some_iff.mp hPost
  obtain ⟨-, rfl⟩ := Prod.mk.inj hNext
  exact hAdd

theorem act_of_post (hStrays : r.strays = []) {posting : Posting α}
    (hKeeps : ¬ Captures r.entries posting) {answer : Series.Answer} {next : Register α}
    (hPost : r.post posting = some (answer, next)) :
    next.entries = posting.act r.entries ∧ next.strays = [] := by
  cases posting with
  | add d x =>
    have hAdd := add_of_post hPost
    rw [add, hStrays, if_neg List.not_mem_nil] at hAdd
    rw [Posting.act, ← dates]
    by_cases hd : d ∈ r.dates
    · rw [if_pos hd] at hAdd ⊢
      obtain rfl := Option.some.inj hAdd
      exact ⟨rfl, rfl⟩
    · have hLone : r.dates ≠ [.sentinel] := by
        intro hLone
        refine hKeeps ⟨hLone, ?_⟩
        rintro rfl
        exact hd (by simp [hLone])
      rw [if_neg hd, if_neg hLone] at hAdd
      obtain ⟨_, -, rfl⟩ := Option.map_eq_some_iff.mp hAdd
      exact ⟨(if_neg hd).symm, rfl⟩
  | remove d =>
    obtain ⟨_, hRemove, hNext⟩ := Option.map_eq_some_iff.mp hPost
    obtain ⟨-, rfl⟩ := Prod.mk.inj hNext
    rw [remove, hStrays, if_neg List.not_mem_nil] at hRemove
    rw [Posting.act]
    by_cases hd : d ∈ r.dates
    · rw [if_pos hd] at hRemove
      obtain rfl := Option.some.inj hRemove
      exact ⟨rfl, rfl⟩
    · rw [if_neg hd] at hRemove
      obtain rfl := Option.some.inj hRemove
      refine ⟨(List.filter_eq_self.mpr fun p hp => ?_).symm, hStrays⟩
      simpa using Series.date_ne_of_fresh hd hp

theorem valueOn_of_no_strays [Hole α] (hStrays : r.strays = []) (d : Instant) :
    r.valueOn d = .ok (Posting.valueIn r.entries d) := by
  rw [valueOn, Posting.valueIn, hStrays, if_neg List.not_mem_nil]
  cases r.entries.find? fun p => p.date = d <;> rfl

/-- Where a lone point at the sentinel is captured, one point is left instead of two. -/
theorem length_of_captures {posting : Posting α} (hCaptures : Captures r.entries posting)
    {answer : Series.Answer} {next : Register α} (hPost : r.post posting = some (answer, next)) :
    next.entries.length = 1 ∧ (posting.act r.entries).length = 2 := by
  cases posting with
  | remove d => exact hCaptures.elim
  | add d x =>
    obtain ⟨hLone, hNe⟩ := hCaptures
    have hAdd := add_of_post hPost
    have hLength : r.entries.length = 1 := by simpa using congrArg List.length hLone
    have hd : d ∉ r.entries.map Point.date := by simp [hLone, hNe]
    rw [add, dates, if_neg hd, if_pos hLone] at hAdd
    rw [Posting.act, if_neg hd]
    refine ⟨?_, by simp [hLength]⟩
    split at hAdd
    · obtain rfl := Option.some.inj hAdd
      simpa using hLength
    · obtain rfl := Option.some.inj hAdd
      rfl

theorem strays_of_captures (hStrays : r.strays = []) {posting : Posting α}
    (hCaptures : Captures r.entries posting) {answer : Series.Answer} {next : Register α}
    (hPost : r.post posting = some (answer, next)) : next.strays = [.sentinel] := by
  cases posting with
  | remove d => exact hCaptures.elim
  | add d x =>
    obtain ⟨hLone, hNe⟩ := hCaptures
    have hAdd := add_of_post hPost
    have hd : d ∉ r.entries.map Point.date := by simp [hLone, hNe]
    rw [add, dates, if_neg hd, hStrays, if_neg List.not_mem_nil, if_pos hLone] at hAdd
    obtain rfl := Option.some.inj hAdd
    rfl

end Change
end Register

namespace Series
variable {α : Type}

def post [Hole α] (s : Series α) (posting : Posting α) : Option (Answer × Series α) :=
  s.step posting.action

/-- A series answers as a register does. -/
structure Reads [Hole α] (s : Series α) (r : Register α) : Prop where
  points : s.points = r.entries
  dates : s.dates = r.dates
  contains : ∀ d, s.contains d = r.contains d
  position : ∀ d, s.position? d = r.position? d
  value : ∀ d, s.valueOn d = r.valueOn d
  reserve : s.spareCapacity = r.reserve

/-- What every posting keeps: the points, each date once, and an index that knows the visible dates
and the stray ones. -/
structure Tracks (s : Series α) (r : Register α) : Prop where
  points : s.points = r.entries
  reserve : s.spareCapacity = r.reserve
  options : s.options = r.options
  position : ∀ d, s.position? d = r.position? d
  distinct : r.dates.Nodup
  apart : ∀ d ∈ r.strays, d ∉ r.dates

/-- A posting does to the points what it is to do, its own date answers accordingly, and every other
date answers as before, with a value. -/
structure Obeys [Hole α] (s : Series α) (posting : Posting α) (t : Series α) : Prop where
  points : t.points = posting.act s.points
  here : t.valueOn posting.date = .ok posting.answer
  others : ∀ d, d ≠ posting.date → ∃ x, s.valueOn d = .ok x ∧ t.valueOn d = .ok x

variable {s : Series α} {r : Register α}

namespace Tracks

theorem dates (h : s.Tracks r) : s.dates = r.dates := by
  rw [Series.dates, h.points, Register.dates]

theorem count (h : s.Tracks r) : s.count = r.entries.length := by
  rw [Series.count, h.points]

theorem contains (h : s.Tracks r) (d : Instant) : s.contains d = r.contains d := by
  rw [contains_eq_isSome, h.position, Register.position?, Register.contains, Option.isSome_or]
  have hVisible : (r.dates.lastPosition? d).isSome = decide (d ∈ r.dates) := by
    rw [Bool.eq_iff_iff, ← Option.ne_none_iff_isSome, ne_eq, Calendar.lastPosition?_eq_none_iff]
    simp
  by_cases hStray : d ∈ r.strays <;> simp [hVisible, hStray]

theorem surveyed (h : s.Tracks r) : s.Surveyed r.census where
  dates := h.dates
  position d := by rw [h.position, Register.position?_census h.apart]
  sound := ⟨by simp [Register.census], h.apart, fun _ => ⟨h.distinct, rfl⟩⟩

theorem of_surveyed (hPoints : s.points = r.entries) (hReserve : s.spareCapacity = r.reserve)
    (hOptions : s.options = r.options) (h : s.Surveyed r.census) (hDistinct : r.dates.Nodup) :
    s.Tracks r where
  points := hPoints
  reserve := hReserve
  options := hOptions
  position d := by rw [h.position, Register.position?_census h.sound.apart]
  distinct := hDistinct
  apart := h.sound.apart

theorem unknown_of_not_mem (h : s.Tracks r) {d : Instant} (hd : d ∉ r.dates)
    (hStray : d ∉ r.strays) : r.census.position? d = none := by
  rw [Register.position?_census h.apart, Register.position?,
    (Calendar.lastPosition?_eq_none_iff _ _).mpr hd, Option.none_or, if_neg hStray]

theorem position_of_mem (h : s.Tracks r) {d : Instant} (hd : d ∈ r.dates) :
    ∃ i, s.position? d = some i ∧ r.dates[i]? = some d := by
  obtain ⟨i, hi⟩ : ∃ i, r.dates.lastPosition? d = some i := by
    rw [← Option.ne_none_iff_exists', ne_eq, Calendar.lastPosition?_eq_none_iff]
    exact not_not.mpr hd
  refine ⟨i, ?_, ((Calendar.lastPosition?_eq_some_iff _ _ _).mp hi).1⟩
  rw [h.position, Register.position?, hi, Option.some_or]

theorem position_of_stray (h : s.Tracks r) {d : Instant} (hStray : d ∈ r.strays) :
    s.position? d = some 0 := (h.surveyed.position d).trans (Census.position?_of_stray hStray)

theorem position_of_unknown (h : s.Tracks r) {d : Instant} (hd : d ∉ r.dates)
    (hStray : d ∉ r.strays) : s.position? d = none := by
  rw [h.surveyed.position, h.unknown_of_not_mem hd hStray]

/-- Whether dates are stray shows in the series. -/
theorem strays_eq_nil (h : s.Tracks r) {r' : Register α} (h' : s.Tracks r')
    (hNone : r'.strays = []) : r.strays = [] := by
  rw [List.eq_nil_iff_forall_not_mem]
  intro d hStray
  have hContains : s.contains d = true := by rw [h.contains, Register.contains]; simp [hStray]
  rw [h'.contains, Register.contains, hNone, ← h'.dates, h.dates] at hContains
  simp only [List.not_mem_nil, or_false, decide_eq_true_eq] at hContains
  exact h.apart d hStray hContains

theorem isUninitialized_iff (h : s.Tracks r) :
    s.isUninitialized = true ↔ r.dates = [.sentinel] := by
  rw [Series.isUninitialized_iff, h.dates]

variable [Hole α]

theorem valueOn (h : s.Tracks r) (d : Instant) : s.valueOn d = r.valueOn d := by
  rw [Series.valueOn, Register.valueOn, find?_date]
  by_cases hd : d ∈ r.dates
  · obtain ⟨i, hi, hEntry⟩ := h.position_of_mem hd
    have hIndex : (r.entries.map Point.date).idxOf? d = some i := by
      have hLast := h.position d
      rw [hi, Register.position?, Calendar.lastPosition?_eq_idxOf? h.distinct] at hLast
      cases hIdx : r.dates.idxOf? d with
      | none => exact absurd hd (List.idxOf?_eq_none_iff.mp hIdx)
      | some j =>
        rw [hIdx, Option.some_or] at hLast
        rw [Register.dates] at hIdx
        rw [hIdx, hLast]
    have hLt := Register.lt_length_of_date hEntry
    rw [hi, hIndex, valueOrHole, valueAt, value?, h.points]
    simp [hLt, present]
  · have hIndex : (r.entries.map Point.date).idxOf? d = none := List.idxOf?_eq_none_iff.mpr hd
    rw [hIndex]
    by_cases hStray : d ∈ r.strays
    · rw [h.position_of_stray hStray, valueOrHole, valueAt, value?, h.points,
        ← List.head?_eq_getElem?]
      simp [hStray]
    · rw [h.position_of_unknown hd hStray]
      simp [valueOrHole, hStray]

theorem reads (h : s.Tracks r) : s.Reads r where
  points := h.points
  dates := h.dates
  contains := h.contains
  position := h.position
  value := h.valueOn
  reserve := h.reserve

omit [Hole α] in
/-- A value changes in the slot of its date. -/
theorem revise (h : s.Tracks r) {d : Instant} {i : Nat} (hEntry : r.dates[i]? = some d) (x : α) :
    (s.overwrite i x).Tracks { r with entries := Posting.reviseAt d x r.entries } := by
  have hLt : i < s.count := h.count ▸ Register.lt_length_of_date hEntry
  have hDates : ({ r with entries := Posting.reviseAt d x r.entries } : Register α).dates =
      r.dates := by
    rw [Register.dates, Register.dates, Posting.reviseAt, List.map_map]
    apply List.map_congr_left
    intro p _
    by_cases hDate : p.date = d <;> simp [hDate]
  exact {
    points := by
      rw [points_overwrite x hLt, h.points, modify_eq_map h.distinct hEntry]
      rfl
    reserve := by rw [spareCapacity, spare_overwrite x hLt]; exact h.reserve
    options := by rw [options_overwrite, h.options]
    position := fun e => by
      rw [position?_overwrite, h.position, Register.position?, Register.position?, hDates]
    distinct := by rw [hDates]; exact h.distinct
    apart := by rw [hDates]; exact h.apart }

omit [Hole α] in
/-- The value of a stray date goes into the first slot, whether a point stands there or none. -/
theorem reviseHead (h : s.Tracks r) (x : α) :
    (s.overwrite 0 x).Tracks
      { r with entries := r.entries.modifyHead fun p => { p with value := x } } := by
  have hDates : ({ r with entries := r.entries.modifyHead fun p => { p with value := x } } :
      Register α).dates = r.dates := by
    rw [Register.dates, Register.dates]
    cases r.entries <;> rfl
  have hPoints : (s.overwrite 0 x).points =
      r.entries.modifyHead fun p => { p with value := x } := by
    rw [overwrite, ← h.points]
    split
    · cases s.points <;> rfl
    · rename_i hNone
      have hEmpty : s.points = [] :=
        List.length_eq_zero_iff.mp (by simpa [Series.count] using hNone)
      rw [hEmpty]
      rfl
  have hReserve : (s.overwrite 0 x).spareCapacity = r.reserve := by
    rw [← h.reserve, overwrite, spareCapacity]
    split
    · rfl
    · simp [spareCapacity]
  exact {
    points := hPoints
    reserve := hReserve
    options := by rw [options_overwrite, h.options]
    position := fun e => by
      rw [position?_overwrite, h.position, Register.position?, Register.position?, hDates]
    distinct := by rw [hDates]; exact h.distinct
    apart := by rw [hDates]; exact h.apart }

omit [Hole α] in
/-- The point at the sentinel is lost, and its date is stray. -/
theorem capture (h : s.Tracks r) {d : Instant} (hd : d ∉ r.dates) (hStray : d ∉ r.strays)
    (hLone : r.dates = [.sentinel]) (x : α) :
    ({ s with points := [⟨d, x⟩], index := s.index.insert d 0 } : Series α).Tracks
      { r with entries := [⟨d, x⟩], strays := .sentinel :: r.strays } := by
  have hCapture := h.surveyed.capture (h.unknown_of_not_mem hd hStray) hLone x
  rw [if_neg (by simp [Register.census])] at hCapture
  exact of_surveyed rfl h.reserve h.options hCapture (List.nodup_singleton d)

theorem append (h : s.Tracks r) {d : Instant} (hd : d ∉ r.dates) (hStray : d ∉ r.strays) (x : α)
    {reserve : Nat} (hReserve : s.grownSpare.tail.length = reserve) :
    (s.append d x).Tracks { r with entries := r.entries ++ [⟨d, x⟩], reserve } := by
  have hDates : ({ r with entries := r.entries ++ [⟨d, x⟩], reserve } : Register α).dates =
      r.dates ++ [d] := by simp [Register.dates]
  refine of_surveyed (by rw [Series.append, h.points]) hReserve h.options ?_ ?_
  · rw [Register.census, hDates]
    exact h.surveyed.append (h.unknown_of_not_mem hd hStray) x
  · rw [hDates]
    exact List.concat_eq_append ▸ h.distinct.concat hd

theorem insert? (h : s.Tracks r) (d : Instant) (x : α) :
    Meets Tracks (s.insert? d x) (r.add d x) := by
  rw [Register.add]
  have hContains := h.contains d
  rw [Register.contains] at hContains
  split
  · rename_i hd
    obtain ⟨i, hi, hEntry⟩ := h.position_of_mem hd
    have hRoom : s.hasRoom d = true := by simp [hasRoom, hContains, hd]
    rw [insert?_of_hasRoom hRoom, insert_of_position? hi]
    exact .ok (h.revise hEntry x)
  rename_i hd
  split
  · rename_i hStray
    have hRoom : s.hasRoom d = true := by simp [hasRoom, hContains, hStray]
    rw [insert?_of_hasRoom hRoom, insert_of_position? (h.position_of_stray hStray)]
    exact .ok (h.reviseHead x)
  rename_i hStray
  have hUnknown := h.position_of_unknown hd hStray
  split
  · rename_i hLone
    have hFirst := h.isUninitialized_iff.mpr hLone
    have hRoom : s.hasRoom d = true := by simp [hasRoom, hFirst]
    rw [insert?_of_hasRoom hRoom, insert_of_isUninitialized hUnknown hFirst]
    exact .ok (h.capture hd hStray hLone x)
  · rename_i hLone
    have hFirst : s.isUninitialized = false := by
      rw [Bool.eq_false_iff, ne_eq, h.isUninitialized_iff]
      exact hLone
    rw [Register.reserve?]
    by_cases hReserve : 0 < r.reserve
    · have hSpare : 0 < s.spare.length := by rw [← spareCapacity, h.reserve]; exact hReserve
      have hRoom : s.hasRoom d = true := by simp [hasRoom, spareCapacity, hSpare]
      rw [insert?_of_hasRoom hRoom, insert_of_fresh hUnknown hFirst, if_pos hReserve]
      refine .ok (h.append hd hStray x ?_)
      rw [grownSpare, if_neg (by simpa using List.ne_nil_of_length_pos hSpare), List.length_tail,
        ← h.reserve, spareCapacity]
    · have hSpare : s.spare = [] := by
        rw [← List.length_eq_zero_iff, ← spareCapacity, h.reserve]
        omega
      have hRoom : s.hasRoom d = false := by
        simp [hasRoom, hContains, hd, hStray, hFirst, spareCapacity, hSpare]
      rw [insert?_of_not_hasRoom hRoom, insert_of_fresh hUnknown hFirst, if_neg hReserve, h.count,
        h.options]
      split
      · refine .ok (h.append hd hStray x ?_)
        simp [grownSpare, hSpare, h.options]
      · exact .fault

/-- A visible date is removed with its point, and the points behind it move up. -/
theorem withoutPoint (h : s.Tracks r) {d : Instant} (hd : d ∈ r.dates) {i : Nat}
    (hPosition : s.position? d = some i) :
    (s.withoutPoint d i).Tracks
      { r with entries := r.entries.filter fun p => p.date ≠ d, reserve := r.reserve + 1 } := by
  have hStray : d ∉ r.strays := fun hStray => h.apart d hStray hd
  rw [h.surveyed.position] at hPosition
  have hLast : r.dates.lastPosition? d = some i :=
    (Census.lastPosition?_of_known hStray hPosition).2
  have hEntry := ((Calendar.lastPosition?_eq_some_iff _ _ _).mp hLast).1
  have hDates : ({ r with entries := r.entries.eraseIdx i, reserve := r.reserve + 1 } :
      Register α).dates = r.dates.eraseIdx i := by
    rw [Register.dates, Register.dates, List.eraseIdx_map]
  rw [← eraseIdx_eq_filter h.distinct hEntry]
  refine of_surveyed (by rw [Series.withoutPoint, h.points]) (congrArg (· + 1) h.reserve) h.options
    ?_ (hDates ▸ h.distinct.eraseIdx i)
  have hRemoved : r.census.toRoster.remove d = ⟨r.dates.eraseIdx i, []⟩ :=
    Roster.remove_of_nodup h.distinct rfl hLast
  rw [Register.census, hDates, ← hRemoved]
  exact h.surveyed.withoutPoint hStray hPosition

/-- A stray date is removed with the first point, and the index still sends the date of that point
to the first slot. -/
theorem withoutHead (h : s.Tracks r) {d : Instant} (hStray : d ∈ r.strays) {p : Point α}
    {rest : List (Point α)} (hEntries : r.entries = p :: rest) :
    (s.withoutPoint d 0).Tracks
      { r with
        entries := rest
        strays := p.date :: r.strays.filter fun e => e ≠ d
        reserve := r.reserve + 1 } := by
  have hDates : r.dates = p.date :: rest.map Point.date := by
    rw [Register.dates, hEntries, List.map_cons]
  exact of_surveyed (by rw [Series.withoutPoint, h.points, hEntries]; rfl)
    (congrArg (· + 1) h.reserve) h.options (h.surveyed.withoutHead hStray hDates)
    (List.nodup_cons.mp (hDates ▸ h.distinct)).2

/-- Every posting is answered as the register answers it, and keeps the representation. -/
theorem post (h : s.Tracks r) (posting : Posting α) :
    Agree Tracks (s.post posting) (r.post posting) := by
  cases posting with
  | add d x =>
    have hAdd := h.insert? d x
    rw [Series.post, Posting.action, step, perform, Register.post]
    generalize s.insert? d x = outcome, r.add d x = next at hAdd
    cases hAdd with
    | ok hNext => exact .some ⟨rfl, hNext⟩
    | fault => exact .none
  | remove d =>
    rw [Series.post, Posting.action, step, perform, Series.remove, Register.post, Register.remove]
    by_cases hd : d ∈ r.dates
    · obtain ⟨i, hi, hEntry⟩ := h.position_of_mem hd
      have hLt : i < s.count := h.count ▸ Register.lt_length_of_date hEntry
      simp only [hi, hLt, if_true, hd]
      exact .some ⟨rfl, h.withoutPoint hd hi⟩
    · by_cases hStray : d ∈ r.strays
      · simp only [h.position_of_stray hStray, h.count, hd, hStray, if_true, if_false]
        cases hEntries : r.entries with
        | nil => exact .none
        | cons p rest => exact .some ⟨rfl, h.withoutHead hStray hEntries⟩
      · simp only [h.position_of_unknown hd hStray, hd, hStray, if_false]
        exact .some ⟨rfl, h⟩

theorem next_of_post (h : s.Tracks r) {posting : Posting α} {answer : Answer} {t : Series α}
    (hPost : s.post posting = some (answer, t)) :
    ∃ next, r.post posting = some (answer, next) ∧ t.Tracks next := by
  have hAgree := h.post posting
  rw [hPost] at hAgree
  exact hAgree.exists_right

theorem obeys_of_post (h : s.Tracks r) (hStrays : r.strays = []) {posting : Posting α}
    (hKeeps : ¬ Register.Captures r.entries posting) {answer : Answer} {t : Series α}
    (hPost : s.post posting = some (answer, t)) :
    s.Obeys posting t ∧ ∃ next, t.Tracks next ∧ next.strays = [] := by
  obtain ⟨next, hNext, ht⟩ := h.next_of_post hPost
  obtain ⟨hEntries, hNone⟩ := Register.act_of_post hStrays hKeeps hNext
  have hBefore : ∀ d, s.valueOn d = .ok (Posting.valueIn s.points d) := by
    intro d
    rw [h.valueOn, h.points, Register.valueOn_of_no_strays hStrays]
  have hAfter : ∀ d, t.valueOn d = .ok (Posting.valueIn (posting.act s.points) d) := by
    intro d
    rw [ht.valueOn, h.points, ← hEntries, Register.valueOn_of_no_strays hNone]
  refine ⟨⟨?_, ?_, fun d hd => ?_⟩, next, ht, hNone⟩
  · rw [ht.points, hEntries, h.points]
  · rw [hAfter, Posting.valueIn_act, if_pos rfl]
  · refine ⟨_, hBefore d, ?_⟩
    rw [hAfter, Posting.valueIn_act, if_neg hd]

theorem not_obeys_of_captures (h : s.Tracks r) {posting : Posting α}
    (hCaptures : Register.Captures r.entries posting) {answer : Answer} {t : Series α}
    (hPost : s.post posting = some (answer, t)) : ¬ s.Obeys posting t := by
  intro hObeys
  obtain ⟨next, hNext, ht⟩ := h.next_of_post hPost
  obtain ⟨hOne, hTwo⟩ := Register.length_of_captures hCaptures hNext
  have hPoints := congrArg List.length hObeys.points
  rw [ht.points, h.points, hOne, hTwo] at hPoints
  cases hPoints

end Tracks

variable [Hole α]

theorem tracks_empty (options : Options) : (empty options : Series α).Tracks (.blank options) where
  points := rfl
  reserve := rfl
  options := rfl
  position _ := by simp [position?, empty, Register.position?, Register.blank, Register.dates]
  distinct := List.nodup_nil
  apart _ hMem := by cases hMem

/-- A step keeps the dates free of strays exactly if it captures nothing. -/
theorem unstrayed_iff (s : Series α) (posting : Posting α) (result : Answer × Series α)
    (h : ∃ r, s.Tracks r ∧ r.strays = []) (hPost : s.post posting = some result) :
    (∃ r, result.2.Tracks r ∧ r.strays = []) ↔ ¬ Register.Captures s.points posting := by
  obtain ⟨r, h, hStrays⟩ := h
  rw [h.points]
  constructor
  · rintro ⟨r', ht', hNone⟩ hCaptures
    obtain ⟨next, hNext, ht⟩ := h.next_of_post hPost
    have hStray := Register.strays_of_captures hStrays hCaptures hNext
    rw [ht.strays_eq_nil ht' hNone] at hStray
    cases hStray
  · intro hKeeps
    exact (h.obeys_of_post hStrays hKeeps hPost).2

theorem agree_run_empty (options : Options) (postings : List (Posting α)) :
    Agree Tracks (runBy post (empty options) postings)
      (runBy Register.post (.blank options) postings) :=
  agree_runBy (P := fun _ => True) (fun _ _ posting hs _ => hs.post posting) (tracks_empty options)
    postings fun _ _ => trivial

theorem tracks_of_run {options : Options} {postings : List (Posting α)} {s : Series α}
    (hs : (runBy post (empty options) postings).map Prod.snd = some s) : ∃ r, s.Tracks r := by
  have hAgree := agree_run_empty options postings
  obtain ⟨result, hRun, rfl⟩ := Option.map_eq_some_iff.mp hs
  rw [hRun] at hAgree
  obtain ⟨r, -, hTracks⟩ := hAgree.exists_right
  exact ⟨r, hTracks⟩

/-- Every history of additions and removals is answered as its register answers it. It obeys every
posting exactly if no new date follows on a lone point at the sentinel. -/
theorem postings_obeyed_iff (options : Options) (postings : List (Posting α)) :
    Agree Reads (runBy post (empty options) postings)
      (runBy Register.post (.blank options) postings) ∧
    ∀ result, runBy post (empty options) postings = some result →
      ((∀ before posting rest, postings = before ++ posting :: rest →
          ∀ s, (runBy post (empty options) before).map Prod.snd = some s →
            ∀ answer t, s.post posting = some (answer, t) → s.Obeys posting t) ↔
        ∀ before d x rest, postings = before ++ .add d x :: rest →
          ∀ s, (runBy post (empty options) before).map Prod.snd = some s →
            s.dates = [.sentinel] → d = .sentinel) := by
  refine ⟨(agree_run_empty options postings).mono fun _ _ ht => ht.reads, fun result hRun => ?_⟩
  have hStart : ∃ r, (empty options : Series α).Tracks r ∧ r.strays = [] :=
    ⟨_, tracks_empty options, rfl⟩
  constructor
  · intro hObeyed before d x rest hSplit s hs hLone
    by_contra hNe
    obtain ⟨⟨answer, t⟩, hPost⟩ := step_of_run hRun hSplit hs
    obtain ⟨r, hTracks⟩ := tracks_of_run hs
    have hCaptures : Register.Captures r.entries (.add d x) := by
      rw [← hTracks.points]
      exact ⟨hLone, hNe⟩
    have hHere := hObeyed before _ rest hSplit s hs answer t hPost
    exact hTracks.not_obeys_of_captures hCaptures hPost hHere
  · intro hNever
    have hKeeps : ∀ before posting rest, postings = before ++ posting :: rest →
        ∀ s, (runBy post (empty options) before).map Prod.snd = some s →
          ¬ Register.Captures s.points posting := by
      intro before posting rest hSplit s hs hCaptures
      cases posting with
      | add d x => exact hCaptures.2 (hNever before d x rest hSplit s hs hCaptures.1)
      | remove d => exact hCaptures
    have hUnstrayed := (always_iff unstrayed_iff hStart hRun).mpr hKeeps
    intro before posting rest hSplit s hs answer t hPost
    obtain ⟨r, hTracks, hStrays⟩ := hUnstrayed before (posting :: rest) hSplit s hs
    have hHere := hKeeps before posting rest hSplit s hs
    rw [hTracks.points] at hHere
    exact (hTracks.obeys_of_post hStrays hHere hPost).1

/-- The second date takes the slot of a first point at the sentinel, whose date then answers with
the value of the second. -/
theorem sentinel_point_is_captured : ∃ t : Series Float,
    runBy post (empty default) [.add .sentinel 1, .add .latest 2] = some ([.done, .done], t) ∧
      t.dates = [.latest] ∧ t.valueOn .sentinel = .ok 2 ∧
      ¬ ∀ before posting rest,
        [Posting.add .sentinel (1 : Float), .add .latest 2] = before ++ posting :: rest →
          ∀ s, (runBy post (empty default) before).map Prod.snd = some s →
            ∀ answer t, s.post posting = some (answer, t) → s.Obeys posting t := by
  have hFirst : runBy Register.post (.blank default) [.add .sentinel (1 : Float)] =
      some ([.done], ⟨[⟨.sentinel, 1⟩], [], 0, default⟩) := by rfl
  have hBoth : runBy Register.post (.blank default) [.add .sentinel (1 : Float), .add .latest 2] =
      some ([.done, .done], ⟨[⟨.latest, 2⟩], [.sentinel], 0, default⟩) := by rfl
  obtain ⟨hAgreeFirst, -⟩ := postings_obeyed_iff default [.add .sentinel (1 : Float)]
  obtain ⟨hAgree, hIff⟩ := postings_obeyed_iff default [.add .sentinel (1 : Float), .add .latest 2]
  rw [hFirst] at hAgreeFirst
  rw [hBoth] at hAgree
  obtain ⟨s, hRunFirst, hReadsFirst⟩ := hAgreeFirst.exists_left
  obtain ⟨t, hRun, hReads⟩ := hAgree.exists_left
  refine ⟨t, hRun, hReads.dates, hReads.value .sentinel, fun hObeyed => ?_⟩
  have hSame := (hIff _ hRun).mp hObeyed [.add .sentinel 1] .latest 2 [] rfl s
    (congrArg (Option.map Prod.snd) hRunFirst) hReadsFirst.dates
  exact absurd hSame (by decide)

end Series
end Almanac
