import Almanac.Proofs.Series.Action
import Almanac.Proofs.Series.Index
import Almanac.Proofs.Series.Points

/-! # Series as ledgers

A ledger lists dated values in the order in which their dates came, each date once. A series and its
ledger answer a history alike, and after it every lookup through the index answers as the list does.
-/
namespace Almanac
set_option autoImplicit false

/-- Dated values in the order of insertion, and the number of slots in reserve. A placeholder stands
at the sentinel and answers to no date. -/
structure Ledger (α : Type) where
  entries : List (Point α)
  reserve : Nat
  options : Series.Options

namespace Ledger
variable {α : Type}

section Read
variable (l : Ledger α)

def dates : Calendar := l.entries.map Point.date

/-- The entries that answer to their dates. -/
def known : List (Point α) := l.entries.filter fun p => p.date ≠ .sentinel

def contains (d : Instant) : Bool := d ∈ l.known.map Point.date

def position? (d : Instant) : Option Nat := (l.known.map Point.date).idxOf? d

def value [Hole α] (d : Instant) : α :=
  ((l.known.find? fun p => p.date = d).map Point.value).getD hole

end Read

section Change

def revise (l : Ledger α) (d : Instant) (x : α) : Ledger α :=
  { l with entries := l.entries.map fun p => if p.date = d then { p with value := x } else p }

/-- The reserve once a new date has its slot: that of the placeholder, one in reserve, or the first
one of a new chunk, which has to fit the machine. -/
def reserve? (l : Ledger α) : Option Nat :=
  if .sentinel ∈ l.dates then some l.reserve
  else if 0 < l.reserve then some (l.reserve - 1)
  else if l.entries.length + l.options.growthChunk < bufferBound then
    some (l.options.growthChunk - 1)
  else none

def add (l : Ledger α) (d : Instant) (x : α) : Option (Ledger α) :=
  if l.contains d then some (l.revise d x)
  else l.reserve?.map fun reserve => { l with entries := l.known ++ [⟨d, x⟩], reserve }

def addAll (l : Ledger α) (points : List (Point α)) : Option (Ledger α) :=
  points.foldlM (fun l p => l.add p.date p.value) l

def remove (l : Ledger α) (d : Instant) : Ledger α :=
  if l.contains d then
    { l with entries := l.entries.filter fun p => p.date ≠ d, reserve := l.reserve + 1 }
  else l

def sort (l : Ledger α) : Ledger α :=
  { l with entries := l.entries.insertionSort fun p q => p.date ≤ q.date }

open Series in
def step (l : Ledger α) : Action α → Option (Answer × Ledger α)
  | .add d x => (l.add d x).map fun m => (.done, m)
  | .extend points => (l.addAll points).map fun m => (.done, m)
  | .remove d => some (.removed (l.contains d), l.remove d)
  | .setValue i x =>
    if i < l.entries.length then
      some (.done, { l with entries := l.entries.modify i fun p => { p with value := x } })
    else some (.refused (.indexOutOfRange "index" i l.entries.length), l)
  | .setValueOn d x =>
    if l.contains d then some (.done, l.revise d x)
    else some (.refused (.dateNotFound d), l)
  | .sort => some (.done, l.sort)

def run : Ledger α → List (Series.Action α) → Option (List Series.Answer × Ledger α) := runBy step

end Change

section Start
variable [Hole α]

/-- Points without a slot in reserve, or one slot in reserve and no points. -/
def ofPoints (points : List (Point α)) : Ledger α :=
  ⟨points, if points.isEmpty then 1 else 0, default⟩

def ofOrigin? : Series.Origin α → Option (Ledger α)
  | .uninitialized options => some ⟨[.blank], 0, options⟩
  | .empty => some (ofPoints [])
  | .ofSize size calendar =>
    if size ≤ calendar.length then
      some (ofPoints ((calendar.take size).map fun d => ⟨d, hole⟩))
    else none
  | .ofCalendar calendar values =>
    if values.length ≤ calendar.length then some (ofPoints (List.zipWith Point.mk calendar values))
    else none
  | .collect points => (ofPoints []).addAll points

end Start
end Ledger

namespace Series
variable {α : Type}

/-- The points and the reserve: all slots that a series has. -/
def slots (s : Series α) : List (Point α) := s.points ++ s.spare

/-- A series answers as a ledger does, through the points as through the index, and holds blank slots
in reserve. -/
structure Shows [Hole α] (s : Series α) (l : Ledger α) : Prop where
  distinct : l.dates.Nodup
  points : s.points = l.entries
  count : s.count = l.entries.length
  dates : s.dates = l.dates
  values : s.values = l.entries.map Point.value
  contains : ∀ d, s.contains d = l.contains d
  position : ∀ d, s.position? d = l.position? d
  value : ∀ d, s.valueOn d = .ok (l.value d)
  dateSlots : (s.slots.map Point.date).length = s.count + s.spareCapacity
  valueSlots : (s.slots.map Point.value).length = s.count + s.spareCapacity
  reserve : s.spareCapacity = l.reserve
  blank : s.slots.drop s.count = List.replicate l.reserve .blank
  options : s.options = l.options

/-- What a history keeps: one list of points, and an index that misses at most the sentinel, which
stands for a placeholder alone. -/
structure Represents [Hole α] (s : Series α) (l : Ledger α) : Prop where
  points : s.points = l.entries
  spare : s.spare = List.replicate l.reserve .blank
  options : s.options = l.options
  indexed : s.IndexedBut [.sentinel]
  distinct : l.dates.Nodup
  placeholder : .sentinel ∈ l.dates → ∃ x, l.entries = [⟨.sentinel, x⟩]

section Lookup
variable [Hole α] {s : Series α} {l : Ledger α}

omit [Hole α] in
theorem known_of_not_mem (h : .sentinel ∉ l.dates) : l.known = l.entries := by
  apply List.filter_eq_self.mpr
  intro p hp
  simpa using date_ne_of_fresh h hp

omit [Hole α] in
theorem known_of_placeholder {x : α} (h : l.entries = [⟨.sentinel, x⟩]) : l.known = [] := by
  simp [Ledger.known, h]

omit [Hole α] in
theorem contains_eq_isSome_position? (d : Instant) : l.contains d = (l.position? d).isSome := by
  rw [Bool.eq_iff_iff, Ledger.contains, decide_eq_true_eq, Ledger.position?, List.isSome_idxOf?]

namespace Represents

theorem dates_eq (h : s.Represents l) : s.dates = l.dates := by
  rw [Series.dates, h.points, Ledger.dates]

theorem count_eq (h : s.Represents l) : s.count = l.entries.length := by
  rw [Series.count, h.points]

theorem position?_eq (h : s.Represents l) (d : Instant) : s.position? d = l.position? d := by
  rw [h.indexed d, h.dates_eq, Ledger.position?]
  by_cases hSentinel : .sentinel ∈ l.dates
  · obtain ⟨x, hEntries⟩ := h.placeholder hSentinel
    rw [known_of_placeholder hEntries, Ledger.dates, hEntries, List.map_singleton]
    by_cases hd : d = .sentinel
    · simp [hd]
    · simp [hd]
  · rw [known_of_not_mem hSentinel, Calendar.lastPosition?_eq_idxOf? h.distinct]
    by_cases hd : d = .sentinel
    · subst hd
      simpa [Ledger.dates] using (List.idxOf?_eq_none_iff.mpr hSentinel).symm
    · simp [hd, Ledger.dates]

theorem contains_eq (h : s.Represents l) (d : Instant) : s.contains d = l.contains d := by
  rw [contains_eq_isSome, h.position?_eq, contains_eq_isSome_position?]

theorem not_sentinel_of_position? (h : s.Represents l) {d : Instant} {i : Nat}
    (hd : s.position? d = some i) : .sentinel ∉ l.dates := by
  intro hSentinel
  obtain ⟨x, hEntries⟩ := h.placeholder hSentinel
  rw [h.position?_eq, Ledger.position?, known_of_placeholder hEntries] at hd
  cases hd

theorem valueOn_eq (h : s.Represents l) (d : Instant) : s.valueOn d = .ok (l.value d) := by
  rw [valueOn, Ledger.value, find?_date, ← Ledger.position?, ← h.position?_eq]
  cases hd : s.position? d with
  | none => rfl
  | some i =>
    have hLt : i < l.entries.length := h.count_eq ▸ h.indexed.lt_count hd
    rw [known_of_not_mem (h.not_sentinel_of_position? hd), valueOrHole, valueAt, value?, h.points]
    simp [hLt, present]

theorem shows (h : s.Represents l) : s.Shows l where
  distinct := h.distinct
  points := h.points
  count := h.count_eq
  dates := h.dates_eq
  values := by rw [Series.values, h.points]
  contains := h.contains_eq
  position := h.position?_eq
  value := h.valueOn_eq
  dateSlots := by simp [slots, Series.count, spareCapacity]
  valueSlots := by simp [slots, Series.count, spareCapacity]
  reserve := by simp [spareCapacity, h.spare]
  blank := by simp [slots, Series.count, h.spare]
  options := h.options

end Represents
end Lookup

end Series
end Almanac
