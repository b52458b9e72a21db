import Almanac.Instant.Civil

/-! # Instants

An instant is a civil date with a time of day to the nanosecond, kept as the nanoseconds since the
midnight that opens year zero. Days have 24 hours and the years run from -262143 to 262142. The
instants inside a leap second, which a clock shows as second 60 of a minute, are left out.
-/
namespace Almanac
set_option autoImplicit false

def nanosPerSecond : Int := 1000000000

def nanosPerDay : Int := 86400 * nanosPerSecond

namespace Instant

def leastNanos : Int := Civil.yearStart (-262143) * nanosPerDay

def greatestNanos : Int := Civil.yearStart 262143 * nanosPerDay - 1

end Instant

structure Instant where
  nanos : Int
  least_le : Instant.leastNanos ≤ nanos
  le_greatest : nanos ≤ Instant.greatestNanos
deriving DecidableEq

namespace Instant

instance : Hashable Instant := ⟨fun t => hash t.nanos⟩

instance : LE Instant := ⟨fun s t => s.nanos ≤ t.nanos⟩

instance : LT Instant := ⟨fun s t => s.nanos < t.nanos⟩

instance : DecidableLE Instant := fun s t => inferInstanceAs (Decidable (s.nanos ≤ t.nanos))

instance : DecidableLT Instant := fun s t => inferInstanceAs (Decidable (s.nanos < t.nanos))

/-- The first instant. It marks a slot that holds no observation. -/
def sentinel : Instant := ⟨leastNanos, by decide, by decide⟩

def latest : Instant := ⟨greatestNanos, by decide, by decide⟩

instance : Inhabited Instant := ⟨sentinel⟩

def ofNanos? (n : Int) : Option Instant :=
  if h : leastNanos ≤ n ∧ n ≤ greatestNanos then some ⟨n, h.1, h.2⟩ else none

/-- The instant a number of seconds later, when there is one. -/
def after? (t : Instant) (seconds : Nat) : Option Instant :=
  ofNanos? (t.nanos + seconds * nanosPerSecond)

def day (t : Instant) : Int := t.nanos / nanosPerDay

def civil (t : Instant) : Civil.CivilDate := Civil.ofDay t.day

/-- The number of the month, counted from the first month of year zero. -/
def month (t : Instant) : Int := t.civil.year * 12 + t.civil.month - 1

/-- The whole seconds from one instant to another, cut toward zero. -/
def secondsSince (t earlier : Instant) : Int := (t.nanos - earlier.nanos).tdiv nanosPerSecond

end Instant

structure Clock where
  hour : Nat
  minute : Nat
  second : Nat
  nano : Nat
deriving DecidableEq, Repr

namespace Clock

def midnight : Clock := ⟨0, 0, 0, 0⟩

def ofNanos (n : Nat) : Clock :=
  let seconds := n / 1000000000
  ⟨seconds / 3600, seconds / 60 % 60, seconds % 60, n % 1000000000⟩

def toNanos (c : Clock) : Nat :=
  ((c.hour * 60 + c.minute) * 60 + c.second) * 1000000000 + c.nano

end Clock

namespace Instant

def clock (t : Instant) : Clock := .ofNanos (t.nanos % nanosPerDay).toNat

def ofDayAndClock? (day : Int) (clock : Clock) : Option Instant :=
  ofNanos? (day * nanosPerDay + clock.toNanos)

/-- The same day at another time, or the instant itself where that time is no instant. -/
def withClock (t : Instant) (clock : Clock) : Instant :=
  (ofDayAndClock? t.day clock).getD t

end Instant
end Almanac
