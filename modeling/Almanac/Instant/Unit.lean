import Almanac.Instant.Basic

/-! # Units of time

The units that a grid of instants is laid in: the length of each, the start of the unit that an
instant lies in, and the grid itself.
-/
namespace Almanac
set_option autoImplicit false

inductive TimeUnit where
  | second
  | minute
  | hour
  | day
deriving DecidableEq, Repr

instance : Inhabited TimeUnit := ⟨.day⟩

namespace TimeUnit

def seconds : TimeUnit → Nat
  | second => 1
  | minute => 60
  | hour => 3600
  | day => 86400

/-- Clears every field of a time of day that is finer than the unit. -/
def clear : TimeUnit → Clock → Clock
  | second, c => { c with nano := 0 }
  | minute, c => { c with second := 0, nano := 0 }
  | hour, c => { c with minute := 0, second := 0, nano := 0 }
  | day, _ => .midnight

def truncate (unit : TimeUnit) (t : Instant) : Instant := t.withClock (unit.clear t.clock)

def step (unit : TimeUnit) (count : Nat) : Nat := count * unit.seconds

end TimeUnit

namespace Instant

/-- The instants from `t` up to `last`, a fixed number of seconds apart. The grid ends early where
the calendar does, and after `fuel` instants. -/
def gridFrom (last : Instant) (seconds : Nat) : Nat → Instant → List Instant
  | 0, _ => []
  | fuel + 1, t =>
    if t ≤ last then
      match t.after? seconds with
      | some next => t :: gridFrom last seconds fuel next
      | none => [t]
    else []

/-- The whole grid; it has one instant more than there are steps up to `last`. -/
def grid (start last : Instant) (seconds : Nat) : List Instant :=
  let steps := (last.nanos - start.nanos) / (seconds * nanosPerSecond)
  gridFrom last seconds (steps + 1).toNat start

end Instant

end Almanac
