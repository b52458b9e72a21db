import Almanac.Series.Error

/-! # Options and policies of series

How a series grows, and the choices that a caller makes when a date is looked up, when two
calendars meet and when a window of dates is cut.
-/
namespace Almanac.Series
set_option autoImplicit false

/-- The number of slots that a series gains when an append finds none spare. -/
structure Options where
  growthChunk : Nat
  positive : 0 < growthChunk
deriving DecidableEq, Repr

namespace Options

def standard : Options := ⟨260, by decide⟩

instance : Inhabited Options := ⟨standard⟩

def ofChunk? (growthChunk : Nat) : Checked Options :=
  if h : 0 < growthChunk then .ok ⟨growthChunk, h⟩ else refuse (.notPositive "growth_chunk")

end Options

/-- Which neighbour stands in for a date that is not observed. -/
inductive Direction where
  | previous
  | next
deriving DecidableEq, Repr

instance : Inhabited Direction := ⟨.previous⟩

/-- How a series is put on another calendar: the value on the date itself, the last value up to the
date, or the value on the dates that all calendars share. -/
inductive SyncMethod where
  | exact
  | latest
  | union
deriving DecidableEq, Repr

instance : Inhabited SyncMethod := ⟨.latest⟩

/-- What a window of dates holds: the observed points, or one point a day. -/
inductive Filling where
  | observed
  | daily
deriving DecidableEq, Repr

instance : Inhabited Filling := ⟨.observed⟩

end Almanac.Series
