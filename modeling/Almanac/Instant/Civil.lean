/-! # Civil dates

The proleptic Gregorian calendar on day numbers. Day zero is the first of January of year zero, and
years before it count down.
-/
namespace Almanac.Civil
set_option autoImplicit false

structure CivilDate where
  year : Int
  month : Nat
  day : Nat
deriving DecidableEq, Repr

def isLeap (year : Int) : Bool :=
  year % 4 = 0 && (year % 100 ≠ 0 || year % 400 = 0)

/-- The day number of the first of January. -/
def yearStart (year : Int) : Int :=
  365 * year + (year + 3) / 4 - (year + 99) / 100 + (year + 399) / 400

/-- The year that holds a day; the mean year length misses it by one at most. -/
def yearOf (day : Int) : Int :=
  let year := 400 * day / 146097
  if day < yearStart year then year - 1
  else if yearStart (year + 1) ≤ day then year + 1
  else year

def monthLengths (leap : Bool) : List Nat :=
  [31, if leap then 29 else 28, 31, 30, 31, 30, 31, 31, 30, 31, 30, 31]

/-- The month and the day of the month, from a list of month lengths and the days that went by. -/
def monthAndDay (month elapsed : Nat) : List Nat → Nat × Nat
  | [] => (month, elapsed + 1)
  | length :: rest =>
    if elapsed < length then (month, elapsed + 1)
    else monthAndDay (month + 1) (elapsed - length) rest

def ofDay (day : Int) : CivilDate :=
  let year := yearOf day
  let (month, dayOfMonth) := monthAndDay 1 (day - yearStart year).toNat (monthLengths (isLeap year))
  ⟨year, month, dayOfMonth⟩

def CivilDate.toDay (date : CivilDate) : Int :=
  let earlierMonths := (monthLengths (isLeap date.year)).take (date.month - 1)
  let elapsed : Nat := earlierMonths.foldl (· + ·) 0
  yearStart date.year + elapsed + date.day - 1

end Almanac.Civil
