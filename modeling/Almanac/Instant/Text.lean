import Almanac.Instant.Basic

/-! # Text of an instant

Year, month and day, a separator, then the time with a fraction of the fewest of 3, 6 or 9 digits
that is exact. Years 0 to 9999 have four digits, other years a sign and at least four digits.
-/
namespace Almanac.Instant
set_option autoImplicit false

/-- A natural number in at least `width` digits. -/
def padded (width n : Nat) : String :=
  let digits := Nat.toDigits 10 n
  String.ofList (List.replicate (width - digits.length) '0' ++ digits)

def yearText (year : Int) : String :=
  if 0 ≤ year ∧ year ≤ 9999 then padded 4 year.toNat
  else (if year < 0 then "-" else "+") ++ padded 4 year.natAbs

def fractionText (nano : Nat) : String :=
  if nano = 0 then ""
  else if nano % 1000000 = 0 then "." ++ padded 3 (nano / 1000000)
  else if nano % 1000 = 0 then "." ++ padded 6 (nano / 1000)
  else "." ++ padded 9 nano

def textWith (separator : String) (t : Instant) : String :=
  let d := t.civil
  let c := t.clock
  yearText d.year ++ "-" ++ padded 2 d.month ++ "-" ++ padded 2 d.day ++ separator ++
    padded 2 c.hour ++ ":" ++ padded 2 c.minute ++ ":" ++ padded 2 c.second ++ fractionText c.nano

def text (t : Instant) : String := t.textWith " "

def record (t : Instant) : String := t.textWith "T"

def numeral? (cs : List Char) : Option Nat := (String.ofList cs).toNat?

/-- A fraction of a second of at most nine digits, in nanoseconds. -/
def fraction? : List Char → Option Nat
  | [] => some 0
  | '.' :: digits =>
    if digits.length ≤ 9 then numeral? (digits ++ List.replicate (9 - digits.length) '0') else none
  | _ => none

def clock? (cs : List Char) : Option Clock := do
  let [hour, minute, rest] := cs.splitOn ':' | none
  let hour ← numeral? hour
  let minute ← numeral? minute
  let second ← numeral? (rest.take 2)
  let nano ← fraction? (rest.drop 2)
  if hour < 24 ∧ minute < 60 ∧ second < 60 then some ⟨hour, minute, second, nano⟩ else none

def civil? (negative : Bool) (cs : List Char) : Option Civil.CivilDate := do
  let [year, month, day] := cs.splitOn '-' | none
  let year ← numeral? year
  let month ← numeral? month
  let day ← numeral? day
  let year : Int := if negative then -year else year
  let length ← (Civil.monthLengths (Civil.isLeap year))[month - 1]?
  if 1 ≤ month ∧ 1 ≤ day ∧ day ≤ length then some ⟨year, month, day⟩ else none

/-- Reads a record text; the sign of the year may be left out. -/
def ofRecord? (s : String) : Option Instant := do
  let (negative, cs) :=
    match s.toList with
    | '-' :: cs => (true, cs)
    | '+' :: cs => (false, cs)
    | cs => (false, cs)
  let [date, time] := cs.splitOn 'T' | none
  ofDayAndClock? (← civil? negative date).toDay (← clock? time)

end Almanac.Instant
