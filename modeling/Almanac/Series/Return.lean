import Almanac.Series.Replacement
import Almanac.Series.Synchronization

/-! # Logarithms and returns

A return relates an observation to the position before it, so the first date has none. The total
return compounds price ratios from the first price on and adds what was paid on each date.
-/
namespace Almanac.Series
set_option autoImplicit false

variable {α : Type} [Hole α]

section Logarithm
variable [Zero α] [Elementary α] [LT α] [DecidableLT α]

def logarithm (s : Series α) : Series α := s.mapObserved fun x => if 0 < x then log x else hole

end Logarithm

/-- A function of each value and the one before it, from the second date on. -/
def lagged (f : (before now : α) → α) (s : Series α) : Series α :=
  s.derived (List.zipWith (fun p q => ⟨q.date, f p.value q.value⟩) s.points s.points.tail)

def logReturn [Div α] [Elementary α] (s : Series α) : Series α :=
  s.lagged fun before now => finiteOr hole (log (now / before))

def ratioReturn [One α] [Sub α] [Div α] (s : Series α) : Series α :=
  s.lagged fun before now => finiteOr hole (now / before - 1)

def differenceReturn [Zero α] [Sub α] (s : Series α) : Series α :=
  s.lagged fun before now => finiteOr 0 (now - before)

section TotalReturn
variable [Add α] [Mul α] [Div α]

/-- The levels after a price: each is the last one times the price ratio, and what is paid. -/
def compound (level price : α) : List α → List α → List α
  | next :: prices, paid :: payments =>
    let now := level * (next / price) + paid
    now :: compound now next prices payments
  | _, _ => []

/-- The levels from the first price on, with leading holes kept. -/
def returnLevels (prices payments : List α) : List α :=
  let leading := prices.takeWhile isHole
  match prices.drop leading.length with
  | [] => prices
  | price :: rest =>
    leading ++ price :: compound price price rest (payments.drop (leading.length + 1))

/-- What is paid on each date of `s`; a date without a payment counts as zero. -/
def payments [Zero α] (s dividends : Series α) : Checked (List α) := do
  if s.dates = dividends.dates then return (dividends.fillHoles 0).values
  else return ((← s.synchronize dividends .exact).fillHoles 0).values

def totalReturn [Zero α] (s dividends : Series α) : Checked (Series α) := do
  let payments ← s.payments dividends
  return s.derived (List.zipWith Point.mk s.dates (returnLevels s.values payments))

end TotalReturn
end Almanac.Series
