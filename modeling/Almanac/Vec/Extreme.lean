import Almanac.Vec.Basic

/-! # Extreme elements

The position of the first element whose projection wins a strict comparison against all others.
-/
namespace Almanac.Vec
set_option autoImplicit false

variable {α : Type} [Zero α]

/-- Walks the positions from one on with the best position so far and its projection. -/
def extremeIndex (project : α → α) (better : α → α → Bool) (v : Vec α) : Nat :=
  let start := (0, project (v.entry 0))
  ((List.range' 1 (v.count - 1)).foldl (fun best i =>
    let candidate := project (v.entry i)
    if better candidate best.2 then (i, candidate) else best) start).1

variable [LT α] [DecidableLT α]

def maximumIndex (v : Vec α) : Nat := v.extremeIndex id fun a b => b < a

def minimumIndex (v : Vec α) : Nat := v.extremeIndex id fun a b => a < b

def maximum (v : Vec α) : α := v.entry v.maximumIndex

def minimum (v : Vec α) : α := v.entry v.minimumIndex

variable [Magnitude α]

def absoluteMaximumIndex (v : Vec α) : Nat := v.extremeIndex abs fun a b => b < a

def absoluteMinimumIndex (v : Vec α) : Nat := v.extremeIndex abs fun a b => a < b

def absoluteMaximum (v : Vec α) : α := abs (v.entry v.absoluteMaximumIndex)

def absoluteMinimum (v : Vec α) : α := abs (v.entry v.absoluteMinimumIndex)

end Almanac.Vec
