/-! # Outcomes: values, refusals and faults

A refused call names its reason and changes nothing that its caller relies on. A fault is an access
outside a buffer or a position outside the machine range; nothing is answered after it.
-/
namespace Almanac
set_option autoImplicit false

inductive Failure (ε : Type) where
  | refused (reason : ε)
  | fault
deriving DecidableEq, Repr

/-- Reasons of refusals: the name of each kind, and the wording. -/
class Reason (ε : Type) where
  kind : ε → String
  message : ε → String

abbrev Outcome (ε α : Type) := Except (Failure ε) α

/-- A change of a state that may stop early: the state is what it is when the change stops. -/
abbrev Edit (ε σ α : Type) := ExceptT (Failure ε) (StateM σ) α

section
variable {ε δ σ α : Type}

def refuse (reason : ε) : Outcome ε α := .error (.refused reason)

def fault : Outcome ε α := .error .fault

/-- What is looked up has to be there. -/
def present : Option α → Outcome ε α
  | some x => .ok x
  | none => .error .fault

/-- The same outcome with its reason put in the terms of a caller. -/
def withReason (f : ε → δ) : Outcome ε α → Outcome δ α
  | .ok x => .ok x
  | .error (.refused reason) => .error (.refused (f reason))
  | .error .fault => .error .fault

def outcomeOf : Except ε α → Outcome ε α
  | .ok x => .ok x
  | .error reason => .error (.refused reason)

namespace Edit

def current : Edit ε σ σ := get

/-- Stops with the failure of a check. -/
def require (check : Outcome ε Unit) : Edit ε σ Unit := liftM check

def write (f : σ → σ) : Edit ε σ Unit := modify f

end Edit

/-- The state that a change makes of `start`. -/
def Edit.result (start : σ) (change : Edit ε σ Unit) : Outcome ε σ :=
  match change.run.run start with
  | (.ok _, done) => .ok done
  | (.error failure, _) => .error failure

end

/-- Positions and lengths are words of 64 bits. -/
def wordBound : Nat := .pow 2 64

/-- One buffer holds fewer elements than this. -/
def bufferBound : Nat := .pow 2 60

/-- A new buffer has to fit the machine. -/
def checkAllocation {ε : Type} (count : Nat) : Outcome ε Unit :=
  if count < bufferBound then .ok () else fault

end Almanac
