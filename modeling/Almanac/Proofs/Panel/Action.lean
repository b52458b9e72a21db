import Almanac.Proofs.Edit
import Almanac.Proofs.Series.Action
import Almanac.Panel

/-! # Actions on a panel

The ways to change a panel, as data. A member is changed by an action of its own, found by its
position or by its name; where there is none, the panel stays as it is. A fault has no answer.
-/
namespace Almanac.Panel
set_option autoImplicit false

inductive Action (α : Type) where
  | add (name : String) (s : Series α)
  | setValue (position time : Nat) (value : α)
  | change (position : Nat) (action : Series.Action α)
  | changeNamed (name : String) (action : Series.Action α)

inductive Answer where
  | done
  | absent
  | changed (answer : Series.Answer)
  | refused (reason : Series.Error)
deriving DecidableEq

variable {α : Type}

def answered : Series.Checked Unit × Panel α → Option (Answer × Panel α)
  | (.ok (), panel) => some (.done, panel)
  | (.error (.refused reason), panel) => some (.refused reason, panel)
  | (.error .fault, _) => none

variable [Hole α]

def changeAt (panel : Panel α) (position : Nat) (action : Series.Action α) :
    Option (Answer × Panel α) :=
  match panel.series? position with
  | some s => (s.step action).map fun r => (.changed r.1, panel.withSeries position r.2)
  | none => some (.absent, panel)

def step (panel : Panel α) : Action α → Option (Answer × Panel α)
  | .add name s => answered (Edit.runOn panel (add name s))
  | .setValue position time x => answered (Edit.runOn panel (setValue position time x))
  | .change position action => panel.changeAt position action
  | .changeNamed name action =>
    match panel.position? name with
    | some position => panel.changeAt position action
    | none => some (.absent, panel)

def run : Panel α → List (Action α) → Option (List Answer × Panel α) := runBy step

end Almanac.Panel
