import Mathlib.Algebra.BigOperators.Group.List.Defs
import Mathlib.Algebra.Field.Defs
import Almanac.Scalar

/-! # Exact scalars with a hole

The elements of a field, and one hole that takes in whatever it is added to, subtracted from,
multiplied with or divided by. What is proved of them is what a calculation means before rounding.
-/
namespace Almanac
set_option autoImplicit false

inductive Gapped (K : Type) where
  | gap
  | exact (x : K)
deriving DecidableEq

namespace Gapped
variable {K : Type}

def lift (f : K → K → K) : Gapped K → Gapped K → Gapped K
  | exact x, exact y => exact (f x y)
  | _, _ => gap

/-- The element itself, or zero for the hole. -/
def amount [Zero K] : Gapped K → K
  | gap => 0
  | exact x => x

instance : Hole (Gapped K) where
  hole := gap
  isHole | gap => true | exact _ => false
  isFinite | gap => false | exact _ => true
  isHole_hole := rfl
  isFinite_hole := rfl

instance [Zero K] : Zero (Gapped K) := ⟨exact 0⟩
instance [One K] : One (Gapped K) := ⟨exact 1⟩
instance [NatCast K] : NatCast (Gapped K) := ⟨fun n => exact n⟩
instance [IntCast K] : IntCast (Gapped K) := ⟨fun n => exact n⟩
instance [Add K] : Add (Gapped K) := ⟨lift (· + ·)⟩
instance [Sub K] : Sub (Gapped K) := ⟨lift (· - ·)⟩
instance [Mul K] : Mul (Gapped K) := ⟨lift (· * ·)⟩
instance [Div K] : Div (Gapped K) := ⟨lift (· / ·)⟩

theorem exact_add [Add K] (x y : K) : exact x + exact y = exact (x + y) := rfl

theorem exact_mul [Mul K] (x y : K) : exact x * exact y = exact (x * y) := rfl

theorem exact_div [Div K] (x y : K) : exact x / exact y = exact (x / y) := rfl

theorem gap_add [Add K] (x : Gapped K) : gap + x = gap := rfl

theorem gap_mul [Mul K] (x : Gapped K) : gap * x = gap := rfl

theorem mul_gap [Mul K] (x : Gapped K) : x * gap = gap := by cases x <;> rfl

theorem gap_div [Div K] (x : Gapped K) : gap / x = gap := rfl

theorem eq_gap_of_isHole {x : Gapped K} (h : isHole x = true) : x = gap := by
  cases x with
  | gap => rfl
  | exact x => cases h

theorem eq_exact_amount [Zero K] {x : Gapped K} (h : isHole x = false) : x = exact x.amount := by
  cases x with
  | gap => cases h
  | exact x => rfl

theorem exists_map_exact {β : Type} {f : β → Gapped K} {P : K → Prop} {xs : List β}
    (h : ∀ b ∈ xs, ∃ y, f b = exact y ∧ P y) :
    ∃ ys : List K, xs.map f = ys.map exact ∧ ∀ y ∈ ys, P y := by
  induction xs with
  | nil => exact ⟨[], rfl, by simp⟩
  | cons b xs ih =>
    obtain ⟨⟨y, hy, hHolds⟩, hRest⟩ := List.forall_mem_cons.mp h
    obtain ⟨ys, hys, hAll⟩ := ih hRest
    refine ⟨y :: ys, ?_, List.forall_mem_cons.mpr ⟨hHolds, hAll⟩⟩
    rw [List.map_cons, hy, hys, List.map_cons]

theorem foldl_add_exact [AddMonoid K] (xs : List K) (x : K) :
    (xs.map exact).foldl (· + ·) (exact x) = exact (x + xs.sum) := by
  induction xs generalizing x with
  | nil => rw [List.map_nil, List.foldl_nil, List.sum_nil, add_zero]
  | cons y xs ih => rw [List.map_cons, List.foldl_cons, exact_add, ih, List.sum_cons, add_assoc]

/-- A hole that is replaced by zero leaves the amount. -/
theorem filled_eq [Zero K] (x : Gapped K) : (if isHole x then 0 else x) = exact x.amount := by
  cases x <;> rfl

end Gapped
end Almanac
