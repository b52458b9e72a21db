import Mathlib
import Almanac.Scalar

/-! # Doubles

Two doubles are equal if they are one double that is no hole, or zero and negative zero. The words
of equal doubles are therefore the same, up to the sign bit of the zeros. A product of doubles
depends on its factors only through the products of their signs and significands and the sum of
their exponents, so that it commutes to the last bit.
-/
namespace Almanac.Double
set_option autoImplicit false
variable {x y : Float}

/-- The word of negative zero. -/
def signWord : UInt64 := 0x8000000000000000

/-- Zero and negative zero, in either order. -/
def oppositeZeros (x y : Float) : Bool :=
  (bits x == 0 && bits y == signWord) || (bits x == signWord && bits y == 0)

theorem beq_self_of_observed (h : isHole x = false) : (x == x) = true := by
  refine Float.beq_self_iff.mpr ?_
  rintro rfl
  exact Bool.false_ne_true (h.symm.trans isHole_hole)

theorem oppositeZeros_iff : oppositeZeros x y = true ↔ (x = 0 ∧ y = -0) ∨ (x = -0 ∧ y = 0) := by
  have hZero (z : Float) : bits z = 0 ↔ z = 0 := by
    rw [show (0 : UInt64) = bits (0 : Float) by decide]
    exact Float.toBits_inj
  have hNegative (z : Float) : bits z = signWord ↔ z = -0 := by
    rw [show signWord = bits (-0 : Float) by decide]
    exact Float.toBits_inj
  simp only [oppositeZeros, Bool.or_eq_true, Bool.and_eq_true, beq_iff_eq, hZero, hNegative]

theorem oppositeZeros_self (x : Float) : oppositeZeros x x = false := by
  rw [Bool.eq_false_iff, Ne, oppositeZeros_iff]
  rintro (⟨rfl, hSame⟩ | ⟨rfl, hSame⟩)
  · exact absurd (congrArg bits hSame) (by decide)
  · exact absurd (congrArg bits hSame) (by decide)

theorem bits_of_beq (h : (x == y) = true) :
    bits y = bits x ^^^ if oppositeZeros x y then signWord else 0 := by
  obtain ⟨-, -, rfl | hZeros⟩ := Float.beq_iff_ne_nan_and_eq.mp h
  · simp [oppositeZeros_self]
  · rw [if_pos (oppositeZeros_iff.mpr hZeros)]
    obtain ⟨rfl, rfl⟩ | ⟨rfl, rfl⟩ := hZeros
    · decide
    · decide

section Product
open Float.Model

theorem sign_mul_comm (a b : UnpackedFloat.Sign) : a * b = b * a := by
  cases a <;> cases b <;> rfl

theorem unpacked_mul_comm (format : Format) (a b : UnpackedFloat) :
    a.mul format b = b.mul format a := by
  cases a <;> cases b <;>
    simp only [UnpackedFloat.mul, sign_mul_comm, Nat.mul_comm, Int.add_comm]

theorem mul_comm (x y : Float) : x * y = y * x :=
  congrArg Float.ofModel (congrArg pack (unpacked_mul_comm .binary64 x.toModel.unpack _))

end Product

end Almanac.Double
