import Mathlib
import Almanac.Proofs.Double

/-! # The order of doubles

A word that is read as a sign and a magnitude is a whole number, the place of its double. Places
order all doubles that are no holes, with both zeros in one place, and the exact values of the
finite ones follow the same order. The total order of the words differs from it only in that
negative zero comes before zero, and in that the hole has a place too.
-/
namespace Almanac.Double
set_option autoImplicit false
open Float.Model Float.Model.UnpackedFloat

section Words

/-- A word as a whole number: its upper bit is the sign of the others. -/
def signedWord (n : ℕ) : ℤ := if n < 2 ^ 63 then n else 2 ^ 63 - n

variable (b : BitVec 64)

theorem toNat_unpackMantissa :
    (@unpackMantissa .binary64 b).toNat = b.toNat % 2 ^ 52 := by
  rw [unpackMantissa_def]
  simp [BitVec.extractLsb'_toNat]

theorem toNat_unpackExponent :
    (@unpackExponent .binary64 b).toNat = b.toNat / 2 ^ 52 % 2 ^ 11 := by
  rw [unpackExponent_def]
  simp [BitVec.extractLsb'_toNat, Nat.shiftRight_eq_div_pow]

theorem apply_unpackSign (n : ℤ) :
    (Sign.ofBitVec (@unpackSign .binary64 b)).apply n =
      if b.toNat < 2 ^ 63 then n else -n := by
  have hSign : @unpackSign .binary64 b = 0#1 ↔ b.toNat < 2 ^ 63 := by
    rw [← BitVec.toNat_inj, unpackSign_def]
    simp [BitVec.extractLsb'_toNat, Nat.shiftRight_eq_div_pow]
    omega
  simp only [Sign.ofBitVec, hSign]
  split <;> rfl

theorem unpackMantissa_eq_zero_iff :
    @unpackMantissa .binary64 b = 0#_ ↔ b.toNat % 2 ^ 52 = 0 := by
  rw [← BitVec.toNat_inj, toNat_unpackMantissa]
  rfl

theorem unpackExponent_eq_iff (field : BitVec 11) :
    @unpackExponent .binary64 b = field ↔ b.toNat / 2 ^ 52 % 2 ^ 11 = field.toNat := by
  rw [← BitVec.toNat_inj, toNat_unpackExponent]

theorem unbiased_unpackExponent :
    ((@unpackExponent .binary64 b).toNat : ℤ) -
        (Format.binary64.exponentBias + Format.binary64.mantissaBitsWithoutImplicit) =
      (b.toNat / 2 ^ 52 % 2 ^ 11 : ℕ) - 1075 := by
  rw [toNat_unpackExponent]
  rfl

end Words

section Unpacked
variable {u v : UnpackedFloat}

/-- The place of an unpacked double on the line of all words. -/
def placeOf : UnpackedFloat → ℤ
  | .infinity s => s.apply (2047 * 2 ^ 52)
  | .notANumber => 0
  | .zero _ => 0
  | .finite s m e _ => s.apply ((e + 1074) * 2 ^ 52 + m)

def valueOf : UnpackedFloat → ℚ
  | .finite s m e _ => s.apply m * 2 ^ e
  | _ => 0

/-- The significand of a double has its leading bit, unless the exponent is the least one. -/
def Canonical : UnpackedFloat → Prop
  | .finite _ m e _ => m < 2 ^ 53 ∧ -1074 ≤ e ∧ e ≤ 971 ∧ (2 ^ 52 ≤ m ∨ e = -1074)
  | _ => True

/-- A significand and an exponent that are a double, but for the size of the exponent. -/
def Settled (m : ℕ) (e : ℤ) : Prop := m < 2 ^ 53 ∧ -1074 ≤ e ∧ (2 ^ 52 ≤ m ∨ e = -1074)

/-- The parts of a word make its place. -/
theorem canonical_unpack (b : BitVec 64) :
    UnpackedFloat.unpack .binary64 b ≠ .notANumber →
      Canonical (UnpackedFloat.unpack .binary64 b) ∧
        placeOf (UnpackedFloat.unpack .binary64 b) = signedWord b.toNat := by
  have hWord := b.isLt
  fun_cases UnpackedFloat.unpack Format.binary64 b with
  | case1 mantissa exponent _ _ hTop hZero =>
    have hField : _ = 2047 := (unpackExponent_eq_iff b _).mp hTop
    have hFraction := (unpackMantissa_eq_zero_iff b).mp hZero
    refine fun _ => ⟨trivial, ?_⟩
    rw [placeOf, apply_unpackSign, signedWord]
    split <;> omega
  | case2 => exact fun h => absurd rfl h
  | case3 mantissa exponent _ _ _ hLeast hZero =>
    have hField : _ = 0 := (unpackExponent_eq_iff b _).mp hLeast
    have hFraction := (unpackMantissa_eq_zero_iff b).mp hZero
    refine fun _ => ⟨trivial, ?_⟩
    rw [placeOf, signedWord]
    split <;> omega
  | case4 mantissa exponent e _ _ _ hLeast _ =>
    have hField : _ = 0 := (unpackExponent_eq_iff b _).mp hLeast
    have hMantissa : mantissa.toNat = _ := toNat_unpackMantissa b
    have hExponent : e = _ := unbiased_unpackExponent b
    intro _
    rw [Canonical, placeOf, apply_unpackSign, signedWord, hMantissa, hExponent]
    refine ⟨by omega, ?_⟩
    split <;> omega
  | case5 mantissa exponent e _ _ hTop hLeast =>
    -- A normal double: the leading bit of its significand is not stored.
    have hNotTop : b.toNat / 2 ^ 52 % 2 ^ 11 ≠ 2047 :=
      mt (unpackExponent_eq_iff b (-1#_)).mpr hTop
    have hNotLeast : b.toNat / 2 ^ 52 % 2 ^ 11 ≠ 0 := mt (unpackExponent_eq_iff b 0#_).mpr hLeast
    have hMantissa : (1#1 ++ mantissa).toNat = 2 ^ 52 + b.toNat % 2 ^ 52 := by
      rw [BitVec.toNat_append, ← Nat.shiftLeft_add_eq_or_of_lt mantissa.isLt,
        toNat_unpackMantissa]
      rfl
    have hExponent : e = _ := unbiased_unpackExponent b
    intro _
    rw [Canonical, placeOf, apply_unpackSign, signedWord, hMantissa, hExponent]
    refine ⟨by omega, ?_⟩
    split <;> omega

/-- A word is a hole exactly if its exponent has all bits and its significand has some. -/
theorem unpack_eq_notANumber_iff (b : BitVec 64) :
    UnpackedFloat.unpack .binary64 b = .notANumber ↔
      @unpackExponent .binary64 b = -1#_ ∧ @unpackMantissa .binary64 b ≠ 0#_ := by
  fun_cases UnpackedFloat.unpack Format.binary64 b with
  | case1 _ _ _ _ _ hZero => exact iff_of_false nofun fun h => h.2 hZero
  | case2 _ _ hTop hSome => exact iff_of_true rfl ⟨hTop, hSome⟩
  | case3 _ _ _ _ hNotTop => exact iff_of_false nofun fun h => hNotTop h.1
  | case4 _ _ _ _ _ hNotTop => exact iff_of_false nofun fun h => hNotTop h.1
  | case5 _ _ _ _ _ hNotTop => exact iff_of_false nofun fun h => hNotTop h.1

/-- Only the hole is packed as one. -/
theorem unpack_pack_ne_notANumber (h : u ≠ .notANumber) :
    UnpackedFloat.unpack .binary64 (UnpackedFloat.pack .binary64 u) ≠ .notANumber := by
  rw [Ne, unpack_eq_notANumber_iff]
  fun_cases UnpackedFloat.pack Format.binary64 u with
  | case1 => exact absurd rfl h
  | case2 s => simp [packedInfinity]
  | case3 s => simp [packedZero]
  | case4 s => simp [packedInfinity]
  | case5 s m e hm _ field hField _ =>
    have hBelow : ¬2 ^ 11 ≤ field + 1 := hField
    have hNotTop : field % 2 ^ 11 ≠ 2047 := by
      rw [Nat.mod_eq_of_lt] <;> omega
    rw [unpackExponent_packComponents, ← BitVec.toNat_inj, BitVec.toNat_ofNat]
    exact fun hHole => hNotTop hHole.1
  | case6 => simp

/-- A finite double lies strictly between the infinite ones. -/
theorem placeOf_bounds (hu : Canonical u) (hFinite : ∀ s, u ≠ .infinity s) :
    -(2047 * 2 ^ 52) < placeOf u ∧ placeOf u < 2047 * 2 ^ 52 := by
  cases u with
  | infinity s => exact absurd rfl (hFinite s)
  | notANumber => rw [placeOf]; omega
  | zero s => rw [placeOf]; omega
  | finite s m e hm =>
    rw [Canonical] at hu
    cases s <;> rw [placeOf, Sign.apply] <;> omega

section Finite
variable {m m' : ℕ} {e e' : ℤ} {hm : 0 < m} {hm' : 0 < m'}

theorem placeOf_positive (h : Canonical (.finite .positive m e hm)) :
    0 < placeOf (.finite .positive m e hm) := by
  rw [Canonical] at h
  rw [placeOf, Sign.apply]
  omega

theorem placeOf_negative (h : Canonical (.finite .negative m e hm)) :
    placeOf (.finite .negative m e hm) < 0 := by
  rw [Canonical] at h
  rw [placeOf, Sign.apply]
  omega

theorem valueOf_positive : 0 < valueOf (.finite .positive m e hm) :=
  mul_pos (Int.cast_pos.mpr (Int.natCast_pos.mpr hm)) (zpow_pos two_pos e)

theorem valueOf_negative : valueOf (.finite .negative m e hm) < 0 :=
  mul_neg_of_neg_of_pos (Int.cast_lt_zero.mpr (Int.neg_neg_of_pos (Int.natCast_pos.mpr hm)))
    (zpow_pos two_pos e)

/-- With a greater exponent the leading bit alone outweighs all smaller significands. -/
theorem magnitude_lt (h : Settled m e) (h' : Settled m' e')
    (hPlace : (e + 1074) * 2 ^ 52 + m < (e' + 1074) * 2 ^ 52 + m') :
    (m : ℚ) * 2 ^ e < m' * 2 ^ e' := by
  rw [Settled] at h h'
  have hExponent : e ≤ e' := by omega
  obtain hLess | rfl := lt_or_eq_of_le hExponent
  · have hLeading : (2 ^ 52 : ℚ) ≤ m' := by exact_mod_cast (by omega : 2 ^ 52 ≤ m')
    calc (m : ℚ) * 2 ^ e < 2 ^ 53 * 2 ^ e :=
          mul_lt_mul_of_pos_right (by exact_mod_cast h.1) (zpow_pos two_pos e)
      _ = 2 ^ 52 * 2 ^ (e + 1) := by rw [zpow_add_one₀ two_ne_zero]; ring
      _ ≤ m' * 2 ^ e' := mul_le_mul hLeading (zpow_le_zpow_right₀ one_le_two (by omega))
          (le_of_lt (zpow_pos two_pos _)) (Nat.cast_nonneg m')
  · have hMantissa : m < m' := by omega
    exact mul_lt_mul_of_pos_right (Nat.cast_lt.mpr hMantissa) (zpow_pos two_pos e)

variable {s s' : Sign}

theorem Canonical.settled (h : Canonical (.finite s m e hm)) : Settled m e :=
  ⟨h.1, h.2.1, h.2.2.2⟩

/-- Exponents count before significands. -/
theorem compare_then_eq (h : Canonical (.finite s m e hm)) (h' : Canonical (.finite s' m' e' hm')) :
    (compare e e').then (compare m m') =
      compare ((e + 1074) * 2 ^ 52 + m) ((e' + 1074) * 2 ^ 52 + m') := by
  rw [Canonical] at h h'
  obtain hLess | rfl | hGreater := lt_trichotomy e e'
  · rw [Int.compare_eq_lt.mpr hLess, Int.compare_eq_lt.mpr (by omega)]
    rfl
  · rw [Int.compare_eq_eq.mpr rfl]
    obtain hLess | rfl | hGreater := lt_trichotomy m m'
    · rw [Nat.compare_eq_lt.mpr hLess, Int.compare_eq_lt.mpr (by omega)]
      rfl
    · rw [Nat.compare_eq_eq.mpr rfl, Int.compare_eq_eq.mpr rfl]
      rfl
    · rw [Nat.compare_eq_gt.mpr hGreater, Int.compare_eq_gt.mpr (by omega)]
      rfl
  · rw [Int.compare_eq_gt.mpr hGreater, Int.compare_eq_gt.mpr (by omega)]
    rfl

end Finite

theorem compare_neg (a b : ℤ) : compare (-a) (-b) = (compare a b).swap := by
  obtain h | rfl | h := lt_trichotomy a b
  · rw [Int.compare_eq_lt.mpr h, Int.compare_eq_gt.mpr (by omega)]
    rfl
  · rw [Int.compare_eq_eq.mpr rfl, Int.compare_eq_eq.mpr rfl]
    rfl
  · rw [Int.compare_eq_gt.mpr h, Int.compare_eq_lt.mpr (by omega)]
    rfl

theorem compare_eq (hu : Canonical u) (hv : Canonical v) (hu' : u ≠ .notANumber)
    (hv' : v ≠ .notANumber) : u.compare v = some (compare (placeOf u) (placeOf v)) := by
  fun_cases UnpackedFloat.compare u v with
  | case1 => exact absurd rfl hu'
  | case2 => exact absurd rfl hv'
  | case3 s t => cases s <;> cases t <;> rfl
  | case4 _ _ hFinite =>
    exact congrArg some (Int.compare_eq_gt.mpr (placeOf_bounds hv hFinite).2).symm
  | case5 _ _ hFinite =>
    exact congrArg some (Int.compare_eq_lt.mpr (placeOf_bounds hv hFinite).1).symm
  | case6 _ _ hFinite =>
    exact congrArg some (Int.compare_eq_lt.mpr (placeOf_bounds hu hFinite).2).symm
  | case7 _ _ hFinite =>
    exact congrArg some (Int.compare_eq_gt.mpr (placeOf_bounds hu hFinite).1).symm
  | case8 => exact congrArg some (Int.compare_eq_gt.mpr (placeOf_positive hu)).symm
  | case9 => exact congrArg some (Int.compare_eq_lt.mpr (placeOf_negative hu)).symm
  | case10 => exact congrArg some (Int.compare_eq_lt.mpr (placeOf_positive hv)).symm
  | case11 => exact congrArg some (Int.compare_eq_gt.mpr (placeOf_negative hv)).symm
  | case12 => rfl
  | case13 =>
    rw [compare_then_eq hu hv, ← compare_neg]
    rfl
  | case14 =>
    exact congrArg some
      (Int.compare_eq_lt.mpr ((placeOf_negative hu).trans (placeOf_positive hv))).symm
  | case15 =>
    exact congrArg some
      (Int.compare_eq_gt.mpr ((placeOf_negative hv).trans (placeOf_positive hu))).symm
  | case16 =>
    rw [compare_then_eq hu hv]
    rfl

theorem valueOf_lt (hu : Canonical u) (hv : Canonical v) (hu' : u.isFinite = true)
    (hv' : v.isFinite = true) (h : placeOf u < placeOf v) : valueOf u < valueOf v := by
  cases u with
  | infinity s => cases hu'
  | notANumber => cases hu'
  | zero s =>
    cases v with
    | infinity t => cases hv'
    | notANumber => cases hv'
    | zero t => exact absurd h (lt_irrefl 0)
    | finite t m e hm =>
      cases t with
      | negative => exact absurd h (lt_asymm (placeOf_negative hv))
      | positive => exact valueOf_positive
  | finite s m e hm =>
    cases v with
    | infinity t => cases hv'
    | notANumber => cases hv'
    | zero t =>
      cases s with
      | negative => exact valueOf_negative
      | positive => exact absurd h (lt_asymm (placeOf_positive hu))
    | finite t m' e' hm' =>
      cases s with
      | negative =>
        cases t with
        | negative =>
          have hMagnitude := magnitude_lt hv.settled hu.settled (Int.neg_lt_neg_iff.mp h)
          simp only [valueOf, Sign.apply, Int.cast_neg, Int.cast_natCast, neg_mul, neg_lt_neg_iff]
          exact hMagnitude
        | positive => exact valueOf_negative.trans valueOf_positive
      | positive =>
        cases t with
        | negative =>
          exact absurd h (lt_asymm ((placeOf_negative hv).trans (placeOf_positive hu)))
        | positive => exact magnitude_lt hu.settled hv.settled h

end Unpacked

section Doubles
variable {x y : Float}

def place (x : Float) : ℤ := signedWord x.toBits.toNat

def value (x : Float) : ℚ := valueOf x.toModel.unpack

theorem observed_iff (x : Float) : isHole x = false ↔ x.toModel.unpack ≠ .notANumber := by
  change x.toModel.unpack.isNaN = false ↔ _
  rw [Ne, ← isNaN_iff, Bool.not_eq_true]

theorem observed_of_finite (h : isFinite x = true) : isHole x = false := by
  have hFinite : x.toModel.unpack.isFinite = true := h
  rw [observed_iff]
  intro hHole
  rw [hHole] at hFinite
  cases hFinite

theorem eq_hole_of_isHole (h : isHole x = true) : x = hole :=
  of_decide_eq_true (Float.isNaN_eq_decide_eq_nan.symm.trans h)

theorem canonical_of_observed (h : isHole x = false) :
    Canonical x.toModel.unpack ∧ placeOf x.toModel.unpack = place x :=
  canonical_unpack _ ((observed_iff x).mp h)

theorem observed_abs (h : isHole x = false) : isHole (abs x) = false := by
  rw [observed_iff] at h ⊢
  apply unpack_pack_ne_notANumber
  cases hParts : x.toModel.unpack with
  | notANumber => exact absurd hParts h
  | infinity s => exact nofun
  | zero s => exact nofun
  | finite s m e hm => exact nofun

/-- Doubles compare as their places, and holes do not compare. -/
theorem compare_unpack_iff {o : Ordering} :
    x.toModel.unpack.compare y.toModel.unpack = some o ↔
      isHole x = false ∧ isHole y = false ∧ compare (place x) (place y) = o := by
  by_cases hBoth : isHole x = false ∧ isHole y = false
  · obtain ⟨hx, hy⟩ := hBoth
    obtain ⟨hCanonical, hPlace⟩ := canonical_of_observed hx
    obtain ⟨hCanonical', hPlace'⟩ := canonical_of_observed hy
    rw [compare_eq hCanonical hCanonical' ((observed_iff x).mp hx) ((observed_iff y).mp hy),
      hPlace, hPlace', Option.some.injEq, and_iff_right hx, and_iff_right hy]
  · have hNone : x.toModel.unpack.compare y.toModel.unpack = none := by
      rw [observed_iff, observed_iff, not_and_or, not_not, not_not] at hBoth
      obtain hx | hy := hBoth
      · rw [hx]
        rfl
      · rw [hy]
        cases x.toModel.unpack <;> rfl
    rw [hNone, ← and_assoc]
    exact iff_of_false nofun fun h => hBoth h.1

theorem lt_iff : x < y ↔ isHole x = false ∧ isHole y = false ∧ place x < place y := by
  have hLess : x < y ↔ (x.toModel.unpack.compare y.toModel.unpack == some .lt) = true :=
    decide_eq_true_iff
  rw [hLess, beq_iff_eq, compare_unpack_iff, Int.compare_eq_lt]

theorem le_iff (hx : isHole x = false) (hy : isHole y = false) : x ≤ y ↔ place x ≤ place y := by
  have hLe : x ≤ y ↔ (x.toModel.unpack.compare y.toModel.unpack).any (·.isLE) = true :=
    decide_eq_true_iff
  rw [hLe, compare_unpack_iff.mpr ⟨hx, hy, rfl⟩, Option.any_some, Int.isLE_compare]

/-- Only the two zeros share a place. -/
theorem eq_or_zeros_of_place_eq (h : place x = place y) :
    x = y ∨ (x = 0 ∧ y = -0) ∨ (x = -0 ∧ y = 0) := by
  have hWords : bits x = bits y ∨ (bits x = 0 ∧ bits y = signWord) ∨
      (bits x = signWord ∧ bits y = 0) := by
    have hx := (bits x).toNat_lt
    have hy := (bits y).toNat_lt
    change signedWord (bits x).toNat = signedWord (bits y).toNat at h
    have hSign : signWord.toNat = 2 ^ 63 := by decide
    simp only [← UInt64.toNat_inj, hSign, UInt64.toNat_zero]
    rw [signedWord, signedWord] at h
    split at h <;> split at h <;> omega
  refine hWords.imp Float.toBits_inj.mp fun hZeros => ?_
  rw [← oppositeZeros_iff, oppositeZeros]
  simpa using hZeros

theorem value_le_of_place_le (hx : isFinite x = true) (hy : isFinite y = true)
    (h : place x ≤ place y) : value x ≤ value y := by
  obtain hLess | hSame := lt_or_eq_of_le h
  · obtain ⟨hCanonical, hPlace⟩ := canonical_of_observed (observed_of_finite hx)
    obtain ⟨hCanonical', hPlace'⟩ := canonical_of_observed (observed_of_finite hy)
    exact le_of_lt (valueOf_lt hCanonical hCanonical' hx hy (by rwa [hPlace, hPlace']))
  · obtain rfl | ⟨rfl, rfl⟩ | ⟨rfl, rfl⟩ := eq_or_zeros_of_place_eq hSame
    · exact le_refl _
    · exact le_of_eq rfl
    · exact le_of_eq rfl

/-- The place in the total order of the words. -/
def rank (x : Float) : ℤ := rankKey x.toBits

theorem ranksUpTo_iff (x y : Float) : ranksUpTo x y = true ↔ rank x ≤ rank y := decide_eq_true_iff

theorem rank_eq (x : Float) :
    rank x = if x.toBits.toNat < 2 ^ 63 then place x else place x - 1 := by
  have hHalf : ((Nat.pow 2 63 : ℕ) : ℤ) = 2 ^ 63 := rfl
  rw [rank, rankKey, place, signedWord, hHalf]
  change (if x.toBits.toNat < 2 ^ 63 then _ else _) = _
  split <;> omega

theorem rank_injective : Function.Injective rank := by
  intro x y h
  have hx := x.toBits.toNat_lt
  have hy := y.toBits.toNat_lt
  refine Float.toBits_inj.mp (UInt64.toNat_inj.mp ?_)
  rw [rank_eq, rank_eq, place, place, signedWord, signedWord] at h
  split at h <;> split at h <;> omega

theorem place_le_of_rank_le (h : rank x ≤ rank y) : place x ≤ place y := by
  rw [rank_eq, rank_eq] at h
  rw [place, place, signedWord, signedWord] at h ⊢
  split at h <;> split at h <;> omega

end Doubles
end Almanac.Double
