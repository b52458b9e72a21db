import Almanac.Proofs.Double.Order

/-! # Rounding

A number that is rounded to a double is kept as a significand on the grid of an exponent, with two
bits that tell whether anything is left behind it. The significand is moved to the grid on which it
has 53 bits, or to the least one, and then kept or replaced by the next one. The move passes no
double: what is at most the number stays so, and what is at least the number too. Which one of two
neighbours is taken is left open. What is packed stands at the place of its significand and
exponent, or at that of the infinite double.
-/
namespace Almanac.Double
set_option autoImplicit false
open Float.Model Float.Model.UnpackedFloat

section Shifting
variable {em : ExtendedMantissa} {e : ℤ} {x : ℚ}

theorem two_zpow_add_natCast (e : ℤ) (k : ℕ) : (2 : ℚ) ^ (e + k) = 2 ^ e * 2 ^ k := by
  rw [zpow_add₀ two_ne_zero, zpow_natCast]

/-- A number lies between a significand and the next one, and above it where anything is kept behind
the significand. -/
structure Keeps (em : ExtendedMantissa) (e : ℤ) (x : ℚ) : Prop where
  le : em.mantissa * 2 ^ e ≤ x
  lt : x < (em.mantissa + 1) * 2 ^ e
  lt_of_rest : (em.roundBit || em.stickyBit) = true → em.mantissa * 2 ^ e < x

theorem Keeps.shiftRightOne (h : Keeps em e x) : Keeps em.shiftRightOne (e + 1) x := by
  have hPower : (0 : ℚ) < 2 ^ e := zpow_pos two_pos e
  have hParts : (em.mantissa : ℚ) = 2 * (em.mantissa / 2 : ℕ) + (em.mantissa % 2 : ℕ) := by
    exact_mod_cast (Nat.div_add_mod em.mantissa 2).symm
  have hDouble (q : ℚ) : q * 2 ^ (e + 1) = 2 * q * 2 ^ e := by
    rw [zpow_add_one₀ two_ne_zero]
    ring
  have hLow : (2 * (em.mantissa / 2 : ℕ) : ℚ) * 2 ^ e ≤ em.mantissa * 2 ^ e :=
    mul_le_mul_of_nonneg_right (by linarith [Nat.cast_nonneg (α := ℚ) (em.mantissa % 2)])
      (le_of_lt hPower)
  constructor
  · rw [ExtendedMantissa.shiftRightOne, hDouble]
    exact hLow.trans h.le
  · have hBit : ((em.mantissa % 2 : ℕ) : ℚ) ≤ 1 := by
      exact_mod_cast Nat.le_of_lt_succ (Nat.mod_lt em.mantissa two_pos)
    rw [ExtendedMantissa.shiftRightOne, hDouble]
    exact h.lt.trans_le (mul_le_mul_of_nonneg_right (by linarith) (le_of_lt hPower))
  · intro hRest
    rw [ExtendedMantissa.shiftRightOne, hDouble]
    rcases Bool.or_eq_true_iff.mp hRest with hOdd | hKept
    · have hBit : em.mantissa % 2 = 1 := by
        have hNot : em.mantissa % 2 ≠ 0 := by simpa [ExtendedMantissa.shiftRightOne] using hOdd
        omega
      rw [hBit, Nat.cast_one] at hParts
      exact (mul_lt_mul_of_pos_right (by linarith) hPower).trans_le h.le
    · exact hLow.trans_lt (h.lt_of_rest hKept)

theorem mantissa_shiftRight (em : ExtendedMantissa) (k : ℕ) :
    (em >>> k).mantissa = em.mantissa / 2 ^ k := by
  change (k.repeat ExtendedMantissa.shiftRightOne em).mantissa = _
  induction k with
  | zero => rw [Nat.repeat, pow_zero, Nat.div_one]
  | succ k ih =>
    rw [Nat.repeat, ExtendedMantissa.shiftRightOne, ih, pow_succ, Nat.div_div_eq_div_mul]

theorem Keeps.shiftRight (h : Keeps em e x) (k : ℕ) : Keeps (em >>> k) (e + k) x := by
  change Keeps (k.repeat ExtendedMantissa.shiftRightOne em) _ _
  induction k with
  | zero => simpa [Nat.repeat] using h
  | succ k ih =>
    rw [Nat.repeat, Nat.cast_succ, ← add_assoc]
    exact ih.shiftRightOne

/-- The next significand is only taken where something is kept behind this one. -/
theorem roundedMantissa_cases (em : ExtendedMantissa) :
    em.roundedMantissa = em.mantissa ∨
      em.roundedMantissa = em.mantissa + 1 ∧ (em.roundBit || em.stickyBit) = true := by
  obtain ⟨m, round, sticky⟩ := em
  cases round <;> cases sticky <;>
    simp only [ExtendedMantissa.roundedMantissa, ExtendedMantissa.accuracy,
      Accuracy.roundToNearestEven, Bool.or_true, Bool.or_false, Bool.or_self, and_true,
      Bool.false_eq_true, and_false, or_false, or_true, true_or]
  omega

end Shifting

section Grid
variable {x y : ℚ} {em : ExtendedMantissa} {t : ℤ}

/-- No double lies between two numbers that are not negative, apart from the second one. -/
structure Squeezes (x y : ℚ) : Prop where
  le : ∀ (m : ℕ) (e : ℤ), Settled m e → x ≤ m * 2 ^ e → y ≤ m * 2 ^ e
  ge : ∀ (m : ℕ) (e : ℤ), Settled m e → (m : ℚ) * 2 ^ e ≤ x → (m : ℚ) * 2 ^ e ≤ y

theorem Squeezes.refl (x : ℚ) : Squeezes x x := ⟨fun _ _ _ => id, fun _ _ _ => id⟩

/-- A double lies on a grid where significands have all their bits, or below it. -/
theorem Settled.on_grid_or_below {q m : ℕ} {e : ℤ} (hq : Settled q t) (hm : Settled m e) :
    (∃ j : ℕ, (m : ℚ) * 2 ^ e = j * 2 ^ t) ∨ (m : ℚ) * 2 ^ e < q * 2 ^ t := by
  rcases le_or_gt t e with hCoarse | hFine
  · refine .inl ⟨m * 2 ^ (e - t).toNat, ?_⟩
    obtain ⟨k, rfl⟩ := Int.le.dest hCoarse
    rw [two_zpow_add_natCast, show (t + k - t).toNat = k by omega, Nat.cast_mul, Nat.cast_pow,
      Nat.cast_ofNat]
    ring
  · refine .inr (magnitude_lt hm hq ?_)
    rw [Settled] at hm hq
    omega

theorem Keeps.squeezes (h : Keeps em t x) (hSettled : Settled em.mantissa t) :
    Squeezes x (em.roundedMantissa * 2 ^ t) := by
  have hPower : (0 : ℚ) < 2 ^ t := zpow_pos two_pos t
  have hUp := roundedMantissa_cases em
  constructor
  · intro m e hm hx
    rcases hSettled.on_grid_or_below hm with ⟨j, hj⟩ | hBelow
    · rw [hj] at hx ⊢
      refine mul_le_mul_of_nonneg_right (Nat.cast_le.mpr ?_) (le_of_lt hPower)
      rcases hUp with hSame | ⟨hNext, hRest⟩
      · rw [hSame]
        exact_mod_cast le_of_mul_le_mul_right (h.le.trans hx) hPower
      · rw [hNext]
        exact_mod_cast lt_of_mul_lt_mul_right ((h.lt_of_rest hRest).trans_le hx) (le_of_lt hPower)
    · exact absurd (hx.trans_lt hBelow) (not_lt_of_ge h.le)
  · intro m e hm hx
    have hLow : (em.mantissa : ℚ) * 2 ^ t ≤ em.roundedMantissa * 2 ^ t := by
      refine mul_le_mul_of_nonneg_right (Nat.cast_le.mpr ?_) (le_of_lt hPower)
      omega
    rcases hSettled.on_grid_or_below hm with ⟨j, hj⟩ | hBelow
    · rw [hj] at hx ⊢
      refine le_trans (mul_le_mul_of_nonneg_right (Nat.cast_le.mpr ?_) (le_of_lt hPower)) hLow
      have hNext := lt_of_mul_lt_mul_right (hx.trans_lt h.lt) (le_of_lt hPower)
      exact Nat.le_of_lt_succ (by exact_mod_cast hNext)
    · exact (le_of_lt hBelow).trans hLow

end Grid

section Rounding
variable {s : Sign} {m : ℕ} {e : ℤ} {acc : Accuracy} {x : ℚ}

/-- The exponent that a significand is moved to. -/
theorem targetExponent_eq (m : ℕ) (e : ℤ) :
    Format.binary64.targetExponent (totalExponent m e) = max (m.log2 + e - 52) (-1074) := by
  have hLeast : Format.binary64.minExponent = -1074 := rfl
  have hBits : Format.binary64.mantissaBits = 53 := rfl
  rw [Format.targetExponent, totalExponent, hLeast, hBits]
  omega

theorem mantissa_ofMantissaAndAccuracy (m : ℕ) (acc : Accuracy) :
    (ExtendedMantissa.ofMantissaAndAccuracy m acc).mantissa = m := by
  cases acc with
  | exact => rfl
  | inexact order => cases order <;> rfl

theorem shiftToTargetExponent_eq {t : ℤ}
    (hTarget : Format.binary64.targetExponent (totalExponent m e) = t) :
    shiftToTargetExponent .binary64 m e acc =
      (ExtendedMantissa.ofMantissaAndAccuracy m acc >>> (t - e).toNat, e + (t - e).toNat) := by
  rw [shiftToTargetExponent, hTarget]
  rfl

/-- The first move leaves a significand of 53 bits, or one at the least exponent. -/
theorem settled_div {k : ℕ} (h : e + k = max (m.log2 + e - 52) (-1074)) :
    Settled (m / 2 ^ k) (e + k) := by
  refine ⟨?_, by omega, ?_⟩
  · rw [Nat.div_lt_iff_lt_mul (Nat.two_pow_pos k), ← pow_add]
    exact Nat.lt_log2_self.trans_le (Nat.pow_le_pow_right two_pos (by omega))
  · refine or_iff_not_imp_right.mpr fun hMore => ?_
    have hSome : m ≠ 0 := by
      rintro rfl
      rw [Nat.log2_zero] at h
      omega
    rw [Nat.le_div_iff_mul_le (Nat.two_pow_pos k), ← pow_add]
    exact (Nat.pow_le_pow_right two_pos (by omega)).trans (Nat.log2_self_le hSome)

/-- What a significand and an exponent are packed as. -/
def settledFloat (s : Sign) (q : ℕ) (t : ℤ) : UnpackedFloat :=
  if h : q = 0 then .zero s else .finite s q t (Nat.pos_of_ne_zero h)

theorem settledFloat_zero (s : Sign) (t : ℤ) : settledFloat s 0 t = .zero s := dif_pos rfl

theorem settledFloat_of_pos (s : Sign) {q : ℕ} (t : ℤ) (hq : 0 < q) :
    settledFloat s q t = .finite s q t hq := dif_neg (Nat.ne_of_gt hq)

/-- The second move takes a significand of one bit too many to the next exponent. -/
theorem second_move {r : ℕ} {t : ℤ} (hBits : r ≤ 2 ^ 53) (hLeast : -1074 ≤ t)
    (hFull : 2 ^ 52 ≤ r ∨ t = -1074) :
    let p := shiftToTargetExponent .binary64 r t .exact
    Settled p.1.mantissa p.2 ∧ (p.1.mantissa : ℚ) * 2 ^ p.2 = r * 2 ^ t := by
  intro p
  have hMove : p = _ := shiftToTargetExponent_eq (targetExponent_eq r t)
  rw [hMove]
  simp only [mantissa_shiftRight, mantissa_ofMantissaAndAccuracy]
  rcases Nat.lt_or_eq_of_le hBits with hFits | rfl
  · have hLog : r.log2 ≤ 52 := by
      rcases Nat.eq_zero_or_pos r with rfl | hSome
      · decide
      · exact Nat.le_of_lt_succ ((Nat.log2_lt (Nat.ne_of_gt hSome)).mpr hFits)
    rw [show (max (r.log2 + t - 52) (-1074) - t).toNat = 0 by omega, pow_zero, Nat.div_one,
      Nat.cast_zero, add_zero]
    exact ⟨⟨hFits, hLeast, hFull⟩, rfl⟩
  · rw [Nat.log2_two_pow,
      show (max (((53 : ℕ) : ℤ) + t - 52) (-1074) - t).toNat = 1 by omega, two_zpow_add_natCast]
    refine ⟨⟨by norm_num, by omega, .inl (by norm_num)⟩, ?_⟩
    push_cast
    ring

/-- The rounding of a number that is kept with all bits of a significand. -/
theorem exists_of_roundWithAccuracy (s : Sign) (h : Keeps (.ofMantissaAndAccuracy m acc) e x)
    (hEnough : 52 ≤ m.log2 ∨ e ≤ -1074) : ∃ q t, Settled q t ∧ Squeezes x (q * 2 ^ t) ∧
      roundWithAccuracy .binary64 s m e acc = settledFloat s q t := by
  obtain ⟨k, hk⟩ : ∃ k : ℕ, e + k = max (m.log2 + e - 52) (-1074) :=
    ⟨(max (m.log2 + e - 52) (-1074) - e).toNat, by omega⟩
  have hFirst : shiftToTargetExponent .binary64 m e acc =
      (ExtendedMantissa.ofMantissaAndAccuracy m acc >>> k, e + k) := by
    rw [shiftToTargetExponent_eq (targetExponent_eq m e), ← hk,
      show (e + k - e).toNat = k by omega]
  have hMoved := h.shiftRight k
  have hSettled := settled_div hk
  rw [← mantissa_ofMantissaAndAccuracy m acc, ← mantissa_shiftRight] at hSettled
  have hSqueezes := hMoved.squeezes hSettled
  have hUp := roundedMantissa_cases (ExtendedMantissa.ofMantissaAndAccuracy m acc >>> k)
  rw [Settled] at hSettled
  obtain ⟨hFinal, hValue⟩ := second_move
    (r := (ExtendedMantissa.ofMantissaAndAccuracy m acc >>> k).roundedMantissa) (t := e + k)
    (by omega) hSettled.2.1 (by omega)
  refine ⟨_, _, hFinal, hValue ▸ hSqueezes, ?_⟩
  rw [roundWithAccuracy, hFirst]
  rfl

theorem keeps_exact (m : ℕ) (e : ℤ) :
    Keeps (.ofMantissaAndAccuracy m .exact) e (m * 2 ^ e) where
  le := le_refl _
  lt := mul_lt_mul_of_pos_right (lt_add_one _) (zpow_pos two_pos e)
  lt_of_rest := nofun

theorem decreaseExponent_eq {k : ℕ} (m : ℕ) (t : ℤ) :
    decreaseExponent m (t + k) t = (m * 2 ^ k, t) := by
  rw [decreaseExponent, show (t + k - t).toNat = k by omega, Nat.shiftLeft_eq]
  exact congrArg _ (by omega)

theorem log2_mul_two_pow (hm : 0 < m) (k : ℕ) : (m * 2 ^ k).log2 = m.log2 + k := by
  have hSome := Nat.ne_of_gt hm
  rw [Nat.log2_eq_iff (Nat.mul_ne_zero hSome (Nat.ne_of_gt (Nat.two_pow_pos k))), pow_add,
    Nat.add_right_comm, pow_add]
  exact ⟨Nat.mul_le_mul_right _ (Nat.log2_self_le hSome),
    Nat.mul_lt_mul_of_pos_right Nat.lt_log2_self (Nat.two_pow_pos k)⟩

/-- The rounding of a whole number times a power of two. -/
theorem exists_of_round (s : Sign) (hm : 0 < m) (e : ℤ) :
    ∃ q t, Settled q t ∧ Squeezes (m * 2 ^ e) (q * 2 ^ t) ∧
      UnpackedFloat.round .binary64 s m e = settledFloat s q t := by
  rw [UnpackedFloat.round, targetExponent_eq, decreaseExponent]
  simp only [Nat.shiftLeft_eq]
  generalize hShift : (e - max (m.log2 + e - 52) (-1074)).toNat = k
  have hLog := log2_mul_two_pow hm k
  have hValue : ((m * 2 ^ k : ℕ) : ℚ) * 2 ^ (e - k) = m * 2 ^ e := by
    obtain ⟨f, rfl⟩ : ∃ f, e = f + k := ⟨e - k, by omega⟩
    rw [add_sub_cancel_right, two_zpow_add_natCast]
    push_cast
    ring
  exact exists_of_roundWithAccuracy s (hValue ▸ keeps_exact _ _) (by omega)

end Rounding

section Packing
variable {s : Sign} {q : ℕ} {t : ℤ}

theorem signedWord_packComponents (s : Sign) (field : BitVec 11) (fraction : BitVec 52) :
    signedWord (packComponents .binary64 s field fraction).toNat =
      s.apply (field.toNat * 2 ^ 52 + fraction.toNat) := by
  have hField := field.isLt
  have hFraction := fraction.isLt
  have hWord : (packComponents .binary64 s field fraction).toNat =
      (s.toBitVec.toNat * 2 ^ 11 + field.toNat) * 2 ^ 52 + fraction.toNat := by
    rw [packComponents, BitVec.toNat_append, ← Nat.shiftLeft_add_eq_or_of_lt fraction.isLt,
      BitVec.toNat_append, ← Nat.shiftLeft_add_eq_or_of_lt field.isLt, Nat.shiftLeft_eq,
      Nat.shiftLeft_eq]
  generalize (packComponents .binary64 s field fraction).toNat = word at hWord ⊢
  cases s with
  | positive =>
    have hWord : word = (0 * 2 ^ 11 + field.toNat) * 2 ^ 52 + fraction.toNat := hWord
    rw [signedWord, if_pos (by omega), Sign.apply]
    omega
  | negative =>
    have hWord : word = (1 * 2 ^ 11 + field.toNat) * 2 ^ 52 + fraction.toNat := hWord
    rw [signedWord, if_neg (by omega), Sign.apply]
    omega

/-- A double is packed at its place, and what is beyond all doubles at that of the infinite one. -/
theorem place_pack (h : Settled q t) : place (.ofModel (.pack (settledFloat s q t))) =
    s.apply (min ((t + 1074) * 2 ^ 52 + q) (2047 * 2 ^ 52)) := by
  rw [Settled] at h
  change signedWord (UnpackedFloat.pack .binary64 (settledFloat s q t)).toNat = _
  by_cases hZero : q = 0
  · have hPlace : (t + 1074) * 2 ^ 52 + q = 0 := by omega
    rw [settledFloat, dif_pos hZero, UnpackedFloat.pack, packedZero, signedWord_packComponents,
      hPlace]
    rfl
  rw [settledFloat, dif_neg hZero]
  have hBias : ((Format.binary64.exponentBias : ℕ) : ℤ) = 1023 := rfl
  have hLog : q.log2 + 1 = Format.binary64.mantissaBits ↔ 2 ^ 52 ≤ q := by
    rw [show Format.binary64.mantissaBits = 52 + 1 from rfl, Nat.add_right_cancel_iff,
      Nat.log2_eq_iff hZero]
    exact and_iff_left h.1
  have hField : (t + Format.binary64.exponentBias + (52 : ℕ)).toNat = (t + 1075).toNat := by omega
  rw [UnpackedFloat.pack, hField]
  simp only [hLog]
  split
  · rename_i hTop
    have hTop : 2 ^ 11 ≤ (t + 1075).toNat + 1 := hTop
    rw [packedInfinity, signedWord_packComponents, min_eq_right (by omega)]
    rfl
  rename_i hInside
  have hInside : ¬2 ^ 11 ≤ (t + 1075).toNat + 1 := hInside
  split
  · rw [signedWord_packComponents, BitVec.toNat_ofNat, BitVec.toNat_ofNat, min_eq_left (by omega)]
    congr 1
    omega
  · rw [signedWord_packComponents, BitVec.toNat_ofNat, BitVec.toNat_ofNat, min_eq_left (by omega)]
    congr 1
    omega

end Packing

end Almanac.Double
