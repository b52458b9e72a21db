import Almanac.Proofs.Double.Rounding

/-! # Results of doubles

Sums, differences, products and quotients of finite doubles, and whole numbers as doubles, are the
exact results moved to a double without passing one. A result that is a double is therefore exact,
among them all whole numbers of 53 bits.
-/
namespace Almanac.Double
set_option autoImplicit false
open Float.Model Float.Model.UnpackedFloat

section Signs

theorem apply_natCast (s : Sign) (n : ℕ) : (s.apply n : ℚ) = s.apply 1 * n := by
  cases s <;> simp [Sign.apply]

theorem apply_mul (s : Sign) (n : ℕ) (r : ℚ) : (s.apply n : ℚ) * r = s.apply 1 * (n * r) := by
  rw [apply_natCast, mul_assoc]

theorem apply_zero_mul (s : Sign) (r : ℚ) : (s.apply (0 : ℕ) : ℚ) * r = 0 := by
  rw [apply_mul, Nat.cast_zero, zero_mul, mul_zero]

/-- Where places are in the order of magnitudes, signed places are in that of signed numbers. -/
theorem apply_le_apply {s s' : Sign} {a b : ℚ} {p q : ℤ} (hSome : 0 < a + b)
    (hp : 0 ≤ p) (hq : 0 ≤ q) (hUp : a ≤ b → p ≤ q) (hDown : b ≤ a → q ≤ p)
    (hLe : (s.apply 1 : ℚ) * a ≤ s'.apply 1 * b) : s.apply p ≤ s'.apply q := by
  cases s <;> cases s' <;> simp only [Sign.apply, Int.cast_neg, Int.cast_one, neg_mul, one_mul,
    neg_le_neg_iff] at hLe ⊢
  · exact hDown hLe
  · omega
  · linarith
  · exact hUp hLe

end Signs

section Doubles
variable {x y z : Float} {r : ℚ} {s : Sign} {q m : ℕ} {t e : ℤ}

theorem placeOf_settledFloat (h : Settled m e) :
    placeOf (settledFloat s m e) = s.apply ((e + 1074) * 2 ^ 52 + m) := by
  rw [Settled] at h
  rcases Nat.eq_zero_or_pos m with rfl | hm
  · rw [settledFloat_zero, placeOf, show (e + 1074) * 2 ^ 52 + ((0 : ℕ) : ℤ) = 0 by omega]
    cases s <;> rfl
  · rw [settledFloat_of_pos s e hm, placeOf]

theorem valueOf_settledFloat : valueOf (settledFloat s m e) = s.apply m * 2 ^ e := by
  rcases Nat.eq_zero_or_pos m with rfl | hm
  · rw [settledFloat_zero]
    cases s <;> simp [valueOf, Sign.apply]
  · rw [settledFloat_of_pos s e hm, valueOf]

/-- The sign, the significand and the exponent of a finite double. -/
theorem exists_parts (h : isFinite x = true) : ∃ s m e, Settled m e ∧ e ≤ 971 ∧
    x.toModel.unpack = settledFloat s m e := by
  have hCanonical := (canonical_of_observed (observed_of_finite h)).1
  have hFinite : x.toModel.unpack.isFinite = true := h
  cases hParts : x.toModel.unpack with
  | notANumber =>
    rw [hParts] at hFinite
    cases hFinite
  | infinity s =>
    rw [hParts] at hFinite
    cases hFinite
  | zero s => exact ⟨s, 0, -1074, ⟨by decide, le_refl _, .inr rfl⟩, by decide, rfl⟩
  | finite s m e hm =>
    rw [hParts] at hCanonical
    exact ⟨s, m, e, hCanonical.settled, hCanonical.2.2.1, (settledFloat_of_pos s e hm).symm⟩

theorem place_of_parts (hx : isFinite x = true) (h : Settled m e)
    (hParts : x.toModel.unpack = settledFloat s m e) :
    place x = s.apply ((e + 1074) * 2 ^ 52 + m) := by
  rw [← (canonical_of_observed (observed_of_finite hx)).2, hParts, placeOf_settledFloat h]

theorem value_of_parts (hParts : x.toModel.unpack = settledFloat s m e) :
    value x = s.apply m * 2 ^ e := by
  rw [value, hParts, valueOf_settledFloat]

theorem observed_pack (s : Sign) (q : ℕ) (t : ℤ) :
    isHole (Float.ofModel (.pack (settledFloat s q t))) = false := by
  rw [observed_iff]
  refine unpack_pack_ne_notANumber ?_
  rw [settledFloat]
  split <;> intro h <;> cases h

theorem place_le_of_value_le (hx : isFinite x = true) (hy : isFinite y = true)
    (h : value x ≤ value y) : place x ≤ place y := by
  obtain ⟨hCanonical, hPlace⟩ := canonical_of_observed (observed_of_finite hx)
  obtain ⟨hCanonical', hPlace'⟩ := canonical_of_observed (observed_of_finite hy)
  refine not_lt.mp fun hLess => not_lt_of_ge h ?_
  exact valueOf_lt hCanonical' hCanonical hy hx (by rwa [hPlace, hPlace'])

theorem place_le_iff (hx : isFinite x = true) (hy : isFinite y = true) :
    place x ≤ place y ↔ value x ≤ value y :=
  ⟨value_le_of_place_le hx hy, place_le_of_value_le hx hy⟩

theorem place_lt_iff (hx : isFinite x = true) (hy : isFinite y = true) :
    place x < place y ↔ value x < value y :=
  lt_iff_lt_of_le_iff_le (place_le_iff hy hx)

/-- Only the two zeros share a value. -/
theorem eq_of_value_eq (hx : isFinite x = true) (hy : isFinite y = true) (h : value x = value y)
    (hSome : value y ≠ 0) : x = y := by
  have hPlace : place x = place y := le_antisymm (place_le_of_value_le hx hy (le_of_eq h))
    (place_le_of_value_le hy hx (ge_of_eq h))
  obtain hSame | ⟨-, rfl⟩ | ⟨-, rfl⟩ := eq_or_zeros_of_place_eq hPlace
  · exact hSame
  · exact absurd rfl hSome
  · exact absurd rfl hSome

/-- A double stands for a number: no other double lies between them. -/
structure RoundsTo (r : ℚ) (z : Float) : Prop where
  observed : isHole z = false
  le : ∀ y, isFinite y = true → r ≤ value y → place z ≤ place y
  ge : ∀ y, isFinite y = true → value y ≤ r → place y ≤ place z

theorem RoundsTo.place_eq (h : RoundsTo r z) (hy : isFinite y = true) (hr : value y = r) :
    place z = place y :=
  le_antisymm (h.le y hy (ge_of_eq hr)) (h.ge y hy (le_of_eq hr))

/-- A number that is a double stands for itself. -/
theorem RoundsTo.exact (h : RoundsTo r z) (hy : isFinite y = true) (hr : value y = r) :
    isFinite z = true ∧ value z = r := by
  obtain rfl | ⟨rfl, rfl⟩ | ⟨rfl, rfl⟩ := eq_or_zeros_of_place_eq (h.place_eq hy hr)
  · exact ⟨hy, hr⟩
  · exact ⟨rfl, hr⟩
  · exact ⟨rfl, hr⟩

theorem roundsTo_of_place (hz : isHole z = false) (hy : isFinite y = true)
    (hPlace : place z = place y) : RoundsTo (value y) z where
  observed := hz
  le _ hw hLe := hPlace ▸ place_le_of_value_le hy hw hLe
  ge _ hw hLe := hPlace ▸ place_le_of_value_le hw hy hLe

/-- A positive number that has been moved to a significand and an exponent, under either sign. -/
theorem roundsTo_pack (hr : 0 < r) (h : Settled q t) (hSqueezes : Squeezes r (q * 2 ^ t))
    (s : Sign) : RoundsTo (s.apply 1 * r) (.ofModel (.pack (settledFloat s q t))) := by
  have hUp : ∀ m e, Settled m e → r ≤ m * 2 ^ e →
      min ((t + 1074) * 2 ^ 52 + q) (2047 * 2 ^ 52) ≤ (e + 1074) * 2 ^ 52 + m := by
    intro m e hm hLe
    refine le_trans (min_le_left _ _) (not_lt.mp fun hLess => ?_)
    exact not_lt_of_ge (hSqueezes.le m e hm hLe) (magnitude_lt hm h hLess)
  have hDown : ∀ m e, Settled m e → e ≤ 971 → (m : ℚ) * 2 ^ e ≤ r →
      (e + 1074) * 2 ^ 52 + m ≤ min ((t + 1074) * 2 ^ 52 + q) (2047 * 2 ^ 52) := by
    intro m e hm hTop hLe
    refine le_min (not_lt.mp fun hLess => ?_) ?_
    · exact not_lt_of_ge (hSqueezes.ge m e hm hLe) (magnitude_lt h hm hLess)
    · rw [Settled] at hm
      omega
  have hPlace := place_pack (s := s) h
  have hNonneg : 0 ≤ min ((t + 1074) * 2 ^ 52 + (q : ℤ)) (2047 * 2 ^ 52) := by
    rw [Settled] at h
    omega
  generalize min ((t + 1074) * 2 ^ 52 + (q : ℤ)) (2047 * 2 ^ 52) = p at *
  have hMagnitude : ∀ (m : ℕ) (e : ℤ), (0 : ℚ) ≤ m * 2 ^ e := fun m e =>
    mul_nonneg (Nat.cast_nonneg m) (le_of_lt (zpow_pos two_pos e))
  constructor
  · exact observed_pack s q t
  · intro y hy hLe
    obtain ⟨s', m, e, hm, hTop, hParts⟩ := exists_parts hy
    have hLeast := hm.2.1
    rw [value_of_parts hParts, apply_mul] at hLe
    rw [hPlace, place_of_parts hy hm hParts]
    exact apply_le_apply (add_pos_of_pos_of_nonneg hr (hMagnitude m e)) hNonneg (by omega)
      (hUp m e hm) (hDown m e hm hTop) hLe
  · intro y hy hLe
    obtain ⟨s', m, e, hm, hTop, hParts⟩ := exists_parts hy
    have hLeast := hm.2.1
    rw [value_of_parts hParts, apply_mul] at hLe
    rw [hPlace, place_of_parts hy hm hParts]
    exact apply_le_apply (add_pos_of_nonneg_of_pos (hMagnitude m e) hr) (by omega) hNonneg
      (hDown m e hm hTop) (hUp m e hm) hLe

/-- A significand and an exponent within bounds are those of a double. -/
theorem exists_double (s : Sign) (h : Settled q t) (hTop : t ≤ 971) :
    ∃ y, isFinite y = true ∧ value y = s.apply q * 2 ^ t := by
  have hObserved := observed_pack s q t
  have hPlace := place_pack (s := s) h
  generalize Float.ofModel (.pack (settledFloat s q t)) = y at hObserved hPlace
  have hBounds : (t + 1074) * 2 ^ 52 + q < 2047 * 2 ^ 52 ∧ 0 ≤ (t + 1074) * 2 ^ 52 + q := by
    rw [Settled] at h
    omega
  rw [min_eq_left (le_of_lt hBounds.1)] at hPlace
  have hUnpacked := (canonical_of_observed hObserved).2.trans hPlace
  have hFinite : isFinite y = true := by
    change y.toModel.unpack.isFinite = true
    cases hParts : y.toModel.unpack with
    | notANumber => exact absurd hParts ((observed_iff y).mp hObserved)
    | infinity s' =>
      rw [hParts, placeOf] at hUnpacked
      cases s <;> cases s' <;> simp only [Sign.apply] at hUnpacked <;> omega
    | zero => rfl
    | finite => rfl
  refine ⟨y, hFinite, ?_⟩
  obtain ⟨s', m, e, hm, -, hParts⟩ := exists_parts hFinite
  rw [value_of_parts hParts]
  rw [place_of_parts hFinite hm hParts] at hPlace
  rw [Settled] at h hm
  -- Both have the same magnitude, so that the same place leaves the sign of zero open only.
  obtain ⟨rfl, rfl⟩ : m = q ∧ e = t := by
    cases s <;> cases s' <;> simp only [Sign.apply] at hPlace <;> omega
  cases s <;> cases s' <;> simp only [Sign.apply] at hPlace ⊢
  · obtain rfl : m = 0 := by omega
    simp
  · obtain rfl : m = 0 := by omega
    simp

end Doubles

section Operations
variable {x y : Float} {s s' : Sign} {m m' : ℕ} {e e' : ℤ}

theorem roundsTo_zero (s : Sign) : RoundsTo 0 (.ofModel (.pack (.zero s))) := by
  have hPlace := place_pack (s := s) (q := 0) (t := -1074) ⟨by decide, le_refl _, .inr rfl⟩
  rw [settledFloat_zero] at hPlace
  refine roundsTo_of_place (y := 0) ?_ rfl (hPlace.trans ?_)
  · rw [← settledFloat_zero s 0]
    exact observed_pack s 0 0
  · cases s <;> rfl

theorem roundsTo_round (s : Sign) (hm : 0 < m) (e : ℤ) :
    RoundsTo (s.apply m * 2 ^ e) (.ofModel (.pack (UnpackedFloat.round .binary64 s m e))) := by
  obtain ⟨q, t, hSettled, hSqueezes, hRound⟩ := exists_of_round s hm e
  rw [hRound, apply_mul]
  have hPositive : (0 : ℚ) < m * 2 ^ e := mul_pos (Nat.cast_pos.mpr hm) (zpow_pos two_pos e)
  exact roundsTo_pack hPositive hSettled hSqueezes s

theorem roundsTo_normalize (n e : ℤ) (s : Sign) :
    RoundsTo (n * 2 ^ e) (.ofModel (.pack (normalize .binary64 n e s))) := by
  rw [UnpackedFloat.normalize]
  obtain hLess | rfl | hGreater := lt_trichotomy n 0
  · rw [Int.compare_eq_lt.mpr hLess]
    have hRound := roundsTo_round .negative (m := (-n).toNat) (by omega) e
    rwa [Sign.apply, Int.toNat_of_nonneg (by omega), neg_neg] at hRound
  · rw [Int.compare_eq_eq.mpr rfl, Int.cast_zero, zero_mul]
    exact roundsTo_zero s
  · rw [Int.compare_eq_gt.mpr hGreater]
    have hRound := roundsTo_round .positive (m := n.toNat) (by omega) e
    rwa [Sign.apply, Int.toNat_of_nonneg (by omega)] at hRound

theorem roundsTo_self (s : Sign) (hm : 0 < m) (h : Settled m e) :
    RoundsTo (s.apply m * 2 ^ e) (.ofModel (.pack (.finite s m e hm))) := by
  rw [apply_mul, ← settledFloat_of_pos s e hm]
  exact roundsTo_pack (mul_pos (Nat.cast_pos.mpr hm) (zpow_pos two_pos e)) h (.refl _) s

theorem value_sum (s s' : Sign) (m m' : ℕ) (E : ℤ) (k k' : ℕ) :
    (s.apply m * 2 ^ (E + k) + s'.apply m' * 2 ^ (E + k') : ℚ) =
      (s.apply (m * 2 ^ k : ℕ) + s'.apply (m' * 2 ^ k' : ℕ) : ℤ) * 2 ^ E := by
  rw [two_zpow_add_natCast, two_zpow_add_natCast]
  cases s <;> cases s' <;> simp only [Sign.apply] <;> push_cast <;> ring

theorem roundsTo_unpacked_add (s s' : Sign) (h : Settled m e) (h' : Settled m' e') :
    RoundsTo (s.apply m * 2 ^ e + s'.apply m' * 2 ^ e')
      (.ofModel (.pack (UnpackedFloat.add .binary64 (settledFloat s m e)
        (settledFloat s' m' e')))) := by
  rcases Nat.eq_zero_or_pos m with rfl | hm
  · rw [apply_zero_mul, zero_add, settledFloat_zero]
    rcases Nat.eq_zero_or_pos m' with rfl | hm'
    · rw [apply_zero_mul, settledFloat_zero]
      cases s <;> cases s' <;> exact roundsTo_zero _
    · rw [settledFloat_of_pos s' e' hm']
      exact roundsTo_self s' hm' h'
  rw [settledFloat_of_pos s e hm]
  rcases Nat.eq_zero_or_pos m' with rfl | hm'
  · rw [apply_zero_mul, add_zero, settledFloat_zero]
    exact roundsTo_self s hm h
  rw [settledFloat_of_pos s' e' hm', UnpackedFloat.add]
  generalize hLeast : min e e' = E
  obtain ⟨k, rfl⟩ : ∃ k : ℕ, e = E + k := ⟨(e - E).toNat, by omega⟩
  obtain ⟨k', rfl⟩ : ∃ k : ℕ, e' = E + k := ⟨(e' - E).toNat, by omega⟩
  rw [decreaseExponent_eq, decreaseExponent_eq, value_sum]
  exact roundsTo_normalize _ E .positive

theorem apply_neg (s : Sign) (n : ℤ) : (-s).apply n = -s.apply n := by
  cases s
  · exact (neg_neg n).symm
  · rfl

theorem unpacked_sub (u v : UnpackedFloat) : u.sub .binary64 v = u.add .binary64 v.neg := by
  cases u <;> cases v <;> try rfl
  simp only [UnpackedFloat.sub, UnpackedFloat.neg, UnpackedFloat.add, apply_neg, sub_eq_add_neg]

theorem neg_settledFloat (s : Sign) (m : ℕ) (e : ℤ) :
    (settledFloat s m e).neg = settledFloat (-s) m e := by
  rw [settledFloat, settledFloat]
  split <;> rfl

theorem roundsTo_add (hx : isFinite x = true) (hy : isFinite y = true) :
    RoundsTo (value x + value y) (x + y) := by
  obtain ⟨s, m, e, hm, -, hParts⟩ := exists_parts hx
  obtain ⟨s', m', e', hm', -, hParts'⟩ := exists_parts hy
  have hSum := roundsTo_unpacked_add s s' hm hm'
  rwa [← value_of_parts hParts, ← value_of_parts hParts', ← hParts, ← hParts'] at hSum

theorem roundsTo_sub (hx : isFinite x = true) (hy : isFinite y = true) :
    RoundsTo (value x - value y) (x - y) := by
  obtain ⟨s, m, e, hm, -, hParts⟩ := exists_parts hx
  obtain ⟨s', m', e', hm', -, hParts'⟩ := exists_parts hy
  have hSum := roundsTo_unpacked_add s (-s') hm hm'
  rwa [apply_neg, Int.cast_neg, neg_mul, ← value_of_parts hParts, ← value_of_parts hParts',
    ← neg_settledFloat, ← hParts, ← hParts', ← unpacked_sub, ← sub_eq_add_neg] at hSum

theorem keeps_quotient {n d : ℕ} (hd : 0 < d) (e : ℤ) :
    Keeps (.ofMantissaAndAccuracy (n / d) (accuracyOfFraction (n % d) d)) e (n / d * 2 ^ e) := by
  have hPower : (0 : ℚ) < 2 ^ e := zpow_pos two_pos e
  have hPositive : (0 : ℚ) < d := Nat.cast_pos.mpr hd
  have hParts : (n : ℚ) = d * (n / d : ℕ) + (n % d : ℕ) := by
    exact_mod_cast (Nat.div_add_mod n d).symm
  have hRest : ((n % d : ℕ) : ℚ) < d := Nat.cast_lt.mpr (Nat.mod_lt n hd)
  have hNonneg : (0 : ℚ) ≤ (n % d : ℕ) := Nat.cast_nonneg _
  constructor
  · rw [mantissa_ofMantissaAndAccuracy]
    refine mul_le_mul_of_nonneg_right ((le_div_iff₀ hPositive).mpr ?_) (le_of_lt hPower)
    linarith
  · rw [mantissa_ofMantissaAndAccuracy]
    refine mul_lt_mul_of_pos_right ((div_lt_iff₀ hPositive).mpr ?_) hPower
    linarith
  · intro hKept
    rw [mantissa_ofMantissaAndAccuracy]
    have hSome : n % d ≠ 0 := by
      intro hNone
      rw [hNone] at hKept
      cases hKept
    have hPositiveRest : (0 : ℚ) < (n % d : ℕ) := Nat.cast_pos.mpr (Nat.pos_of_ne_zero hSome)
    refine mul_lt_mul_of_pos_right ((lt_div_iff₀ hPositive).mpr ?_) hPower
    linarith

/-- The dividend is moved so far that the quotient has all bits of a significand. -/
theorem enough_of_divCore {k : ℕ} (hm : 0 < m) (hm' : 0 < m')
    (hk : (m'.log2 : ℤ) + 53 ≤ m.log2 + k) : 52 ≤ (m * 2 ^ k / m').log2 := by
  have hQuotient : 2 ^ 52 ≤ m * 2 ^ k / m' := by
    rw [Nat.le_div_iff_mul_le hm']
    calc 2 ^ 52 * m' ≤ 2 ^ 52 * 2 ^ (m'.log2 + 1) :=
          Nat.mul_le_mul_left _ (Nat.le_of_lt Nat.lt_log2_self)
      _ = 2 ^ (m'.log2 + 53) := by rw [← pow_add]; congr 1; omega
      _ ≤ 2 ^ (m.log2 + k) := Nat.pow_le_pow_right two_pos (by omega)
      _ ≤ m * 2 ^ k := by
        rw [pow_add]
        exact Nat.mul_le_mul_right _ (Nat.log2_self_le (Nat.ne_of_gt hm))
  exact (Nat.le_log2 (by omega)).mpr hQuotient

theorem apply_div (s s' : Sign) (m m' : ℕ) (e e' : ℤ) :
    (s.apply m * 2 ^ e / (s'.apply m' * 2 ^ e') : ℚ) =
      (s / s').apply 1 * (m * 2 ^ e / (m' * 2 ^ e')) := by
  have hSign : (s / s').apply 1 = s.apply 1 * s'.apply 1 := by
    cases s <;> cases s' <;> rfl
  rw [apply_mul, apply_mul s', hSign, Int.cast_mul, mul_div_mul_comm]
  congr 1
  cases s <;> cases s' <;> simp [Sign.apply]

theorem roundsTo_unpacked_div (s s' : Sign) (hm : 0 < m) (hm' : 0 < m') (e e' : ℤ) :
    RoundsTo (s.apply m * 2 ^ e / (s'.apply m' * 2 ^ e'))
      (.ofModel (.pack
        (UnpackedFloat.div .binary64 (.finite s m e hm) (.finite s' m' e' hm')))) := by
  have hPositive : (0 : ℚ) < m * 2 ^ e / (m' * 2 ^ e') :=
    div_pos (mul_pos (Nat.cast_pos.mpr hm) (zpow_pos two_pos e))
      (mul_pos (Nat.cast_pos.mpr hm') (zpow_pos two_pos e'))
  rw [UnpackedFloat.div, divCore, apply_div]
  simp only [Nat.shiftLeft_eq]
  have hBits : Format.binary64.mantissaBits = 53 := rfl
  have hLeast : Format.binary64.minExponent = -1074 := rfl
  generalize hTarget : min (e - e')
    (Format.binary64.targetExponent (totalExponent m e - totalExponent m' e')) = t
  rw [Format.targetExponent, totalExponent, totalExponent, hBits, hLeast] at hTarget
  obtain ⟨k, hk⟩ : ∃ k : ℕ, e - e' = t + k := ⟨(e - e' - t).toNat, by omega⟩
  rw [hk, show (t + k - t).toNat = k by omega]
  have hQuotient : (m * 2 ^ e / (m' * 2 ^ e') : ℚ) = (m * 2 ^ k : ℕ) / m' * 2 ^ t := by
    rw [show e = t + k + e' by omega, zpow_add₀ two_ne_zero, two_zpow_add_natCast]
    push_cast
    field_simp
  rw [hQuotient] at hPositive ⊢
  have hEnough : 52 ≤ (m * 2 ^ k / m').log2 ∨ t ≤ -1074 := by
    refine or_iff_not_imp_right.mpr fun hMore => enough_of_divCore hm hm' ?_
    omega
  obtain ⟨q, t', hSettled, hSqueezes, hRound⟩ :=
    exists_of_roundWithAccuracy (s / s') (keeps_quotient hm' t) hEnough
  rw [hRound]
  exact roundsTo_pack hPositive hSettled hSqueezes _

theorem roundsTo_div (hx : isFinite x = true) (hy : isFinite y = true) (hSome : value y ≠ 0) :
    RoundsTo (value x / value y) (x / y) := by
  obtain ⟨s, m, e, -, -, hParts⟩ := exists_parts hx
  obtain ⟨s', m', e', -, -, hParts'⟩ := exists_parts hy
  have hm' : 0 < m' := by
    refine Nat.pos_of_ne_zero ?_
    rintro rfl
    rw [value_of_parts hParts'] at hSome
    exact hSome (apply_zero_mul s' _)
  change RoundsTo _ (.ofModel (.pack (UnpackedFloat.div _ x.toModel.unpack y.toModel.unpack)))
  rw [value_of_parts hParts, value_of_parts hParts', hParts, hParts', settledFloat_of_pos _ _ hm']
  rcases Nat.eq_zero_or_pos m with rfl | hm
  · rw [settledFloat_zero, apply_zero_mul, zero_div]
    exact roundsTo_zero _
  · rw [settledFloat_of_pos _ _ hm]
    exact roundsTo_unpacked_div s s' hm hm' e e'

theorem roundsTo_unpacked_mul (s s' : Sign) (e e' : ℤ) (hm : 0 < m) (hm' : 0 < m')
    (hEnough : 52 ≤ (m * m').log2 ∨ e + e' ≤ -1074) :
    RoundsTo (s.apply m * 2 ^ e * (s'.apply m' * 2 ^ e'))
      (.ofModel (.pack
        (UnpackedFloat.mul .binary64 (.finite s m e hm) (.finite s' m' e' hm')))) := by
  obtain ⟨q, t, hSettled, hSqueezes, hRound⟩ :=
    exists_of_roundWithAccuracy (s * s') (keeps_exact (m * m') (e + e')) hEnough
  have hPositive : (0 : ℚ) < (m * m' : ℕ) * 2 ^ (e + e') :=
    mul_pos (Nat.cast_pos.mpr (Nat.mul_pos hm hm')) (zpow_pos two_pos _)
  have hProduct : (s.apply m * 2 ^ e * (s'.apply m' * 2 ^ e') : ℚ) =
      (s * s').apply 1 * ((m * m' : ℕ) * 2 ^ (e + e')) := by
    rw [zpow_add₀ two_ne_zero]
    cases s <;> cases s' <;> simp only [Sign.apply] <;> push_cast <;> ring
  rw [UnpackedFloat.mul, hRound, hProduct]
  exact roundsTo_pack hPositive hSettled hSqueezes _

theorem roundsTo_mul (hx : isFinite x = true) (hy : isFinite y = true) :
    RoundsTo (value x * value y) (x * y) := by
  obtain ⟨s, m, e, h, -, hParts⟩ := exists_parts hx
  obtain ⟨s', m', e', h', -, hParts'⟩ := exists_parts hy
  change RoundsTo _ (.ofModel (.pack (UnpackedFloat.mul _ x.toModel.unpack y.toModel.unpack)))
  rw [value_of_parts hParts, value_of_parts hParts', hParts, hParts']
  rcases Nat.eq_zero_or_pos m with rfl | hm
  · rw [apply_zero_mul, zero_mul, settledFloat_zero, settledFloat]
    split <;> exact roundsTo_zero _
  rcases Nat.eq_zero_or_pos m' with rfl | hm'
  · rw [apply_zero_mul, mul_zero, settledFloat_zero, settledFloat_of_pos _ _ hm]
    exact roundsTo_zero _
  rw [settledFloat_of_pos _ _ hm, settledFloat_of_pos _ _ hm']
  refine roundsTo_unpacked_mul s s' e e' hm hm' (or_iff_not_imp_right.mpr fun hMore => ?_)
  rw [Settled] at h h'
  have hSome : m * m' ≠ 0 := Nat.mul_ne_zero (Nat.ne_of_gt hm) (Nat.ne_of_gt hm')
  have hFull : 2 ^ 52 ≤ m ∨ 2 ^ 52 ≤ m' := by omega
  refine (Nat.le_log2 hSome).mpr (hFull.elim (fun hLeft => ?_) fun hRight => ?_)
  · exact hLeft.trans (Nat.le_mul_of_pos_right m hm')
  · exact hRight.trans (Nat.le_mul_of_pos_left m' hm)

end Operations

section Numbers

/-- A whole number up to the 53rd power of two is a double, under either sign. -/
theorem exists_whole (s : Sign) {n : ℕ} (h : n ≤ 2 ^ 53) :
    ∃ y, isFinite y = true ∧ value y = s.apply n := by
  rcases Nat.eq_zero_or_pos n with rfl | hn
  · refine ⟨0, rfl, ?_⟩
    cases s <;> exact Int.cast_zero.symm
  rcases Nat.lt_or_eq_of_le h with hFits | rfl
  · obtain ⟨k, hk⟩ : ∃ k, n.log2 + k = 52 :=
      ⟨52 - n.log2, Nat.add_sub_cancel'
        (Nat.le_of_lt_succ ((Nat.log2_lt (Nat.ne_of_gt hn)).mpr hFits))⟩
    have hLog : (n * 2 ^ k).log2 = 52 := (log2_mul_two_pow hn k).trans hk
    have hSome : n * 2 ^ k ≠ 0 := Nat.ne_of_gt (Nat.mul_pos hn (Nat.two_pow_pos k))
    obtain ⟨hFull, hBits⟩ := (Nat.log2_eq_iff hSome).mp hLog
    obtain ⟨y, hy, hValue⟩ := exists_double s (t := -k) ⟨hBits, by omega, .inl hFull⟩ (by omega)
    refine ⟨y, hy, hValue.trans ?_⟩
    rw [apply_mul, apply_natCast, zpow_neg, zpow_natCast]
    push_cast
    field_simp
  · obtain ⟨y, hy, hValue⟩ :=
      exists_double s (q := 2 ^ 52) (t := 1) ⟨by decide, by decide, .inl le_rfl⟩ (by decide)
    refine ⟨y, hy, hValue.trans ?_⟩
    rw [apply_mul, apply_natCast]
    norm_num

/-- A result that is a whole number of 53 bits is exact. -/
theorem RoundsTo.exact_intCast {k : ℤ} {z : Float} (h : RoundsTo k z) (hk : k.natAbs ≤ 2 ^ 53) :
    isFinite z = true ∧ value z = k := by
  obtain ⟨s, hs⟩ : ∃ s : Sign, s.apply k.natAbs = k := by
    rcases Int.natAbs_eq k with hSame | hOpposite
    · exact ⟨.positive, hSame.symm⟩
    · exact ⟨.negative, hOpposite.symm⟩
  obtain ⟨y, hy, hValue⟩ := exists_whole s hk
  exact h.exact hy (hValue.trans (congrArg Int.cast hs))

theorem value_one : value 1 = 1 := by
  rw [value_of_parts (x := 1) (s := .positive) (m := 2 ^ 52) (e := -52) rfl, Sign.apply]
  norm_num

/-- A whole number as a double. A small one is a word that is multiplied by one, a large one a
product of a significand and a power of ten. -/
theorem roundsTo_ofNat (n : ℕ) : RoundsTo n (Float.ofNat n) := by
  change RoundsTo n (Float.ofScientific n false 0)
  rw [Float.ofScientific]
  split
  · rename_i hFast
    have hWord : n.toUInt64.toNat = n := by
      rw [Nat.toUInt64_eq, UInt64.toNat_ofNat']
      omega
    have hRounded : RoundsTo n n.toUInt64.toFloat := by
      have hNormal := roundsTo_normalize (n.toUInt64.toNat : ℤ) 0 .positive
      rwa [zpow_zero, mul_one, Int.cast_natCast, congrArg Nat.cast hWord] at hNormal
    obtain ⟨hFinite, hValue⟩ := hRounded.exact_intCast (by omega)
    have hProduct := roundsTo_mul (y := 1) hFinite rfl
    rw [hValue, value_one, mul_one] at hProduct
    exact hProduct
  · rename_i hSlow
    have hSome : 0 < n := by omega
    have hShifted : 0 < n <<< 53 := by
      rw [Nat.shiftLeft_eq]
      exact Nat.mul_pos hSome (Nat.two_pow_pos 53)
    have hAbove : ¬(0 : ℤ) < -(2 ^ 11 + n.log2) := by omega
    have hScientific : UnpackedFloat.ofScientific .binary64 n 0 = UnpackedFloat.mul .binary64
        (.finite .positive (n <<< 53) (-53) hShifted) (.finite .positive 1 0 Nat.one_pos) := by
      rw [UnpackedFloat.ofScientific, dif_neg (Nat.ne_of_gt hSome), if_neg (by decide),
        if_neg hAbove, if_pos (le_refl 0)]
      rfl
    have hEnough : 52 ≤ (n <<< 53 * 1).log2 := by
      rw [mul_one, Nat.shiftLeft_eq, log2_mul_two_pow hSome]
      omega
    have hProduct :=
      roundsTo_unpacked_mul .positive .positive (-53) 0 hShifted Nat.one_pos (.inl hEnough)
    rw [← hScientific, Nat.shiftLeft_eq] at hProduct
    have hValue : (Sign.positive.apply (n * 2 ^ 53 : ℕ) * 2 ^ (-53 : ℤ) *
        (Sign.positive.apply (1 : ℕ) * 2 ^ (0 : ℤ)) : ℚ) = n := by
      simp only [Sign.apply]
      push_cast
      field_simp
      norm_num
    rwa [hValue] at hProduct

theorem value_ofNat {n : ℕ} (h : n ≤ 2 ^ 53) :
    isFinite (Float.ofNat n) = true ∧ value (Float.ofNat n) = n := by
  have hRounded : RoundsTo (n : ℤ) (Float.ofNat n) := by exact_mod_cast roundsTo_ofNat n
  exact_mod_cast hRounded.exact_intCast (by omega)

end Numbers

section Differences
variable {x y z : Float}

/-- The values of finite doubles are multiples of the least positive one. -/
theorem exists_multiple (hx : isFinite x = true) : ∃ n : ℤ, value x = n * 2 ^ (-1074 : ℤ) := by
  obtain ⟨s, m, e, hm, -, hParts⟩ := exists_parts hx
  obtain ⟨k, hk⟩ := Int.le.dest hm.2.1
  refine ⟨s.apply (m * 2 ^ k : ℕ), ?_⟩
  rw [value_of_parts hParts, ← hk, two_zpow_add_natCast, apply_natCast, apply_natCast]
  generalize (2 : ℚ) ^ (-1074 : ℤ) = unit
  push_cast
  ring

/-- A multiple of the least positive double keeps its sign. -/
theorem RoundsTo.sign_place {n : ℤ} (h : RoundsTo (n * 2 ^ (-1074 : ℤ)) z) :
    (place z).sign = n.sign := by
  have hPower : (0 : ℚ) < 2 ^ (-1074 : ℤ) := zpow_pos two_pos _
  have hLeast (s : Sign) : ∃ y, isFinite y = true ∧ value y = s.apply 1 * 2 ^ (-1074 : ℤ) :=
    exists_double s (q := 1) (t := -1074) ⟨by decide, le_refl _, .inr rfl⟩ (by decide)
  obtain hNegative | rfl | hPositive := lt_trichotomy n 0
  · obtain ⟨y, hy, hValue⟩ := hLeast .negative
    have hAbove : (n : ℚ) ≤ (Sign.negative.apply 1 : ℤ) := by
      exact_mod_cast Int.le_sub_one_of_lt hNegative
    have hUp := h.le y hy (hValue ▸ mul_le_mul_of_nonneg_right hAbove (le_of_lt hPower))
    have hBelow : place y < place 0 := by
      rw [place_lt_iff hy rfl, hValue]
      exact mul_neg_of_neg_of_pos (by norm_num [Sign.apply]) hPower
    rw [Int.sign_eq_neg_one_of_neg hNegative, Int.sign_eq_neg_one_of_neg (hUp.trans_lt hBelow)]
  · have hZero : place z = place 0 := h.place_eq rfl (by rw [Int.cast_zero, zero_mul]; rfl)
    rw [hZero]
    rfl
  · obtain ⟨y, hy, hValue⟩ := hLeast .positive
    have hBelow : ((Sign.positive.apply 1 : ℤ) : ℚ) ≤ n := by exact_mod_cast hPositive
    have hDown := h.ge y hy (hValue ▸ mul_le_mul_of_nonneg_right hBelow (le_of_lt hPower))
    have hAbove : place 0 < place y := by
      rw [place_lt_iff rfl hy, hValue]
      exact mul_pos (by norm_num [Sign.apply]) hPower
    rw [Int.sign_eq_one_of_pos hPositive, Int.sign_eq_one_of_pos (hAbove.trans_le hDown)]

/-- A difference of finite doubles has the sign of the exact one. -/
theorem sign_place_sub (hx : isFinite x = true) (hy : isFinite y = true) :
    ∃ n : ℤ, value x - value y = n * 2 ^ (-1074 : ℤ) ∧ (place (x - y)).sign = n.sign := by
  obtain ⟨m, hm⟩ := exists_multiple hx
  obtain ⟨n, hn⟩ := exists_multiple hy
  have hRounded := roundsTo_sub hx hy
  have hDifference : value x - value y = (m - n : ℤ) * 2 ^ (-1074 : ℤ) := by
    rw [hm, hn, Int.cast_sub, sub_mul]
  rw [hDifference] at hRounded
  exact ⟨m - n, hDifference, hRounded.sign_place⟩

theorem observed_zero : isHole (0 : Float) = false := rfl

theorem sub_pos_iff (hx : isFinite x = true) (hy : isFinite y = true) :
    0 < x - y ↔ 0 < value x - value y := by
  obtain ⟨n, hn, hSign⟩ := sign_place_sub hx hy
  have hPower : (0 : ℚ) < 2 ^ (-1074 : ℤ) := zpow_pos two_pos _
  rw [lt_iff, and_iff_right observed_zero, and_iff_right (roundsTo_sub hx hy).observed, hn,
    mul_pos_iff_of_pos_right hPower, Int.cast_pos, ← Int.sign_eq_one_iff_pos, ← hSign,
    Int.sign_eq_one_iff_pos]
  rfl

theorem sub_neg_iff (hx : isFinite x = true) (hy : isFinite y = true) :
    x - y < 0 ↔ value x - value y < 0 := by
  obtain ⟨n, hn, hSign⟩ := sign_place_sub hx hy
  have hPower : (0 : ℚ) < 2 ^ (-1074 : ℤ) := zpow_pos two_pos _
  rw [lt_iff, and_iff_right (roundsTo_sub hx hy).observed, and_iff_right observed_zero, hn,
    ← neg_pos, ← neg_mul, mul_pos_iff_of_pos_right hPower, neg_pos, Int.cast_lt_zero,
    ← Int.sign_eq_neg_one_iff_neg, ← hSign, Int.sign_eq_neg_one_iff_neg]
  rfl

end Differences
end Almanac.Double
