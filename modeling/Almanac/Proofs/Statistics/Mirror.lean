import Almanac.Proofs.Double.Arithmetic
import Almanac.Proofs.Statistics.Direction

/-! # Mirrored paths

A path agrees with itself at every step, and with its mirror image at the level steps only. In exact
numbers two mirrored paths therefore disagree throughout exactly if no step is level. With doubles
this holds for paths of up to `2 ^ 53 + 2` values: the balance of the steps is counted exactly up to
`2 ^ 53` and stands still there, while the number of steps that divides it goes on.
-/
namespace Almanac.Statistics
set_option autoImplicit false
open Double Float.Model Float.Model.UnpackedFloat

section Exact
variable {K : Type} [Field K] [LinearOrder K] [IsStrictOrderedRing K] {xs : List K}

theorem directions_mirror (c : K) (xs : List K) :
    directions (xs.map (c - ·)) = (directions xs).map .opposite :=
  directions_map_of_strictAntiOn fun _ _ _ _ hLess => sub_lt_sub_left hLess c

theorem kendallTau_self_of_exact (hEnough : 2 ≤ xs.length) : kendallTau xs xs = .ok 1 := by
  rw [kendallTau_eq rfl hEnough, Except.ok.injEq, agreement_eq_one_iff (directions_ne_nil hEnough),
    agreements_eq_length_iff rfl]

theorem kendallTau_mirror_of_exact (c : K) (hEnough : 2 ≤ xs.length) :
    kendallTau xs (xs.map (c - ·)) =
      .ok (2 * ((stepSigns xs).count 0 : Nat) / (xs.length - 1) - 1) ∧
    (kendallTau xs (xs.map (c - ·)) = .ok (-1) ↔ 0 ∉ stepSigns xs) := by
  have hSome := directions_ne_nil hEnough
  have hLength : xs.length = (xs.map (c - ·)).length := (List.length_map _).symm
  have hSteps : ((directions xs).length : K) = xs.length - 1 := by
    rw [length_directions, Nat.cast_pred (by omega)]
  rw [kendallTau_eq hLength hEnough, directions_mirror, Except.ok.injEq, Except.ok.injEq]
  constructor
  · rw [agreement_eq_sub hSome, agreements_opposite, count_stepSigns, hSteps]
  · rw [agreement_eq_neg_one_iff hSome, agreements_opposite, ← count_stepSigns,
      List.count_eq_zero]

end Exact

section Balance
variable {ps : List (Direction × Direction)}

/-- A count that stands still at the 53rd power of two. -/
def countStep (k : ℤ) (p : Direction × Direction) : ℤ :=
  if p.1 = p.2 then min (2 ^ 53) (k + 1) else max (-2 ^ 53) (k - 1)

def counted (ps : List (Direction × Direction)) : ℤ := ps.foldl countStep 0

theorem counted_concat (ps : List (Direction × Direction)) (p : Direction × Direction) :
    counted (ps ++ [p]) = countStep (counted ps) p := by
  rw [counted, List.foldl_append]
  rfl

theorem natAbs_counted (ps : List (Direction × Direction)) : (counted ps).natAbs ≤ 2 ^ 53 := by
  induction ps using List.reverseRecOn with
  | nil => exact Nat.zero_le _
  | append_singleton ps p ih =>
    rw [counted_concat, countStep]
    split <;> omega

theorem countP_concat (ps : List (Direction × Direction)) (p : Direction × Direction) :
    ((ps ++ [p]).countP fun p => p.1 = p.2) =
      (ps.countP fun p => p.1 = p.2) + if p.1 = p.2 then 1 else 0 := by
  rw [List.countP_append, List.countP_singleton]
  simp only [decide_eq_true_eq]

theorem counted_eq (h : ps.length ≤ 2 ^ 53) :
    counted ps = 2 * (ps.countP fun p => p.1 = p.2 : Nat) - ps.length := by
  induction ps using List.reverseRecOn with
  | nil => rfl
  | append_singleton ps p ih =>
    rw [List.length_append, List.length_singleton] at h ⊢
    have hPairs := ih (by omega)
    have hCount : (ps.countP fun p => p.1 = p.2) ≤ ps.length := List.countP_le_length
    rw [counted_concat, countStep, countP_concat, hPairs]
    split <;> omega

/-- Where all steps agree, or none does, all of them are counted to one side. -/
theorem counted_of_uniform {s : Sign} (h : ∀ p ∈ ps, (p.1 = p.2 ↔ s = .positive)) :
    counted ps = s.apply (min ps.length (2 ^ 53) : Nat) := by
  induction ps using List.reverseRecOn with
  | nil => cases s <;> rfl
  | append_singleton ps p ih =>
    rw [counted_concat, countStep, ih fun p hp => h p (List.mem_append_left _ hp),
      List.length_append, List.length_singleton]
    have hLast := h p (List.mem_append_right _ (List.mem_singleton_self p))
    cases s with
    | positive =>
      rw [if_pos (hLast.mpr rfl), Sign.apply, Sign.apply]
      omega
    | negative =>
      have hNot : ¬ Sign.negative = .positive := fun hSame => by cases hSame
      rw [if_neg (mt hLast.mp hNot), Sign.apply, Sign.apply]
      omega

/-- A single agreeing step keeps the count from the bound below. -/
theorem lt_counted (hSome : 0 < ps.countP fun p => p.1 = p.2) (h : ps.length ≤ 2 ^ 53 + 1) :
    -(min ps.length (2 ^ 53) : Nat) < counted ps := by
  rcases List.eq_nil_or_concat' ps with rfl | ⟨ps, p, rfl⟩
  · cases hSome
  rw [List.length_append, List.length_singleton] at h ⊢
  rw [countP_concat] at hSome
  have hCount : (ps.countP fun p => p.1 = p.2) ≤ ps.length := List.countP_le_length
  rw [counted_concat, countStep, counted_eq (by omega)]
  by_cases hSame : p.1 = p.2
  · rw [if_pos hSame]
    omega
  · rw [if_neg hSame] at hSome ⊢
    omega

end Balance

section Doubles
variable {xs ys : List Float} {ps : List (Direction × Direction)} {b : Float} {k : ℤ} {s : Sign}
  {m : ℕ}

/-- The greatest count of steps that a balance reaches. -/
def limit : Float := 9007199254740992

def unit : Sign → Float
  | .positive => 1
  | .negative => -1

theorem value_limit : value limit = 2 ^ 53 := by
  refine (value_ofNat (Nat.le_refl (2 ^ 53))).2.trans ?_
  norm_num

theorem value_neg_limit : value (-limit) = -2 ^ 53 := by
  rw [value_of_parts (x := -limit) (s := .negative) (m := 2 ^ 52) (e := 1) rfl, Sign.apply]
  norm_num

theorem value_unit (s : Sign) : value (unit s) = s.apply 1 := by
  cases s with
  | positive => exact value_one
  | negative =>
    rw [unit, value_of_parts (x := -1) (s := .negative) (m := 2 ^ 52) (e := -52) rfl, Sign.apply,
      Sign.apply]
    norm_num

theorem finite_unit (s : Sign) : isFinite (unit s) = true := by
  cases s <;> rfl

theorem add_one_of_value (hb : isFinite b = true) (hk : value b = k) (hRange : k.natAbs ≤ 2 ^ 53) :
    isFinite (b + 1) = true ∧ value (b + 1) = (min (2 ^ 53) (k + 1) : ℤ) := by
  have hSum := roundsTo_add hb (y := 1) rfl
  rw [hk, value_one] at hSum
  rcases lt_or_ge k (2 ^ 53) with hBelow | hLimit
  · rw [min_eq_right (by omega)]
    have hSum : RoundsTo (k + 1 : ℤ) (b + 1) := by exact_mod_cast hSum
    exact hSum.exact_intCast (by omega)
  · obtain rfl : k = 2 ^ 53 := by omega
    have hHere : b = limit := eq_of_value_eq hb rfl (by rw [hk, value_limit]; norm_num)
      (by rw [value_limit]; norm_num)
    rw [hHere, show limit + 1 = limit by decide +kernel, value_limit]
    exact ⟨rfl, by norm_num⟩

theorem sub_one_of_value (hb : isFinite b = true) (hk : value b = k) (hRange : k.natAbs ≤ 2 ^ 53) :
    isFinite (b - 1) = true ∧ value (b - 1) = (max (-2 ^ 53) (k - 1) : ℤ) := by
  have hDifference := roundsTo_sub hb (y := 1) rfl
  rw [hk, value_one] at hDifference
  rcases lt_or_ge (-2 ^ 53) k with hAbove | hLimit
  · rw [max_eq_right (by omega)]
    have hDifference : RoundsTo (k - 1 : ℤ) (b - 1) := by exact_mod_cast hDifference
    exact hDifference.exact_intCast (by omega)
  · obtain rfl : k = -2 ^ 53 := by omega
    have hHere : b = -limit := eq_of_value_eq hb rfl (by rw [hk, value_neg_limit]; norm_num)
      (by rw [value_neg_limit]; norm_num)
    rw [hHere, show -limit - 1 = -limit by decide +kernel, value_neg_limit]
    exact ⟨rfl, by norm_num⟩

def balance (ps : List (Direction × Direction)) : Float :=
  ps.foldl (fun balance p => if p.1 = p.2 then balance + 1 else balance - 1) 0

/-- The balance in doubles is the count. -/
theorem value_balance (ps : List (Direction × Direction)) :
    isFinite (balance ps) = true ∧ value (balance ps) = counted ps := by
  induction ps using List.reverseRecOn with
  | nil => exact ⟨rfl, Int.cast_zero.symm⟩
  | append_singleton ps p ih =>
    have hRange := natAbs_counted ps
    rw [balance, List.foldl_append, counted_concat, countStep]
    simp only [List.foldl_cons, List.foldl_nil]
    split
    · exact add_one_of_value ih.1 ih.2 hRange
    · exact sub_one_of_value ih.1 ih.2 hRange

theorem kendallTau_eq_balance (h : xs.length = ys.length) (hEnough : 2 ≤ xs.length) :
    kendallTau xs ys =
      .ok (balance ((directions xs).zip (directions ys)) / Float.ofNat (xs.length - 1)) := by
  rw [kendallTau, checkPairs, checkPaired, if_pos h, checkAtLeast, if_pos hEnough]
  rfl

theorem eq_unit_of_roundsTo {z : Float} (h : RoundsTo (s.apply 1) z) : z = unit s := by
  have hSome : value (unit s) ≠ 0 := by
    rw [value_unit]
    cases s <;> norm_num [Sign.apply]
  obtain ⟨hFinite, hValue⟩ := h.exact (finite_unit s) (value_unit s)
  exact eq_of_value_eq hFinite (finite_unit s) (hValue.trans (value_unit s).symm) hSome

/-- The number of steps that divides a balance. -/
theorem value_divisor (hm : m ≤ 2 ^ 53 + 1) : isFinite (Float.ofNat m) = true ∧
    value (Float.ofNat m) = (min m (2 ^ 53) : Nat) := by
  rcases Nat.lt_or_ge (2 ^ 53) m with hBeyond | hInside
  · obtain rfl : m = 2 ^ 53 + 1 := by omega
    have hEven : Float.ofNat (2 ^ 53 + 1) = limit := by decide +kernel
    rw [hEven, value_limit]
    exact ⟨rfl, by norm_num⟩
  · rw [min_eq_left hInside]
    exact value_ofNat hInside

theorem short_le {n : ℕ} (hn : n ≤ 2 ^ 53) (h : -(n : ℤ) < k) :
    -(k : ℚ) ≤ (1 - (2 ^ 53)⁻¹) * n := by
  have hShort : -(k : ℚ) ≤ n - 1 := by exact_mod_cast (by omega : -k ≤ (n : ℤ) - 1)
  have hMost : (n : ℚ) * (2 ^ 53)⁻¹ ≤ 1 := by
    rw [← div_eq_mul_inv, div_le_one (by norm_num)]
    exact_mod_cast hn
  linarith

/-- A balance that is short of the number of steps is no unit part of it. -/
theorem div_ne_unit {d : Float} (hb : isFinite b = true) (hd : isFinite d = true)
    (hPositive : 0 < value d) (h : s.apply 1 * value b ≤ (1 - (2 ^ 53)⁻¹) * value d) :
    b / d ≠ unit s := by
  intro hUnit
  have hRounded := roundsTo_div hb hd (ne_of_gt hPositive)
  rw [hUnit] at hRounded
  -- The double next to the unit, on the side of zero.
  obtain ⟨p, hp, hNext⟩ := exists_double s (q := 2 ^ 53 - 1) (t := -53)
    ⟨by decide, by decide, .inl (by decide)⟩ (by decide)
  cases s with
  | positive =>
    have hUp : value b / value d ≤ value p := by
      rw [div_le_iff₀ hPositive, hNext]
      norm_num [Sign.apply] at h ⊢
      exact h
    have hLe := (place_le_iff (finite_unit _) hp).mp (hRounded.le p hp hUp)
    rw [value_unit, hNext] at hLe
    norm_num [Sign.apply] at hLe
  | negative =>
    have hDown : value p ≤ value b / value d := by
      rw [le_div_iff₀ hPositive, hNext]
      norm_num [Sign.apply] at h ⊢
      linarith
    have hLe := (place_le_iff hp (finite_unit _)).mp (hRounded.ge p hp hDown)
    rw [value_unit, hNext] at hLe
    norm_num [Sign.apply] at hLe

theorem div_ne_unit_of_infinite {d : Float} (hb : isFinite b = true) (hd : isHole d = false)
    (hInfinite : isFinite d = false) : b / d ≠ unit s := by
  have hZero : RoundsTo 0 (b / d) := by
    obtain ⟨s, m, e, -, -, hParts⟩ := exists_parts hb
    have hObserved := (observed_iff d).mp hd
    have hNot : d.toModel.unpack.isFinite = false := hInfinite
    change RoundsTo 0 (.ofModel (.pack (UnpackedFloat.div _ b.toModel.unpack d.toModel.unpack)))
    rw [hParts]
    cases hDivisor : d.toModel.unpack with
    | notANumber => exact absurd hDivisor hObserved
    | zero s' =>
      rw [hDivisor] at hNot
      cases hNot
    | finite s' m' e' hm' =>
      rw [hDivisor] at hNot
      cases hNot
    | infinity s' =>
      rw [settledFloat]
      split <;> exact roundsTo_zero _
  intro hUnit
  obtain ⟨-, hValue⟩ := (hUnit ▸ hZero).exact (y := 0) rfl rfl
  rw [value_unit] at hValue
  cases s <;> norm_num [Sign.apply] at hValue

/-- Steps beyond the limit make the divisor greater than any balance. -/
theorem div_ne_unit_of_beyond (hb : isFinite b = true) (hk : value b = k)
    (hRange : k.natAbs ≤ 2 ^ 53) (hm : 2 ^ 53 + 1 < m) : b / Float.ofNat m ≠ unit s := by
  have hDivisor := roundsTo_ofNat m
  by_cases hFinite : isFinite (Float.ofNat m) = true
  · obtain ⟨p, hp, hNext⟩ := exists_double .positive (q := 2 ^ 52 + 1) (t := 1)
      ⟨by decide, by decide, .inl (by decide)⟩ (by decide)
    have hValue : value p = 2 ^ 53 + 2 := by
      rw [hNext]
      norm_num [Sign.apply]
    have hm : (2 ^ 53 + 2 : ℚ) ≤ m := by exact_mod_cast hm
    have hGreat : value p ≤ value (Float.ofNat m) :=
      (place_le_iff hp hFinite).mp (hDivisor.ge p hp (hValue ▸ hm))
    rw [hValue] at hGreat
    refine div_ne_unit hb hFinite (by linarith) ?_
    have hBound : s.apply 1 * value b ≤ 2 ^ 53 := by
      rw [hk]
      cases s <;> rw [Sign.apply] <;> exact_mod_cast (by omega)
    refine hBound.trans (le_trans ?_ (mul_le_mul_of_nonneg_left hGreat (by norm_num)))
    norm_num
  · exact div_ne_unit_of_infinite hb hDivisor.observed (Bool.eq_false_iff.mpr hFinite)

/-- Steps that are all counted to one side are a unit part of their number, up to one more than a
balance counts. -/
theorem div_eq_unit_iff (hb : isFinite b = true) (hm : 0 < m)
    (hk : value b = s.apply (min m (2 ^ 53) : Nat)) :
    b / Float.ofNat m = unit s ↔ m ≤ 2 ^ 53 + 1 := by
  constructor
  · intro hUnit
    by_contra hBeyond
    exact div_ne_unit_of_beyond hb hk (by cases s <;> rw [Sign.apply] <;> omega) (by omega) hUnit
  · intro hFew
    obtain ⟨hFinite, hDivisor⟩ := value_divisor hFew
    have hSome : ((min m (2 ^ 53) : Nat) : ℚ) ≠ 0 := Nat.cast_ne_zero.mpr (by omega)
    have hRounded := roundsTo_div hb hFinite (hDivisor ▸ hSome)
    rw [hk, hDivisor, apply_natCast, mul_div_cancel_right₀ _ hSome] at hRounded
    exact eq_unit_of_roundsTo hRounded

end Doubles

section Paths
variable {xs ys : List Float} {c : ℚ}

theorem length_pairs (h : xs.length = ys.length) :
    ((directions xs).zip (directions ys)).length = xs.length - 1 := by
  rw [List.length_zip, length_directions, length_directions, h, Nat.min_self]

/-- A path of doubles agrees with itself, as long as its steps can be counted. -/
theorem kendallTau_self_iff (hEnough : 2 ≤ xs.length) :
    kendallTau xs xs = .ok 1 ↔ xs.length ≤ 2 ^ 53 + 2 := by
  have hSame : ∀ p ∈ (directions xs).zip (directions xs),
      (p.1 = p.2 ↔ Sign.positive = .positive) := by
    intro p hp
    rw [List.zip, List.zipWith_self] at hp
    obtain ⟨d, -, rfl⟩ := List.mem_map.mp hp
    exact iff_of_true rfl rfl
  obtain ⟨hFinite, hValue⟩ := value_balance ((directions xs).zip (directions xs))
  rw [counted_of_uniform hSame, length_pairs rfl] at hValue
  rw [kendallTau_eq_balance rfl hEnough, Except.ok.injEq]
  refine (div_eq_unit_iff (s := .positive) hFinite (by omega) hValue).trans ?_
  omega

/-- Finite doubles whose exact values are those of a path, each subtracted from one number. -/
structure Mirrored (c : ℚ) (xs ys : List Float) : Prop where
  finite : ∀ x ∈ xs, isFinite x = true
  finite_image : ∀ y ∈ ys, isFinite y = true
  values : ys.map value = (xs.map value).map (c - ·)

/-- The directions of finite doubles are those of their exact values. -/
theorem directions_values (h : ∀ x ∈ xs, isFinite x = true) :
    directions (xs.map value) = directions xs := by
  refine (directions_map fun x hx y hy => ?_).trans (List.map_id _)
  simp only [Direction.of, sub_pos_iff (h x hx) (h y hy), sub_neg_iff (h x hx) (h y hy), id]

namespace Mirrored

theorem length_eq (h : Mirrored c xs ys) : xs.length = ys.length := by
  simpa using (congrArg List.length h.values).symm

theorem directions_eq (h : Mirrored c xs ys) :
    directions ys = (directions xs).map .opposite := by
  rw [← directions_values h.finite_image, h.values, directions_mirror, directions_values h.finite]

/-- The level steps of a path are those that agree with the mirror image. -/
theorem countP_pairs (h : Mirrored c xs ys) :
    (((directions xs).zip (directions ys)).countP fun p => p.1 = p.2) =
      (stepSigns (xs.map value)).count 0 := by
  rw [count_stepSigns, directions_values h.finite, ← agreements_opposite, ← h.directions_eq]
  rfl

theorem kendallTau_iff (h : Mirrored c xs ys) (hEnough : 2 ≤ xs.length) :
    kendallTau xs ys = .ok (-1) ↔ 0 ∉ stepSigns (xs.map value) ∧ xs.length ≤ 2 ^ 53 + 2 := by
  obtain ⟨hFinite, hValue⟩ := value_balance ((directions xs).zip (directions ys))
  have hLength := length_pairs h.length_eq
  have hLevel := h.countP_pairs
  rw [kendallTau_eq_balance h.length_eq hEnough, Except.ok.injEq]
  change _ / _ = unit .negative ↔ _
  rcases Nat.eq_zero_or_pos ((stepSigns (xs.map value)).count 0) with hNone | hSome
  · rw [hNone, List.countP_eq_zero] at hLevel
    rw [counted_of_uniform (s := .negative) fun p hp =>
      iff_of_false (by simpa using hLevel p hp) nofun, hLength] at hValue
    rw [and_iff_right (List.count_eq_zero.mp hNone), div_eq_unit_iff hFinite (by omega) hValue]
    omega
  · refine iff_of_false ?_ fun hNever => absurd (List.count_eq_zero.mpr hNever.1) (by omega)
    rcases Nat.lt_or_ge (2 ^ 53 + 1) (xs.length - 1) with hBeyond | hFew
    · exact div_ne_unit_of_beyond hFinite hValue (natAbs_counted _) hBeyond
    · obtain ⟨hDivisor, hSteps⟩ := value_divisor hFew
      have hAbove := lt_counted (hLevel ▸ hSome) (hLength ▸ hFew)
      rw [hLength] at hAbove
      refine div_ne_unit hFinite hDivisor ?_ ?_
      · rw [hSteps]
        exact Nat.cast_pos.mpr (by omega)
      · rw [hSteps, hValue, Sign.apply, Int.cast_neg, Int.cast_one, neg_one_mul]
        exact short_le (Nat.min_le_right _ _) hAbove

/-- The agreement with the mirror image is the double that stands for the exact one. -/
theorem exists_roundsTo (h : Mirrored c xs ys) (hEnough : 2 ≤ xs.length)
    (hFew : xs.length ≤ 2 ^ 53 + 1) : ∃ t, kendallTau xs ys = .ok t ∧
      RoundsTo (2 * ((stepSigns (xs.map value)).count 0 : Nat) / (xs.length - 1) - 1) t := by
  obtain ⟨hFinite, hValue⟩ := value_balance ((directions xs).zip (directions ys))
  have hLength := length_pairs h.length_eq
  obtain ⟨hDivisor, hSteps⟩ := value_divisor (m := xs.length - 1) (by omega)
  have hCast : ((xs.length - 1 : Nat) : ℚ) = xs.length - 1 := Nat.cast_pred (by omega)
  have hSome : (xs.length - 1 : ℚ) ≠ 0 := hCast ▸ Nat.cast_ne_zero.mpr (by omega)
  rw [min_eq_left (by omega), hCast] at hSteps
  rw [counted_eq (by omega), h.countP_pairs, hLength, Int.cast_sub, Int.cast_mul, Int.cast_natCast,
    Int.cast_natCast, hCast, Int.cast_ofNat] at hValue
  have hRounded := roundsTo_div hFinite hDivisor (hSteps ▸ hSome)
  rw [hSteps, hValue, sub_div, div_self hSome] at hRounded
  exact ⟨_, kendallTau_eq_balance h.length_eq hEnough, hRounded⟩

end Mirrored

/-- A path agrees with itself at every step, and with its mirror image at the level steps only.
Mirrored paths disagree throughout exactly if no step is level: those of exact numbers always, those
of doubles as long as their steps can be counted. -/
theorem kendallTau_of_mirror :
    (∀ xs : List Float, 2 ≤ xs.length → (kendallTau xs xs = .ok 1 ↔ xs.length ≤ 2 ^ 53 + 2)) ∧
    (∀ (c : ℚ) (xs ys : List Float), 2 ≤ xs.length → Mirrored c xs ys →
      (kendallTau xs ys = .ok (-1) ↔
        0 ∉ stepSigns (xs.map value) ∧ xs.length ≤ 2 ^ 53 + 2) ∧
      (xs.length ≤ 2 ^ 53 + 1 → ∃ t, kendallTau xs ys = .ok t ∧
        RoundsTo (2 * ((stepSigns (xs.map value)).count 0 : Nat) / (xs.length - 1) - 1) t)) ∧
    ∀ (K : Type) [Field K] [LinearOrder K] [IsStrictOrderedRing K] (c : K) (xs : List K),
      2 ≤ xs.length → kendallTau xs xs = .ok 1 ∧
        kendallTau xs (xs.map (c - ·)) =
          .ok (2 * ((stepSigns xs).count 0 : Nat) / (xs.length - 1) - 1) ∧
        (kendallTau xs (xs.map (c - ·)) = .ok (-1) ↔ 0 ∉ stepSigns xs) := by
  refine ⟨fun xs => kendallTau_self_iff, fun c xs ys hEnough h => ?_, ?_⟩
  · exact ⟨h.kendallTau_iff hEnough, h.exists_roundsTo hEnough⟩
  · intro K _ _ _ c xs hEnough
    exact ⟨kendallTau_self_of_exact hEnough, kendallTau_mirror_of_exact c hEnough⟩

/-- A path with a level step and its mirror image. -/
theorem kendallTau_of_half_level_mirror :
    let xs : List Float := [1, 1, 2]
    let ys : List Float := [5, 5, 4]
    kendallTau xs xs = .ok 1 ∧ Mirrored 6 xs ys ∧ kendallTau xs ys ≠ .ok (-1) ∧
      (∃ t, kendallTau xs ys = .ok t ∧ RoundsTo 0 t) ∧
      kendallTau ([1, 2, 1] : List ℚ) ([1, 2, 1].map (3 - ·)) = .ok (-1) := by
  intro xs ys
  obtain ⟨hSelf, hMirror, hExact⟩ := kendallTau_of_mirror
  have hEnough : 2 ≤ xs.length := by decide
  have hFew : xs.length ≤ 2 ^ 53 + 1 := by decide
  have hNumber : ∀ n ≤ 5, value (Float.ofNat n) = n := fun n hn => (value_ofNat (by omega)).2
  have hValues : xs.map value = [1, 1, 2] := by
    change [value (Float.ofNat 1), value (Float.ofNat 1), value (Float.ofNat 2)] = _
    rw [hNumber 1 (by decide), hNumber 2 (by decide)]
    norm_num
  have hImage : ys.map value = [5, 5, 4] := by
    change [value (Float.ofNat 5), value (Float.ofNat 5), value (Float.ofNat 4)] = _
    rw [hNumber 5 (by decide), hNumber 4 (by decide)]
    norm_num
  have h : Mirrored 6 xs ys := by
    refine ⟨by decide, by decide, ?_⟩
    rw [hValues, hImage]
    decide +kernel
  obtain ⟨hOpposite, hRounded⟩ := hMirror 6 xs ys hEnough h
  obtain ⟨t, ht, hZero⟩ := hRounded hFew
  have hHalf : (2 * ((stepSigns (xs.map value)).count 0 : Nat) / (xs.length - 1) - 1 : ℚ) = 0 := by
    rw [hValues]
    decide +kernel
  refine ⟨(hSelf xs hEnough).mpr (by decide), h, fun hNever => ?_, ⟨t, ht, hHalf ▸ hZero⟩, ?_⟩
  · have hLevel : 0 ∉ stepSigns (xs.map value) := (hOpposite.mp hNever).1
    rw [hValues] at hLevel
    exact hLevel (by decide +kernel)
  · exact (hExact ℚ 3 [1, 2, 1] (by decide)).2.2.mpr (by decide +kernel)

/-- A level path is its own mirror image, and agrees with it. A path with more steps than doubles
count does not agree with itself. -/
theorem level_path_agrees_with_mirror :
    Mirrored 2 [1, 1] [1, 1] ∧ kendallTau ([1, 1] : List Float) [1, 1] = .ok 1 ∧
      (let xs : List Float := List.replicate (2 ^ 53 + 3) 1
      kendallTau xs xs ≠ .ok 1) ∧
      ¬ ∀ (c : ℚ) (xs ys : List Float), 2 ≤ xs.length → Mirrored c xs ys →
        kendallTau xs xs = .ok 1 ∧ kendallTau xs ys = .ok (-1) := by
  have hMirror : Mirrored 2 [1, 1] [1, 1] := by
    refine ⟨by decide, by decide, ?_⟩
    rw [List.map_cons, List.map_cons, List.map_nil, value_one]
    decide +kernel
  have hAgrees : kendallTau ([1, 1] : List Float) [1, 1] = .ok 1 := by decide +kernel
  refine ⟨hMirror, hAgrees, fun hSelf => ?_, fun hAll => ?_⟩
  · rw [kendallTau_self_iff (by rw [List.length_replicate]; omega), List.length_replicate] at hSelf
    omega
  · have hOpposite := (hAll 2 [1, 1] [1, 1] (by decide) hMirror).2
    exact absurd (Except.ok.inj (hAgrees.symm.trans hOpposite)) (by decide +kernel)

end Paths
end Almanac.Statistics
