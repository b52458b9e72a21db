import Mathlib.Algebra.Order.Ring.Rat
import Mathlib.Data.Sign.Basic
import Mathlib.Data.Set.Monotone
import Mathlib.Tactic.FieldSimp
import Mathlib.Tactic.Linarith
import Mathlib.Tactic.Ring
import Almanac.Statistics.Dependence

/-! # The agreement of two paths

A path counts only through the signs of its steps, and the agreement of two paths only through the
number of steps at which these signs are equal. A strictly increasing function keeps all signs, a
strictly decreasing one turns them over; a level step stays level, so that it agrees with its own
mirror image.
-/
namespace Almanac.Statistics
set_option autoImplicit false

namespace Direction

def opposite : Direction → Direction
  | down => up
  | level => level
  | up => down

def sign : Direction → SignType
  | down => -1
  | level => 0
  | up => 1

theorem opposite_involutive : Function.Involutive opposite := by
  intro d
  cases d <;> rfl

theorem sign_injective : Function.Injective sign := by
  intro d e h
  cases d <;> cases e <;> first | rfl | cases h

theorem eq_opposite_iff (d : Direction) : d = d.opposite ↔ d = level := by
  cases d <;> decide

theorem sign_eq_zero_iff (d : Direction) : d.sign = 0 ↔ d = level := by
  cases d <;> decide

end Direction

section Agreements
variable {ds es : List Direction}

/-- How many steps have one direction in both lists. -/
def agreements (ds es : List Direction) : Nat := (ds.zip es).countP fun p => p.1 = p.2

theorem agreements_comm (ds es : List Direction) : agreements ds es = agreements es ds := by
  rw [agreements, ← List.zip_swap, List.countP_map, agreements]
  refine List.countP_congr fun p _ => ?_
  simp [eq_comm]

theorem agreements_le (ds es : List Direction) : agreements ds es ≤ ds.length :=
  Nat.le_trans List.countP_le_length (List.length_zip ▸ Nat.min_le_left ..)

theorem agreements_eq_length_iff (h : ds.length = es.length) :
    agreements ds es = ds.length ↔ ds = es := by
  have hZip : (ds.zip es).length = ds.length := by rw [List.length_zip, h, Nat.min_self]
  rw [agreements, ← hZip, List.countP_eq_length]
  constructor
  · intro hAll
    calc ds = (ds.zip es).map Prod.fst := (List.map_fst_zip (Nat.le_of_eq h)).symm
      _ = (ds.zip es).map Prod.snd := List.map_congr_left fun p hp => of_decide_eq_true (hAll p hp)
      _ = es := List.map_snd_zip (Nat.le_of_eq h.symm)
  · rintro rfl p hp
    rw [List.zip, List.zipWith_self] at hp
    obtain ⟨d, -, rfl⟩ := List.mem_map.mp hp
    exact decide_eq_true rfl

theorem agreements_map {f : Direction → Direction} (hf : Function.Injective f)
    (ds es : List Direction) : agreements (ds.map f) (es.map f) = agreements ds es := by
  rw [agreements, List.zip_map, List.countP_map, agreements]
  refine List.countP_congr fun p _ => ?_
  simp [hf.eq_iff]

/-- Only the level steps agree with their opposites. -/
theorem agreements_opposite (ds : List Direction) :
    agreements ds (ds.map Direction.opposite) = ds.count .level := by
  have hPairs : ds.zip (ds.map Direction.opposite) = ds.map fun d => (d, d.opposite) := by
    rw [← List.zip_map', List.map_id']
  rw [agreements, hPairs, List.countP_map, List.count_eq_countP]
  refine List.countP_congr fun d _ => ?_
  simp [Direction.eq_opposite_iff]

end Agreements

section Directions
variable {α β : Type} [Zero α] [Sub α] [LT α] [DecidableLT α] [Zero β] [Sub β] [LT β]
  [DecidableLT β]

theorem length_directions (xs : List α) : (directions xs).length = xs.length - 1 := by
  rw [directions, List.length_zipWith, List.length_tail]
  omega

theorem directions_map {xs : List α} {f : α → β} {g : Direction → Direction}
    (h : ∀ x ∈ xs, ∀ y ∈ xs, Direction.of (f x - f y) = g (Direction.of (x - y))) :
    directions (xs.map f) = (directions xs).map g := by
  rw [directions, ← List.map_tail, List.zipWith_map, directions, List.map_zipWith]
  refine List.ext_getElem (by simp) fun i _ _ => ?_
  simp only [List.getElem_zipWith, List.getElem_tail]
  exact h _ (List.getElem_mem _) _ (List.getElem_mem _)

end Directions

section Steps
variable {K : Type} [Field K] [LinearOrder K] {xs : List K}

def stepSigns (xs : List K) : List SignType :=
  List.zipWith (fun x previous => SignType.sign (x - previous)) xs.tail xs

theorem Direction.sign_of (x : K) : (Direction.of x).sign = SignType.sign x := by
  rw [Direction.of, sign_apply]
  split
  · rfl
  · split <;> rfl

theorem stepSigns_eq (xs : List K) : stepSigns xs = (directions xs).map Direction.sign := by
  rw [directions, List.map_zipWith, stepSigns]
  simp only [Direction.sign_of]

theorem stepSigns_inj {xs ys : List K} :
    stepSigns xs = stepSigns ys ↔ directions xs = directions ys := by
  rw [stepSigns_eq, stepSigns_eq, (List.map_injective_iff.mpr Direction.sign_injective).eq_iff]

theorem count_stepSigns (xs : List K) : (stepSigns xs).count 0 = (directions xs).count .level := by
  rw [stepSigns_eq, List.count_eq_countP, List.countP_map, List.count_eq_countP]
  refine List.countP_congr fun d _ => ?_
  simp [Direction.sign_eq_zero_iff]

variable [IsStrictOrderedRing K]

theorem Direction.of_sub (x y : K) :
    Direction.of (x - y) = if y < x then .up else if x < y then .down else .level := by
  simp only [Direction.of, sub_pos, sub_neg]

theorem directions_map_of_strictMonoOn {f : K → K} (hf : StrictMonoOn f {x | x ∈ xs}) :
    directions (xs.map f) = directions xs := by
  refine (directions_map fun x hx y hy => ?_).trans (List.map_id _)
  simp only [Direction.of_sub, hf.lt_iff_lt hy hx, hf.lt_iff_lt hx hy, id]

theorem directions_map_of_strictAntiOn {f : K → K} (hf : StrictAntiOn f {x | x ∈ xs}) :
    directions (xs.map f) = (directions xs).map .opposite := by
  refine directions_map fun x hx y hy => ?_
  simp only [Direction.of_sub, hf.lt_iff_gt hy hx, hf.lt_iff_gt hx hy]
  obtain hLess | rfl | hGreater := lt_trichotomy x y
  · rw [if_pos hLess, if_neg (lt_asymm hLess), if_pos hLess]
    rfl
  · rw [if_neg (lt_irrefl x), if_neg (lt_irrefl x)]
    rfl
  · rw [if_neg (lt_asymm hGreater), if_pos hGreater, if_pos hGreater]
    rfl

end Steps

section Agreement
variable {K : Type} [Field K] {xs ys : List K}

theorem foldl_balance (ps : List (Direction × Direction)) (b : K) :
    ps.foldl (fun b p => if p.1 = p.2 then b + 1 else b - 1) b =
      b + (2 * (ps.countP fun p => p.1 = p.2 : Nat) - ps.length) := by
  induction ps generalizing b with
  | nil => simp
  | cons p ps ih =>
    rw [List.foldl_cons, ih, List.countP_cons, List.length_cons]
    by_cases hSame : p.1 = p.2
    · simp only [hSame, if_true, decide_true]
      push_cast
      ring
    · simp only [hSame, if_false, decide_false, Bool.false_eq_true]
      push_cast
      ring

/-- The agreements less the other steps, as a part of all steps. -/
def agreement (ds es : List Direction) : K := (2 * agreements ds es - ds.length) / ds.length

theorem agreement_comm {ds es : List Direction} (h : ds.length = es.length) :
    (agreement ds es : K) = agreement es ds := by
  rw [agreement, agreements_comm, h, agreement]

variable [LinearOrder K]

theorem kendallTau_eq (h : xs.length = ys.length) (hEnough : 2 ≤ xs.length) :
    kendallTau xs ys = .ok (agreement (directions xs) (directions ys)) := by
  have hZip : ((directions xs).zip (directions ys)).length = xs.length - 1 := by
    rw [List.length_zip, length_directions, length_directions, h, Nat.min_self]
  rw [kendallTau, checkPairs, checkPaired, if_pos h, checkAtLeast, if_pos hEnough, agreement,
    foldl_balance, hZip, zero_add, agreements, length_directions]
  rfl

section Bounds
variable [IsStrictOrderedRing K] {ds : List Direction} (hSome : ds ≠ []) (es : List Direction)
include hSome

theorem cast_length_pos : (0 : K) < ds.length := Nat.cast_pos.mpr (List.length_pos_iff.mpr hSome)

theorem agreement_eq_sub : (agreement ds es : K) = 2 * agreements ds es / ds.length - 1 := by
  rw [agreement, sub_div, div_self (ne_of_gt (cast_length_pos hSome))]

theorem agreement_bounds : (-1 : K) ≤ agreement ds es ∧ (agreement ds es : K) ≤ 1 := by
  have hLength := cast_length_pos (K := K) hSome
  have hLe : (agreements ds es : K) ≤ ds.length := Nat.cast_le.mpr (agreements_le ds es)
  have hNonneg : (0 : K) ≤ agreements ds es := Nat.cast_nonneg _
  rw [agreement, le_div_iff₀ hLength, div_le_iff₀ hLength]
  constructor <;> linarith

theorem agreement_eq_one_iff : (agreement ds es : K) = 1 ↔ agreements ds es = ds.length := by
  rw [agreement, div_eq_one_iff_eq (ne_of_gt (cast_length_pos hSome)), ← Nat.cast_inj (R := K)]
  constructor <;> intro h <;> linarith

theorem agreement_eq_neg_one_iff : (agreement ds es : K) = -1 ↔ agreements ds es = 0 := by
  rw [agreement, div_eq_iff (ne_of_gt (cast_length_pos hSome)), ← Nat.cast_eq_zero (R := K)]
  constructor <;> intro h <;> linarith

end Bounds

theorem directions_ne_nil (hEnough : 2 ≤ xs.length) : directions xs ≠ [] := by
  refine List.length_pos_iff.mp ?_
  rw [length_directions]
  omega

theorem length_eq_of_stepSigns {us : List K} (hEnough : 2 ≤ xs.length)
    (h : stepSigns us = stepSigns xs) : us.length = xs.length := by
  have hSteps := congrArg List.length (stepSigns_inj.mp h)
  rw [length_directions, length_directions] at hSteps
  omega

variable [IsStrictOrderedRing K]

/-- The agreement of two paths is a number from -1 to 1 that the signs of their steps determine. It
is symmetric, it is 1 exactly for equal signs, and it is the same after a function that is strictly
increasing on the values of one path, or strictly decreasing on those of both. -/
theorem kendallTau_reads_directions (h : xs.length = ys.length) (hEnough : 2 ≤ xs.length) :
    ∃ t : K, kendallTau xs ys = .ok t ∧ kendallTau ys xs = .ok t ∧ -1 ≤ t ∧ t ≤ 1 ∧
      (t = 1 ↔ stepSigns xs = stepSigns ys) ∧
      (∀ us vs : List K, stepSigns us = stepSigns xs → stepSigns vs = stepSigns ys →
        kendallTau us vs = .ok t) ∧
      (∀ f : K → K, StrictMonoOn f {x | x ∈ xs} → kendallTau (xs.map f) ys = .ok t) ∧
      (∀ f : K → K, StrictMonoOn f {y | y ∈ ys} → kendallTau xs (ys.map f) = .ok t) ∧
      ∀ f : K → K, StrictAntiOn f {z | z ∈ xs ∨ z ∈ ys} →
        kendallTau (xs.map f) (ys.map f) = .ok t := by
  have hSteps : (directions xs).length = (directions ys).length := by
    rw [length_directions, length_directions, h]
  have hSome := directions_ne_nil hEnough
  obtain ⟨hLower, hUpper⟩ := agreement_bounds (K := K) hSome (directions ys)
  refine ⟨agreement (directions xs) (directions ys), kendallTau_eq h hEnough, ?_, hLower, hUpper, ?_,
    fun us vs hu hv => ?_, fun f hf => ?_, fun f hf => ?_, fun f hf => ?_⟩
  · rw [kendallTau_eq h.symm (h ▸ hEnough), agreement_comm hSteps]
  · rw [agreement_eq_one_iff hSome _, agreements_eq_length_iff hSteps, stepSigns_inj]
  · have hLeft := length_eq_of_stepSigns hEnough hu
    have hRight := length_eq_of_stepSigns (h ▸ hEnough) hv
    rw [kendallTau_eq (by omega) (by omega), stepSigns_inj.mp hu, stepSigns_inj.mp hv]
  · rw [kendallTau_eq (by rwa [List.length_map]) (by rwa [List.length_map]),
      directions_map_of_strictMonoOn hf]
  · rw [kendallTau_eq (by rwa [List.length_map]) hEnough, directions_map_of_strictMonoOn hf]
  · rw [kendallTau_eq (by rwa [List.length_map, List.length_map]) (by rwa [List.length_map]),
      directions_map_of_strictAntiOn (hf.mono fun _ => .inl),
      directions_map_of_strictAntiOn (hf.mono fun _ => .inr), agreement, agreement,
      agreements_map Direction.opposite_involutive.injective, List.length_map]

/-- Two paths that both start level: squares of positive values, and the mirror images of both. -/
theorem kendallTau_of_level_starts :
    let xs : List ℚ := [1, 1, 3, 2]
    let ys : List ℚ := [4, 4, 9, 9]
    kendallTau xs ys = .ok (1 / 3) ∧ kendallTau (xs.map (· ^ 2)) ys = .ok (1 / 3) ∧
      kendallTau (xs.map (5 - ·)) (ys.map (5 - ·)) = .ok (1 / 3) := by
  intro xs ys
  have hSquares : StrictMonoOn (fun x : ℚ => x ^ 2) {x | x ∈ xs} := by
    intro x hx y hy hLess
    have hNonneg : ∀ z ∈ xs, 0 ≤ z := by decide +kernel
    exact pow_lt_pow_left₀ hLess (hNonneg x hx) (by decide)
  have hMirror : StrictAntiOn (fun x : ℚ => 5 - x) {z | z ∈ xs ∨ z ∈ ys} :=
    fun x _ y _ hLess => sub_lt_sub_left hLess 5
  have hLength : xs.length = ys.length := rfl
  have hEnough : 2 ≤ xs.length := by decide
  obtain ⟨t, hPaths, -, -, -, -, -, hLeft, -, hBoth⟩ := kendallTau_reads_directions hLength hEnough
  have hThird : kendallTau xs ys = .ok (1 / 3) := by decide +kernel
  obtain rfl : t = 1 / 3 := Except.ok.inj (hPaths.symm.trans hThird)
  exact ⟨hPaths, hLeft _ hSquares, hBoth _ hMirror⟩

end Agreement
end Almanac.Statistics
