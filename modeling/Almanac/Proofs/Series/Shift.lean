import Almanac.Proofs.Series.Restoration
import Almanac.Proofs.Series.Synchronization

/-! # Shifts over holes

A shift puts new values into the observed places of a list and leaves its holes. What it shifts in
from beyond an end is a hole of the result, which a second shift passes over as well. Both ways to
put values in agree, so that two shifts in one direction are one.
-/
namespace Almanac.Series
set_option autoImplicit false

variable {α : Type} [Hole α]

section Refilled

def observed (xs : List α) : List α := xs.filter fun x => !isHole x

/-- A list with other values in its observed places. -/
def refilled : List α → List α → List α
  | [], _ => []
  | x :: xs, ys =>
    if isHole x then hole :: refilled xs ys else ys.headD hole :: refilled xs ys.tail

variable {xs ys : List α} {x : α}

theorem observed_cons_of_hole (h : isHole x = true) (xs : List α) :
    observed (x :: xs) = observed xs := List.filter_cons_of_neg (by simp [h])

theorem observed_cons_of_observed (h : isHole x = false) (xs : List α) :
    observed (x :: xs) = x :: observed xs := List.filter_cons_of_pos (by simp [h])

theorem refilled_cons_of_hole (h : isHole x = true) (xs ys : List α) :
    refilled (x :: xs) ys = hole :: refilled xs ys := by rw [refilled, if_pos h]

theorem refilled_cons_of_observed (h : isHole x = false) (xs ys : List α) :
    refilled (x :: xs) ys = ys.headD hole :: refilled xs ys.tail := by
  rw [refilled, h, if_neg Bool.false_ne_true]

theorem isHole_of_mem_observed (h : x ∈ observed xs) : isHole x = false := by
  simpa using (List.mem_filter.mp h).2

theorem observed_of_forall (h : ∀ x ∈ xs, isHole x = false) : observed xs = xs := by
  rw [observed, List.filter_eq_self]
  intro x hx
  rw [h x hx]
  rfl

theorem observed_append (xs ys : List α) : observed (xs ++ ys) = observed xs ++ observed ys :=
  List.filter_append ..

theorem observed_replicate (n : Nat) : observed (List.replicate n (hole : α)) = [] := by
  rw [observed, List.filter_replicate, isHole_hole]
  rfl

theorem observed_refilled (h : ys.length = (observed xs).length) :
    observed (refilled xs ys) = observed ys := by
  induction xs generalizing ys with
  | nil => rw [List.length_eq_zero_iff.mp h, refilled]
  | cons x xs ih =>
    cases hx : isHole x with
    | true =>
      rw [observed_cons_of_hole hx] at h
      rw [refilled_cons_of_hole hx, observed_cons_of_hole isHole_hole, ih h]
    | false =>
      rw [observed_cons_of_observed hx] at h
      cases ys with
      | nil => cases h
      | cons y ys =>
        have hRest := ih (Nat.succ.inj h)
        rw [refilled_cons_of_observed hx, List.headD_cons, List.tail_cons]
        cases hy : isHole y with
        | true => rw [observed_cons_of_hole hy, observed_cons_of_hole hy, hRest]
        | false => rw [observed_cons_of_observed hy, observed_cons_of_observed hy, hRest]

/-- To put values into what was put in is to put them in directly. -/
theorem refilled_refilled (h : ys.length = (observed xs).length) (zs : List α) :
    refilled (refilled xs ys) zs = refilled xs (refilled ys zs) := by
  -- `ys` has a value for every observed place of `xs`, and `zs` is used up where both have one.
  induction xs generalizing ys zs with
  | nil => rfl
  | cons x xs ih =>
    cases hx : isHole x with
    | true =>
      rw [observed_cons_of_hole hx] at h
      rw [refilled_cons_of_hole hx, refilled_cons_of_hole isHole_hole, ih h,
        refilled_cons_of_hole hx]
    | false =>
      rw [observed_cons_of_observed hx] at h
      cases ys with
      | nil => cases h
      | cons y ys =>
        have hRest := ih (Nat.succ.inj h)
        rw [refilled_cons_of_observed hx, refilled_cons_of_observed hx, List.headD_cons,
          List.tail_cons]
        cases hy : isHole y with
        | true =>
          rw [refilled_cons_of_hole hy, refilled_cons_of_hole hy, hRest]
          rfl
        | false =>
          rw [refilled_cons_of_observed hy, refilled_cons_of_observed hy, hRest]
          rfl

theorem refilled_append (xs xs' ys : List α) :
    refilled (xs ++ xs') ys = refilled xs ys ++ refilled xs' (ys.drop (observed xs).length) := by
  induction xs generalizing ys with
  | nil => rfl
  | cons x xs ih =>
    cases hx : isHole x with
    | true =>
      rw [List.cons_append, refilled_cons_of_hole hx, refilled_cons_of_hole hx, ih,
        observed_cons_of_hole hx]
      rfl
    | false =>
      rw [List.cons_append, refilled_cons_of_observed hx, refilled_cons_of_observed hx, ih,
        observed_cons_of_observed hx, List.drop_tail]
      rfl

theorem refilled_replicate (n : Nat) (ys : List α) :
    refilled (List.replicate n hole) ys = List.replicate n hole := by
  induction n with
  | zero => rfl
  | succ n ih => rw [List.replicate_succ, refilled_cons_of_hole isHole_hole, ih]

theorem refilled_of_forall (h : ∀ x ∈ xs, isHole x = false) (hLength : ys.length = xs.length) :
    refilled xs ys = ys := by
  induction xs generalizing ys with
  | nil => exact (List.length_eq_zero_iff.mp hLength).symm
  | cons x xs ih =>
    obtain ⟨hFirst, hRest⟩ := List.forall_mem_cons.mp h
    cases ys with
    | nil => cases hLength
    | cons y ys =>
      rw [refilled_cons_of_observed hFirst, List.tail_cons, ih hRest (Nat.succ.inj hLength)]
      rfl

end Refilled

section Displaced
variable {xs : List α}

theorem displace_ofNat (xs : List α) (m : Nat) :
    displace xs m = xs.drop m ++ List.replicate (min m xs.length) hole := rfl

theorem displace_neg (xs : List α) (m : Nat) :
    displace xs (-m) = List.replicate (min m xs.length) hole ++ xs.take (xs.length - m) := by
  cases m with
  | zero => simp [displace]
  | succ m => rfl

theorem observed_displace_ofNat (h : ∀ x ∈ xs, isHole x = false) (m : Nat) :
    observed (displace xs m) = xs.drop m := by
  rw [displace_ofNat, observed_append, observed_replicate, List.append_nil]
  exact observed_of_forall fun x hx => h x (List.mem_of_mem_drop hx)

theorem observed_displace_neg (h : ∀ x ∈ xs, isHole x = false) (m : Nat) :
    observed (displace xs (-m)) = xs.take (xs.length - m) := by
  rw [displace_neg, observed_append, observed_replicate, List.nil_append]
  exact observed_of_forall fun x hx => h x (List.mem_of_mem_take hx)

/-- As many values are lost as the list is moved by. -/
theorem length_observed_displace (h : ∀ x ∈ xs, isHole x = false) (amount : Int) :
    (observed (displace xs amount)).length = xs.length - amount.natAbs := by
  obtain ⟨m, rfl | rfl⟩ := Int.eq_nat_or_neg amount
  · rw [observed_displace_ofNat h, List.length_drop, Int.natAbs_natCast]
  · rw [observed_displace_neg h, List.length_take, Int.natAbs_neg, Int.natAbs_natCast]
    omega

/-- Two displacements in one direction, the second of what the first one leaves observed. -/
theorem refilled_displace_displace (h : ∀ x ∈ xs, isHole x = false) {a b : Int}
    (hSign : 0 ≤ a ∧ 0 ≤ b ∨ a ≤ 0 ∧ b ≤ 0) :
    refilled (displace xs a) (displace (observed (displace xs a)) b) = displace xs (a + b) := by
  rcases hSign with ⟨ha, hb⟩ | ⟨ha, hb⟩
  · obtain ⟨m, rfl⟩ := Int.eq_ofNat_of_zero_le ha
    obtain ⟨n, rfl⟩ := Int.eq_ofNat_of_zero_le hb
    have hLeft : ∀ x ∈ xs.drop m, isHole x = false := fun x hx => h x (List.mem_of_mem_drop hx)
    -- The holes of the first displacement lie behind those of the second.
    rw [observed_displace_ofNat h, displace_ofNat xs, refilled_append, refilled_replicate,
      refilled_of_forall hLeft (length_displace ..), displace_ofNat, ← Int.natCast_add,
      displace_ofNat, List.drop_drop, List.append_assoc, List.replicate_append_replicate,
      List.length_drop]
    congr 2
    omega
  · obtain ⟨m, rfl⟩ : ∃ m : Nat, a = -m := ⟨a.natAbs, by omega⟩
    obtain ⟨n, rfl⟩ : ∃ n : Nat, b = -n := ⟨b.natAbs, by omega⟩
    have hLeft : ∀ x ∈ xs.take (xs.length - m), isHole x = false :=
      fun x hx => h x (List.mem_of_mem_take hx)
    -- Here they lie in front of them.
    rw [observed_displace_neg h, displace_neg xs, refilled_append, refilled_replicate,
      observed_replicate, List.length_nil, List.drop_zero,
      refilled_of_forall hLeft (length_displace ..), displace_neg, ← Int.neg_add,
      ← Int.natCast_add, displace_neg, ← List.append_assoc, List.replicate_append_replicate,
      List.take_take, List.length_take]
    congr 2
    · omega
    · omega

theorem getElem?_displace {amount : Int} {j k : Nat} (h : (j : Int) = k + amount)
    (hj : j < xs.length) (hk : k < xs.length) : (displace xs amount)[k]? = xs[j]? := by
  obtain ⟨m, rfl | rfl⟩ := Int.eq_nat_or_neg amount
  · rw [displace_ofNat, List.getElem?_append_left (by rw [List.length_drop]; omega),
      List.getElem?_drop]
    congr 1
    omega
  · have hFill : (List.replicate (min m xs.length) (hole : α)).length = m := by
      rw [List.length_replicate]
      omega
    rw [displace_neg, List.getElem?_append_right (by omega), hFill,
      List.getElem?_take_of_lt (by omega)]
    congr 1
    omega

theorem getElem?_displace_of_beyond {amount : Int} {k : Nat} (hk : k < xs.length)
    (h : ¬ (0 ≤ k + amount ∧ k + amount < xs.length)) :
    (displace xs amount)[k]? = some hole := by
  obtain ⟨m, rfl | rfl⟩ := Int.eq_nat_or_neg amount
  · rw [displace_ofNat, List.getElem?_append_right (by rw [List.length_drop]; omega),
      List.getElem?_replicate, List.length_drop, if_pos (by omega)]
  · have hFill : k < (List.replicate (min m xs.length) (hole : α)).length := by
      rw [List.length_replicate]
      omega
    rw [displace_neg, List.getElem?_append_left hFill, List.getElem?_replicate,
      if_pos (by rwa [List.length_replicate] at hFill)]

end Displaced

section Positions

/-- The observed positions in ascending order. -/
def observedAt (xs : List α) : List Nat :=
  (xs.zipIdx.filter fun e => !isHole e.1).map Prod.snd

variable {xs : List α} {x : α}

theorem observedAt_cons (x : α) (xs : List α) : observedAt (x :: xs) =
    if isHole x then (observedAt xs).map (· + 1) else 0 :: (observedAt xs).map (· + 1) := by
  rw [observedAt, List.zipIdx_cons', List.filter_cons, List.filter_map]
  cases hx : isHole x with
  | true => simp [observedAt, Function.comp_def]
  | false => simp [observedAt, Function.comp_def]

theorem length_observedAt (xs : List α) : (observedAt xs).length = (observed xs).length := by
  induction xs with
  | nil => rfl
  | cons x xs ih =>
    rw [observedAt_cons]
    cases hx : isHole x with
    | true => rw [observed_cons_of_hole hx, if_pos rfl, List.length_map, ih]
    | false =>
      rw [observed_cons_of_observed hx, if_neg Bool.false_ne_true, List.length_cons,
        List.length_map, ih, List.length_cons]

theorem getElem?_refilled_of_hole {i : Nat} (hi : xs[i]? = some x) (hx : isHole x = true)
    (ys : List α) : (refilled xs ys)[i]? = some hole := by
  induction xs generalizing i ys with
  | nil => cases hi
  | cons y xs ih =>
    cases i with
    | zero =>
      obtain rfl := Option.some.inj hi
      rw [refilled_cons_of_hole hx]
      rfl
    | succ i =>
      rw [refilled]
      split
      · exact ih hi ys
      · exact ih hi ys.tail

theorem getElem?_observedAt {i k : Nat} (hi : (observedAt xs)[k]? = some i) (ys : List α) :
    xs[i]? = (observed xs)[k]? ∧ (refilled xs ys)[i]? = some (ys[k]?.getD hole) := by
  induction xs generalizing i k ys with
  | nil => cases hi
  | cons x xs ih =>
    rw [observedAt_cons] at hi
    cases hx : isHole x with
    | true =>
      rw [hx, if_pos rfl, List.getElem?_map, Option.map_eq_some_iff] at hi
      obtain ⟨i, hi, rfl⟩ := hi
      rw [observed_cons_of_hole hx, refilled_cons_of_hole hx]
      exact ih hi ys
    | false =>
      rw [hx, if_neg Bool.false_ne_true] at hi
      rw [observed_cons_of_observed hx, refilled_cons_of_observed hx]
      cases k with
      | zero =>
        obtain rfl := Option.some.inj hi
        exact ⟨rfl, by cases ys <;> rfl⟩
      | succ k =>
        rw [List.getElem?_cons_succ, List.getElem?_map, Option.map_eq_some_iff] at hi
        obtain ⟨i, hi, rfl⟩ := hi
        rw [List.getElem?_cons_succ, List.getElem?_cons_succ, List.getElem?_cons_succ]
        simpa [List.getElem?_tail] using ih hi ys.tail

end Positions

section Restored
variable {gap : Nat → Bool}

theorem dropAt_gaps {xs : List α} (h : ∀ i x, xs[i]? = some x → gap i = isHole x) :
    Holes.dropAt 0 ((List.range xs.length).filter gap) xs = observed xs := by
  have hSame : ∀ e ∈ xs.zipIdx, (!gap e.2) = ((fun x => !isHole x) ∘ Prod.fst) e := by
    intro e he
    rw [h e.2 e.1 (List.mem_zipIdx_iff_getElem?.mp he)]
    rfl
  rw [List.range_eq_range', Holes.dropAt_eq_filter xs (Nat.le_refl _), List.filter_congr hSame,
    ← List.filter_map, List.zipIdx_map_fst, observed]

theorem refillValues_gaps (start : Nat) {xs : List α}
    (h : ∀ i x, xs[i]? = some x → gap (start + i) = isHole x) (ys : List α) :
    Holes.refillValues start ((List.range' start xs.length).filter gap) ys xs.length =
      refilled xs ys := by
  induction xs generalizing start ys with
  | nil => rfl
  | cons x xs ih =>
    have hRest := ih (start + 1) fun i y hy => by
      rw [← h (i + 1) y hy]
      congr 1
      omega
    have hHere : gap start = isHole x := h 0 x rfl
    rw [List.length_cons, List.range'_succ, List.filter_cons, Holes.refillValues, hHere]
    cases hx : isHole x with
    | true =>
      rw [if_pos rfl, if_pos List.head?_cons, List.tail_cons, hRest, refilled_cons_of_hole hx]
    | false =>
      have hHead : ((List.range' (start + 1) xs.length).filter gap).head? ≠ some start := by
        intro hHead
        exact Nat.lt_irrefl start (Holes.later_of_mem (List.mem_of_head? hHead))
      rw [if_neg Bool.false_ne_true, if_neg hHead, hRest, refilled_cons_of_observed hx]

variable (s : Series α)

theorem isGap_eq_isHole {i : Nat} {x : α} (h : s.values[i]? = some x) :
    Holes.isGap i s = isHole x := by
  rw [Holes.isGap, value?_eq_getElem?, h]
  rfl

theorem calendar_single : (Holes.ofGroup [s]).calendar = s.dates := rfl

theorem values_shiftDraft (amount : Int) :
    (s.shiftDraft amount).values = refilled s.values (displace (observed s.values) amount) := by
  have hLength : (Holes.ofGroup [s]).fullLength = s.values.length := by
    rw [Holes.fullLength, calendar_single, length_dates, length_values]
  have hPositions := (marks_single s).positions
  rw [hLength] at hPositions
  rw [shiftDraft, Draft.values, keptValues, hPositions,
    dropAt_gaps fun i x hx => s.isGap_eq_isHole hx, hLength, List.range_eq_range']
  exact refillValues_gaps 0 (fun i x hx => by rw [Nat.zero_add, s.isGap_eq_isHole hx]) _

theorem shift_eq_refilled (amount : Int) : s.shift amount = ofPoints s.options
    (List.zipWith Point.mk s.dates (refilled s.values (displace (observed s.values) amount))) := by
  rw [shift_eq, Draft.series, values_shiftDraft, shiftDraft, Draft.dates, calendar_single]

theorem values_shift (amount : Int) :
    (s.shift amount).values = refilled s.values (displace (observed s.values) amount) := by
  rw [shift_eq, (fits_shiftDraft s amount).values_series, values_shiftDraft]

theorem observed_shift (amount : Int) :
    observed (s.shift amount).values = observed (displace (observed s.values) amount) := by
  rw [values_shift, observed_refilled (length_displace ..)]

/-- Two shifts in one direction are one, though the second passes over the holes of the first. -/
theorem shift_shift {a b : Int} (hSign : 0 ≤ a ∧ 0 ≤ b ∨ a ≤ 0 ∧ b ≤ 0) :
    (s.shift a).shift b = s.shift (a + b) := by
  have hObserved : ∀ x ∈ observed s.values, isHole x = false := fun x => isHole_of_mem_observed
  rw [shift_eq_refilled (s.shift a), shift_eq_refilled s (a + b), dates_shift, options_shift,
    observed_shift, values_shift, refilled_refilled (length_displace ..),
    refilled_displace_displace hObserved hSign]

end Restored

section Offsets
variable {s : Series α} {amount : Int}

theorem shiftLeft_of_offsets (h : ∀ k < s.observedCount, isOffset (k + amount) = true) :
    s.shiftLeft amount = .ok (s.shift amount) := by
  refine if_pos (List.all_eq_true.mpr fun k hk => ?_)
  exact h k (List.mem_range.mp hk)

theorem isOffset_of_between {x y z : Int} (hx : isOffset x = true) (hz : isOffset z = true)
    (hLow : x ≤ y) (hHigh : y ≤ z) : isOffset y = true := by
  rw [isOffset, Bool.and_eq_true, decide_eq_true_eq, decide_eq_true_eq] at hx hz ⊢
  exact ⟨Int.lt_of_le_of_lt hHigh hz.1, Int.le_trans hx.2 hLow⟩

/-- The second of two shifts in one direction reads no farther than both at once. -/
theorem offsets_shift {a b : Int} (hSign : 0 ≤ a ∧ 0 ≤ b ∨ a ≤ 0 ∧ b ≤ 0)
    (h : ∀ k < s.observedCount, isOffset (k + (a + b)) = true) :
    ∀ k < (s.shift a).observedCount, isOffset (k + b) = true := by
  intro k hk
  have hObserved : ∀ x ∈ observed s.values, isHole x = false := fun x => isHole_of_mem_observed
  have hCount : (s.shift a).observedCount = s.observedCount - a.natAbs :=
    (congrArg List.length (observed_shift s a)).trans (length_observed_displace hObserved a)
  rw [hCount] at hk
  rcases hSign with ⟨ha, hb⟩ | ⟨ha, hb⟩
  · have hFar := h k (by omega)
    exact isOffset_of_between (x := 0) (by decide) hFar (by omega) (by omega)
  · -- The place that the second shift reads at `k` both at once read at `k + |a|`.
    have hFar := h (k + a.natAbs) (by omega)
    rwa [show ((k + a.natAbs : Nat) : Int) + (a + b) = k + b by omega] at hFar

end Offsets

/-- The observed values of `s` moved over its observed positions, toward the start by a positive
amount. -/
structure Moved (s : Series α) (amount : Int) (t : Series α) : Prop where
  count : t.count = s.count
  dates : t.dates = s.dates
  holes : ∀ i x, s.value? i = some x → isHole x = true → t.value? i = some hole
  within : ∀ j k source i : Nat, (observedAt s.values)[j]? = some source →
    (observedAt s.values)[k]? = some i → (j : Int) = k + amount → t.value? i = s.value? source
  beyond : ∀ k i : Nat, (observedAt s.values)[k]? = some i →
    ¬ (0 ≤ k + amount ∧ k + amount < s.observedCount) → t.value? i = some hole

theorem moved_shift (s : Series α) (amount : Int) : s.Moved amount (s.shift amount) := by
  have hCount : s.observedCount = (observed s.values).length := rfl
  have hLength := length_observedAt s.values
  constructor
  case count => exact count_eq_of_dates (dates_shift s amount)
  case dates => exact dates_shift s amount
  case holes =>
    intro i x hi hx
    rw [value?_eq_getElem?] at hi
    rw [value?_eq_getElem?, values_shift, getElem?_refilled_of_hole hi hx]
  case within =>
    intro j k source i hSource hi hMoved
    have hj := (List.getElem?_eq_some_iff.mp hSource).1
    have hk := (List.getElem?_eq_some_iff.mp hi).1
    rw [hLength] at hj hk
    rw [value?_eq_getElem?, value?_eq_getElem?, (getElem?_observedAt hSource []).1, values_shift,
      (getElem?_observedAt hi _).2, getElem?_displace hMoved hj hk, List.getElem?_eq_getElem hj]
    rfl
  case beyond =>
    intro k i hi hBeyond
    have hk := (List.getElem?_eq_some_iff.mp hi).1
    rw [hLength] at hk
    rw [hCount] at hBeyond
    rw [value?_eq_getElem?, values_shift, (getElem?_observedAt hi _).2,
      getElem?_displace_of_beyond hk hBeyond]
    rfl

/-- A shift that reads from places with a signed word moves the observed values over the observed
positions, and leaves a hole where there was one and where nothing comes in. Two shifts in one
direction are the shift by the sum: where the first and that one are answered, so is the second. -/
theorem shifts_move_observations (s : Series Float) :
    (∀ amount, (∀ k < s.observedCount, isOffset (k + amount) = true) →
      ∃ t, s.shiftLeft amount = .ok t ∧ s.Moved amount t) ∧
    (∀ amount, isOffset (-amount) = true → (∀ k < s.observedCount, isOffset (k - amount) = true) →
      ∃ t, s.shiftRight amount = .ok t ∧ s.Moved (-amount) t) ∧
    ∀ a b, 0 ≤ a ∧ 0 ≤ b ∨ a ≤ 0 ∧ b ≤ 0 →
      (∀ k < s.observedCount, isOffset (k + a) = true) →
      (∀ k < s.observedCount, isOffset (k + (a + b)) = true) →
      ∃ t u v, s.shiftLeft a = .ok t ∧ t.shiftLeft b = .ok u ∧ s.shiftLeft (a + b) = .ok v ∧
        u = v ∧ (u == v) = true := by
  refine ⟨fun amount h => ⟨_, shiftLeft_of_offsets h, moved_shift s amount⟩,
    fun amount hNegated h => ⟨s.shift (-amount), ?_, moved_shift s (-amount)⟩,
    fun a b hSign ha hab => ?_⟩
  · rw [shiftRight, if_pos hNegated]
    exact shiftLeft_of_offsets h
  · have hSame := shift_shift s hSign
    exact ⟨_, _, _, shiftLeft_of_offsets ha, shiftLeft_of_offsets (offsets_shift hSign hab),
      shiftLeft_of_offsets hab, hSame, hSame ▸ beq_self _⟩

/-- The second shift passes over the hole that was there, and over the one that the first made. -/
theorem shifts_over_one_hole : ∃ s t u : Series Float, s.values = [1, hole, 2, 3] ∧
    s.shiftLeft 1 = .ok t ∧ t.value? 0 = some 2 ∧ t.value? 1 = some hole ∧
      t.value? 3 = some hole ∧ t.shiftLeft 1 = .ok u ∧ s.shiftLeft 2 = .ok u := by
  let points : List (Point Float) := [1, hole, 2, 3].map fun x => ⟨.latest, x⟩
  let s : Series Float := ofPoints default points
  have hOne : ∀ k < s.observedCount, isOffset (k + 1) = true := by decide
  have hTwo : ∀ k < s.observedCount, isOffset (k + (1 + 1)) = true := by decide
  obtain ⟨hLeft, -, hTwice⟩ := shifts_move_observations s
  obtain ⟨t, ht, hMoved⟩ := hLeft 1 hOne
  obtain ⟨t', u, v, ht', hu, hv, rfl, -⟩ := hTwice 1 1 (by decide) hOne hTwo
  obtain rfl := Except.ok.inj (ht.symm.trans ht')
  refine ⟨s, t, u, rfl, ht, ?_, ?_, ?_, hu, hv⟩
  · exact hMoved.within 1 0 2 0 (by decide) (by decide) (by decide)
  · exact hMoved.holes 1 hole rfl isHole_hole
  · exact hMoved.beyond 2 3 (by decide) (by decide)

end Almanac.Series
