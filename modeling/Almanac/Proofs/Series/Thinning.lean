import Almanac.Proofs.Series.Synchronization
import Almanac.Series.Resampling

/-! # Sparse subsets

A sparse subset is picked from the last point of a series backwards. What is left over of a distance
lies in front of the first point that is picked, so that the point of every position that is a whole
number of distances before the last one is kept.
-/
namespace Almanac.Series
set_option autoImplicit false

section Thin
variable {β : Type} {distance : Nat}

theorem getElem?_thin (hPositive : 0 < distance) (skip : Nat) (xs : List β) (k : Nat) :
    (thin distance skip xs)[k]? = xs[skip + k * distance]? := by
  induction xs generalizing skip k with
  | nil => rw [thin, List.getElem?_nil, List.getElem?_nil]
  | cons x xs ih =>
    cases skip with
    | zero =>
      rw [thin]
      cases k with
      | zero => simp
      | succ k =>
        -- Behind an entry that is kept, one less than a distance is skipped.
        have hStep : 0 + (k + 1) * distance = distance - 1 + k * distance + 1 := by
          rw [Nat.succ_mul]
          omega
        rw [List.getElem?_cons_succ, ih, hStep, List.getElem?_cons_succ]
    | succ skip => rw [thin, ih, Nat.succ_add, List.getElem?_cons_succ]

theorem thin_thin {a b : Nat} (ha : 0 < a) (hb : 0 < b) (xs : List β) :
    thin b 0 (thin a 0 xs) = thin (a * b) 0 xs := by
  apply List.ext_getElem?
  intro k
  rw [getElem?_thin hb, getElem?_thin ha, getElem?_thin (Nat.mul_pos ha hb)]
  congr 1
  ring

theorem succ_mod_eq_zero_iff (hPositive : 0 < distance) (n : Nat) :
    (n + 1) % distance = 0 ↔ distance - 1 ≤ n ∧ (n - (distance - 1)) % distance = 0 := by
  rcases Nat.lt_or_ge (n + 1) distance with hLt | hLe
  · rw [Nat.mod_eq_of_lt hLt]
    omega
  · rw [Nat.mod_eq_sub_mod hLe, show n + 1 - distance = n - (distance - 1) by omega]
    exact (and_iff_right (by omega)).symm

theorem thin_concat (hPositive : 0 < distance) (skip : Nat) (xs : List β) (x : β) :
    thin distance skip (xs ++ [x]) = thin distance skip xs ++
      if skip ≤ xs.length ∧ (xs.length - skip) % distance = 0 then [x] else [] := by
  induction xs generalizing skip with
  | nil => cases skip <;> simp [thin]
  | cons y xs ih =>
    cases skip with
    | zero =>
      rw [List.cons_append, thin, ih, thin, List.cons_append]
      simp only [List.length_cons, Nat.zero_le, Nat.sub_zero, true_and,
        succ_mod_eq_zero_iff hPositive]
    | succ skip =>
      rw [List.cons_append, thin, ih, thin]
      simp only [List.length_cons, Nat.succ_le_succ_iff, Nat.succ_sub_succ]

/-- Picked from the end, the entries whose distance from the last one is a multiple are kept. -/
theorem reverse_thin_reverse (hPositive : 0 < distance) (xs : List β) :
    (thin distance 0 xs.reverse).reverse =
      (xs.zipIdx.filter fun e => (xs.length - 1 - e.2) % distance = 0).map Prod.fst := by
  induction xs with
  | nil => simp [thin]
  | cons x xs ih =>
    have hShift : (fun e : β × Nat => decide ((xs.length - 1 - e.2) % distance = 0)) =
        (fun e => decide (((x :: xs).length - 1 - e.2) % distance = 0)) ∘ Prod.map id (· + 1) := by
      funext e
      simp [Nat.sub_sub, Nat.add_comm]
    rw [List.reverse_cons, thin_concat hPositive, List.reverse_append, ih, List.zipIdx_cons',
      List.filter_cons, List.filter_map, ← hShift]
    simp only [Nat.zero_le, true_and, List.length_reverse, List.length_cons, Nat.sub_zero,
      Nat.add_sub_cancel, decide_eq_true_eq]
    split
    · simp
    · simp

end Thin

/-- A sparse subset keeps the points whose distance from the last one is a multiple, the last one
among them. The subset of a subset is that at the product of the distances. -/
theorem sparse_subsets_compose (s : Series Float) {a b : Nat} (ha : 0 < a) (hb : 0 < b) :
    ∃ t u v, s.sparseSubset a = .ok t ∧
      t.points = (s.points.zipIdx.filter fun e => (s.count - 1 - e.2) % a = 0).map Prod.fst ∧
      t.points.getLast? = s.points.getLast? ∧
      t.sparseSubset b = .ok u ∧ s.sparseSubset (a * b) = .ok v ∧ u = v ∧ (u == v) = true := by
  have hThin : ∀ (t : Series Float) {distance : Nat}, 0 < distance →
      t.sparseSubset distance = .ok (t.derived (thin distance 0 t.points.reverse).reverse) := by
    intro t distance hPositive
    rw [sparseSubset, checkPositive, if_pos hPositive]
    rfl
  let t := s.derived (thin a 0 s.points.reverse).reverse
  have hPoints : t.points = (thin a 0 s.points.reverse).reverse := points_ofPoints _ _
  refine ⟨t, _, _, hThin s ha, ?_, ?_, hThin t hb, hThin s (Nat.mul_pos ha hb), ?_⟩
  · rw [hPoints, reverse_thin_reverse ha]
    rfl
  · rw [hPoints, List.getLast?_reverse, List.head?_eq_getElem?, getElem?_thin ha, Nat.zero_mul,
      ← List.head?_eq_getElem?, List.head?_reverse]
  · have hSame : t.derived (thin b 0 t.points.reverse).reverse =
        s.derived (thin (a * b) 0 s.points.reverse).reverse := by
      rw [hPoints, List.reverse_reverse, thin_thin ha hb]
      exact congrArg (ofPoints · _) (options_ofPoints _ _)
    exact ⟨hSame, hSame ▸ beq_self _⟩

/-- Of five points at one date every second is kept, and of these every second again. -/
theorem sparse_subsets_of_five : ∃ (s t u : Series Float) (d : Instant),
    s.points = [⟨d, 1⟩, ⟨d, 2⟩, ⟨d, 3⟩, ⟨d, 4⟩, ⟨d, 5⟩] ∧ 0 < 2 ∧ s.sparseSubset 2 = .ok t ∧
      t.points = [⟨d, 1⟩, ⟨d, 3⟩, ⟨d, 5⟩] ∧ t.sparseSubset 2 = .ok u ∧
      s.sparseSubset 4 = .ok u := by
  let d : Instant := .latest
  let s : Series Float := ofPoints default [⟨d, 1⟩, ⟨d, 2⟩, ⟨d, 3⟩, ⟨d, 4⟩, ⟨d, 5⟩]
  have hTwo : 0 < 2 := by decide
  obtain ⟨t, u, v, ht, hPoints, -, hu, hv, rfl, -⟩ := sparse_subsets_compose s hTwo hTwo
  exact ⟨s, t, u, d, rfl, hTwo, ht, hPoints.trans (by decide), hu, hv⟩

end Almanac.Series
