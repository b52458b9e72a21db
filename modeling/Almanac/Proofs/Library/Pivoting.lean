import Mathlib.Algebra.Order.Field.Basic
import Almanac.Proofs.Library.Elimination

/-! # Elimination gives exact factors

One column is eliminated by an exchange of two rows, or none, and a multiple of the pivot row taken
from each of the others. Every row that is left is then the sum of that multiple and of what remains
of it, so that the rows of the block are sums of rows of the upper factor, with the multipliers as
coefficients. Each exchange turns the sign of the order in which the rows were taken.
-/
namespace Almanac.Library.Elimination
set_option autoImplicit false
open Finset (range)

variable {α : Type}

section Position
variable [LinearOrder α]

/-- The first of the largest: where it is, and that it is larger than the first unless it is it. -/
theorem foldl_largest (first : α) (others : List α) :
    let best := others.zipIdx.foldl
      (fun best p => if best.2 < p.1 then (p.2 + 1, p.1) else best) (0, first)
    (first :: others)[best.1]? = some best.2 ∧ (∀ x ∈ first :: others, x ≤ best.2) ∧
      (best.1 ≠ 0 → first < best.2) := by
  induction others using List.reverseRecOn with
  | nil => simp
  | append_singleton others x ih =>
    rw [List.zipIdx_append, List.foldl_append]
    generalize others.zipIdx.foldl
      (fun best p => if best.2 < p.1 then (p.2 + 1, p.1) else best) (0, first) = best at ih
    obtain ⟨hEntry, hLargest, hLater⟩ := ih
    have hLt := (List.getElem?_eq_some_iff.mp hEntry).1
    simp only [List.zipIdx_singleton, Nat.zero_add, List.foldl_cons, List.foldl_nil]
    split
    · rename_i hLess
      refine ⟨by simp, fun y hy => ?_, fun _ => ?_⟩
      · rcases List.mem_append.mp (List.cons_append ▸ hy : y ∈ (first :: others) ++ [x])
          with hBefore | hLast
        · exact ((hLargest y hBefore).trans_lt hLess).le
        · exact (List.mem_singleton.mp hLast).le
      · exact (hLargest first List.mem_cons_self).trans_lt hLess
    · rename_i hNot
      refine ⟨?_, fun y hy => ?_, hLater⟩
      · rw [← List.cons_append, List.getElem?_append_left hLt, hEntry]
      · rcases List.mem_append.mp (List.cons_append ▸ hy : y ∈ (first :: others) ++ [x])
          with hBefore | hLast
        · exact hLargest y hBefore
        · exact List.mem_singleton.mp hLast ▸ le_of_not_gt hNot

end Position

section Exchange
variable {β γ : Type} {first row : β} {others others' : List β} {swaps : Nat}

/-- One row is taken out, after no exchange or after one. -/
inductive Exchanged (first : β) (others : List β) : Nat → β → List β → Prop where
  | stay : Exchanged first others 0 first others
  | swap {i : Nat} {row : β} : others[i]? = some row →
    Exchanged first others 1 row (others.set i first)

theorem exchanged {position : Nat} (h : (first :: others)[position]? = some row) :
    exchange first others position = (row, (exchange first others position).2) ∧
      Exchanged first others (if position = 0 then 0 else 1) row
        (exchange first others position).2 := by
  cases position with
  | zero =>
    obtain rfl := Option.some.inj h
    exact ⟨rfl, .stay⟩
  | succ i =>
    refine ⟨?_, .swap h⟩
    have hRow : others.getD i first = row := getD_of_getElem? h
    exact Prod.ext hRow rfl

theorem Exchanged.length (h : Exchanged first others swaps row others') :
    others'.length = others.length := by
  cases h with
  | stay => rfl
  | swap _ => exact List.length_set

theorem Exchanged.row_mem (h : Exchanged first others swaps row others') :
    row ∈ first :: others := by
  cases h with
  | stay => exact List.mem_cons_self
  | swap hRow => exact List.mem_cons_of_mem _ (List.mem_of_getElem? hRow)

theorem Exchanged.mem (h : Exchanged first others swaps row others') {q : β} (hq : q ∈ others') :
    q ∈ first :: others := by
  cases h with
  | stay => exact List.mem_cons_of_mem _ hq
  | swap _ =>
    rcases List.mem_or_eq_of_mem_set hq with hOther | rfl
    · exact List.mem_cons_of_mem _ hOther
    · exact List.mem_cons_self

theorem Exchanged.map (f : β → γ) (h : Exchanged first others swaps row others') :
    Exchanged (f first) (others.map f) swaps (f row) (others'.map f) := by
  cases h with
  | stay => exact .stay
  | swap hRow =>
    rw [List.map_set]
    exact .swap (by rw [List.getElem?_map, hRow]; rfl)

end Exchange

section Sign

/-- A list in another order, which so many exchanges of two elements bring about. -/
def Rearranged (n exchanges : Nat) (xs ys : List Nat) : Prop :=
  ∃ P : Equiv.Perm (Fin n), (Equiv.Perm.sign P : ℤ) = (-1) ^ exchanges ∧
    ∀ i : Fin n, ys[(i : Nat)]? = xs[(P i : Nat)]?

theorem Rearranged.refl (n : Nat) (xs : List Nat) : Rearranged n 0 xs xs :=
  ⟨1, by rw [Equiv.Perm.sign_one, Units.val_one, pow_zero], fun _ => rfl⟩

theorem Rearranged.trans {n a b : Nat} {xs ys zs : List Nat} (h : Rearranged n a xs ys)
    (h' : Rearranged n b ys zs) : Rearranged n (b + a) xs zs := by
  obtain ⟨P, hSign, hEntry⟩ := h
  obtain ⟨P', hSign', hEntry'⟩ := h'
  refine ⟨P * P', ?_, fun i => (hEntry' i).trans (hEntry (P' i))⟩
  rw [Equiv.Perm.sign_mul, Units.val_mul, hSign, hSign', ← pow_add, Nat.add_comm]

/-- Elements behind a list that are exchanged, read at a position of neither of them. -/
theorem getElem?_exchanged_of_ne {β : Type} {before others : List β} {first row : β} {i k : Nat}
    (hFirst : k ≠ before.length) (hRow : k ≠ before.length + (i + 1)) :
    (before ++ row :: others.set i first)[k]? = (before ++ first :: others)[k]? := by
  rcases Nat.lt_or_ge k before.length with hk | hk
  · rw [List.getElem?_append_left hk, List.getElem?_append_left hk]
  · obtain ⟨t, ht⟩ : ∃ t, k - before.length = t + 1 := ⟨k - before.length - 1, by omega⟩
    rw [List.getElem?_append_right hk, List.getElem?_append_right hk, ht, List.getElem?_cons_succ,
      List.getElem?_cons_succ, List.getElem?_set_ne (by omega)]

theorem Exchanged.rearranged {n first row swaps : Nat} {others others' before : List Nat}
    (h : Exchanged first others swaps row others')
    (hLength : before.length + (others.length + 1) = n) :
    Rearranged n swaps (before ++ first :: others) (before ++ row :: others') := by
  cases h with
  | stay => exact .refl n _
  | swap hRow =>
    rename_i i
    have hi := (List.getElem?_eq_some_iff.mp hRow).1
    let a : Fin n := ⟨before.length, by omega⟩
    let b : Fin n := ⟨before.length + (i + 1), by omega⟩
    have hDistinct : a ≠ b := fun hSame => by
      have : before.length = before.length + (i + 1) := congrArg Fin.val hSame
      omega
    have hSign : (Equiv.Perm.sign (Equiv.swap a b) : ℤ) = (-1) ^ 1 := by
      rw [Equiv.Perm.sign_swap hDistinct, Units.val_neg, Units.val_one, pow_one]
    refine ⟨Equiv.swap a b, hSign, fun k => ?_⟩
    rcases eq_or_ne k a with rfl | ha
    · rw [Equiv.swap_apply_left]
      change (before ++ row :: _)[before.length]? = (before ++ first :: others)[_ + (i + 1)]?
      rw [List.getElem?_append_right (Nat.le_refl _), Nat.sub_self,
        List.getElem?_append_right (Nat.le_add_right ..), Nat.add_sub_cancel_left]
      exact hRow.symm
    rcases eq_or_ne k b with rfl | hb
    · rw [Equiv.swap_apply_right]
      simp [a, b, hi]
    · rw [Equiv.swap_apply_of_ne_of_ne ha hb]
      exact getElem?_exchanged_of_ne (fun hSame => ha (Fin.ext hSame)) fun hSame =>
        hb (Fin.ext hSame)

end Sign

section Reduction
variable [Field α] {m : Nat} {row q : PartialRow α}

theorem headD_eq_getD (xs : List α) : xs.headD 0 = xs.getD 0 0 := by cases xs <;> rfl

theorem getD_tail (xs : List α) (j : Nat) : xs.tail.getD j 0 = xs.getD (j + 1) 0 := by
  cases xs <;> rfl

/-- A row is a multiple of the pivot row and what remains of it. -/
structure Reduced (m : Nat) (row q q' : PartialRow α) (x : α) : Prop where
  source : q'.source = q.source
  lower : q'.lower = q.lower ++ [x]
  length : q'.rest.length = m
  rest : ∀ j < m + 1, q.rest.getD j 0 = x * row.rest.getD j 0 + (0 :: q'.rest).getD j 0

theorem reduced_clearLeading (hRow : row.rest.length = m + 1) (hq : q.rest.length = m + 1)
    (hPivot : row.rest.headD 0 ≠ 0) :
    Reduced m row q (clearLeading (row.rest.headD 0) row.rest.tail q)
      (q.rest.headD 0 * (1 / row.rest.headD 0)) where
  source := rfl
  lower := rfl
  length := by simp [clearLeading, hRow, hq]
  rest j hj := by
    cases j with
    | zero =>
      rw [headD_eq_getD, headD_eq_getD] at *
      rw [List.getD_cons_zero, add_zero, mul_assoc, one_div, inv_mul_cancel₀ hPivot, mul_one]
    | succ j =>
      have hEntry : (clearLeading (row.rest.headD 0) row.rest.tail q).rest[j]? =
          some (-row.rest.tail.getD j 0 * (q.rest.headD 0 * (1 / row.rest.headD 0)) +
            q.rest.tail.getD j 0) := by
        rw [clearLeading, List.getElem?_zipWith, getElem?_eq_getD (d := (0 : α)) (by simp; omega),
          getElem?_eq_getD (d := (0 : α)) (by simp; omega)]
      rw [List.getD_cons_succ, getD_of_getElem? hEntry, getD_tail, getD_tail]
      ring

theorem reduced_passOver (hq : q.rest.length = m + 1) (hZero : q.rest.headD 0 = 0) :
    Reduced m row q (passOver q) (q.rest.headD 0) where
  source := rfl
  lower := rfl
  length := by simp [passOver, hq]
  rest j hj := by
    rw [hZero, zero_mul, zero_add]
    cases j with
    | zero => rw [← headD_eq_getD, hZero, List.getD_cons_zero]
    | succ j => rw [List.getD_cons_succ, passOver, getD_tail]

/-- The factors with a pivot row put before them. -/
def preceded (row : PartialRow α) (swaps : Nat) (F : Elimination α) : Elimination α :=
  ⟨⟨row.source, row.lower, row.rest.headD 0, row.rest.tail⟩ :: F.rows, F.exchanges + swaps⟩

section Rows
variable {first : PartialRow α} {others others' : List (PartialRow α)} {swaps : Nat}
  {reduce : PartialRow α → PartialRow α}

/-- The rows that one column leaves, one fewer and one element shorter. -/
theorem length_reduced (hLength : (first :: others).length = m + 1)
    (hExchanged : Exchanged first others swaps row others')
    (hReduced : ∀ q ∈ others', ∃ x, Reduced m row q (reduce q) x) :
    (others'.map reduce).length = m ∧ ∀ q' ∈ others'.map reduce, q'.rest.length = m := by
  refine ⟨?_, fun q' hq' => ?_⟩
  · rw [List.length_map, hExchanged.length]
    exact Nat.succ.inj hLength
  · obtain ⟨q, hq, rfl⟩ := List.mem_map.mp hq'
    obtain ⟨x, hx⟩ := hReduced q hq
    exact hx.length

end Rows

variable [LinearOrder α] [IsStrictOrderedRing α] [Magnitude α] {first : PartialRow α}
  {others : List (PartialRow α)}

/-- The pivot is zero only where all leading entries are, and then no rows are exchanged. -/
theorem pivotPosition_spec (hAbs : ∀ x : α, abs x = |x|) (first : PartialRow α)
    (others : List (PartialRow α)) :
    ∃ row, (first :: others)[pivotPosition (first :: others)]? = some row ∧
      (row.rest.headD 0 = 0 → pivotPosition (first :: others) = 0 ∧
        ∀ q ∈ first :: others, q.rest.headD 0 = 0) := by
  obtain ⟨hEntry, hLargest, hLater⟩ := foldl_largest (abs (first.rest.headD 0))
    (others.map fun row => abs (row.rest.headD 0))
  change ((first :: others).map fun row => abs (row.rest.headD 0))[
    pivotPosition (first :: others)]? = _ at hEntry
  rw [List.getElem?_map] at hEntry
  obtain ⟨row, hRow, hLarge⟩ := Option.map_eq_some_iff.mp hEntry
  refine ⟨row, hRow, fun hZero => ?_⟩
  have hTop : abs (row.rest.headD 0) = 0 := by rw [hAbs, hZero, abs_zero]
  rw [← hLarge, hTop] at hLargest hLater
  constructor
  · by_contra hPosition
    have hLess := hLater hPosition
    rw [hAbs] at hLess
    exact absurd hLess (abs_nonneg _).not_gt
  · intro q hq
    have hMem : abs (q.rest.headD 0) ∈
        (first :: others).map fun row => abs (row.rest.headD 0) := List.mem_map_of_mem hq
    have hLe := hLargest _ hMem
    rw [hAbs] at hLe
    exact abs_nonpos_iff.mp hLe

/-- One column: a row is taken out, and the others are reduced by it. -/
theorem run_succ (hAbs : ∀ x : α, abs x = |x|)
    (hRest : ∀ q ∈ first :: others, q.rest.length = m + 1) :
    ∃ swaps row others' reduce, Exchanged first others swaps row others' ∧
      (∀ q ∈ others', ∃ x, Reduced m row q (reduce q) x) ∧
      run (m + 1) (first :: others) = preceded row swaps (run m (others'.map reduce)) := by
  obtain ⟨row, hRow, hPivot⟩ := pivotPosition_spec hAbs first others
  obtain ⟨hExchange, hExchanged⟩ := exchanged hRow
  generalize (exchange first others (pivotPosition (first :: others))).2 = others' at *
  rcases eq_or_ne (row.rest.headD 0) 0 with hZero | hPositive
  · obtain ⟨hPosition, hHeads⟩ := hPivot hZero
    rw [if_pos hPosition] at hExchanged
    refine ⟨0, row, others', passOver, hExchanged, fun q hq => ⟨q.rest.headD 0, ?_⟩, ?_⟩
    · have hMem := hExchanged.mem hq
      exact reduced_passOver (hRest q hMem) (hHeads q hMem)
    · rw [run, hExchange]
      exact if_pos (beq_iff_eq.mpr hZero)
  · refine ⟨_, row, others', clearLeading (row.rest.headD 0) row.rest.tail, hExchanged,
      fun q hq => ⟨q.rest.headD 0 * (1 / row.rest.headD 0), ?_⟩, ?_⟩
    · exact reduced_clearLeading (hRest row hExchanged.row_mem) (hRest q (hExchanged.mem hq))
        hPositive
    · rw [run, hExchange]
      exact if_neg (beq_iff_eq.not.mpr hPositive)

end Reduction

section Run
variable [Field α] [LinearOrder α] [IsStrictOrderedRing α] [Magnitude α]

section Upper
omit [LinearOrder α] [IsStrictOrderedRing α] [Magnitude α]
variable {F : Elimination α} {row : PartialRow α} {i j swaps : Nat}

theorem upperFactor_of_lt (h : j < i) : F.upperFactor i j = 0 := if_pos h

theorem upperFactor_preceded_zero : (preceded row swaps F).upperFactor 0 j = row.rest.getD j 0 := by
  cases j with
  | zero => exact headD_eq_getD row.rest
  | succ j => exact getD_tail row.rest j

theorem upperFactor_preceded_succ :
    (preceded row swaps F).upperFactor (i + 1) (j + 1) = F.upperFactor i j := by
  rw [upperFactor, upperFactor, upperTable, upperTable, if_congr Nat.succ_lt_succ_iff rfl rfl,
    if_congr Nat.succ_inj rfl rfl, Nat.succ_sub_succ]
  rfl

end Upper

/-- A finished row: its part of the lower factor is what it had and the coefficients by which what
was left of it is composed of rows of the upper factor. -/
structure Composed (F : Elimination α) (m i : Nat) (p : PartialRow α) (r : PivotRow α)
    (extra : List α) : Prop where
  source : r.source = p.source
  lower : r.lower = p.lower ++ extra
  length : extra.length = i
  upper : r.upper.length = m - i - 1
  rest : ∀ j < m, p.rest.getD j 0 =
    ∑ t ∈ range i, extra.getD t 0 * F.upperFactor t j + F.upperFactor i j

variable {m : Nat} {rows : List (PartialRow α)}

omit [LinearOrder α] [IsStrictOrderedRing α] [Magnitude α] in
theorem Composed.preceded {F : Elimination α} {row q q' : PartialRow α} {r : PivotRow α}
    {extra : List α} {x : α} {i swaps : Nat} (hReduced : Reduced m row q q' x)
    (h : Composed F m i q' r extra) :
    Composed (preceded row swaps F) (m + 1) (i + 1) q r (x :: extra) where
  source := h.source.trans hReduced.source
  lower := by rw [h.lower, hReduced.lower, List.append_assoc, List.singleton_append]
  length := congrArg Nat.succ h.length
  upper := by rw [h.upper, Nat.succ_sub_succ]
  rest j hj := by
    rw [hReduced.rest j hj, Finset.sum_range_succ', List.getD_cons_zero, upperFactor_preceded_zero]
    cases j with
    | zero =>
      rw [List.getD_cons_zero, upperFactor_of_lt (Nat.succ_pos i)]
      rw [Finset.sum_eq_zero fun t _ => by rw [upperFactor_of_lt (Nat.succ_pos t), mul_zero]]
      ring
    | succ j =>
      simp only [List.getD_cons_succ, upperFactor_preceded_succ]
      rw [h.rest j (Nat.lt_of_succ_lt_succ hj)]
      ring

/-- Every row that the elimination ends with is composed of rows of the upper factor. -/
theorem run_composed (hAbs : ∀ x : α, abs x = |x|) (hLength : rows.length = m)
    (hRest : ∀ q ∈ rows, q.rest.length = m) : (run m rows).order = m ∧
      ∀ i r, (run m rows).rows[i]? = some r →
        ∃ p ∈ rows, ∃ extra, Composed (run m rows) m i p r extra := by
  induction m generalizing rows with
  | zero =>
    obtain rfl := List.eq_nil_of_length_eq_zero hLength
    exact ⟨rfl, nofun⟩
  | succ m ih =>
    obtain ⟨first, others, rfl⟩ := List.exists_cons_of_length_eq_add_one hLength
    obtain ⟨swaps, row, others', reduce, hExchanged, hReduced, hRun⟩ := run_succ hAbs hRest
    obtain ⟨hOthers, hShorter⟩ := length_reduced hLength hExchanged hReduced
    obtain ⟨hOrder, hRows⟩ := ih hOthers hShorter
    rw [hRun]
    refine ⟨congrArg Nat.succ hOrder, fun i r hr => ?_⟩
    cases i with
    | zero =>
      obtain rfl := Option.some.inj hr
      have hRow := hRest row hExchanged.row_mem
      refine ⟨row, hExchanged.row_mem, [], rfl, (List.append_nil _).symm, rfl, ?_, fun j _ => ?_⟩
      · rw [List.length_tail, hRow]
        rfl
      · rw [Finset.range_zero, Finset.sum_empty, zero_add, upperFactor_preceded_zero]
    | succ i =>
      obtain ⟨q', hq', extra, hComposed⟩ := hRows i r hr
      obtain ⟨q, hq, rfl⟩ := List.mem_map.mp hq'
      obtain ⟨x, hx⟩ := hReduced q hq
      exact ⟨q, hExchanged.mem hq, x :: extra, hComposed.preceded hx⟩

def sources (F : Elimination α) : List Nat := F.rows.map PivotRow.source

/-- The exchanges that are counted bring about the order in which the rows are taken. -/
theorem rearranged_run (hAbs : ∀ x : α, abs x = |x|) {n : Nat} (before : List Nat)
    (hLength : rows.length = m) (hRest : ∀ q ∈ rows, q.rest.length = m)
    (hOrder : before.length + m = n) :
    Rearranged n (run m rows).exchanges (before ++ rows.map PartialRow.source)
      (before ++ sources (run m rows)) := by
  induction m generalizing rows before with
  | zero =>
    obtain rfl := List.eq_nil_of_length_eq_zero hLength
    exact .refl n _
  | succ m ih =>
    obtain ⟨first, others, rfl⟩ := List.exists_cons_of_length_eq_add_one hLength
    obtain ⟨swaps, row, others', reduce, hExchanged, hReduced, hRun⟩ := run_succ hAbs hRest
    obtain ⟨hOthers, hShorter⟩ := length_reduced hLength hExchanged hReduced
    have hSources : (others'.map reduce).map PartialRow.source =
        others'.map PartialRow.source := by
      rw [List.map_map]
      refine List.map_congr_left fun q hq => ?_
      obtain ⟨x, hx⟩ := hReduced q hq
      exact hx.source
    have hNext := ih (before ++ [row.source]) hOthers hShorter
      (by rw [List.length_append, List.length_singleton]; omega)
    rw [hSources, List.append_assoc, List.append_assoc] at hNext
    have hAll : before.length + ((others.map PartialRow.source).length + 1) = n := by
      rw [List.length_map, ← hOrder]
      exact congrArg (before.length + ·) hLength
    rw [hRun]
    exact ((hExchanged.map PartialRow.source).rearranged hAll).trans hNext

end Run

section Blocks
variable [Field α] {M : Block α} {n : Nat}

/-- The rows of a block before the first column is eliminated. -/
def startRows (M : Block α) : List (PartialRow α) := M.toRows.zipIdx.map fun p => ⟨p.2, [], p.1⟩

theorem getElem?_startRows {i : Nat} (hi : i < M.rows) : (startRows M)[i]? =
    some ⟨i, [], (List.range M.columns).map fun c => M.entry i c⟩ := by
  simp [startRows, Block.toRows, hi]

theorem length_startRows : (startRows M).length = M.rows := by simp [startRows, Block.toRows]

theorem sources_startRows : (startRows M).map PartialRow.source = List.range M.rows := by
  apply List.ext_getElem (by simp [length_startRows])
  intro i hi hi'
  have hi : i < M.rows := by simpa using hi'
  have hEntry := (List.getElem?_eq_some_iff.mp (getElem?_startRows hi)).2
  rw [List.getElem_map, hEntry, List.getElem_range]

theorem exists_of_mem_startRows {p : PartialRow α} (h : p ∈ startRows M) : ∃ i < M.rows,
    p = ⟨i, [], (List.range M.columns).map fun c => M.entry i c⟩ := by
  obtain ⟨i, hi⟩ := List.mem_iff_getElem?.mp h
  have hLt := (List.getElem?_eq_some_iff.mp hi).1
  rw [length_startRows] at hLt
  exact ⟨i, hLt, Option.some.inj (hi.symm.trans (getElem?_startRows hLt))⟩

variable [LinearOrder α] [IsStrictOrderedRing α] [Magnitude α]

/-- A row that the elimination of a square block ends with. -/
structure Finished (M : Block α) (F : Elimination α) (i : Nat) : Prop where
  source : (F.rowAt i).source < M.rows
  lower : (F.rowAt i).lower.length = i
  upper : (F.rowAt i).upper.length = M.rows - i - 1
  rest : ∀ j < M.columns, M.entry (F.rowAt i).source j =
    ∑ t ∈ range i, (F.rowAt i).lower.getD t 0 * F.upperFactor t j + F.upperFactor i j

theorem finished_ofBlock (hAbs : ∀ x : α, abs x = |x|) (hSquare : M.rows = M.columns) :
    (ofBlock M).order = M.rows ∧ ∀ i < M.rows, Finished M (ofBlock M) i := by
  have hRest : ∀ q ∈ startRows M, q.rest.length = M.rows := by
    intro q hq
    obtain ⟨i, -, rfl⟩ := exists_of_mem_startRows hq
    simp [hSquare]
  obtain ⟨hOrder, hRows⟩ := run_composed hAbs length_startRows hRest
  refine ⟨hOrder, fun i hi => ?_⟩
  obtain ⟨p, hp, extra, h⟩ := hRows i ((ofBlock M).rowAt i) (getElem?_rows
    (Nat.lt_of_lt_of_eq hi hOrder.symm))
  obtain ⟨s, hs, rfl⟩ := exists_of_mem_startRows hp
  have hLower : ((ofBlock M).rowAt i).lower = extra := h.lower
  have hSource : ((ofBlock M).rowAt i).source = s := h.source
  refine ⟨hSource ▸ hs, hLower ▸ h.length, h.upper, fun j hj => ?_⟩
  rw [hLower, hSource]
  refine Eq.trans ?_ (h.rest j (hSquare ▸ hj))
  simp [List.getD_eq_getElem?_getD, hj]

/-- Elimination takes every square block, and its factors are exact. -/
theorem factors_ofBlock (hAbs : ∀ x : α, abs x = |x|) (hM : M.HasShape n n) :
    ∃ P : Equiv.Perm (Fin n), (ofBlock M).Factors M P := by
  obtain ⟨rfl, hColumns⟩ := hM
  obtain ⟨hOrder, hRows⟩ := finished_ofBlock hAbs hColumns.symm
  have hRest : ∀ q ∈ startRows M, q.rest.length = M.rows := by
    intro q hq
    obtain ⟨i, -, rfl⟩ := exists_of_mem_startRows hq
    simp [hColumns]
  obtain ⟨P, hSign, hEntry⟩ := rearranged_run hAbs [] length_startRows hRest (Nat.zero_add M.rows)
  have hSource : ∀ i : Fin M.rows, ((ofBlock M).rowAt i).source = P i := by
    intro i
    have hTaken := hEntry i
    rw [List.nil_append, List.nil_append, sources_startRows, List.getElem?_range (P i).isLt,
      sources, List.getElem?_map] at hTaken
    have hRow : (ofBlock M).rows[(i : Nat)]? = some ((ofBlock M).rowAt i) :=
      getElem?_rows (Nat.lt_of_lt_of_eq i.isLt hOrder.symm)
    rw [ofBlock, startRows] at *
    rw [hRow] at hTaken
    exact Option.some.inj hTaken
  refine ⟨P, hOrder, hSource, fun i hi => (hRows i hi).lower.le, fun i hi => (hRows i hi).upper.le,
    ?_, ?_⟩
  · ext i j
    rw [square_mul, lowerFactor, sum_lowerTable _ _ _ i.isLt, one_mul,
      ← (hRows i i.isLt).rest j (Nat.lt_of_lt_of_eq j.isLt hColumns.symm), hSource]
    rfl
  · change ((Equiv.Perm.sign P : ℤ) : α) = (-1) ^ (run M.rows (startRows M)).exchanges
    rw [hSign, Int.cast_pow, Int.cast_neg, Int.cast_one]

end Blocks

section Exact
variable [Field α] [LinearOrder α] [IsStrictOrderedRing α] [Magnitude α]

/-- Elimination is a factorization that can be relied on. -/
theorem exactLu (hAbs : ∀ x : α, abs x = |x|) : @Factor.ExactLu α _ method := by
  intro n M hM
  let _ : LuMethod α := method
  obtain ⟨P, h⟩ := factors_ofBlock hAbs hM
  refine ⟨P, square n (lowerFactor (ofBlock M)), square n (upperFactor (ofBlock M)), ?_⟩
  constructor
  case lower => exact isLowerTriangular_lowerTable _ _
  case unit => exact lowerFactor_self
  case upper => exact isUpperTriangular_upperTable _ _
  case product => exact h.product
  case determinant => exact h.determinant_eq
  case inverse =>
    change Factor.SubstitutedUnlessZero _ _ _
      (solve? (ofBlock M) (.identity (order (ofBlock M))))
    rw [h.order, ← matrix_identity]
    exact h.solved (Block.hasShape_ofFn _)
  case solve => exact fun k B hB => h.solved hB

end Exact
end Almanac.Library.Elimination
