import Mathlib.Algebra.BigOperators.Intervals
import Mathlib.Data.List.Fold
import Mathlib.Data.List.GetD
import Mathlib.Tactic.LinearCombination
import Almanac.Library.Triangular
import Almanac.Proofs.Factor.Exact

/-! # Triangles and substitution

A triangle is a table whose entries on one side of the diagonal are zero. Substitution through the
rows of a triangle gives a list that satisfies its equations, and a block is substituted column by
column.
-/
namespace Almanac.Library
set_option autoImplicit false
open Finset (range)

variable {α : Type}

section Growing
variable {ρ β : Type} (f : ρ → List β → β)

/-- A list that grows at its end, each element from those before it. -/
def grow (rows : List ρ) : List β := rows.foldl (fun solved row => solved ++ [f row solved]) []

/-- A list that grows at its front, each element from those behind it. -/
def growBack (rows : List ρ) : List β := rows.foldr (fun row solved => f row solved :: solved) []

theorem grow_concat (rows : List ρ) (row : ρ) :
    grow f (rows ++ [row]) = grow f rows ++ [f row (grow f rows)] := List.foldl_concat ..

theorem length_grow (rows : List ρ) : (grow f rows).length = rows.length := by
  induction rows using List.reverseRecOn with
  | nil => rfl
  | append_singleton rows row ih =>
    rw [grow_concat, List.length_append, ih, List.length_append]
    rfl

theorem getElem?_grow {rows : List ρ} {i : Nat} {row : ρ} (h : rows[i]? = some row) :
    (grow f rows)[i]? = some (f row ((grow f rows).take i)) := by
  induction rows using List.reverseRecOn with
  | nil => cases h
  | append_singleton rows last ih =>
    have hLength := length_grow f rows
    rw [grow_concat]
    rcases Nat.lt_or_ge i rows.length with hi | hi
    · rw [List.getElem?_append_left hi] at h
      rw [List.getElem?_append_left (by omega), List.take_append_of_le_length (by omega), ih h]
    · rw [List.getElem?_append_right hi] at h
      obtain ⟨hZero, hLast⟩ := List.getElem?_eq_some_iff.mp h
      obtain rfl : i = rows.length := by simp at hZero; omega
      rw [List.getElem?_append_right (by omega), List.take_left' hLength, hLength, Nat.sub_self]
      simp only [Nat.sub_self, List.getElem_cons_zero] at hLast
      rw [hLast]
      rfl

theorem getElem?_growBack {rows : List ρ} {i : Nat} {row : ρ} (h : rows[i]? = some row) :
    (growBack f rows)[i]? = some (f row ((growBack f rows).drop (i + 1))) := by
  induction rows generalizing i with
  | nil => cases h
  | cons first rows ih =>
    cases i with
    | zero =>
      obtain rfl := Option.some.inj h
      rfl
    | succ i => exact ih h

end Growing

section Reduction
variable [CommRing α]

/-- The products of two lists of coefficients, in order of their positions. -/
theorem reduceBy_eq (x : α) {cs vs : List α} {n : Nat} (h : cs.length ≤ n) :
    reduceBy x cs vs = x - ∑ t ∈ range n, cs.getD t 0 * vs.getD t 0 := by
  induction cs generalizing x vs n with
  | nil => simp [reduceBy]
  | cons c cs ih =>
    obtain ⟨m, rfl⟩ : ∃ m, n = m + 1 := ⟨n - 1, by simp at h; omega⟩
    cases vs with
    | nil => simp [reduceBy]
    | cons v vs =>
      have hStep : reduceBy x (c :: cs) (v :: vs) = reduceBy (x + -v * c) cs vs := rfl
      rw [hStep, ih _ (Nat.le_of_succ_le_succ h), Finset.sum_range_succ']
      simp only [List.getD_cons_succ, List.getD_cons_zero]
      ring

/-- The products may be subtracted in either order. -/
theorem reduceBackBy_eq_reduceBy (x : α) (cs vs : List α) :
    reduceBackBy x cs vs = reduceBy x cs vs := by
  let subtract (x : α) (p : α × α) : α := x + -p.2 * p.1
  have hSwap : RightCommutative subtract := ⟨fun x p q => by simp only [subtract]; ring⟩
  exact List.foldr_flip_eq_foldl (v := subtract)

end Reduction

section Tables
variable [CommRing α] {n i : Nat}

/-- A lower triangle: the entries before the diagonal, and those on it. -/
def lowerTable (before : Nat → Nat → α) (diagonal : Nat → α) (i j : Nat) : α :=
  if j < i then before i j else if j = i then diagonal i else 0

/-- An upper triangle: the entries on the diagonal, and those behind it from there on. -/
def upperTable (diagonal : Nat → α) (behind : Nat → Nat → α) (i j : Nat) : α :=
  if j < i then 0 else if j = i then diagonal i else behind i (j - i - 1)

variable (before behind : Nat → Nat → α) (diagonal x : Nat → α)

theorem lowerTable_self : lowerTable before diagonal i i = diagonal i := by
  rw [lowerTable, if_neg (Nat.lt_irrefl i), if_pos rfl]

theorem upperTable_self : upperTable diagonal behind i i = diagonal i := by
  rw [upperTable, if_neg (Nat.lt_irrefl i), if_pos rfl]

theorem sum_lowerTable (hi : i < n) : ∑ j ∈ range n, lowerTable before diagonal i j * x j =
    ∑ j ∈ range i, before i j * x j + diagonal i * x i := by
  obtain ⟨m, rfl⟩ := Nat.exists_eq_add_of_lt hi
  rw [show i + m + 1 = (i + 1) + m by omega, Finset.sum_range_add, Finset.sum_range_succ]
  have hBefore : ∑ j ∈ range i, lowerTable before diagonal i j * x j =
      ∑ j ∈ range i, before i j * x j :=
    Finset.sum_congr rfl fun j hj => by rw [lowerTable, if_pos (Finset.mem_range.mp hj)]
  have hBehind : ∑ j ∈ range m, lowerTable before diagonal i (i + 1 + j) * x (i + 1 + j) = 0 :=
    Finset.sum_eq_zero fun j _ => by
      rw [lowerTable, if_neg (by omega), if_neg (by omega), zero_mul]
  rw [hBefore, hBehind, add_zero, lowerTable_self]

theorem sum_upperTable (hi : i < n) : ∑ j ∈ range n, upperTable diagonal behind i j * x j =
    diagonal i * x i + ∑ t ∈ range (n - i - 1), behind i t * x (i + 1 + t) := by
  obtain ⟨m, rfl⟩ := Nat.exists_eq_add_of_lt hi
  rw [show i + m + 1 - i - 1 = m by omega, show i + m + 1 = (i + 1) + m by omega,
    Finset.sum_range_add, Finset.sum_range_succ]
  have hBefore : ∑ j ∈ range i, upperTable diagonal behind i j * x j = 0 :=
    Finset.sum_eq_zero fun j hj => by rw [upperTable, if_pos (Finset.mem_range.mp hj), zero_mul]
  have hBehind : ∑ t ∈ range m, upperTable diagonal behind i (i + 1 + t) * x (i + 1 + t) =
      ∑ t ∈ range m, behind i t * x (i + 1 + t) :=
    Finset.sum_congr rfl fun t _ => by
      rw [upperTable, if_neg (by omega), if_neg (by omega), show i + 1 + t - i - 1 = t by omega]
  rw [hBefore, hBehind, zero_add, upperTable_self]

variable (n)

/-- The leading square of a table. -/
def square (table : Nat → Nat → α) : Matrix (Fin n) (Fin n) α := .of fun i j => table i j

variable {n}

theorem square_mul (X Y : Nat → Nat → α) (i j : Fin n) :
    (square n X * square n Y) i j = ∑ p ∈ range n, X i p * Y p j := by
  rw [Matrix.mul_apply, ← Fin.sum_univ_eq_sum_range]
  rfl

theorem square_mulVec (X : Nat → Nat → α) (v : Nat → α) (i : Fin n) :
    (square n X).mulVec (fun j => v j) i = ∑ p ∈ range n, X i p * v p := by
  rw [Matrix.mulVec, dotProduct, ← Fin.sum_univ_eq_sum_range]
  rfl

theorem isLowerTriangular_lowerTable :
    (square n (lowerTable before diagonal)).IsLowerTriangular := by
  intro i j hij
  have hij : (i : Nat) < j := hij
  rw [square, Matrix.of_apply, lowerTable, if_neg (by omega), if_neg (by omega)]

theorem isUpperTriangular_upperTable :
    (square n (upperTable diagonal behind)).IsUpperTriangular := by
  intro i j hij
  have hij : (j : Nat) < i := hij
  rw [square, Matrix.of_apply, upperTable, if_pos hij]

end Tables

section Substitution

theorem getD_of_getElem? {xs : List α} {i : Nat} {x d : α} (h : xs[i]? = some x) :
    xs.getD i d = x := by
  rw [List.getD_eq_getElem?_getD, h, Option.getD_some]

theorem getElem?_eq_getD {xs : List α} {i : Nat} {d : α} (hi : i < xs.length) :
    xs[i]? = some (xs.getD i d) := by
  rw [List.getD_eq_getElem?_getD, List.getElem?_eq_getElem hi, Option.getD_some]

variable [Field α]

theorem sum_take (cs ys : List α) (i : Nat) : ∑ t ∈ range i, cs.getD t 0 * (ys.take i).getD t 0 =
    ∑ t ∈ range i, cs.getD t 0 * ys.getD t 0 := by
  refine Finset.sum_congr rfl fun t ht => ?_
  simp only [List.getD_eq_getElem?_getD, List.getElem?_take_of_lt (Finset.mem_range.mp ht)]

variable {n : Nat} {cs : Nat → List α} {d b : Nat → α}

/-- The rows of a system from first to last. -/
def Listed {β : Type} (n : Nat) (rows : List β) (row : Nat → β) : Prop :=
  rows.length = n ∧ ∀ i < n, rows[i]? = some (row i)

theorem mulVec_solveUnitLower {rows : List (List α × α)}
    (hRows : Listed n rows fun i => (cs i, b i)) (hLength : ∀ i < n, (cs i).length ≤ i) :
    (square n (lowerTable (fun i j => (cs i).getD j 0) fun _ => 1)).mulVec
      (fun j => (solveUnitLower rows).getD j 0) = fun i : Fin n => b i := by
  funext i
  have hEntry := getElem?_grow (fun row solved => reduceBy row.2 row.1 solved) (hRows.2 i i.isLt)
  change (solveUnitLower rows)[(i : Nat)]? =
    some (reduceBy (b i) (cs i) ((solveUnitLower rows).take i)) at hEntry
  rw [reduceBy_eq _ (hLength i i.isLt), sum_take] at hEntry
  rw [square_mulVec _ (fun j => (solveUnitLower rows).getD j 0), sum_lowerTable _ _ _ i.isLt,
    getD_of_getElem? hEntry]
  ring

theorem mulVec_solveLower {rows : List (List α × α × α)}
    (hRows : Listed n rows fun i => (cs i, d i, b i)) (hLength : ∀ i < n, (cs i).length ≤ i)
    (hDiagonal : ∀ i < n, d i ≠ 0) :
    (square n (lowerTable (fun i j => (cs i).getD j 0) d)).mulVec
      (fun j => (solveLower rows).getD j 0) = fun i : Fin n => b i := by
  funext i
  have hEntry :=
    getElem?_grow (fun row solved => reduceBy row.2.2 row.1 solved / row.2.1) (hRows.2 i i.isLt)
  change (solveLower rows)[(i : Nat)]? =
    some (reduceBy (b i) (cs i) ((solveLower rows).take i) / d i) at hEntry
  rw [reduceBy_eq _ (hLength i i.isLt), sum_take] at hEntry
  rw [square_mulVec _ (fun j => (solveLower rows).getD j 0), sum_lowerTable _ _ _ i.isLt,
    getD_of_getElem? hEntry, mul_div_cancel₀ _ (hDiagonal i i.isLt)]
  ring

theorem mulVec_solveUpper {rows : List (α × List α × α)}
    (hRows : Listed n rows fun i => (d i, cs i, b i))
    (hLength : ∀ i < n, (cs i).length ≤ n - i - 1) (hDiagonal : ∀ i < n, d i ≠ 0) :
    (square n (upperTable d fun i t => (cs i).getD t 0)).mulVec
      (fun j => (solveUpper rows).getD j 0) = fun i : Fin n => b i := by
  funext i
  have hEntry := getElem?_growBack
    (fun row solved => reduceBackBy row.2.2 row.2.1 solved / row.1) (hRows.2 i i.isLt)
  change (solveUpper rows)[(i : Nat)]? =
    some (reduceBackBy (b i) (cs i) ((solveUpper rows).drop (i + 1)) / d i) at hEntry
  rw [reduceBackBy_eq_reduceBy, reduceBy_eq _ (hLength i i.isLt)] at hEntry
  rw [square_mulVec _ (fun j => (solveUpper rows).getD j 0), sum_upperTable _ _ _ i.isLt,
    getD_of_getElem? hEntry, mul_div_cancel₀ _ (hDiagonal i i.isLt)]
  simp only [List.getD_eq_getElem?_getD, List.getElem?_drop]
  ring

end Substitution

section Columns
variable [Field α] {n k : Nat} {L U : Matrix (Fin n) (Fin n) α} {P : Equiv.Perm (Fin n)}
  {s : List α → List α}

theorem length_column (M : Block α) (c : Nat) : (M.column c).length = M.rows := by
  simp [Block.column]

theorem getD_column {M : Block α} {r : Nat} (hr : r < M.rows) (c : Nat) :
    (M.column c).getD r 0 = M.entry r c := by
  simp [Block.column, hr]

theorem entry_mapColumns {M : Block α} (f : List α → List α) {r c : Nat} (hr : r < M.rows)
    (hc : c < M.columns) : (M.mapColumns f).entry r c = (f (M.column c)).getD r 0 := by
  refine (Block.entry_ofFn _ hr hc).trans ?_
  simp [hc, List.getD_eq_getElem?_getD, Array.getD_eq_getD_getElem?]

theorem matrix_identity (n : Nat) : (Block.identity n : Block α).matrix n n = 1 := by
  ext i j
  refine (Block.entry_ofFn _ i.isLt j.isLt).trans ?_
  rw [Matrix.one_apply]
  exact if_congr Fin.ext_iff.symm rfl rfl

/-- A way to substitute a list through two triangles, with its elements put in another order. -/
def Substitutes (L U : Matrix (Fin n) (Fin n) α) (P : Equiv.Perm (Fin n)) (s : List α → List α) :
    Prop :=
  ∀ b, b.length = n →
    L.mulVec (U.mulVec fun j => (s b).getD j 0) = fun i => b.getD (P i) 0

theorem Substitutes.mapColumns (h : Substitutes L U P s) {B : Block α} (hB : B.HasShape n k) :
    Factor.Substituted L U ((B.matrix n k).submatrix P id) (B.mapColumns s) := by
  obtain ⟨hRows, hColumns⟩ := hB
  refine ⟨⟨hRows, hColumns⟩, _, ?_, rfl⟩
  ext i c
  have hEntry : (fun j : Fin n => (B.mapColumns s).entry j c) =
      fun j : Fin n => (s (B.column c)).getD j 0 :=
    funext fun j => entry_mapColumns s (hRows ▸ j.isLt) (hColumns ▸ c.isLt)
  calc (L * (U * (B.mapColumns s).matrix n k)) i c
      = L.mulVec (U.mulVec fun j => (B.mapColumns s).entry j c) i := rfl
    _ = (B.column c).getD (P i) 0 := by
      rw [hEntry, h (B.column c) ((length_column B c).trans hRows)]
    _ = B.entry (P i) c := getD_column (hRows ▸ (P i).isLt) c

end Columns
end Almanac.Library
