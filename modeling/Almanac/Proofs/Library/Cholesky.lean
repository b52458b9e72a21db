import Almanac.Library.Cholesky
import Almanac.Proofs.Library.Triangular

/-! # Cholesky factors

The rows of the lower factor come one after the other from the lower triangle of a block. They are
exact where roots are, whatever the library keeps above the diagonal.
-/
namespace Almanac.Library.Cholesky
set_option autoImplicit false
open Finset (range)

variable {α : Type} [Field α] {n k : Nat}

section Tables
variable (G : Cholesky α)

def rowAt (i : Nat) : FactorRow α := G.rows.getD i ⟨[], 0⟩

def lowerFactor : Nat → Nat → α :=
  lowerTable (fun i j => (G.rowAt i).before.getD j 0) fun i => (G.rowAt i).diagonal

end Tables

/-- The factor is that of a square block, read in the lower triangle: `M = L * Lᵀ`. -/
structure Factors (G : Cholesky α) (M : Block α) (n : Nat) : Prop where
  order : G.order = n
  before : ∀ i < n, (G.rowAt i).before.length = i
  diagonal : ∀ i < n, (G.rowAt i).diagonal ≠ 0
  product : ∀ i j : Fin n, j ≤ i →
    (square n G.lowerFactor * (square n G.lowerFactor).transpose) i j = M.matrix n n i j

section Queries
variable {G : Cholesky α} {M B : Block α}

theorem getElem?_rows {i : Nat} (hi : i < G.order) : G.rows[i]? = some (G.rowAt i) :=
  getElem?_eq_getD hi

theorem lowerFactor_self (i : Fin n) : square n G.lowerFactor i i = (G.rowAt i).diagonal :=
  lowerTable_self (fun i j => (G.rowAt i).before.getD j 0) fun i => (G.rowAt i).diagonal

/-- The entries of the factor as a block, with anything above the diagonal. -/
theorem Factors.entry_lower (h : G.Factors M n) (above : Nat → Nat → α) (i j : Fin n) :
    (G.lower above).matrix n n i j = if j ≤ i then square n G.lowerFactor i j else above i j := by
  have hi : (i : Nat) < G.order := Nat.lt_of_lt_of_eq i.isLt h.order.symm
  have hRow : ((G.rows.map fun row => (row.before ++ [row.diagonal]).toArray).toArray.getD i #[]) =
      ((G.rowAt i).before ++ [(G.rowAt i).diagonal]).toArray := by
    rw [Array.getD_eq_getD_getElem?, List.getElem?_toArray, List.getElem?_map, getElem?_rows hi]
    rfl
  have hLength := h.before i i.isLt
  refine (Block.entry_ofFn _ hi (Nat.lt_of_lt_of_eq j.isLt h.order.symm)).trans ?_
  rw [hRow]
  refine if_ctx_congr Iff.rfl (fun hji => ?_) fun _ => rfl
  have hji : (j : Nat) ≤ i := hji
  rw [Array.getD_eq_getD_getElem?, List.getElem?_toArray, ← List.getD_eq_getElem?_getD]
  rcases hji.lt_or_eq with hji | hji
  · rw [List.getD_append _ _ _ _ (hLength.symm ▸ hji)]
    exact (if_pos hji).symm
  · rw [List.getD_append_right _ _ _ _ (by omega), hLength, hji, Nat.sub_self, Fin.ext hji,
      lowerFactor_self]
    rfl

theorem getD_below {i t : Nat} (ht : i + 1 + t < G.order) :
    (G.below i).getD t 0 = (G.rowAt (i + 1 + t)).before.getD i 0 := by
  rw [below, List.getD_eq_getElem?_getD, List.getElem?_map, List.getElem?_drop, getElem?_rows ht]
  rfl

/-- The transpose of the lower factor, as the rows of an upper one. -/
theorem transpose_lowerFactor (hOrder : G.order = n) :
    (square n G.lowerFactor).transpose =
      square n (upperTable (fun i => (G.rowAt i).diagonal) fun i t => (G.below i).getD t 0) := by
  ext i j
  simp only [Matrix.transpose_apply, square, Matrix.of_apply, lowerFactor, lowerTable, upperTable]
  rcases Nat.lt_trichotomy i j with hij | hij | hij
  · have hPlace : (i : Nat) + 1 + (j - i - 1) = j := by omega
    rw [if_pos hij, if_neg (by omega), if_neg (by omega), getD_below (by omega), hPlace]
  · rw [if_neg (by omega), if_pos hij, if_neg (by omega), if_pos hij.symm, hij]
  · rw [if_neg (by omega), if_neg (by omega), if_pos hij]

/-- Substitution satisfies `L * (Lᵀ * x) = b`. -/
theorem Factors.substitutes (h : G.Factors M n) :
    Substitutes (square n G.lowerFactor) (square n G.lowerFactor).transpose 1 G.substitute := by
  intro b hb
  let low := List.zipWith (fun (row : FactorRow α) x => (row.before, row.diagonal, x)) G.rows b
  let up := List.zipWith (fun (row : FactorRow α × Nat) y =>
    (row.1.diagonal, G.below row.2, y)) G.rows.zipIdx (solveLower low)
  have hOrder : G.rows.length = n := h.order
  have hLow : Listed n low fun i =>
      ((G.rowAt i).before, (G.rowAt i).diagonal, b.getD i 0) := by
    refine ⟨by rw [List.length_zipWith, hOrder, hb, Nat.min_self], fun i hi => ?_⟩
    have hEntry : b[i]? = some (b.getD i 0) := getElem?_eq_getD (hb ▸ hi)
    rw [List.getElem?_zipWith, getElem?_rows (h.order ▸ hi), hEntry]
  have hSolved : (solveLower low).length = n := (length_grow _ low).trans hLow.1
  have hUp : Listed n up fun i =>
      ((G.rowAt i).diagonal, G.below i, (solveLower low).getD i 0) := by
    refine ⟨?_, fun i hi => ?_⟩
    · rw [List.length_zipWith, List.length_zipIdx, hSolved, hOrder, Nat.min_self]
    · have hEntry : (solveLower low)[i]? = some ((solveLower low).getD i 0) :=
        getElem?_eq_getD (hSolved ▸ hi)
      rw [List.getElem?_zipWith, List.getElem?_zipIdx, getElem?_rows (h.order ▸ hi), hEntry,
        Nat.zero_add]
      rfl
  have hBelow : ∀ i < n, (G.below i).length ≤ n - i - 1 := by
    intro i _
    rw [below, List.length_map, List.length_drop, hOrder]
    omega
  have hLower := mulVec_solveLower hLow (fun i hi => (h.before i hi).le) h.diagonal
  have hUpper := mulVec_solveUpper hUp hBelow h.diagonal
  rw [transpose_lowerFactor h.order]
  exact (congrArg _ hUpper).trans hLower

/-- What is solved for a block comes from substitution. -/
theorem Factors.solved (h : G.Factors M n) (hB : B.HasShape n k) :
    Factor.Substituted (square n G.lowerFactor) (square n G.lowerFactor).transpose
      (B.matrix n k) (B.mapColumns G.substitute) :=
  h.substitutes.mapColumns hB

end Queries

section Extension
variable {above : List (FactorRow α)} {rows : List (List α)} {row : List α}

/-- The rows of a factor so far: the entries of the lower triangle are products of two of them. -/
structure Done (above : List (FactorRow α)) (rows : List (List α)) : Prop where
  length : above.length = rows.length
  before : ∀ (i : Nat) r, above[i]? = some r → r.before.length = i
  diagonal : ∀ r ∈ above, r.diagonal ≠ 0
  lower : ∀ (i j : Nat) r s, above[i]? = some r → above[j]? = some s → j < i →
    ∑ t ∈ range j, r.before.getD t 0 * s.before.getD t 0 + r.before.getD j 0 * s.diagonal =
      (rows.getD i []).getD j 0
  corner : ∀ (i : Nat) r, above[i]? = some r →
    ∑ t ∈ range i, r.before.getD t 0 * r.before.getD t 0 + r.diagonal * r.diagonal =
      (rows.getD i []).getD i 0

theorem getElem?_concat {β : Type} {xs : List β} {x y : β} {i : Nat}
    (h : (xs ++ [x])[i]? = some y) : xs[i]? = some y ∨ i = xs.length ∧ x = y := by
  rcases Nat.lt_or_ge i xs.length with hi | hi
  · exact .inl (List.getElem?_append_left hi ▸ h)
  · rw [List.getElem?_append_right hi] at h
    obtain ⟨hLast, hEntry⟩ := List.getElem?_eq_some_iff.mp h
    have hZero : i - xs.length = 0 := by simpa using hLast
    exact .inr ⟨by omega, by simpa using hEntry⟩

/-- A row below those that are done, with the entries of the triangle as its products. -/
theorem Done.concat {r : FactorRow α} (h : Done above rows)
    (hLength : r.before.length = above.length) (hDiagonal : r.diagonal ≠ 0)
    (hLower : ∀ (j : Nat) s, above[j]? = some s → ∑ t ∈ range j, r.before.getD t 0 *
      s.before.getD t 0 + r.before.getD j 0 * s.diagonal = row.getD j 0)
    (hCorner : ∑ t ∈ range above.length, r.before.getD t 0 * r.before.getD t 0 +
      r.diagonal * r.diagonal = row.getD above.length 0) :
    Done (above ++ [r]) (rows ++ [row]) := by
  have hBefore : ∀ {i : Nat}, i < above.length → (rows ++ [row]).getD i [] = rows.getD i [] :=
    fun hi => List.getD_append _ _ _ _ (h.length ▸ hi)
  have hLast : (rows ++ [row]).getD above.length [] = row := by
    rw [h.length, List.getD_append_right _ _ _ _ (Nat.le_refl _), Nat.sub_self]
    rfl
  constructor
  case length => rw [List.length_append, h.length, List.length_append]; rfl
  case before =>
    intro i q hq
    rcases getElem?_concat hq with hAbove | ⟨rfl, rfl⟩
    · exact h.before i q hAbove
    · exact hLength
  case diagonal =>
    intro q hq
    rcases List.mem_append.mp hq with hAbove | hNew
    · exact h.diagonal q hAbove
    · exact List.mem_singleton.mp hNew ▸ hDiagonal
  case lower =>
    intro i j q s hq hs hji
    rcases getElem?_concat hq with hAbove | ⟨rfl, rfl⟩
    · have hi := (List.getElem?_eq_some_iff.mp hAbove).1
      rw [List.getElem?_append_left (hji.trans hi)] at hs
      rw [hBefore hi]
      exact h.lower i j q s hAbove hs hji
    · rw [List.getElem?_append_left hji] at hs
      rw [hLast]
      exact hLower j s hs
  case corner =>
    intro i q hq
    rcases getElem?_concat hq with hAbove | ⟨rfl, rfl⟩
    · rw [hBefore (List.getElem?_eq_some_iff.mp hAbove).1]
      exact h.corner i q hAbove
    · rw [hLast]
      exact hCorner

theorem length_entriesBefore (hRow : above.length ≤ row.length) :
    (entriesBefore above row).length = above.length := by
  have hGrown := length_grow
    (fun (p : FactorRow α × α) solved => reduceBy p.2 solved p.1.before / p.1.diagonal)
    (List.zip above row)
  exact hGrown.trans (by rw [List.length_zip, Nat.min_eq_left hRow])

theorem entriesBefore_solves (hRow : above.length ≤ row.length) {j : Nat} {s : FactorRow α}
    (hAbove : above[j]? = some s) (hDiagonal : s.diagonal ≠ 0) :
    ∑ t ∈ range j, (entriesBefore above row).getD t 0 * s.before.getD t 0 +
      (entriesBefore above row).getD j 0 * s.diagonal = row.getD j 0 := by
  have hj := (List.getElem?_eq_some_iff.mp hAbove).1
  have hPair : (List.zip above row)[j]? = some (s, row.getD j 0) := by
    rw [List.getElem?_zip_eq_some]
    exact ⟨hAbove, getElem?_eq_getD (Nat.lt_of_lt_of_le hj hRow)⟩
  have hEntry := getElem?_grow
    (fun (p : FactorRow α × α) solved => reduceBy p.2 solved p.1.before / p.1.diagonal) hPair
  change (entriesBefore above row)[j]? = some (reduceBy (row.getD j 0)
    ((entriesBefore above row).take j) s.before / s.diagonal) at hEntry
  rw [reduceBy_eq _ (List.length_take_le ..)] at hEntry
  rw [getD_of_getElem? hEntry, div_mul_cancel₀ _ hDiagonal]
  simp only [mul_comm _ (s.before.getD _ 0), sum_take]
  ring

variable [LinearOrder α] [Elementary α]

/-- The next row of the factor. -/
theorem Done.extended (hRoot : ∀ x : α, 0 < x → sqrt x * sqrt x = x) (h : Done above rows)
    (hRow : above.length ≤ row.length) {reduced : α}
    (hReduced : reduced = reduceBy (row.getD above.length 0) (entriesBefore above row)
      (entriesBefore above row)) (hPositive : 0 < reduced) :
    Done (above ++ [⟨entriesBefore above row, sqrt reduced⟩]) (rows ++ [row]) := by
  have hBefore := length_entriesBefore hRow
  have hRooted := hRoot reduced hPositive
  rw [reduceBy_eq _ (Nat.le_of_eq hBefore)] at hReduced
  refine h.concat hBefore (fun hZero => ?_)
    (fun j s hs => entriesBefore_solves hRow hs (h.diagonal s (List.mem_of_getElem? hs))) ?_
  · have hZero : sqrt reduced = 0 := hZero
    rw [hZero, zero_mul] at hRooted
    exact hPositive.ne hRooted
  · rw [hRooted, hReduced]
    ring

/-- The rows of a triangle are factored one after the other. -/
theorem done_of_extend (hRoot : ∀ x : α, 0 < x → sqrt x * sqrt x = x) {rest : List (List α)}
    {result : List (FactorRow α)} (h : Done above rows)
    (hRest : ∀ row ∈ rest, rows.length + rest.length ≤ row.length)
    (hExtend : extend above rest = some result) : Done result (rows ++ rest) := by
  induction rest generalizing above rows with
  | nil =>
    obtain rfl := Option.some.inj hExtend
    rwa [List.append_nil]
  | cons row rest ih =>
    rw [extend] at hExtend
    split at hExtend
    · rename_i hPositive
      have hWide := hRest row List.mem_cons_self
      have hRow : above.length ≤ row.length := by
        rw [h.length]
        exact (Nat.le_add_right ..).trans hWide
      have hNext := ih (h.extended hRoot hRow rfl hPositive) (fun other hOther => ?_) hExtend
      · rwa [List.append_assoc] at hNext
      · have hOther := hRest other (List.mem_cons_of_mem _ hOther)
        rw [List.length_cons] at hOther
        rw [List.length_append, List.length_singleton]
        omega
    · cases hExtend

end Extension

section Blocks
variable {G : Cholesky α} {M : Block α}

theorem getD_toRows {i j : Nat} (hi : i < M.rows) (hj : j < M.columns) :
    (M.toRows.getD i []).getD j 0 = M.entry i j := by
  simp [Block.toRows, List.getD_eq_getElem?_getD, hi, hj]

/-- Rows that are done for all rows of a block are its factor. -/
theorem factors_of_done (hM : M.HasShape n n) (h : Done G.rows M.toRows) : G.Factors M n := by
  obtain ⟨hRows, hColumns⟩ := hM
  have hOrder : G.order = n := h.length.trans (by simp [Block.toRows, hRows])
  have hAt : ∀ {i : Nat}, i < n → G.rows[i]? = some (G.rowAt i) :=
    fun hi => getElem?_rows (hOrder ▸ hi)
  refine ⟨hOrder, fun i hi => h.before i _ (hAt hi),
    fun i hi => h.diagonal _ (List.mem_of_getElem? (hAt hi)), fun i j hji => ?_⟩
  have hProduct : (square n G.lowerFactor * (square n G.lowerFactor).transpose) i j =
      ∑ p ∈ range n, G.lowerFactor j p * G.lowerFactor i p := by
    rw [Matrix.mul_apply,
      ← Fin.sum_univ_eq_sum_range fun p => G.lowerFactor j p * G.lowerFactor i p]
    exact Finset.sum_congr rfl fun p _ => mul_comm _ _
  have hEntry : (M.toRows.getD i []).getD j 0 = M.matrix n n i j :=
    getD_toRows (Nat.lt_of_lt_of_eq i.isLt hRows.symm) (Nat.lt_of_lt_of_eq j.isLt hColumns.symm)
  rw [hProduct, lowerFactor, sum_lowerTable _ _ _ j.isLt, ← hEntry]
  rcases hji.lt_or_eq with hji | rfl
  · have hji : (j : Nat) < i := hji
    rw [← h.lower i j _ _ (hAt i.isLt) (hAt j.isLt) hji, lowerTable, if_pos hji,
      mul_comm _ (G.rowAt j).diagonal]
    congr 1
    refine Finset.sum_congr rfl fun t ht => ?_
    rw [lowerTable, if_pos ((Finset.mem_range.mp ht).trans hji), mul_comm]
  · rw [← h.corner j _ (hAt j.isLt), lowerTable_self]
    congr 1
    refine Finset.sum_congr rfl fun t ht => ?_
    rw [lowerTable, if_pos (Finset.mem_range.mp ht)]

variable [LinearOrder α] [Elementary α]

/-- The factor of a block that is accepted is exact. -/
theorem factors_ofBlock? (hRoot : ∀ x : α, 0 < x → sqrt x * sqrt x = x) (hM : M.HasShape n n)
    (h : ofBlock? M = some G) : G.Factors M n := by
  obtain ⟨rows, hExtend, hG⟩ := Option.bind_eq_some_iff.mp h
  obtain rfl := Option.some.inj hG
  have hNone : Done ([] : List (FactorRow α)) [] := ⟨rfl, nofun, nofun, nofun, nofun⟩
  refine factors_of_done hM (done_of_extend hRoot hNone (fun row hRow => ?_) hExtend)
  obtain ⟨r, -, rfl⟩ := List.mem_map.mp hRow
  simp [hM.1, hM.2]

/-- Factoring row by row can be relied on where roots are exact. -/
theorem exactCholesky (hRoot : ∀ x : α, 0 < x → sqrt x * sqrt x = x) :
    @Factor.ExactCholesky α _ method := by
  intro n M G hM hAccepted
  let _ : CholeskyMethod α := method
  have h := factors_ofBlock? hRoot hM hAccepted
  have hShape : ∀ above, (lower G above).HasShape n n := fun above => by
    rw [← h.order]
    exact Block.hasShape_ofFn _
  refine ⟨square n (lowerFactor G), ?_⟩
  constructor
  case triangular => exact isLowerTriangular_lowerTable _ _
  case product => exact h.product
  case lower_shape => exact hShape _
  case lower =>
    ext i j
    refine (h.entry_lower _ i j).trans ?_
    split
    · rfl
    · rename_i hij
      exact (isLowerTriangular_lowerTable _ _ (not_le.mp hij)).symm
  case dirty_shape => exact hShape _
  case dirty => exact fun i j hji => (h.entry_lower _ i j).trans (if_pos hji)
  case inverse =>
    change Factor.Substituted _ _ _ ((Block.identity (order G)).mapColumns (substitute G))
    rw [h.order, ← matrix_identity]
    exact h.solved (Block.hasShape_ofFn _)
  case solve => exact fun k B hB => h.solved hB

end Blocks
end Almanac.Library.Cholesky
