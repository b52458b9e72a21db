import Mathlib.Data.Matrix.Mul
import Almanac.Factor.Block
import Almanac.Proofs.Mat.Conversion

/-! # Copies into a library and back

A block has the elements of the matrix or the vector that it was copied from, however these are
stored, and what comes back from a library has the elements of its block.
-/
namespace Almanac
set_option autoImplicit false
open Linear

variable {α : Type} {m n : Nat}

namespace Block

def HasShape (M : Block α) (m n : Nat) : Prop := M.rows = m ∧ M.columns = n

variable [Zero α]

/-- The elements of a block with `m` rows and `n` columns. -/
def matrix (M : Block α) (m n : Nat) : Matrix (Fin m) (Fin n) α := .of fun i j => M.entry i j

/-- A block is determined by its shape and its elements. -/
theorem eq_of_matrix {M M' : Block α} (h : M.HasShape m n) (h' : M'.HasShape m n)
    (hSame : M.matrix m n = M'.matrix m n) : M = M' := by
  obtain ⟨rows, columns, data, hSize⟩ := M
  obtain ⟨rows', columns', data', hSize'⟩ := M'
  obtain ⟨rfl, rfl⟩ := h
  obtain ⟨hRows, hColumns⟩ := h'
  simp only at hRows hColumns hSize hSize' hSame
  subst hRows hColumns
  congr
  apply Array.ext (hSize.trans hSize'.symm)
  intro i hi hi'
  have hRows : 0 < rows' := Nat.pos_of_mul_pos_right (Nat.zero_lt_of_lt (hSize ▸ hi))
  have hPlace : i / rows' * rows' + i % rows' = i := Nat.div_add_mod' i rows'
  have hColumn : i / rows' < columns' := Nat.div_lt_of_lt_mul (hSize ▸ hi)
  have hEntry := congrFun₂ hSame ⟨i % rows', Nat.mod_lt i hRows⟩ ⟨i / rows', hColumn⟩
  simpa [matrix, entry, hPlace, Array.getD_eq_getD_getElem?, hi, hi'] using hEntry

omit [Zero α] in
theorem hasShape_ofFn (f : Nat → Nat → α) : (ofFn m n f).HasShape m n := ⟨rfl, rfl⟩

theorem entry_ofFn (f : Nat → Nat → α) {r c : Nat} (hr : r < m) (hc : c < n) :
    (ofFn m n f).entry r c = f r c := by
  change (Mat.tabulate m n (Nat.zero_lt_of_lt hr) (Nat.zero_lt_of_lt hc) f).entry r c = f r c
  exact Mat.entry_tabulate hr hc

/-- A matrix or a vector that comes out of a library is dense. -/
theorem toMat_answers {M : Block α} (h : M.HasShape m n) (hm : 0 < m) (hn : 0 < n) :
    ∃ A, M.toMat = .ok A ∧ A.storage = .dense ∧ A.shape = (m, n) ∧
      ∀ r c, A.entry r c = M.entry r c := by
  obtain ⟨rfl, rfl⟩ := h
  exact ⟨_, dif_pos ⟨hm, hn⟩, rfl, rfl, fun _ _ => rfl⟩

theorem toVec_answers {M : Block α} (h : M.HasShape m 1) (hm : 0 < m) :
    ∃ v, M.toVec = .ok v ∧ v.storage = .dense ∧ v.count = m ∧ ∀ i, v.entry i = M.entry i 0 := by
  obtain ⟨rfl, hColumns⟩ := h
  have hSize : M.data.size = M.rows := by rw [M.size_eq, hColumns, Nat.mul_one]
  refine ⟨_, dif_pos (hSize ▸ hm), rfl, hSize, fun i => ?_⟩
  rw [entry, Nat.zero_mul, Nat.zero_add]
  rfl

end Block

section Copies
variable [Zero α] {r c i : Nat}

theorem Mat.hasShape_toBlock (A : Mat α) : A.toBlock.HasShape A.rows A.columns := by
  rw [toBlock]
  split <;> exact ⟨rfl, rfl⟩

theorem Mat.entry_toBlock {A : Mat α} (hr : r < A.rows) (hc : c < A.columns) :
    A.toBlock.entry r c = A.entry r c := by
  rw [toBlock]
  split
  · rename_i hDense
    rw [entry, offset_of_dense hDense]
    rfl
  · exact Block.entry_ofFn A.entry hr hc

theorem Mat.matrix_toBlock {A : Mat α} (hm : A.rows = m) (hn : A.columns = n) :
    A.toBlock.matrix m n = .of fun i j => A.entry i j := by
  subst hm hn
  ext i j
  exact entry_toBlock i.isLt j.isLt

/-- A matrix that goes into a library and comes back is a dense copy. -/
theorem Mat.toMat_toBlock (A : Mat α) : A.toBlock.toMat = .ok A.toDense := by
  obtain ⟨B, hBack, hDense, hShape, hEntry⟩ :=
    Block.toMat_answers A.hasShape_toBlock A.rows_pos A.columns_pos
  rw [hBack, toDense_eq_tabulate]
  refine congrArg Except.ok (eq_tabulate hDense hShape fun r c hr hc => ?_)
  rw [hEntry, entry_toBlock hr hc]

theorem Vec.hasShape_toBlock (v : Vec α) : v.toBlock.HasShape v.count 1 := by
  rw [toBlock]
  split <;> exact ⟨rfl, rfl⟩

theorem Vec.entry_toBlock {v : Vec α} (hi : i < v.count) : v.toBlock.entry i 0 = v.entry i := by
  rw [toBlock]
  split
  · rw [Block.entry, Nat.zero_mul, Nat.zero_add]
    rfl
  · exact Block.entry_ofFn (fun i _ => v.entry i) hi Nat.one_pos

theorem Vec.matrix_toBlock {v : Vec α} (hm : v.count = m) :
    v.toBlock.matrix m 1 = .of fun i _ => v.entry i := by
  subst hm
  ext i j
  rw [Block.matrix, Matrix.of_apply, Fin.fin_one_eq_zero j]
  exact entry_toBlock i.isLt

theorem Vec.toVec_toBlock (v : Vec α) : v.toBlock.toVec = .ok v.toDense := by
  obtain ⟨w, hBack, hDense, hCount, hEntry⟩ := Block.toVec_answers v.hasShape_toBlock v.nonempty
  have hSame : w.Alike v := alike_of_entry hCount fun i hi => by
    rw [hEntry, entry_toBlock (hCount ▸ hi)]
  have hCopy : v.toDense.storage = .dense := by
    rw [toDense_eq (.refl v)]
    rfl
  rw [hBack, (hSame.trans (alike_toDense v).symm).eq (hDense.trans hCopy.symm)]

end Copies
end Almanac
