import Mathlib.Algebra.BigOperators.Ring.Finset
import Mathlib.Tactic.Ring
import Almanac.Proofs.Mat.Kernel

/-! # The general product

Over a commutative ring every kernel of the general product gives `alpha * op(A) * op(B) + beta * C`,
whatever the factors and the order in which they are taken, and the kernel on blocks stays inside its
buffers.
-/
namespace Almanac.Mat
set_option autoImplicit false
open Linear

variable {α : Type} [CommRing α] [DecidableEq α]

namespace Scaling
variable (s : Scaling α)

theorem scaled_eq (x : α) : s.scaled x = s.alpha * x := by
  rw [scaled]
  split
  · rename_i h
    rw [beq_iff_eq.mp h, one_mul]
  · rfl

theorem finish_eq (sum prior : α) : s.finish sum prior = s.alpha * sum + s.beta * prior := by
  rw [finish, scaled_eq]
  split
  · rename_i h
    rw [beq_iff_eq.mp h, zero_mul, add_zero]
  · rfl

end Scaling

omit [DecidableEq α] in
theorem foldl_range_add (f : Nat → α) (k : Nat) (x : α) :
    (List.range k).foldl (fun x p => x + f p) x = x + ∑ p ∈ Finset.range k, f p := by
  induction k with
  | zero => simp
  | succ k ih => rw [List.range_succ, List.foldl_append, ih, Finset.sum_range_succ, ← add_assoc]; rfl

/-- The new entry of a product, from the factors of its sum and the old entry. -/
def revisedEntry (s : Scaling α) (k : Nat) (X Y : Nat → Nat → α) (i j : Nat) (x : α) : α :=
  s.alpha * ∑ p ∈ Finset.range k, X i p * Y p j + s.beta * x

section Entries
variable (s : Scaling α) (k : Nat) (X Y : Nat → Nat → α) (i j : Nat) (x : α)

theorem Scaling.prepared_eq : s.prepared x = s.beta * x := by
  rw [prepared]
  split
  · rename_i hZero
    rw [beq_iff_eq.mp hZero, zero_mul]
  · split
    · rename_i hOne
      rw [beq_iff_eq.mp hOne, one_mul]
    · exact mul_comm x s.beta

theorem addedEntry_eq : addedEntry s k X Y i j x = revisedEntry s k X Y i j x := by
  simp only [addedEntry, Scaling.prepared_eq, Scaling.scaled_eq, foldl_range_add, revisedEntry,
    Finset.mul_sum]
  rw [add_comm]
  congr 1
  exact Finset.sum_congr rfl fun p _ => by ring

theorem summedEntry_eq {start : α} (hStart : start = 0) :
    summedEntry s k X Y start i j x = revisedEntry s k X Y i j x := by
  rw [summedEntry, foldl_range_add, Scaling.finish_eq, hStart, zero_add]
  rfl

theorem blockEntry_eq (sideA sideB : Side) :
    blockEntry s k X Y sideA sideB i j x = revisedEntry s k X Y i j x := by
  cases sideA with
  | plain =>
    cases sideB with
    | plain => exact addedEntry_eq s k X Y i j x
    | transposed => exact summedEntry_eq s k X Y i j x rfl
  | transposed =>
    cases sideB with
    | plain => exact summedEntry_eq s k X Y i j x neg_zero
    | transposed => exact summedEntry_eq s k X Y i j x rfl

end Entries

/-- Inner dimensions that agree, and a result of the outer shape. -/
def Conforms (sideA sideB : Side) (A B C : Mat α) : Prop :=
  (sideA.shape A.shape).2 = (sideB.shape B.shape).1 ∧
    C.shape = ((sideA.shape A.shape).1, (sideB.shape B.shape).2)

/-- The new entry of `alpha * op(A) * op(B) + beta * C` from the old one. -/
def productEntry (s : Scaling α) (sideA sideB : Side) (A B : Mat α) : Nat → Nat → α → α :=
  revisedEntry s (sideA.shape A.shape).2 (sideA.entry A) (sideB.entry B)

section Product
variable (s : Scaling α) {sideA sideB : Side} {A B C : Mat α} {m n k : Nat}

theorem gemmEntry_eq (hShapeA : sideA.shape A.shape = (m, k)) (storage : Storage) (i j : Nat)
    (x : α) : gemmEntry s sideA sideB A B storage i j x =
      revisedEntry s k (sideA.entry A) (sideB.entry B) i j x := by
  rw [gemmEntry, hShapeA]
  split
  · rename_i hNothing
    obtain ⟨hAlpha, hBeta⟩ : s.alpha = 0 ∧ s.beta = 0 := by simpa using hNothing
    rw [revisedEntry, hAlpha, hBeta, zero_mul, zero_mul, add_zero]
  · split
    · exact blockEntry_eq s k _ _ i j x sideA sideB
    · exact summedEntry_eq s k _ _ i j x neg_zero

theorem revised_setBlock (hA : A.storage = .dense) (hB : B.storage = .dense)
    (hC : C.storage = .dense) (hShapeA : sideA.shape A.shape = (m, k))
    (hShapeB : sideB.shape B.shape = (k, n)) (hShapeC : C.shape = (m, n)) :
    ∃ data, blockProduct s ⟨m, n, k, A.rows, B.rows⟩ sideA sideB A.data B.data C.data = some data ∧
      Revised (revisedEntry s k (sideA.entry A) (sideB.entry B)) C (C.setBlock data) := by
  obtain ⟨data, hData, hRevised⟩ := setBlock_revises s hA hB hC hShapeA hShapeB hShapeC
  exact ⟨data, hData, hRevised.congr fun i j x _ _ => blockEntry_eq s k _ _ i j x sideA sideB⟩

theorem revised_elementProduct (hShapeC : C.shape = (m, n)) :
    Revised (revisedEntry s k (sideA.entry A) (sideB.entry B)) C
      (elementProduct s sideA sideB A B m n k C) :=
  (elementProduct_revises s hShapeC).congr fun i j x _ _ =>
    summedEntry_eq s k _ _ i j x neg_zero

theorem runOn_gemm (hShapeA : sideA.shape A.shape = (m, k)) (hShapeB : sideB.shape B.shape = (k, n))
    (hShapeC : C.shape = (m, n)) : ∃ D, Edit.runOn C (gemm s sideA sideB A B) = (.ok (), D) ∧
      Revised (revisedEntry s k (sideA.entry A) (sideB.entry B)) C D := by
  have hCheck : checkProduct sideA sideB A B C = .ok () :=
    checkProduct_eq_ok_iff.mpr (by simp only [hShapeA, hShapeB, hShapeC, and_self])
  obtain ⟨D, hRun, hRevised⟩ := runOn_gemm_of_ok (s := s) hCheck
  exact ⟨D, hRun, hRevised.congr fun i j x _ _ => gemmEntry_eq s hShapeA C.storage i j x⟩

theorem runOn_gemm_of_not_conforms (h : ¬Conforms sideA sideB A B C) :
    ∃ reason, Edit.runOn C (gemm s sideA sideB A B) = (.error (.refused reason), C) := by
  simp only [gemm, Edit.runOn_require, checkShape, Prod.mk.injEq, and_true, Edit.runOn_current,
    checkResultShape]
  by_cases hInner : (sideA.shape A.shape).2 = (sideB.shape B.shape).1
  · rw [if_pos hInner]
    have hResult : ((sideA.shape A.shape).1, (sideB.shape B.shape).2) ≠ C.shape :=
      fun hEq => h ⟨hInner, hEq.symm⟩
    rw [if_neg hResult]
    exact ⟨_, rfl⟩
  · rw [if_neg hInner]
    exact ⟨_, rfl⟩

end Product

/-- The product succeeds exactly on conforming operands and otherwise changes nothing. Every kernel
revises each entry to the new one, for all factors and sides, and the kernel on blocks answers, so
that it stays inside its buffers. -/
theorem gemm_computes_product (s : Scaling α) (sideA sideB : Side) (A B C : Mat α) :
    ((Edit.runOn C (gemm s sideA sideB A B)).1 = .ok () ↔ Conforms sideA sideB A B C) ∧
    (¬Conforms sideA sideB A B C →
      ∃ reason, Edit.runOn C (gemm s sideA sideB A B) = (.error (.refused reason), C)) ∧
    (Conforms sideA sideB A B C →
      let (m, k) := sideA.shape A.shape
      let n := (sideB.shape B.shape).2
      let new := productEntry s sideA sideB A B
      Revised new C (Edit.runOn C (gemm s sideA sideB A B)).2 ∧
      Revised new C (elementProduct s sideA sideB A B m n k C) ∧
      (A.storage = .dense → B.storage = .dense → C.storage = .dense →
        ∃ data, blockProduct s ⟨m, n, k, A.rows, B.rows⟩ sideA sideB A.data B.data C.data =
          some data ∧ Revised new C (C.setBlock data))) := by
  have hRun : Conforms sideA sideB A B C → ∃ D,
      Edit.runOn C (gemm s sideA sideB A B) = (.ok (), D) ∧
        Revised (productEntry s sideA sideB A B) C D := fun h =>
    runOn_gemm s rfl (Prod.ext h.1.symm rfl) h.2
  refine ⟨⟨fun hOk => ?_, fun h => ?_⟩, runOn_gemm_of_not_conforms s, fun h => ⟨?_, ?_, ?_⟩⟩
  · by_contra hNot
    obtain ⟨reason, hRefused⟩ := runOn_gemm_of_not_conforms s hNot
    rw [hRefused] at hOk
    cases hOk
  · obtain ⟨D, hEnd, -⟩ := hRun h
    rw [hEnd]
  · obtain ⟨D, hEnd, hRevised⟩ := hRun h
    rw [hEnd]
    exact hRevised
  · exact revised_elementProduct s h.2
  · exact fun hA hB hC => revised_setBlock s hA hB hC rfl (Prod.ext h.1.symm rfl) h.2

end Almanac.Mat
