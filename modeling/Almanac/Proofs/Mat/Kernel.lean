import Almanac.Proofs.Edit
import Almanac.Proofs.Mat.Placement

/-! # Kernels of the general product

What each kernel makes of an entry, in the order in which it computes and without laws of arithmetic.
The kernel on the blocks of two plain operands adds the products to the entry one by one; all others
sum them up first and take the old entry in last.
-/
namespace Almanac.Mat
set_option autoImplicit false
open Linear Edit

variable {α : Type}

/-- Where the row `r` and column `c` of a dense operand as it enters the product is kept. -/
def Side.place (side : Side) (rows r c : Nat) : Nat :=
  match side with
  | plain => c * rows + r
  | transposed => r * rows + c

theorem getElem?_place [Zero α] {side : Side} {A : Mat α} {m n : Nat} (hDense : A.storage = .dense)
    (hShape : side.shape A.shape = (m, n)) : ∀ r < m, ∀ c < n,
      A.data[side.place A.rows r c]? = some (side.entry A r c) := by
  intro r hr c hc
  cases side with
  | plain =>
    obtain ⟨rfl, rfl⟩ := Prod.mk.inj hShape
    exact getElem?_of_dense hDense hr hc
  | transposed =>
    obtain ⟨rfl, rfl⟩ := Prod.mk.inj hShape
    exact getElem?_of_dense hDense hc hr

theorem runProducts_eq [Mul α] {a b : Array α} {aAt bAt : Nat → Nat} {f g : Nat → α} {k : Nat}
    (hA : ∀ p < k, a[aAt p]? = some (f p)) (hB : ∀ p < k, b[bAt p]? = some (g p)) :
    runProducts a b aAt bAt k = some ((List.range k).map fun p => f p * g p) := by
  induction k with
  | zero => rfl
  | succ k ih =>
    have hRest := ih (fun p hp => hA p (Nat.lt_succ_of_lt hp)) fun p hp => hB p (Nat.lt_succ_of_lt hp)
    rw [runProducts] at hRest ⊢
    rw [List.range_succ, List.mapM_append, hRest, List.map_append]
    simp [hA k (Nat.lt_succ_self k), hB k (Nat.lt_succ_self k)]

variable [Zero α] [One α] [Add α] [Mul α] [BEq α]

section Entries
variable (s : Scaling α) (k : Nat) (X Y : Nat → Nat → α)

/-- An old entry before products are added to it. -/
def Scaling.prepared (x : α) : α :=
  if s.beta == 0 then 0 else if s.beta == 1 then x else x * s.beta

def addedEntry (i j : Nat) (x : α) : α :=
  (List.range k).foldl (fun x p => x + X i p * s.scaled (Y p j)) (s.prepared x)

def summedEntry (start : α) (i j : Nat) (x : α) : α :=
  s.finish ((List.range k).foldl (fun sum p => sum + X i p * Y p j) start) x

def blockEntry [Neg α] (sideA sideB : Side) : Nat → Nat → α → α :=
  match sideA, sideB with
  | .plain, .plain => addedEntry s k X Y
  | .transposed, .plain => summedEntry s k X Y (-0)
  | .plain, .transposed | .transposed, .transposed => summedEntry s k X Y 0

end Entries

section Kernels
variable {s : Scaling α} {e : Extent} {a b : Array α} {X Y : Nat → Nat → α}

omit [Add α] in
theorem acts_prepareColumn {j : Nat} (hj : j < e.n) :
    Acts e.m e.n (fun i j => j * e.m + i) (prepareColumn s e j)
      fun _ c x => if c = j then s.prepared x else x := by
  have hPlace := placement_byColumns e.m e.n
  unfold prepareColumn Scaling.prepared
  by_cases hZero : s.beta == 0
  · simp only [if_pos hZero]
    exact .downColumn fun i hi => acts_writeAt hPlace hi hj 0
  by_cases hOne : s.beta == 1
  · simp only [if_neg hZero, if_pos hOne]
    exact Acts.keep.congr fun r c x _ _ => (ite_self x).symm
  · simp only [if_neg hZero, if_neg hOne]
    exact .downColumn fun i hi => acts_modifyAt hPlace hi hj (· * s.beta)

omit [Zero α] [One α] [BEq α] in
theorem acts_addColumn {p j : Nat} (hj : j < e.n) (factor : α)
    (hRead : ∀ i < e.m, a[p * e.aRows + i]? = some (X i p)) :
    Acts e.m e.n (fun i j => j * e.m + i) (addColumn e a factor p j)
      fun r c x => if c = j then x + X r p * factor else x := by
  refine .downColumn fun i hi => ?_
  simp only [hRead i hi]
  exact (acts_modifyAt (placement_byColumns e.m e.n) hi hj (· + X i p * factor)).congr
    fun r c x _ _ => by grind

theorem acts_blockPlain (hA : ∀ i < e.m, ∀ p < e.k, a[p * e.aRows + i]? = some (X i p))
    (hB : ∀ p < e.k, ∀ j < e.n, b[j * e.bRows + p]? = some (Y p j)) :
    Acts e.m e.n (fun i j => j * e.m + i) (blockPlain s e a b) (addedEntry s e.k X Y) := by
  refine .acrossColumns fun j hj => ?_
  have hSum : Acts e.m e.n (fun i j => j * e.m + i) ((List.range e.k).foldlM fun c p => do
        addColumn e a (s.scaled (← b[j * e.bRows + p]?)) p j c)
      fun r c x => (List.range e.k).foldl
        (fun x p => if c = j then x + X r p * s.scaled (Y p j) else x) x := by
    refine Acts.foldlM (List.range e.k) fun p hp => ?_
    have hp := List.mem_range.mp hp
    simp only [hB p hp j hj]
    exact acts_addColumn hj _ fun i hi => hA i hi p hp
  refine ((acts_prepareColumn hj).bind hSum).congr fun r c x _ _ => ?_
  by_cases hc : c = j
  · simp only [hc, if_true, addedEntry]
  · simp only [hc, if_false, List.foldl_fixed]

theorem acts_blockEntries {start : α} {aAt bAt : Nat → Nat → Nat → Nat}
    (hA : ∀ i < e.m, ∀ j < e.n, ∀ p < e.k, a[aAt i j p]? = some (X i p))
    (hB : ∀ i < e.m, ∀ j < e.n, ∀ p < e.k, b[bAt i j p]? = some (Y p j)) :
    Acts e.m e.n (fun i j => j * e.m + i) (blockEntries s e start a b aAt bAt)
      (summedEntry s e.k X Y start) := by
  refine .everywhere fun i hi j hj => ?_
  simp only [runProducts_eq (hA i hi j hj) (hB i hi j hj)]
  refine (acts_modifyAt (placement_byColumns e.m e.n) hi hj _).congr fun r c x _ _ => ?_
  split
  · rename_i hHere
    rw [hHere.1, hHere.2, List.foldl_map, summedEntry]
  · rfl

end Kernels

variable [Neg α]

section Product
variable (s : Scaling α) {sideA sideB : Side} {A B C : Mat α} {m n k : Nat}

theorem acts_blockProduct (hA : A.storage = .dense) (hB : B.storage = .dense)
    (hShapeA : sideA.shape A.shape = (m, k)) (hShapeB : sideB.shape B.shape = (k, n)) :
    Acts m n (fun i j => j * m + i)
      (blockProduct s ⟨m, n, k, A.rows, B.rows⟩ sideA sideB A.data B.data)
      (blockEntry s k (sideA.entry A) (sideB.entry B) sideA sideB) := by
  have hReadA := getElem?_place hA hShapeA
  have hReadB := getElem?_place hB hShapeB
  have hSum : ∀ start, Acts m n (fun i j => j * m + i)
      (blockEntries s ⟨m, n, k, A.rows, B.rows⟩ start A.data B.data
        (fun i _ p => sideA.place A.rows i p) fun _ j p => sideB.place B.rows p j)
      (summedEntry s k (sideA.entry A) (sideB.entry B) start) := fun start =>
    acts_blockEntries (e := ⟨m, n, k, A.rows, B.rows⟩) (fun i hi _ _ p hp => hReadA i hi p hp)
      fun _ _ j hj p hp => hReadB p hp j hj
  cases sideA with
  | plain =>
    cases sideB with
    | plain => exact acts_blockPlain (e := ⟨m, n, k, A.rows, B.rows⟩) hReadA hReadB
    | transposed => exact hSum 0
  | transposed =>
    cases sideB with
    | plain => exact hSum (-0)
    | transposed => exact hSum 0

theorem setBlock_revises (hA : A.storage = .dense) (hB : B.storage = .dense)
    (hC : C.storage = .dense) (hShapeA : sideA.shape A.shape = (m, k))
    (hShapeB : sideB.shape B.shape = (k, n)) (hShapeC : C.shape = (m, n)) :
    ∃ data, blockProduct s ⟨m, n, k, A.rows, B.rows⟩ sideA sideB A.data B.data C.data = some data ∧
      Revised (blockEntry s k (sideA.entry A) (sideB.entry B) sideA sideB) C (C.setBlock data) := by
  obtain ⟨rfl, rfl⟩ := Prod.mk.inj hShapeC
  have hActs := acts_blockProduct s hA hB hShapeA hShapeB
  obtain ⟨data, hData, hSize, -⟩ := hActs C.data C.size_eq
  have hBlock : C.setBlock data = { C with data := data, size_eq := hSize } := dif_pos hSize
  refine ⟨data, hData, ?_⟩
  rw [hBlock]
  exact revised_of_acts ⟨rfl, rfl, rfl⟩ (offset_of_dense hC ▸ hActs) hData

theorem elementProduct_revises (hShapeC : C.shape = (m, n)) :
    Revised (summedEntry s k (sideA.entry A) (sideB.entry B) (-0)) C
      (elementProduct s sideA sideB A B m n k C) := by
  obtain ⟨rfl, rfl⟩ := Prod.mk.inj hShapeC
  refine (revised_foldl_put (fun i j => s.finish
    (total ((List.range k).map fun p => sideA.entry A i p * sideB.entry B p j))) C).congr
      fun i j x _ _ => ?_
  rw [total, List.foldl_map, summedEntry]

end Product

section Answer
variable (s : Scaling α) (sideA sideB : Side) (A B : Mat α)

/-- What a general product checks before it writes. -/
def checkProduct (C : Mat α) : Checked Unit := do
  checkShape "b" ((sideA.shape A.shape).2, (sideB.shape B.shape).2) (sideB.shape B.shape)
  checkResultShape ((sideA.shape A.shape).1, (sideB.shape B.shape).2) C.shape

/-- The new entry of the general product, whose kernel depends on the storage of all three. -/
def gemmEntry (storage : Storage) : Nat → Nat → α → α :=
  let k := (sideA.shape A.shape).2
  if s.alpha == 0 && s.beta == 0 then fun _ _ _ => 0
  else if A.storage = .dense ∧ B.storage = .dense ∧ storage = .dense then
    blockEntry s k (sideA.entry A) (sideB.entry B) sideA sideB
  else summedEntry s k (sideA.entry A) (sideB.entry B) (-0)

variable {s sideA sideB A B} {C D : Mat α}

omit [Zero α] [One α] [Add α] [Mul α] [BEq α] [Neg α] in
theorem checkProduct_eq_ok_iff : checkProduct sideA sideB A B C = .ok () ↔
    (sideA.shape A.shape).2 = (sideB.shape B.shape).1 ∧
      C.shape = ((sideA.shape A.shape).1, (sideB.shape B.shape).2) := by
  constructor
  · intro h
    obtain ⟨_, hInner, hOuter⟩ := exists_of_bind_ok h
    exact ⟨congrArg Prod.fst (holds_of_check hInner), (holds_of_check hOuter).symm⟩
  · rintro ⟨hInner, hOuter⟩
    simp only [checkProduct, checkShape, checkResultShape, hInner, hOuter, if_true]
    rfl

theorem runOn_gemm_of_error {failure : Failure Error}
    (h : checkProduct sideA sideB A B C = .error failure) :
    runOn C (gemm s sideA sideB A B) = (.error failure, C) := by
  simp only [checkProduct, checkShape, checkResultShape] at h
  simp only [gemm, runOn_require, runOn_current, checkShape, checkResultShape]
  by_cases hInner : ((sideA.shape A.shape).2, (sideB.shape B.shape).2) = sideB.shape B.shape
  · rw [if_pos hInner] at h ⊢
    by_cases hOuter : ((sideA.shape A.shape).1, (sideB.shape B.shape).2) = C.shape
    · rw [if_pos hOuter] at h
      cases h
    · rw [if_neg hOuter] at h ⊢
      exact congrArg (·, C) h
  · rw [if_neg hInner] at h ⊢
    exact congrArg (·, C) h

theorem runOn_gemm_of_ok (h : checkProduct sideA sideB A B C = .ok ()) :
    ∃ D, runOn C (gemm s sideA sideB A B) = (.ok (), D) ∧
      Revised (gemmEntry s sideA sideB A B C.storage) C D := by
  obtain ⟨hInner, hShapeC⟩ := checkProduct_eq_ok_iff.mp h
  have hShapeA : sideA.shape A.shape = ((sideA.shape A.shape).1, (sideA.shape A.shape).2) := rfl
  have hShapeB : sideB.shape B.shape = ((sideA.shape A.shape).2, (sideB.shape B.shape).2) :=
    Prod.ext hInner.symm rfl
  simp only [gemm, gemmEntry, runOn_require, runOn_current, checkShape, checkResultShape, hShapeC,
    if_true, if_pos hShapeB.symm]
  by_cases hNothing : (s.alpha == 0 && s.beta == 0) = true
  · rw [if_pos hNothing, if_pos hNothing]
    exact ⟨_, runOn_write C cleared, revised_cleared C⟩
  rw [if_neg hNothing, if_neg hNothing]
  split
  · rename_i hA hB hC
    obtain ⟨data, hData, hRevised⟩ := setBlock_revises s hA hB hC hShapeA hShapeB hShapeC
    rw [hData, if_pos ⟨hA, hB, hC⟩]
    exact ⟨_, runOn_write C fun C => C.setBlock data, hRevised⟩
  · rename_i hMixed
    rw [if_neg fun hDense => hMixed hDense.1 hDense.2.1 hDense.2.2]
    exact ⟨_, runOn_write C _, elementProduct_revises s hShapeC⟩

/-- What a product that succeeds has checked, and what it leaves. -/
theorem revised_of_runOn_gemm (hRun : runOn C (gemm s sideA sideB A B) = (.ok (), D)) :
    checkProduct sideA sideB A B C = .ok () ∧
      Revised (gemmEntry s sideA sideB A B C.storage) C D := by
  cases h : checkProduct sideA sideB A B C with
  | error failure =>
    rw [runOn_gemm_of_error h] at hRun
    cases hRun
  | ok _ =>
    obtain ⟨D', hRun', hRevised⟩ := runOn_gemm_of_ok (s := s) h
    obtain rfl : D' = D := congrArg Prod.snd (hRun'.symm.trans hRun)
    exact ⟨rfl, hRevised⟩

end Answer
end Almanac.Mat
