import Almanac.Proofs.Mat.Kernel
import Almanac.Proofs.Mat.Storage

/-! # What a product depends on

With `beta = 0` nothing of the old result enters the new one, and with `alpha = 0` as well nothing of
the operands. A result that is its own operand enters with the elements that it had before. Nothing
is asked of the scalar operations, only that the factors compare equal to zero.
-/
namespace Almanac.Mat
set_option autoImplicit false
open Linear Edit

variable {α : Type}

/-- Two runs that end in one matrix, or fail alike and leave what they started from. -/
inductive EndsAlike (C C' : Mat α) : Checked Unit × Mat α → Checked Unit × Mat α → Prop
  | written (D : Mat α) : EndsAlike C C' (.ok (), D) (.ok (), D)
  | kept (failure : Failure Error) : EndsAlike C C' (.error failure, C) (.error failure, C')

section Ends
variable {C C' : Mat α}

theorem EndsAlike.eq {x y : Checked Unit × Mat α} (h : EndsAlike C C x y) : x = y := by
  cases h <;> rfl

theorem EndsAlike.require {check : Checked Unit} {next next' : Unit → Change α Unit}
    (h : EndsAlike C C' (runOn C (next ())) (runOn C' (next' ()))) :
    EndsAlike C C' (runOn C (Edit.require check >>= next))
      (runOn C' (Edit.require check >>= next')) := by
  rw [runOn_require, runOn_require]
  cases check with
  | ok _ => exact h
  | error failure => exact .kept failure

end Ends

section Copies
variable [Zero α] {A A' : Mat α}

theorem toDense_of_dense (hDense : A.storage = .dense) : A.toDense = A := by
  rw [toDense, hDense]

theorem Side.entry_of_alike (side : Side) (h : A.Alike A') {r c : Nat}
    (hr : r < (side.shape A.shape).1) (hc : c < (side.shape A.shape).2) :
    side.entry A r c = side.entry A' r c := by
  cases side with
  | plain => exact h.entry r c hr hc
  | transposed => exact h.entry c r hc hr

/-- The operand with a copy of the result, kept as the result is, for the result itself. -/
def Operand.copied (C : Mat α) : Operand α → Mat α
  | this => C
  | other A => A

theorem Operand.alike (o : Operand α) (C : Mat α) : (o.resolve C).Alike (o.copied C) := by
  cases o with
  | this => exact alike_toDense C
  | other A => exact .refl A

theorem Operand.resolve_of_dense (o : Operand α) {C : Mat α} (hDense : C.storage = .dense) :
    o.resolve C = o.copied C := by
  cases o with
  | this => exact toDense_of_dense hDense
  | other A => rfl

end Copies

variable [Zero α] [One α] [Add α] [Mul α] [Neg α] [BEq α]

section Entries
variable {s : Scaling α} {sideA sideB : Side} {A A' B B' : Mat α}

omit [Add α] [Neg α] in
theorem Scaling.prepared_of_beta (hBeta : (s.beta == 0) = true) (x : α) : s.prepared x = 0 :=
  if_pos hBeta

omit [Neg α] in
theorem Scaling.finish_of_beta (hBeta : (s.beta == 0) = true) (sum x : α) :
    s.finish sum x = s.scaled sum := if_pos hBeta

omit [Neg α] in
theorem summedEntry_congr {k i j : Nat} {X X' Y Y' : Nat → Nat → α}
    (hX : ∀ p < k, X i p = X' i p) (hY : ∀ p < k, Y p j = Y' p j) (start x : α) :
    summedEntry s k X Y start i j x = summedEntry s k X' Y' start i j x := by
  unfold summedEntry
  congr 1
  refine List.foldl_ext _ _ start fun sum p hp => ?_
  have hp := List.mem_range.mp hp
  rw [hX p hp, hY p hp]

theorem gemmEntry_of_beta (hBeta : (s.beta == 0) = true) (storage : Storage) (i j : Nat)
    (x y : α) : gemmEntry s sideA sideB A B storage i j x =
      gemmEntry s sideA sideB A B storage i j y := by
  have hAdded : ∀ k X Y, addedEntry s k X Y i j x = addedEntry s k X Y i j y := by
    intro k X Y
    simp only [addedEntry, Scaling.prepared_of_beta hBeta]
  have hSummed : ∀ k X Y start,
      summedEntry s k X Y start i j x = summedEntry s k X Y start i j y := by
    intro k X Y start
    simp only [summedEntry, Scaling.finish_of_beta hBeta]
  unfold gemmEntry
  split
  · rfl
  split
  · cases sideA with
    | plain =>
      cases sideB with
      | plain => exact hAdded _ _ _
      | transposed => exact hSummed _ _ _ 0
    | transposed =>
      cases sideB with
      | plain => exact hSummed _ _ _ (-0)
      | transposed => exact hSummed _ _ _ 0
  · exact hSummed _ _ _ (-0)

theorem gemmEntry_of_alpha_of_beta (hAlpha : (s.alpha == 0) = true) (hBeta : (s.beta == 0) = true)
    (storage : Storage) (i j : Nat) (x : α) :
    gemmEntry s sideA sideB A B storage i j x = 0 := by
  rw [gemmEntry, hAlpha, hBeta]
  rfl

theorem gemmEntry_of_scattered (hA : A.Alike A') (hB : B.Alike B')
    (hInner : (sideA.shape A.shape).2 = (sideB.shape B.shape).1) {i j : Nat}
    (hi : i < (sideA.shape A.shape).1) (hj : j < (sideB.shape B.shape).2) (x : α) :
    gemmEntry s sideA sideB A B .scattered i j x =
      gemmEntry s sideA sideB A' B' .scattered i j x := by
  unfold gemmEntry
  rw [← hA.shape]
  split
  · rfl
  · rw [if_neg (fun h => nomatch h.2.2), if_neg (fun h => nomatch h.2.2)]
    exact summedEntry_congr (fun p hp => sideA.entry_of_alike hA hi hp)
      (fun p hp => sideB.entry_of_alike hB (hInner ▸ hp) hj) (-0) x

/-- A result that is stored like the left operand goes through the kernel of a dense one. -/
theorem gemmEntry_storage (A B : Mat α) :
    gemmEntry s sideA sideB A B A.storage = gemmEntry s sideA sideB A B .dense := by
  unfold gemmEntry
  simp only [and_true]
  grind

end Entries

section Runs
variable {s : Scaling α} {sideA sideB : Side} {A A' B B' C C' : Mat α}

/-- Runs end alike as soon as they come to the same entries; the checks look at shapes only. -/
theorem endsAlike_gemm (hA : A.shape = A'.shape) (hB : B.shape = B'.shape) (hC : Framed C C')
    (hEntry : checkProduct sideA sideB A B C = .ok () → ∀ i j, i < C.rows → j < C.columns →
      gemmEntry s sideA sideB A B C.storage i j (C.entry i j) =
        gemmEntry s sideA sideB A' B' C.storage i j (C'.entry i j)) :
    EndsAlike C C' (runOn C (gemm s sideA sideB A B)) (runOn C' (gemm s sideA sideB A' B')) := by
  have hCheck : checkProduct sideA sideB A' B' C' = checkProduct sideA sideB A B C := by
    rw [checkProduct, checkProduct, hA, hB, hC.shape]
  cases h : checkProduct sideA sideB A B C with
  | error failure =>
    rw [runOn_gemm_of_error h, runOn_gemm_of_error (hCheck.trans h)]
    exact .kept failure
  | ok _ =>
    obtain ⟨D, hRun, hRevised⟩ := runOn_gemm_of_ok (s := s) h
    obtain ⟨D', hRun', hRevised'⟩ := runOn_gemm_of_ok (s := s) (hCheck.trans h)
    rw [hC.storage] at hRevised'
    have hAlike : D.Alike D' :=
      hRevised.alike_of_entry hRevised' hC.shape.symm fun i j hi hj => hEntry h i j hi hj
    have hStorage : D.storage = D'.storage := by
      rw [hRevised.storage, hRevised'.storage, hC.storage]
    rw [hRun, hRun', hAlike.eq_of_storage hStorage]
    exact .written D'

theorem endsAlike_gemm_of_beta (hBeta : (s.beta == 0) = true) (hC : Framed C C') :
    EndsAlike C C' (runOn C (gemm s sideA sideB A B)) (runOn C' (gemm s sideA sideB A B)) :=
  endsAlike_gemm rfl rfl hC fun _ i j _ _ => gemmEntry_of_beta hBeta C.storage i j _ _

theorem endsAlike_multiplyInto (hZero : ((0 : α) == 0) = true) (hC : Framed C C') :
    EndsAlike C C' (runOn C (A.multiplyInto B)) (runOn C' (A.multiplyInto B)) := by
  unfold multiplyInto
  refine .require ?_
  rw [runOn_current, runOn_current, hC.shape]
  exact .require (endsAlike_gemm_of_beta hZero hC)

/-- With `beta = 0` the old contents of the result, holes and infinities included, change neither
the answer nor the new result, which with `alpha = 0` as well is zero whatever the operands hold. The
product into a result has the literal zero for its `beta`. -/
theorem unread_contents_leave_no_trace (s : Scaling α) (sideA sideB : Side)
    (hBeta : (s.beta == 0) = true) (hA : A.shape = A'.shape) (hB : B.shape = B'.shape)
    (hC : Framed C C') :
    EndsAlike C C' (runOn C (gemm s sideA sideB A B)) (runOn C' (gemm s sideA sideB A B)) ∧
    (((0 : α) == 0) = true →
      EndsAlike C C' (runOn C (A.multiplyInto B)) (runOn C' (A.multiplyInto B))) ∧
    ((s.alpha == 0) = true →
      EndsAlike C C' (runOn C (gemm s sideA sideB A B)) (runOn C' (gemm s sideA sideB A' B')) ∧
      ∀ D, runOn C (gemm s sideA sideB A B) = (.ok (), D) →
        ∀ i j, i < D.rows → j < D.columns → D.entry i j = 0) := by
  have hNothing : (s.alpha == 0) = true → ∀ (A B : Mat α) (storage : Storage) (i j : Nat) (x : α),
      gemmEntry s sideA sideB A B storage i j x = 0 := fun hAlpha A B =>
    gemmEntry_of_alpha_of_beta hAlpha hBeta
  refine ⟨endsAlike_gemm_of_beta hBeta hC, fun hZero => endsAlike_multiplyInto hZero hC,
    fun hAlpha => ⟨endsAlike_gemm hA hB hC fun _ i j _ _ => ?_, fun D hRun i j hi hj => ?_⟩⟩
  · rw [hNothing hAlpha, hNothing hAlpha]
  · obtain ⟨-, hRevised⟩ := revised_of_runOn_gemm hRun
    rw [hRevised.entry i j (hRevised.rows ▸ hi) (hRevised.columns ▸ hj), hNothing hAlpha]

/-- Holes and infinities in the results and operands of a product with both factors zero. -/
theorem holes_leave_no_trace :
    let full (x : Float) : Mat Float := fill 2 2 Nat.two_pos Nat.two_pos x
    let C := full hole
    let C' := full (1 / 0)
    EndsAlike C C' (runOn C ((full 2).multiplyInto (full hole)))
      (runOn C' ((full 2).multiplyInto (full hole))) ∧
    EndsAlike C C' (runOn C (gemm ⟨0, 0⟩ .plain .transposed (full 2) (full hole)))
      (runOn C' (gemm ⟨0, 0⟩ .plain .transposed (full (1 / 0)) (full 3))) ∧
    ∀ D, runOn C (gemm ⟨0, 0⟩ .plain .transposed (full 2) (full hole)) = (.ok (), D) →
      ∀ i j, i < D.rows → j < D.columns → D.entry i j = 0 := by
  intro full C C'
  have hZero : ((0 : Float) == 0) = true := by decide
  have hA : (full 2).shape = (full (1 / 0)).shape := rfl
  have hB : (full hole).shape = (full 3).shape := rfl
  have hC : Framed C C' := ⟨rfl, rfl, rfl⟩
  obtain ⟨-, hInto, hBoth⟩ :=
    unread_contents_leave_no_trace ⟨0, 0⟩ .plain .transposed hZero hA hB hC
  exact ⟨hInto hZero, hBoth hZero⟩

end Runs

section Aliases

theorem runOn_gemmWith (s : Scaling α) (sideA sideB : Side) (a b : Operand α) (C : Mat α) :
    runOn C (gemmWith s sideA sideB a b) =
      runOn C (gemm s sideA sideB (a.copied C) (b.copied C)) := by
  rw [gemmWith, runOn_current]
  cases hStorage : C.storage with
  | dense => rw [a.resolve_of_dense hStorage, b.resolve_of_dense hStorage]
  | scattered =>
    -- The copy is dense and the result is not: with either operand entries are taken one by one.
    have hA := a.alike C
    have hB := b.alike C
    refine (endsAlike_gemm hA.shape hB.shape (.refl C) fun hCheck i j hi hj => ?_).eq
    obtain ⟨hInner, hOuter⟩ := checkProduct_eq_ok_iff.mp hCheck
    obtain ⟨hRows, hColumns⟩ := Prod.mk.inj hOuter
    rw [hStorage]
    exact gemmEntry_of_scattered hA hB hInner (hRows ▸ hi) (hColumns ▸ hj) _

theorem runOn_multiplyInto {A B C : Mat α} (hInner : A.columns = B.rows)
    (hOuter : C.shape = (A.rows, B.columns)) :
    runOn C (A.multiplyInto B) = runOn C (gemm ⟨1, 0⟩ .plain .plain A B) := by
  have hShape : (A.columns, B.columns) = B.shape := Prod.ext hInner rfl
  simp only [multiplyInto, runOn_require, runOn_current, checkShape, checkResultShape,
    if_pos hShape, if_pos hOuter.symm]

theorem alike_multiply (hZero : ((0 : α) == 0) = true) {B C D : Mat α}
    (hRun : runOn C (multiplyAssign B) = (.ok (), D)) :
    ∃ P, C.multiply B = P.allocated ∧ D.Alike P := by
  rw [multiplyAssign, runOn_gemmWith] at hRun
  obtain ⟨hCheck, hRevised⟩ := revised_of_runOn_gemm hRun
  obtain ⟨hInner, hOuter⟩ := checkProduct_eq_ok_iff.mp hCheck
  let start : Mat α := fill C.rows B.columns C.rows_pos B.columns_pos 0
  obtain ⟨P, hRun', hRevised'⟩ := runOn_gemm_of_ok (s := ⟨1, 0⟩) (C := start)
    (checkProduct_eq_ok_iff.mpr ⟨hInner, rfl⟩)
  have hResult : C.multiply B = P.allocated := by
    rw [multiply, zeros?_eq C.rows_pos B.columns_pos]
    exact bind_allocated hRevised'.shape
      (result_of_runOn ((runOn_multiplyInto hInner rfl).trans hRun'))
  refine ⟨P, hResult, hRevised.alike_of_entry hRevised' hOuter fun i j _ _ => ?_⟩
  -- The zeros that the copying product starts from are not read.
  rw [Operand.copied, gemmEntry_storage]
  exact gemmEntry_of_beta hZero .dense i j _ _

omit [One α] [Neg α] [BEq α] in
theorem runOn_multiplyVectorInto {A : Mat α} {v w : Vec α} (hCount : A.columns = v.count)
    (hResult : A.rows = w.count) : runOn w (A.multiplyVectorInto v) =
      (.ok (), w.writeFrom 0 A.rows fun r => accumulate A.columns (A.entry r) v.entry) := by
  simp only [multiplyVectorInto, runOn_require, runOn_current, checkCount, checkResultCount,
    if_pos hCount, if_pos hResult]
  exact runOn_write w _

omit [One α] [Neg α] [BEq α] in
theorem alike_multiplyVector {A : Mat α} {v w : Vec α}
    (hRun : runOn v A.multiplyVectorAssign = (.ok (), w)) :
    ∃ u, A.multiplyVector v = u.allocated ∧ w.Alike u := by
  obtain ⟨hSquare, hRun⟩ := ok_of_runOn_require hRun
  rw [runOn_current] at hRun
  obtain ⟨hCount, hRun'⟩ := ok_of_runOn_require hRun
  rw [runOn_current] at hRun'
  obtain ⟨hResult, -⟩ := ok_of_runOn_require hRun'
  have hDense := Vec.alike_toDense v
  have hCount := holds_of_check hCount
  have hResult := holds_of_check hResult
  let start : Vec α := .fill A.rows A.rows_pos 0
  have hStart : A.rows = start.count := Vec.count_fill.symm
  rw [runOn_multiplyVectorInto hCount hResult] at hRun
  obtain rfl := congrArg Prod.snd hRun
  refine ⟨start.writeFrom 0 A.rows fun r => accumulate A.columns (A.entry r) v.entry, ?_,
    Vec.alike_of_entry ?_ fun i hi => ?_⟩
  · rw [multiplyVector, Vec.zeros?_eq A.rows_pos]
    exact Vec.bind_allocated (Vec.count_writeFrom ..)
      (result_of_runOn (runOn_multiplyVectorInto (hCount.trans hDense.count) hStart))
  · rw [Vec.count_writeFrom, Vec.count_writeFrom, ← hResult, ← hStart]
  · rw [Vec.count_writeFrom, ← hResult] at hi
    rw [Vec.entry_writeFrom_of_lt _ _ (hResult ▸ hi) hi,
      Vec.entry_writeFrom_of_lt _ _ (hStart ▸ hi) hi, funext hDense.entry]

/-- A product whose result is its own operand, under either name, is the product with a copy made
before, and the products that replace an operand leave what the copying ones answer, if the machine
has room for the copy. The literal factor zero of the matrix product has to compare equal to
itself. -/
theorem aliased_products_read_before (C : Mat α) :
    (∀ (s : Scaling α) (sideA sideB : Side) (a b : Operand α),
      runOn C (gemmWith s sideA sideB a b) =
        runOn C (gemm s sideA sideB (a.copied C) (b.copied C))) ∧
    (((0 : α) == 0) = true → ∀ B D, runOn C (multiplyAssign B) = (.ok (), D) →
      ∃ P, C.multiply B = P.allocated ∧ D.Alike P) ∧
    ∀ v w, runOn v C.multiplyVectorAssign = (.ok (), w) →
      ∃ u, C.multiplyVector v = u.allocated ∧ w.Alike u :=
  ⟨fun s sideA sideB a b => runOn_gemmWith s sideA sideB a b C,
    fun hZero _ _ => alike_multiply hZero, fun _ _ => alike_multiplyVector⟩

/-- A scattered square of doubles that is transposed, squared and applied to a vector in place. -/
theorem scattered_square_read_before :
    let C : Mat Float :=
      (tabulate 2 2 Nat.two_pos Nat.two_pos fun r c => Float.ofNat (2 * r + c + 1)).scatter
    let v : Vec Float := Vec.ofList [5, 6] Nat.two_pos
    runOn C (gemmWith ⟨1, 1⟩ .transposed .plain .this .this) =
      runOn C (gemm ⟨1, 1⟩ .transposed .plain C C) ∧
    (∃ P, C.multiply C = .ok P ∧ (runOn C (multiplyAssign C)).2.Alike P) ∧
    ∃ u, C.multiplyVector v = .ok u ∧ (runOn v C.multiplyVectorAssign).2.Alike u := by
  intro C v
  obtain ⟨hWith, hMatrix, hVector⟩ := aliased_products_read_before C
  obtain ⟨P, hProduct, hAlike⟩ := hMatrix (by decide) C _ (Prod.ext rfl rfl)
  obtain ⟨u, hApplied, hAlike'⟩ := hVector v _ (Prod.ext rfl rfl)
  refine ⟨hWith ⟨1, 1⟩ .transposed .plain .this .this, ⟨P, ?_, hAlike⟩, u, ?_, hAlike'⟩
  · rw [hProduct, allocated_of_lt]
    rw [← hAlike.rows, ← hAlike.columns]
    decide
  · rw [hApplied, Vec.allocated_of_lt]
    rw [← hAlike'.count]
    decide

end Aliases

end Almanac.Mat
