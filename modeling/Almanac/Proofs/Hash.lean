import Almanac.Proofs.Double
import Almanac.Proofs.Mat.Placement
import Almanac.Mat.Norm

/-! # Hashes of equal vectors and matrices

Equal elements are stored as one word, or as zero against negative zero. Each such pair turns the
sign bit of the folded words over, so that equal objects have one hash exactly if the hash takes in
an even number of these pairs.
-/
namespace Almanac
set_option autoImplicit false

namespace Vec
open Double

section Words
variable {x y : Nat → Float} {n : Nat}

/-- How many of the first elements are zero on one side and negative zero on the other. -/
def zeroFlips (x y : Nat → Float) (n : Nat) : Nat :=
  (List.range n).countP fun i => oppositeZeros (x i) (y i)

def flipWord (flips : Nat) : UInt64 := if Even flips then 0 else signWord

theorem flipWord_succ (flips : Nat) : flipWord (flips + 1) = flipWord flips ^^^ signWord := by
  by_cases hEven : Even flips
  · simp [flipWord, Nat.even_add_one, hEven]
  · simp [flipWord, Nat.even_add_one, hEven]

theorem foldl_bits_of_beq (h : ∀ i < n, (x i == y i) = true) :
    ((List.range n).map fun i => bits (y i)).foldl (· ^^^ ·) 0 =
      ((List.range n).map fun i => bits (x i)).foldl (· ^^^ ·) 0 ^^^
        flipWord (zeroFlips x y n) := by
  induction n with
  | zero => simp [zeroFlips, flipWord]
  | succ n ih =>
    have hRest := ih fun i hi => h i (Nat.lt_succ_of_lt hi)
    have hLast := bits_of_beq (h n (Nat.lt_succ_self n))
    have hFlips : zeroFlips x y (n + 1) =
        zeroFlips x y n + if oppositeZeros (x n) (y n) then 1 else 0 := by
      simp [zeroFlips, List.range_succ, List.countP_append]
    simp only [List.range_succ, List.map_append, List.foldl_append, hRest, hFlips, List.map_cons,
      List.map_nil, List.foldl_cons, List.foldl_nil, hLast]
    cases oppositeZeros (x n) (y n) with
    | true =>
      simp only [if_true, flipWord_succ]
      ac_rfl
    | false =>
      simp only [Bool.false_eq_true, if_false, UInt64.xor_zero, Nat.add_zero]
      ac_rfl

theorem upper_half_injective {a b : UInt64}
    (h : ((a >>> 32).toUInt32.toInt32).toInt = ((b >>> 32).toUInt32.toInt32).toInt) :
    a.toNat / 2 ^ 32 = b.toNat / 2 ^ 32 := by
  have hHalf : (a >>> 32).toUInt32 = (b >>> 32).toUInt32 :=
    congrArg Int32.toUInt32 (Int32.toInt_inj.mp h)
  have hNat := congrArg UInt32.toNat hHalf
  simp only [UInt64.toNat_toUInt32, UInt64.toNat_shiftRight, Nat.shiftRight_eq_div_pow] at hNat
  have ha := a.toNat_lt
  have hb := b.toNat_lt
  change a.toNat / 2 ^ 32 % 2 ^ 32 = b.toNat / 2 ^ 32 % 2 ^ 32 at hNat
  omega

theorem upper_half_flip (a : UInt64) : a.toNat / 2 ^ 32 ≠ (a ^^^ signWord).toNat / 2 ^ 32 := by
  intro h
  have hTop : a.toNat / 2 ^ 63 = (a ^^^ signWord).toNat / 2 ^ 63 := by omega
  have hSign : signWord.toNat = 2 ^ 63 := by decide
  rw [UInt64.toNat_xor, hSign, Nat.xor_div_two_pow, Nat.div_self (Nat.two_pow_pos 63)] at hTop
  have hOne : a.toNat / 2 ^ 63 ^^^ 0 = a.toNat / 2 ^ 63 ^^^ 1 := by rwa [Nat.xor_zero]
  exact absurd (Nat.xor_right_inj.mp hOne) (by decide)

theorem hashOfWords_eq_iff (h : ∀ i < n, (x i == y i) = true) :
    hashOfWords ((List.range n).map fun i => bits (x i)) =
        hashOfWords ((List.range n).map fun i => bits (y i)) ↔
      Even (zeroFlips x y n) := by
  rw [hashOfWords, hashOfWords, foldl_bits_of_beq h, flipWord]
  constructor
  · intro hHash
    by_contra hOdd
    rw [if_neg hOdd] at hHash
    exact upper_half_flip _ (upper_half_injective hHash)
  · intro hEven
    rw [if_pos hEven, UInt64.xor_zero]

end Words

theorem equals_iff {α : Type} [Zero α] [BEq α] (v w : Vec α) :
    v.equals w = true ↔ v.count = w.count ∧ ∀ i < v.count, (v.entry i == w.entry i) = true := by
  simp [equals]

theorem hashCode_eq_iff {v w : Vec Float} (h : v.equals w = true) :
    v.hashCode = w.hashCode ↔ Even (zeroFlips v.entry w.entry (min v.count hashSpan)) := by
  obtain ⟨hCount, hEntries⟩ := (equals_iff v w).mp h
  rw [hashCode, hashCode, ← hCount]
  exact hashOfWords_eq_iff fun i hi => hEntries i (Nat.lt_of_lt_of_le hi (Nat.min_le_left ..))

theorem beq_block_iff {α : Type} [Zero α] [BEq α] (xs ys : Array α) :
    (xs == ys) = true ↔
      xs.size = ys.size ∧ ∀ i < xs.size, (xs.getD i 0 == ys.getD i 0) = true := by
  rw [Array.beq_eq_decide]
  split
  · rename_i hSize
    simp only [decide_eq_true_eq, hSize, true_and]
    refine forall₂_congr fun i hi => ?_
    simp only [Array.getD, hSize, hi, dif_pos]
    rfl
  · rename_i hSize
    simp only [hSize, false_and, Bool.false_eq_true]

theorem sameBlock_eq_equals {α : Type} [Zero α] [BEq α] (v w : Vec α) :
    v.sameBlock w = v.equals w := by
  rw [Bool.eq_iff_iff, equals_iff]
  exact beq_block_iff v.entries w.entries

end Vec

namespace Mat
open Vec

/-- The element at a place of the order column by column. -/
def inOrder (A : Mat Float) (i : Nat) : Float := A.entry (i % A.rows) (i / A.rows)

theorem equals_iff {α : Type} [Zero α] [BEq α] (A B : Mat α) :
    A.equals B = true ↔ A.shape = B.shape ∧
      ∀ r c, r < A.rows → c < A.columns → (A.entry r c == B.entry r c) = true := by
  simp only [equals, Bool.and_eq_true, beq_iff_eq, List.all_eq_true, Prod.forall]
  refine and_congr_right fun _ => ?_
  constructor
  · intro h r c hr hc
    exact h r c (mem_columnwise.mpr ⟨hr, hc⟩)
  · intro h r c hMem
    obtain ⟨hr, hc⟩ := mem_columnwise.mp hMem
    exact h r c hr hc

theorem hashCode_eq_iff {A B : Mat Float} (h : A.equals B = true) :
    A.hashCode = B.hashCode ↔
      Even (zeroFlips A.inOrder B.inOrder (min (A.rows * A.columns) hashSpan)) := by
  obtain ⟨hShape, hEntries⟩ := (equals_iff A B).mp h
  obtain ⟨hRows, hColumns⟩ := Prod.mk.inj hShape
  have hWords : B.hashCode = hashOfWords
      ((List.range (min (A.rows * A.columns) hashSpan)).map fun i => bits (B.inOrder i)) := by
    rw [hRows, hColumns]
    rfl
  rw [hWords]
  refine hashOfWords_eq_iff fun i hi => ?_
  have hPlace : i < A.rows * A.columns := Nat.lt_of_lt_of_le hi (Nat.min_le_left ..)
  have hEntry := hEntries (i % A.rows) (i / A.rows) (Nat.mod_lt i A.rows_pos)
    (Nat.div_lt_of_lt_mul hPlace)
  change (A.entry (i % A.rows) (i / A.rows) == B.entry (i % B.rows) (i / B.rows)) = true
  rwa [← hRows]

theorem sameBlock_eq_equals {α : Type} [Zero α] [BEq α] {A B : Mat α} (hA : A.storage = .dense)
    (hB : B.storage = .dense) : A.sameBlock B = A.equals B := by
  rw [Bool.eq_iff_iff, equals_iff]
  simp only [sameBlock, Bool.and_eq_true, beq_iff_eq, beq_block_iff, shape, Prod.mk.injEq]
  refine and_congr_right fun hShape => ?_
  obtain ⟨hRows, hColumns⟩ := hShape
  simp only [entry, offset, hA, hB, A.size_eq, B.size_eq, hRows, hColumns, true_and]
  constructor
  · intro h r c hr hc
    exact h _ ((placement_byColumns B.rows B.columns).lt hr hc)
  · intro h i hi
    have hEntry := h (i % B.rows) (i / B.rows) (Nat.mod_lt i B.rows_pos)
      (Nat.div_lt_of_lt_mul hi)
    rwa [Nat.div_add_mod'] at hEntry

end Mat

/-- Equal vectors, and equal matrices, have one hash exactly if an even number of the elements that
the hash takes in are zero on one side and negative zero on the other. A comparison of dense blocks
is elementwise equality. -/
theorem equal_hashes_iff_even_zeroFlips (v w : Vec Float) (A B : Mat Float) :
    (v.equals w = true →
      (v.hashCode = w.hashCode ↔
        Even (Vec.zeroFlips v.entry w.entry (min v.count Vec.hashSpan)))) ∧
    (A.equals B = true →
      (A.hashCode = B.hashCode ↔
        Even (Vec.zeroFlips A.inOrder B.inOrder (min (A.rows * A.columns) Mat.hashSpan)))) ∧
    v.sameBlock w = v.equals w ∧
    (A.storage = .dense → B.storage = .dense → A.sameBlock B = A.equals B) :=
  ⟨Vec.hashCode_eq_iff, Mat.hashCode_eq_iff, Vec.sameBlock_eq_equals v w, Mat.sameBlock_eq_equals⟩

/-- Zero and negative zero are equal as vectors and as dense matrices, but differ in their hash. -/
theorem equal_zeros_differ_in_hash :
    let v := Vec.fill 1 Nat.one_pos (0 : Float)
    let w := Vec.fill 1 Nat.one_pos (-0 : Float)
    let A := Mat.fill 1 1 Nat.one_pos Nat.one_pos (0 : Float)
    let B := Mat.fill 1 1 Nat.one_pos Nat.one_pos (-0 : Float)
    (v.equals w = true ∧ v.sameBlock w = true ∧ v.hashCode ≠ w.hashCode) ∧
      A.equals B = true ∧ A.sameBlock B = true ∧ A.hashCode ≠ B.hashCode := by
  intro v w A B
  have hVec : v.equals w = true := by decide +kernel
  have hMat : A.equals B = true := by decide +kernel
  obtain ⟨hashOfVec, hashOfMat, blockOfVec, blockOfMat⟩ := equal_hashes_iff_even_zeroFlips v w A B
  refine ⟨⟨hVec, blockOfVec.trans hVec, ?_⟩, hMat, (blockOfMat rfl rfl).trans hMat, ?_⟩
  · rw [Ne, hashOfVec hVec]
    decide +kernel
  · rw [Ne, hashOfMat hMat]
    decide +kernel

end Almanac
