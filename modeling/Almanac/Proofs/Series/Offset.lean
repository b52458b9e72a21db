import Almanac.Proofs.Series.Shift

/-! # Shifts at the ends of the machine range

A shift computes for every observation the place that its value comes from. Only the place of the
last observation can pass the greatest signed word, and only the least signed word has no negation.
-/
namespace Almanac.Series
set_option autoImplicit false

variable {α : Type} [Hole α]

/-- Signed words are smaller than this, and their negations at most this. -/
def offsetBound : Int := Nat.pow 2 63

theorem isOffset_iff {x : Int} : isOffset x = true ↔ -offsetBound ≤ x ∧ x < offsetBound := by
  rw [isOffset, Bool.and_eq_true, decide_eq_true_eq, decide_eq_true_eq, and_comm]
  rfl

/-- The places of the first `n` observations are signed words if the one of the last is. -/
theorem offsets_iff {amount : Int} (hAmount : isOffset amount = true) (n : Nat) :
    (∀ k < n, isOffset (k + amount) = true) ↔ amount + n ≤ offsetBound := by
  obtain ⟨hLow, hHigh⟩ := isOffset_iff.mp hAmount
  constructor
  · intro hPlaces
    cases n with
    | zero => omega
    | succ n =>
      have hLast := isOffset_iff.mp (hPlaces n (Nat.lt_succ_self n))
      omega
  · intro hBound k hk
    exact isOffset_iff.mpr ⟨by omega, by omega⟩

theorem isOffset_neg_iff {amount : Int} (hAmount : isOffset amount = true) :
    isOffset (-amount) = true ↔ amount ≠ -offsetBound := by
  obtain ⟨hLow, hHigh⟩ := isOffset_iff.mp hAmount
  rw [isOffset_iff]
  omega

section Answers
variable (s : Series α) {amount : Int}

theorem shiftLeft_of_bound (hAmount : isOffset amount = true) : s.shiftLeft amount =
    if amount + s.observedCount ≤ offsetBound then .ok (s.shift amount) else fault := by
  have hPlaces := offsets_iff hAmount s.observedCount
  split
  · rename_i hBound
    exact shiftLeft_of_offsets (hPlaces.mpr hBound)
  · rename_i hBound
    refine if_neg fun hAll => hBound (hPlaces.mp fun k hk => ?_)
    exact List.all_eq_true.mp hAll k (List.mem_range.mpr hk)

theorem shiftRight_of_bound (hAmount : isOffset amount = true) : s.shiftRight amount =
    if amount ≠ -offsetBound ∧ s.observedCount - amount ≤ offsetBound then
      .ok (s.shift (-amount))
    else fault := by
  have hNegated := isOffset_neg_iff hAmount
  rw [shiftRight]
  split
  · rename_i hOffset
    rw [s.shiftLeft_of_bound hOffset, Int.add_comm (-amount), ← Int.sub_eq_add_neg]
    simp only [hNegated.mp hOffset, ne_eq, not_false_eq_true, true_and]
  · rename_i hOffset
    rw [if_neg fun hBoth => hOffset (hNegated.mpr hBoth.1)]

end Answers

/-- A shift to the left faults exactly if the place of the last observation passes the greatest
signed word; a shift to the right does so for the negated amount, and at the least signed word. In
every other case it moves the observed values, and what comes in from beyond an end is a hole. -/
theorem shifts_fault_iff_beyond_words (s : Series α) {amount : Int}
    (hAmount : isOffset amount = true) :
    (s.shiftLeft amount = fault ↔ offsetBound < amount + s.observedCount) ∧
    (s.shiftRight amount = fault ↔
      amount = -offsetBound ∨ offsetBound < s.observedCount - amount) ∧
    (amount + s.observedCount ≤ offsetBound →
      ∃ t, s.shiftLeft amount = .ok t ∧ s.Moved amount t) ∧
    (amount ≠ -offsetBound → s.observedCount - amount ≤ offsetBound →
      ∃ t, s.shiftRight amount = .ok t ∧ s.Moved (-amount) t) := by
  have hLeft := s.shiftLeft_of_bound hAmount
  have hRight := s.shiftRight_of_bound hAmount
  refine ⟨?_, ?_, fun hBound => ?_, fun hNegated hBound => ?_⟩
  · rw [hLeft]
    split
    · exact iff_of_false (by rintro ⟨⟩) (by omega)
    · exact iff_of_true rfl (by omega)
  · rw [hRight]
    split
    · exact iff_of_false (by rintro ⟨⟩) (by omega)
    · exact iff_of_true rfl (by omega)
  · exact ⟨_, hLeft.trans (if_pos hBound), moved_shift s amount⟩
  · exact ⟨_, hRight.trans (if_pos ⟨hNegated, hBound⟩), moved_shift s (-amount)⟩

/-- The greatest amount faults on two observations, the least one even on none when it is negated;
moved by the least amount to the left, both observations become holes. -/
theorem extreme_shifts : ∃ s : Series Float, s.values = [1, 2] ∧
    isOffset (offsetBound - 1) = true ∧ s.shiftLeft (offsetBound - 1) = fault ∧
    isOffset (-offsetBound) = true ∧
    (empty default : Series Float).shiftRight (-offsetBound) = fault ∧
    ∃ t, s.shiftLeft (-offsetBound) = .ok t ∧ t.value? 0 = some hole ∧ t.value? 1 = some hole := by
  let s : Series Float := ofPoints default [⟨.sentinel, 1⟩, ⟨.latest, 2⟩]
  have hGreatest : isOffset (offsetBound - 1) = true := by decide
  have hLeast : isOffset (-offsetBound) = true := by decide
  obtain ⟨hLeft, -⟩ := shifts_fault_iff_beyond_words s hGreatest
  obtain ⟨-, hRight, -⟩ := shifts_fault_iff_beyond_words (empty default : Series Float) hLeast
  obtain ⟨-, -, hMoves, -⟩ := shifts_fault_iff_beyond_words s hLeast
  obtain ⟨t, ht, hMoved⟩ := hMoves (by decide)
  refine ⟨s, rfl, hGreatest, hLeft.mpr (by decide), hLeast, hRight.mpr (.inl rfl), t, ht, ?_, ?_⟩
  · exact hMoved.beyond 0 0 (by decide) (by decide)
  · exact hMoved.beyond 1 1 (by decide) (by decide)

end Almanac.Series
