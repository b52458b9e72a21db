import Almanac.Proofs.Series.Crossing
import Almanac.Proofs.Series.Draft

/-! # Values over gaps

Shifts and crossings make new values for the positions without gaps, as many as there are, and put
the gaps back on the calendar of their group.
-/
namespace Almanac.Series
set_option autoImplicit false

variable {α : Type} [Hole α]

/-- What the positions without gaps hold of a series. -/
def keptValues (holes : Holes) (s : Series α) : List α := Holes.dropAt 0 holes.positions s.values

def shiftDraft (s : Series α) (amount : Int) : Draft α :=
  let holes := Holes.ofGroup [s]
  .restored holes (displace (s.keptValues holes) amount)

def crossingDraft [Zero α] [One α] (rule : Crossing α) (s : Series α) : Operand α → Draft α
  | .series other =>
    let before := s.shift (-1)
    let otherBefore := other.shift (-1)
    let holes := Holes.ofGroup [before, otherBefore, s, other]
    .restored holes (List.zipWith (fun p x => flag (rule.test p.1 p.2 x.1 x.2))
      (List.zip (before.keptValues holes) (otherBefore.keptValues holes))
      (List.zip (s.keptValues holes) (other.keptValues holes)))
  | .value level =>
    let before := s.shift (-1)
    let holes := Holes.ofGroup [before, s]
    .restored holes (List.zipWith (fun p x => flag (rule.test p level x level))
      (before.keptValues holes) (s.keptValues holes))

/-- The draft of a shift, where the place that each value is read from has a signed word. -/
def offsetDraft (s : Series α) (amount : Int) : Checked (Draft α) :=
  if (List.range s.observedCount).all fun k => isOffset (k + amount) then .ok (s.shiftDraft amount)
  else fault

section Restored
variable {group : List (Series α)} {s : Series α}

theorem length_keptValues (hs : s ∈ group) :
    (s.keptValues (Holes.ofGroup group)).length = (Holes.ofGroup group).keptLength :=
  (Holes.length_kept_of_mem hs).1

theorem fits_compact (hs : s ∈ group) :
    (Draft.direct (Holes.ofGroup group).keptDates (s.keptValues (Holes.ofGroup group))).Fits :=
  (Holes.length_kept_of_mem hs).2.trans (length_keptValues hs).symm

theorem values_compact (hs : s ∈ group) :
    ((Holes.ofGroup group).compact s).values = s.keptValues (Holes.ofGroup group) :=
  (fits_compact hs).values_series s.options

theorem dates_compact (hs : s ∈ group) :
    ((Holes.ofGroup group).compact s).dates = (Holes.ofGroup group).keptDates :=
  (fits_compact hs).dates_series s.options

/-- New values for the kept dates of a member, restored on the calendar of its group. -/
theorem restore_relabelled (hs : s ∈ group) {values : List α}
    (hLength : (Holes.ofGroup group).keptLength = values.length) :
    let base := (Holes.ofGroup group).compact s
    (Holes.ofGroup group).restore (base.derived (List.zipWith Point.mk base.dates values)) =
      (Draft.restored (Holes.ofGroup group) values).series s.options := by
  intro base
  have hFits : (Draft.direct base.dates values).Fits := by
    rw [Draft.Fits, dates_compact hs, (Holes.length_kept_of_mem hs).2, hLength]
  have hValues : (base.derived (List.zipWith Point.mk base.dates values)).values = values :=
    hFits.values_series base.options
  rw [Draft.restore_eq, hValues]
  congr 1
  exact (options_ofPoints _ _).trans (options_ofPoints _ _)

theorem length_displace (values : List α) (amount : Int) :
    (displace values amount).length = values.length := by
  cases amount with
  | ofNat amount =>
    rw [displace, List.length_append, List.length_drop, List.length_replicate]
    omega
  | negSucc amount =>
    rw [displace, List.length_append, List.length_take, List.length_replicate]
    omega

theorem fits_shiftDraft (s : Series α) (amount : Int) : (s.shiftDraft amount).Fits := by
  rw [shiftDraft, Draft.Fits, length_displace]
  exact (length_keptValues List.mem_cons_self).symm

theorem shift_eq (s : Series α) (amount : Int) :
    s.shift amount = (s.shiftDraft amount).series s.options := by
  have hMem : s ∈ [s] := List.mem_cons_self
  rw [shift, onObserved, values_compact hMem]
  exact restore_relabelled hMem (fits_shiftDraft s amount)

theorem options_shift (s : Series α) (amount : Int) : (s.shift amount).options = s.options := by
  rw [shift_eq]
  exact options_ofPoints _ _

section Crossing
variable [Zero α] [One α] (rule : Crossing α) (s : Series α)

theorem crossing_eq (other : Operand α) : (s.crossingDraft rule other).Fits ∧
    s.crossing rule other = (s.crossingDraft rule other).series s.options := by
  -- The result has the options of the shifted series, which are those of `s`.
  rw [← options_shift s (-1)]
  cases other with
  | series other =>
    let group := [s.shift (-1), other.shift (-1), s, other]
    have hBefore : s.shift (-1) ∈ group := by simp [group]
    have hOtherBefore : other.shift (-1) ∈ group := by simp [group]
    have hs : s ∈ group := by simp [group]
    have hOther : other ∈ group := by simp [group]
    have hFits : (s.crossingDraft rule (.series other)).Fits := by
      rw [crossingDraft, Draft.Fits, List.length_zipWith, List.length_zip, List.length_zip,
        length_keptValues hBefore, length_keptValues hOtherBefore, length_keptValues hs,
        length_keptValues hOther, Nat.min_self, Nat.min_self]
    refine ⟨hFits, ?_⟩
    rw [crossing, values_compact hBefore, values_compact hOtherBefore, values_compact hs,
      values_compact hOther]
    exact restore_relabelled hBefore hFits
  | value level =>
    let group := [s.shift (-1), s]
    have hBefore : s.shift (-1) ∈ group := by simp [group]
    have hs : s ∈ group := by simp [group]
    have hFits : (s.crossingDraft rule (.value level)).Fits := by
      rw [crossingDraft, Draft.Fits, List.length_zipWith, length_keptValues hBefore,
        length_keptValues hs, Nat.min_self]
    refine ⟨hFits, ?_⟩
    rw [crossing, values_compact hBefore, values_compact hs]
    exact restore_relabelled hBefore hFits

end Crossing
end Restored

section Offsets

theorem shiftLeft_eq (s : Series α) (amount : Int) :
    s.shiftLeft amount = (s.offsetDraft amount).map (Draft.series s.options) := by
  rw [shiftLeft, offsetDraft]
  split
  · exact congrArg Except.ok (shift_eq s amount)
  · rfl

theorem offsetDraft_answers_iff {s : Series α} {amount : Int} :
    (∃ d, s.offsetDraft amount = .ok d) ↔
      ∀ k < s.observedCount, isOffset (k + amount) = true := by
  rw [offsetDraft]
  refine (guard_answers_iff ⟨_, rfl⟩).trans ?_
  rw [List.all_eq_true]
  simp only [List.mem_range]

theorem fits_of_offsetDraft {s : Series α} {amount : Int} {d : Draft α}
    (h : s.offsetDraft amount = .ok d) : d.Fits := by
  rw [offsetDraft] at h
  split at h
  · cases h
    exact fits_shiftDraft s amount
  · cases h

end Offsets
end Almanac.Series
