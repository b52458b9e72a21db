import Mathlib.Data.List.Induction
import Mathlib.Data.List.Nodup
import Mathlib.Order.Lattice

/-! # Passes over a list

The pass that drops repeated neighbours, over a list in which later entries are greater or the same,
and the pass that keeps the first of the greatest entries.
-/
namespace Almanac.Pass
set_option autoImplicit false

variable {β : Type}

section Neighbours
variable [BEq β] [LawfulBEq β]

/-- What the pass keeps: the entries so far descend, and all others follow. -/
theorem pairwise_eraseRepsLoop {lt : β → β → Prop} [IsTrans β lt] {b : β} {rest seen : List β}
    (hRest : (b :: rest).Pairwise fun x y => x ≠ y → lt x y)
    (hSeen : (b :: seen).Pairwise fun x y => lt y x) :
    (List.eraseRepsBy.loop (fun x y : β => x == y) b rest seen).Pairwise lt := by
  induction rest generalizing b seen with
  | nil =>
    rw [List.eraseRepsBy.loop, List.pairwise_reverse]
    exact hSeen
  | cons d rest ih =>
    obtain ⟨hFirst, hRest⟩ := List.pairwise_cons.mp hRest
    rw [List.eraseRepsBy.loop]
    split
    · rename_i hSame
      rw [beq_iff_eq] at hSame
      exact ih (hSame ▸ hRest) hSeen
    · rename_i hNew
      have hLt : lt b d := hFirst d List.mem_cons_self (by simpa using hNew)
      refine ih hRest (List.pairwise_cons.mpr ⟨fun x hx => ?_, hSeen⟩)
      rcases List.mem_cons.mp hx with rfl | hx
      · exact hLt
      · exact IsTrans.trans x b d ((List.pairwise_cons.mp hSeen).1 x hx) hLt

theorem mem_eraseRepsLoop (b : β) (rest seen : List β) (x : β) :
    x ∈ List.eraseRepsBy.loop (fun y z : β => y == z) b rest seen ↔ x ∈ seen ∨ x ∈ b :: rest := by
  induction rest generalizing b seen with
  | nil => simp [List.eraseRepsBy.loop, or_comm]
  | cons d rest ih =>
    rw [List.eraseRepsBy.loop]
    split
    · rename_i hSame
      rw [beq_iff_eq] at hSame
      simp [ih, hSame]
    · rw [ih]
      simp only [List.mem_cons]
      tauto

theorem pairwise_eraseReps {lt : β → β → Prop} [IsTrans β lt] {l : List β}
    (h : l.Pairwise fun x y => x ≠ y → lt x y) : l.eraseReps.Pairwise lt := by
  cases l with
  | nil => exact List.Pairwise.nil
  | cons b l => exact pairwise_eraseRepsLoop h (List.pairwise_singleton _ b)

theorem mem_eraseReps (l : List β) (x : β) : x ∈ l.eraseReps ↔ x ∈ l := by
  cases l with
  | nil => exact Iff.rfl
  | cons b l => simpa [List.eraseReps, List.eraseRepsBy] using mem_eraseRepsLoop b l [] x

end Neighbours

/-- The greatest entry comes behind smaller ones, and none behind it is greater. -/
theorem foldl_first_greatest {γ : Type} [LinearOrder γ] (key : β → γ) (first : β)
    (others : List β) :
    let best := others.foldl (fun best b => if key best < key b then b else best) first
    ∃ before after, first :: others = before ++ best :: after ∧
      (∀ b ∈ before, key b < key best) ∧ ∀ b ∈ after, key b ≤ key best := by
  induction others using List.reverseRecOn with
  | nil => exact ⟨[], [], rfl, by simp, by simp⟩
  | append_singleton others d ih =>
    obtain ⟨before, after, hSplit, hBefore, hAfter⟩ := ih
    rw [List.foldl_append, List.foldl_cons, List.foldl_nil]
    split
    · rename_i hGreater
      refine ⟨first :: others, [], rfl, ?_, by simp⟩
      intro b hb
      rw [hSplit, List.mem_append, List.mem_cons] at hb
      rcases hb with hb | rfl | hb
      · exact lt_trans (hBefore b hb) hGreater
      · exact hGreater
      · exact lt_of_le_of_lt (hAfter b hb) hGreater
    · rename_i hLess
      refine ⟨before, after ++ [d], by rw [← List.cons_append, hSplit]; simp, hBefore, ?_⟩
      intro b hb
      rcases List.mem_append.mp hb with hb | hb
      · exact hAfter b hb
      · obtain rfl := List.mem_singleton.mp hb
        exact not_lt.mp hLess

end Almanac.Pass
