import Mathlib.Data.List.Sort
import Almanac.Calendar
import Almanac.Proofs.Order
import Almanac.Proofs.Pass

/-! # Calendars without repeats

The first occurrences of the dates of a calendar, in the order in which they come; a sorted calendar
with each date once, which its members determine; and the earliest date.
-/
namespace Almanac.Calendar
set_option autoImplicit false

section FirstOccurrences

/-- To choose dates and to drop repeats are one thing in either order. -/
theorem eraseDups_filter (p : Instant → Bool) (dates : Calendar) :
    (dates.filter p).eraseDups = dates.eraseDups.filter p := by
  match dates with
  | [] => rfl
  | d :: dates =>
    have hRest := eraseDups_filter p (dates.filter fun e => !e == d)
    rw [List.eraseDups_cons]
    by_cases hd : p d = true
    · rw [List.filter_cons_of_pos hd, List.filter_cons_of_pos hd, List.eraseDups_cons, ← hRest,
        List.filter_comm]
    · have hSame : (dates.filter fun e => !e == d).filter p = dates.filter p := by
        rw [List.filter_filter]
        apply List.filter_congr
        intro e _
        by_cases he : e = d
        · simp [he, hd]
        · simp [he]
      rw [List.filter_cons_of_neg hd, List.filter_cons_of_neg hd, ← hRest, hSame]
termination_by dates.length
decreasing_by exact Nat.lt_succ_of_le (List.length_filter_le _ _)

theorem pairwise_idxOf_eraseDups (dates : Calendar) :
    dates.eraseDups.Pairwise fun d e => dates.idxOf d < dates.idxOf e := by
  induction dates with
  | nil => exact List.Pairwise.nil
  | cons d dates ih =>
    have hLater : ∀ e ∈ (dates.filter fun e => !e == d).eraseDups,
        (d :: dates).idxOf e = dates.idxOf e + 1 := by
      intro e he
      rw [List.mem_eraseDups, List.mem_filter] at he
      have hNe : d ≠ e := by
        rintro rfl
        simp at he
      exact List.idxOf_cons_ne dates hNe
    rw [List.eraseDups_cons, List.pairwise_cons]
    constructor
    · intro e he
      rw [hLater e he, List.idxOf_cons_self]
      exact Nat.succ_pos _
    · rw [eraseDups_filter] at hLater ⊢
      refine (ih.filter _).imp_of_mem fun {e f} he hf hLt => ?_
      rw [hLater e he, hLater f hf]
      exact Nat.succ_lt_succ hLt

theorem nodup_eraseDups (dates : Calendar) : dates.eraseDups.Nodup := by
  refine (pairwise_idxOf_eraseDups dates).imp fun {d e} hLt hEq => ?_
  rw [hEq] at hLt
  exact Nat.lt_irrefl _ hLt

end FirstOccurrences

section Ascending

theorem pairwise_sorted_eraseReps (dates : Calendar) :
    dates.sorted.eraseReps.Pairwise (· < ·) := by
  apply Pass.pairwise_eraseReps
  exact (Instant.pairwise_mergeSort id dates).imp fun hLe hNe => Instant.lt_of_le_of_ne hLe hNe

theorem mem_sorted_eraseReps (dates : Calendar) (d : Instant) :
    d ∈ dates.sorted.eraseReps ↔ d ∈ dates := by
  rw [Pass.mem_eraseReps, sorted, List.mem_mergeSort]

/-- The members of a calendar determine it, once it is sorted and each date stands there once. -/
theorem sorted_eraseReps_congr {dates dates' : Calendar} (h : ∀ d, d ∈ dates ↔ d ∈ dates') :
    dates.sorted.eraseReps = dates'.sorted.eraseReps := by
  refine (pairwise_sorted_eraseReps dates).eq_of_mem_iff (pairwise_sorted_eraseReps dates') ?_
  intro d
  rw [mem_sorted_eraseReps, mem_sorted_eraseReps, h]

end Ascending

section Earliest

theorem foldl_earlier (dates : Calendar) (d : Instant) :
    let first := dates.foldl (fun best e => if e < best then e else best) d
    first ∈ d :: dates ∧ ∀ e ∈ d :: dates, first ≤ e := by
  induction dates generalizing d with
  | nil => simp [Instant.le_refl]
  | cons f dates ih =>
    rw [List.foldl_cons]
    split
    · rename_i hEarlier
      obtain ⟨hMem, hLe⟩ := ih f
      refine ⟨List.mem_cons_of_mem d hMem, fun e he => ?_⟩
      rcases List.mem_cons.mp he with rfl | he
      · exact Instant.le_trans (hLe f List.mem_cons_self) (Instant.le_of_lt hEarlier)
      · exact hLe e he
    · rename_i hLater
      obtain ⟨hMem, hLe⟩ := ih d
      constructor
      · rcases List.mem_cons.mp hMem with hHead | hTail
        · exact List.mem_cons.mpr (.inl hHead)
        · exact List.mem_cons_of_mem _ (List.mem_cons_of_mem _ hTail)
      · intro e he
        rcases List.mem_cons.mp he with rfl | he
        · exact hLe e List.mem_cons_self
        · rcases List.mem_cons.mp he with rfl | he
          · exact Instant.le_trans (hLe d List.mem_cons_self) (Instant.not_lt.mp hLater)
          · exact hLe e (List.mem_cons_of_mem d he)

theorem earliest?_eq_none_iff (dates : Calendar) : dates.earliest? = none ↔ dates = [] := by
  cases dates <;> simp [earliest?]

theorem least_of_earliest? {dates : Calendar} {first : Instant} (h : dates.earliest? = some first) :
    first ∈ dates ∧ ∀ d ∈ dates, first ≤ d := by
  cases dates with
  | nil => cases h
  | cons d dates =>
    obtain rfl := Option.some.inj h
    exact foldl_earlier dates d

end Earliest
end Almanac.Calendar
