import Mathlib.Data.List.Nodup
import Almanac.Instant.Basic

/-! # The order of instants -/
namespace Almanac.Instant
set_option autoImplicit false

theorem le_trans {d e f : Instant} (hde : d ≤ e) (hef : e ≤ f) : d ≤ f := Int.le_trans hde hef

theorem le_total (d e : Instant) : d ≤ e ∨ e ≤ d := Int.le_total d.nanos e.nanos

theorem le_antisymm {d e : Instant} (hde : d ≤ e) (hed : e ≤ d) : d = e := by
  have hNanos : d.nanos = e.nanos := Int.le_antisymm hde hed
  cases d
  cases e
  simpa using hNanos

theorem le_refl (d : Instant) : d ≤ d := Int.le_refl d.nanos

theorem not_lt {d e : Instant} : ¬ d < e ↔ e ≤ d := Int.not_lt

theorem not_le {d e : Instant} : ¬ d ≤ e ↔ e < d := Int.not_le

theorem lt_irrefl (d : Instant) : ¬ d < d := Int.lt_irrefl d.nanos

theorem le_of_lt {d e : Instant} (h : d < e) : d ≤ e := Int.le_of_lt h

theorem lt_of_le_of_ne {d e : Instant} (h : d ≤ e) (hNe : d ≠ e) : d < e :=
  not_le.mp fun hed => hNe (le_antisymm h hed)

theorem lt_of_lt_of_le {d e f : Instant} (hde : d < e) (hef : e ≤ f) : d < f :=
  Int.lt_of_lt_of_le hde hef

theorem lt_of_le_of_lt {d e f : Instant} (hde : d ≤ e) (hef : e < f) : d < f :=
  Int.lt_of_le_of_lt hde hef

theorem lt_trans {d e f : Instant} (hde : d < e) (hef : e < f) : d < f := Int.lt_trans hde hef

instance trans_lt : IsTrans Instant fun d e => d < e := ⟨fun _ _ _ => lt_trans⟩

instance irrefl_lt : Std.Irrefl fun d e : Instant => d < e := ⟨lt_irrefl⟩

instance antisymm_lt : Std.Antisymm fun d e : Instant => d < e :=
  ⟨fun _ _ hde hed => le_antisymm (le_of_lt hde) (le_of_lt hed)⟩

/-- A list sorted by a date is ascending in it. -/
theorem pairwise_mergeSort {β : Type} (date : β → Instant) (l : List β) :
    (l.mergeSort fun x y => date x ≤ date y).Pairwise fun x y => date x ≤ date y := by
  have hTrans : ∀ x y z : β, decide (date x ≤ date y) = true → decide (date y ≤ date z) = true →
      decide (date x ≤ date z) = true := by
    intro x y z hxy hyz
    rw [decide_eq_true_eq] at hxy hyz ⊢
    exact le_trans hxy hyz
  have hTotal : ∀ x y : β, (decide (date x ≤ date y) || decide (date y ≤ date x)) = true := by
    intro x y
    simpa using le_total (date x) (date y)
  exact (List.pairwise_mergeSort hTrans hTotal l).imp of_decide_eq_true

end Almanac.Instant
