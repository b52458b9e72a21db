import Almanac.Proofs.Edit
import Almanac.Panel

/-! # The table of a panel

The table exists exactly if every member reaches the length of the first one, and then it holds the
values up to that length.
-/
namespace Almanac.Panel
set_option autoImplicit false

section Traversal
variable {β γ : Type} {g : β → Option γ} {xs : List β}

theorem mapM_present {ε : Type} (g : β → Option γ) (xs : List β) :
    xs.mapM (fun x => (present (g x) : Outcome ε γ)) = present (xs.mapM g) := by
  induction xs with
  | nil => rfl
  | cons x xs ih =>
    rw [List.mapM_cons, List.mapM_cons, ih]
    cases g x with
    | none => rfl
    | some y => cases xs.mapM g <;> rfl

theorem mapM_eq_some_of (h : ∀ x ∈ xs, ∃ y, g x = some y) :
    ∃ ys : List γ, xs.mapM g = some ys ∧ ys.length = xs.length ∧
      ∀ i : Nat, ys[i]? = xs[i]?.bind g := by
  induction xs with
  | nil => exact ⟨[], rfl, rfl, fun _ => rfl⟩
  | cons x xs ih =>
    obtain ⟨⟨y, hy⟩, hRest⟩ := List.forall_mem_cons.mp h
    obtain ⟨ys, hOk, hLength, hEntries⟩ := ih hRest
    refine ⟨y :: ys, by rw [List.mapM_cons, hy, hOk]; rfl, congrArg Nat.succ hLength, fun i => ?_⟩
    cases i with
    | zero => exact hy.symm
    | succ i => exact hEntries i

theorem mapM_eq_none_of (h : ∃ x ∈ xs, g x = none) : xs.mapM g = none := by
  induction xs with
  | nil => simp at h
  | cons x xs ih =>
    rw [List.mapM_cons]
    cases hx : g x with
    | none => rfl
    | some y =>
      obtain ⟨z, hz, hNone⟩ := h
      rcases List.mem_cons.mp hz with rfl | hz
      · cases hx.symm.trans hNone
      · rw [ih ⟨z, hz, hNone⟩]
        rfl

end Traversal

variable {α : Type} {panel : Panel α}

/-- The values of all members at a position in time, if all of them reach it. -/
def row? (panel : Panel α) (time : Nat) : Option (List α) :=
  panel.members.mapM (·.series.value? time)

theorem table_eq (panel : Panel α) :
    panel.table = present ((List.range panel.length).mapM panel.row?) := by
  rw [table, ← mapM_present]
  congr 1
  funext time
  exact mapM_present (fun m : Member α => m.series.value? time) panel.members

/-- The rows are those up to the length of the first member, and each entry is the value that the
member of its column has at the time of its row. -/
structure Tabulates (panel : Panel α) (rows : List (List α)) : Prop where
  length : rows.length = panel.length
  width : ∀ row ∈ rows, row.length = panel.size
  entry : ∀ time position, time < panel.length →
    (rows[time]?.bind (·[position]?)) = panel.value? position time

theorem row?_eq_some {time : Nat} (h : ∀ m ∈ panel.members, time < m.series.count) :
    ∃ row, panel.row? time = some row ∧ row.length = panel.size ∧
      ∀ position, row[position]? = panel.value? position time := by
  obtain ⟨row, hRow, hLength, hEntries⟩ :=
    mapM_eq_some_of (g := fun m : Member α => m.series.value? time) fun m hm =>
      ⟨_, by rw [Series.value?, List.getElem?_eq_getElem (h m hm)]; rfl⟩
  refine ⟨row, hRow, hLength, fun position => ?_⟩
  rw [hEntries, value?, series?]
  cases panel.members[position]? <;> rfl

theorem table_of_reached (h : ∀ m ∈ panel.members, panel.length ≤ m.series.count) :
    ∃ rows, panel.table = .ok rows ∧ panel.Tabulates rows := by
  have hRow : ∀ time < panel.length, ∃ row, panel.row? time = some row ∧ row.length = panel.size ∧
      ∀ position, row[position]? = panel.value? position time :=
    fun time hTime => row?_eq_some fun m hm => Nat.lt_of_lt_of_le hTime (h m hm)
  obtain ⟨rows, hRows, hLength, hEntries⟩ :=
    mapM_eq_some_of fun time hTime =>
      (hRow time (List.mem_range.mp hTime)).imp fun _ hRow => hRow.1
  rw [List.length_range] at hLength
  have hEntry : ∀ time < panel.length, rows[time]? = panel.row? time := by
    intro time hTime
    rw [hEntries, List.getElem?_range hTime, Option.bind_some]
  refine ⟨rows, by rw [table_eq, hRows]; rfl, hLength, fun row hMem => ?_, ?_⟩
  · obtain ⟨time, hAt⟩ := List.mem_iff_getElem?.mp hMem
    have hTime : time < panel.length := hLength ▸ (List.getElem?_eq_some_iff.mp hAt).1
    obtain ⟨row', hSome, hWidth, -⟩ := hRow time hTime
    rw [hEntry time hTime, hSome] at hAt
    obtain rfl := Option.some.inj hAt
    exact hWidth
  · intro time position hTime
    obtain ⟨row, hSome, -, hValues⟩ := hRow time hTime
    rw [hEntry time hTime, hSome]
    exact hValues position

theorem table_of_short (h : ∃ m ∈ panel.members, m.series.count < panel.length) :
    panel.table = fault := by
  obtain ⟨m, hm, hShort⟩ := h
  have hRow : panel.row? m.series.count = none :=
    mapM_eq_none_of ⟨m, hm, by simp [Series.value?, Series.count]⟩
  rw [table_eq, mapM_eq_none_of ⟨_, List.mem_range.mpr hShort, hRow⟩]
  rfl

end Almanac.Panel
