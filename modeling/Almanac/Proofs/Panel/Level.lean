import Almanac.Proofs.Panel.Action
import Almanac.Proofs.Panel.Table
import Almanac.Proofs.Series.Count

/-! # Lengths of the members of a panel

A new member has to have the length of the first one, and values are set in place. A change of a
member is not checked: what adds a date or takes one away leaves it longer or shorter than the
others. The table of a panel needs the length of the first member of all of them.
-/
namespace Almanac.Panel
set_option autoImplicit false

variable {α : Type} (panel : Panel α)

def counts : List Nat := panel.members.map (·.series.count)

/-- All members have the same number of points. -/
def Level : Prop := ∀ m ∈ panel.counts, ∀ n ∈ panel.counts, m = n

theorem length_counts : panel.counts.length = panel.size := List.length_map _

theorem getElem?_counts (position : Nat) :
    panel.counts[position]? = (panel.series? position).map Series.count := by
  simp [counts, series?, Function.comp_def]

theorem counts_withSeries (position : Nat) (s : Series α) :
    (panel.withSeries position s).counts = panel.counts.set position s.count := by
  apply List.ext_getElem?
  intro i
  simp only [counts, withSeries, List.getElem?_map, List.getElem?_modify, List.getElem?_set,
    List.length_map]
  by_cases hi : position = i
  · subst hi
    by_cases hLt : position < panel.members.length
    · simp [hLt]
    · simp [hLt]
  · simp [hi]

theorem level_of_size_le_one (h : panel.size ≤ 1) : panel.Level := by
  intro m hm n hn
  obtain ⟨i, hi⟩ := List.mem_iff_getElem?.mp hm
  obtain ⟨j, hj⟩ := List.mem_iff_getElem?.mp hn
  have hi' := (List.getElem?_eq_some_iff.mp hi).1
  have hj' := (List.getElem?_eq_some_iff.mp hj).1
  rw [length_counts] at hi' hj'
  obtain rfl : i = j := by omega
  exact Option.some.inj (hi.symm.trans hj)

variable {panel}

theorem Level.withSeries_iff (h : panel.Level) {position : Nat} {s t : Series α}
    (hMember : panel.series? position = some s) :
    (panel.withSeries position t).Level ↔ panel.size ≤ 1 ∨ t.count = s.count := by
  have hCount : panel.counts[position]? = some s.count := by rw [getElem?_counts, hMember]; rfl
  constructor
  · intro hLevel
    by_contra hNot
    obtain ⟨hSize, hNe⟩ := not_or.mp hNot
    obtain ⟨other, hOther, hLt⟩ : ∃ other, other ≠ position ∧ other < panel.size := by
      cases position with
      | zero => exact ⟨1, by omega, by omega⟩
      | succ i => exact ⟨0, by omega, by omega⟩
    rw [← length_counts] at hLt
    have hChanged : t.count ∈ (panel.withSeries position t).counts := by
      rw [counts_withSeries]
      exact List.mem_set (List.getElem?_eq_some_iff.mp hCount).1 t.count
    have hKept : panel.counts[other] ∈ (panel.withSeries position t).counts := by
      rw [counts_withSeries]
      refine List.mem_iff_getElem?.mpr ⟨other, ?_⟩
      rw [List.getElem?_set_ne hOther.symm, List.getElem?_eq_getElem hLt]
    have hBefore := h _ (List.getElem_mem hLt) _ (List.mem_of_getElem? hCount)
    exact hNe ((hLevel _ hChanged _ hKept).trans hBefore)
  · rintro (hSize | hSame)
    · apply level_of_size_le_one
      rwa [← length_counts, counts_withSeries, List.length_set, length_counts]
    · obtain ⟨hLt, hEntry⟩ := List.getElem?_eq_some_iff.mp hCount
      rw [Level, counts_withSeries, hSame, ← hEntry, List.set_getElem_self]
      exact h

theorem mem_counts {n : Nat} : n ∈ panel.counts ↔ ∃ m ∈ panel.members, m.series.count = n := by
  simp [counts]

theorem Level.count_of_checkLength {s : Series α} (h : panel.Level)
    (hCheck : panel.checkLength s = .ok ()) : ∀ n ∈ panel.counts, n = s.count := by
  intro n hn
  rw [checkLength] at hCheck
  cases hFirst : panel.members.head? with
  | none =>
    rw [counts, List.head?_eq_none_iff.mp hFirst] at hn
    cases hn
  | some first =>
    have hMem : first.series.count ∈ panel.counts :=
      mem_counts.mpr ⟨first, List.mem_of_head? hFirst, rfl⟩
    rw [hFirst] at hCheck
    by_cases hCount : s.count = first.series.count
    · rw [hCount]
      exact h n hn _ hMem
    · simp only [if_neg hCount] at hCheck
      cases hCheck

theorem keeps_add (name : String) (s : Series α) : Edit.Keeps Level (add name s) := by
  intro panel h
  rw [add, Edit.runOn_current, Edit.runOn_require]
  cases panel.checkName name with
  | error failure => exact h
  | ok _ =>
    simp only [Edit.runOn_require]
    cases hCheck : panel.checkLength s with
    | error failure => exact h
    | ok _ =>
      have hSame := h.count_of_checkLength hCheck
      intro m hm n hn
      simp only [Edit.runOn_write, counts, List.map_append, List.mem_append, List.map_cons,
        List.map_nil, List.mem_singleton] at hm hn
      rcases hm with hm | rfl
      · rcases hn with hn | rfl
        · exact h m hm n hn
        · exact hSame m hm
      · rcases hn with hn | rfl
        · exact (hSame n hn).symm
        · rfl

theorem keeps_setValue (position time : Nat) (x : α) :
    Edit.Keeps Level (setValue position time x) := by
  intro panel h
  rw [setValue, Edit.runOn_current, Edit.runOn_require]
  cases Series.checkIndex "index" position panel.size with
  | error failure => exact h
  | ok _ =>
    cases hMember : panel.series? position with
    | none => exact h
    | some s =>
      simp only [Edit.runOn_lift]
      cases hSet : s.setValue time x with
      | error failure => exact h
      | ok t => exact (h.withSeries_iff hMember).mpr (.inr (Series.count_of_setValue hSet))

theorem level_of_made [Hole α] (hMade : panel = .empty ∨
    ∃ calendar size, ofCalendar? calendar size = .ok panel) : panel.Level := by
  have hEmpty : (empty : Panel α).Level := level_of_size_le_one empty (Nat.zero_le 1)
  rcases hMade with rfl | ⟨calendar, size, hOk⟩
  · exact hEmpty
  · rw [ofCalendar?] at hOk
    refine Edit.Keeps.result ?_ hEmpty hOk
    refine (Edit.Keeps.forM (fun position => ?_) _).bind fun _ panel h => h
    exact (Edit.Keeps.lift _).bind fun s => keeps_add _ s

theorem snd_of_answered {result : Series.Checked Unit × Panel α} {r : Answer × Panel α}
    (h : answered result = some r) : r.2 = result.2 := by
  obtain ⟨(reason | _) | _, last⟩ := result
  · exact congrArg Prod.snd (Option.some.inj h).symm
  · cases h
  · exact congrArg Prod.snd (Option.some.inj h).symm

section Step
variable [Hole α]

/-- Whether an action changes the number of points of a member. -/
def Action.resizes (panel : Panel α) : Action α → Bool
  | add .. | setValue .. => false
  | change position action => (panel.series? position).any fun s => action.resizes s
  | changeNamed name action => (panel.named? name).any fun s => action.resizes s

theorem Level.changeAt_iff (h : panel.Level) {position : Nat} {action : Series.Action α}
    {r : Answer × Panel α} (hStep : panel.changeAt position action = some r) :
    r.2.Level ↔
      panel.size ≤ 1 ∨ ((panel.series? position).any fun s => action.resizes s) = false := by
  rw [changeAt] at hStep
  cases hMember : panel.series? position with
  | none =>
    rw [hMember] at hStep
    obtain rfl := Option.some.inj hStep
    exact iff_of_true h (.inr rfl)
  | some s =>
    rw [hMember] at hStep
    obtain ⟨t, hAction, rfl⟩ := Option.map_eq_some_iff.mp hStep
    rw [h.withSeries_iff hMember, Series.count_of_step hAction]
    rfl

/-- What an action does to the lengths depends on whether it resizes one of several members. -/
theorem Level.step_iff (h : panel.Level) {action : Action α} {r : Answer × Panel α}
    (hStep : panel.step action = some r) :
    r.2.Level ↔ panel.size ≤ 1 ∨ action.resizes panel = false := by
  cases action with
  | add name s =>
    rw [snd_of_answered hStep]
    exact iff_of_true (keeps_add name s panel h) (.inr rfl)
  | setValue position time x =>
    rw [snd_of_answered hStep]
    exact iff_of_true (keeps_setValue position time x panel h) (.inr rfl)
  | change position action => exact h.changeAt_iff hStep
  | changeNamed name action =>
    rw [step] at hStep
    rw [Action.resizes, named?]
    cases hName : panel.position? name with
    | none =>
      rw [hName] at hStep
      obtain rfl := Option.some.inj hStep
      exact iff_of_true h (.inr rfl)
    | some position =>
      rw [hName] at hStep
      exact h.changeAt_iff hStep

end Step

section Table

theorem Level.count_eq_length (h : panel.Level) {m : Member α} (hm : m ∈ panel.members) :
    m.series.count = panel.length := by
  cases hFirst : panel.members.head? with
  | none =>
    rw [List.head?_eq_none_iff.mp hFirst] at hm
    cases hm
  | some first =>
    rw [length, hFirst]
    exact h _ (mem_counts.mpr ⟨m, hm, rfl⟩) _
      (mem_counts.mpr ⟨first, List.mem_of_head? hFirst, rfl⟩)

/-- The table of a level panel has a place for every visible point and for nothing else. -/
theorem Level.tabulated (h : panel.Level) :
    ∃ rows, panel.table = .ok rows ∧ panel.Tabulates rows ∧
      ∀ time position, (rows[time]?.bind (·[position]?)) = panel.value? position time := by
  obtain ⟨rows, hTable, hRows⟩ :=
    table_of_reached fun m hm => Nat.le_of_eq (h.count_eq_length hm).symm
  refine ⟨rows, hTable, hRows, fun time position => ?_⟩
  by_cases hTime : time < panel.length
  · exact hRows.entry time position hTime
  · have hBeyond : panel.value? position time = none := by
      rw [value?, series?]
      cases hMember : panel.members[position]? with
      | none => rfl
      | some m =>
        have hCount := h.count_eq_length (List.mem_of_getElem? hMember)
        simp only [Series.count] at hCount
        simp [Series.value?, hCount, hTime]
    have hNoRow : rows[time]? = none := by
      rw [List.getElem?_eq_none_iff, hRows.length]
      omega
    rw [hBeyond, hNoRow]
    rfl

end Table

variable [Hole α]

/-- The members of a panel keep one length throughout a history exactly if no action of it, while
there are several members, gives a date to one of them or takes one from it. Then the table holds
the value of every point. In any history it is a fault exactly if a member is shorter than the first
one, and else it holds the values up to the length of the first one. -/
theorem level_throughout_iff {start : Panel α}
    (hMade : start = .empty ∨ ∃ calendar size, ofCalendar? calendar size = .ok start)
    (actions : List (Action α)) {answers : List Answer} {panel : Panel α}
    (hRun : start.run actions = some (answers, panel)) :
    ((∀ before rest, actions = before ++ rest → ∀ u, (start.run before).map Prod.snd = some u →
        u.Level) ↔
      ∀ before action rest, actions = before ++ action :: rest →
        ∀ u, (start.run before).map Prod.snd = some u → u.size ≤ 1 ∨ action.resizes u = false) ∧
    (panel.Level → ∃ rows, panel.table = .ok rows ∧ panel.Tabulates rows ∧
      ∀ time position, (rows[time]?.bind (·[position]?)) = panel.value? position time) ∧
    ((∀ m ∈ panel.members, panel.length ≤ m.series.count) →
      ∃ rows, panel.table = .ok rows ∧ panel.Tabulates rows) ∧
    ((∃ m ∈ panel.members, m.series.count < panel.length) → panel.table = fault) := by
  refine ⟨?_, Level.tabulated, table_of_reached, table_of_short⟩
  exact always_iff (fun _ _ _ h hStep => h.step_iff hStep) (level_of_made hMade) hRun

/-- A point removed from the second of two members leaves the panel without a table. -/
theorem removal_leaves_no_table :
    ∃ start panel : Panel Float, ofCalendar? [.latest] 2 = .ok start ∧
      start.run [.changeNamed "1" (.remove .latest)] =
        some ([.changed (.removed true)], panel) ∧
      ¬panel.Level ∧ panel.table = fault := by
  let s : Series Float := Series.ofPoints default [⟨.latest, hole⟩]
  let start : Panel Float := ⟨[⟨"0", s⟩, ⟨"1", s⟩], some [.latest]⟩
  let panel := start.withSeries 1 (s.withoutPoint .latest 0)
  have hMade : ofCalendar? [.latest] 2 = .ok start := by rfl
  have hPosition : s.position? .latest = some 0 := by
    rw [Series.indexedBut_ofPoints]
    decide
  have hRemove : s.step (.remove .latest) = some (.removed true, s.withoutPoint .latest 0) := by
    rw [Series.step, Series.perform,
      Series.remove_of_position? (Series.indexedBut_ofPoints _ _) hPosition]
    rfl
  have hStep : start.step (.changeNamed "1" (.remove .latest)) =
      some (.changed (.removed true), panel) := by
    change (s.step (.remove .latest)).map _ = _
    rw [hRemove]
    rfl
  have hRun : start.run [.changeNamed "1" (.remove .latest)] =
      some ([.changed (.removed true)], panel) := by
    rw [run, runBy, hStep]
    rfl
  obtain ⟨-, hLevel, -, hShort⟩ := level_throughout_iff (.inr ⟨_, _, hMade⟩) _ hRun
  have hTable := hShort ⟨_, List.mem_of_mem_tail List.mem_cons_self, by decide⟩
  refine ⟨start, panel, hMade, hRun, fun h => ?_, hTable⟩
  obtain ⟨rows, hRows, -⟩ := hLevel h
  cases hTable.symm.trans hRows

end Almanac.Panel
