import Std.Data.String.ToNat
import Almanac.Proofs.Panel.Level

/-! # Calendars that fit their panels

A panel takes its calendar from its first member, and then the two have one length. A panel that is
made on a calendar without members has a calendar before it has a first member, and nothing compares
the two: the calendar fits from then on exactly if that member happens to have as many points.
-/
namespace Almanac.Panel
set_option autoImplicit false
open Edit

variable {α : Type}

/-- The calendar, where there is one, has a date for every point of every member. -/
def Fits (panel : Panel α) : Prop :=
  ∀ dates, panel.calendar = some dates → ∀ n ∈ panel.counts, n = dates.length

/-- A length agrees with a calendar unless one of the two is still open. -/
def Agrees (calendar : Option Calendar) (length : Option Nat) : Prop :=
  ∀ dates, calendar = some dates → ∀ n, length = some n → n = dates.length

section Member
variable {panel : Panel α}

theorem Level.fits_iff (h : panel.Level) :
    panel.Fits ↔ Agrees panel.calendar panel.counts.head? := by
  constructor
  · intro hFits dates hDates n hn
    exact hFits dates hDates n (List.mem_of_head? hn)
  · intro hAgrees dates hDates n hn
    cases hFirst : panel.counts.head? with
    | none =>
      rw [List.head?_eq_none_iff.mp hFirst] at hn
      cases hn
    | some first =>
      rw [h n hn first (List.mem_of_head? hFirst)]
      exact hAgrees dates hDates first hFirst

theorem head?_counts (panel : Panel α) :
    panel.counts.head? = panel.members.head?.map (·.series.count) := List.head?_map

theorem exists_head?_of_position? {name : String} (h : (panel.position? name).isSome) :
    ∃ n, panel.counts.head? = some n := by
  obtain ⟨position, hPosition⟩ := Option.isSome_iff_exists.mp h
  have hLt := (List.findIdx?_eq_some_iff_getElem.mp hPosition).1
  exact ⟨_, List.head?_eq_some_head (by
    rw [ne_eq, ← List.length_eq_zero_iff, length_counts, size]
    omega)⟩

/-- A member with a calendar for the panel, unless it has one. -/
def joined (panel : Panel α) (name : String) (s : Series α) : Panel α :=
  ⟨panel.members ++ [⟨name, s⟩], panel.calendar.orElse fun _ => some s.dates⟩

theorem runOn_add_joined {name : String} {s : Series α} (hName : panel.position? name = none)
    (hLength : ∀ n, panel.counts.head? = some n → s.count = n) :
    runOn panel (add name s) = (.ok (), panel.joined name s) := by
  rw [head?_counts] at hLength
  rw [add, runOn_current, runOn_require, checkName, hName, runOn_require, checkLength]
  cases hFirst : panel.members.head? with
  | none => rfl
  | some first =>
    rw [hFirst] at hLength
    simp only [if_pos (hLength _ rfl)]
    rfl

/-- A series joins a panel, or the panel has members and stays as it is. -/
theorem runOn_add (panel : Panel α) (name : String) (s : Series α) :
    (runOn panel (add name s) = (.ok (), panel.joined name s) ∧
      ∀ n, panel.counts.head? = some n → s.count = n) ∨
    ∃ reason, runOn panel (add name s) = (.error (.refused reason), panel) ∧
      ∃ n, panel.counts.head? = some n := by
  by_cases hName : (panel.position? name).isSome
  · refine .inr ⟨.duplicateName name, ?_, exists_head?_of_position? hName⟩
    rw [add, runOn_current, runOn_require, checkName, if_pos hName]
    rfl
  by_cases hLength : ∀ n, panel.counts.head? = some n → s.count = n
  · exact .inl ⟨runOn_add_joined (by simpa using hName) hLength, hLength⟩
  · obtain ⟨n, hFirst, hCount⟩ : ∃ n, panel.counts.head? = some n ∧ s.count ≠ n := by
      simpa using hLength
    rw [head?_counts] at hFirst
    obtain ⟨first, hMember, rfl⟩ := Option.map_eq_some_iff.mp hFirst
    refine .inr ⟨.lengthMismatch first.series.count s.count, ?_, _,
      (head?_counts panel).trans hFirst⟩
    rw [add, runOn_current, runOn_require, checkName, if_neg hName, runOn_require, checkLength,
      hMember]
    simp only [if_neg hCount]
    rfl

/-- A value that is set in place changes neither the lengths nor the calendar. -/
theorem answered_setValue (panel : Panel α) (position time : Nat) (x : α) :
    ∃ answer last, answered (runOn panel (setValue position time x)) = some (answer, last) ∧
      last.counts = panel.counts ∧ last.calendar = panel.calendar := by
  rw [setValue, runOn_current, runOn_require, Series.checkIndex]
  by_cases hPosition : position < panel.size
  · simp only [if_pos hPosition]
    cases hMember : panel.series? position with
    | none => exact ⟨_, _, rfl, rfl, rfl⟩
    | some s =>
      simp only [runOn_lift, Series.setValue, Series.checkIndex]
      by_cases hTime : time < s.count
      · simp only [if_pos hTime]
        refine ⟨_, _, rfl, ?_, rfl⟩
        obtain ⟨hLt, hEntry⟩ := List.getElem?_eq_some_iff.mp
          (show panel.counts[position]? = some s.count by rw [getElem?_counts, hMember]; rfl)
        rw [counts_withSeries, Series.count_overwrite, ← hEntry, List.set_getElem_self]
      · simp only [if_neg hTime]
        exact ⟨_, _, rfl, rfl, rfl⟩
  · simp only [if_neg hPosition]
    exact ⟨_, _, rfl, rfl, rfl⟩

end Member

/-- Whether an action is one of the panel itself, and not of a member that it hands out. -/
def Action.isOwn : Action α → Bool
  | add .. | setValue .. => true
  | change .. | changeNamed .. => false

def Action.added? : Action α → Option (Series α)
  | add _ s => some s
  | setValue .. | change .. | changeNamed .. => none

/-- The series that the first addition of a history brings. -/
def firstAdded? (actions : List (Action α)) : Option (Series α) := actions.findSome? Action.added?

/-- The length of the first member, or of the series that will be the first member. -/
def leadingLength (panel : Panel α) (actions : List (Action α)) : Option Nat :=
  panel.counts.head?.or ((firstAdded? actions).map Series.count)

section Leading
variable {panel : Panel α} {rest : List (Action α)}

theorem leadingLength_of_head? {n : Nat} (h : panel.counts.head? = some n)
    (actions : List (Action α)) : panel.leadingLength actions = some n := by
  rw [leadingLength, h, Option.some_or]

theorem leadingLength_add (panel : Panel α) (name : String) (s : Series α)
    (rest : List (Action α)) :
    panel.leadingLength (.add name s :: rest) = panel.counts.head?.or (some s.count) := rfl

theorem leadingLength_joined (panel : Panel α) (name : String) (s : Series α)
    (actions : List (Action α)) :
    (panel.joined name s).leadingLength actions = panel.counts.head?.or (some s.count) := by
  have hCounts : (panel.joined name s).counts = panel.counts ++ [s.count] := by
    rw [counts, joined, List.map_append]
    rfl
  rw [leadingLength, hCounts, List.head?_append, Option.or_assoc]
  rfl

/-- The panel takes the calendar of a new member only if it has none, and that calendar fits. -/
theorem agrees_joined (name : String) {s : Series α}
    (hLength : ∀ n, panel.counts.head? = some n → s.count = n) :
    Agrees (panel.joined name s).calendar ((panel.joined name s).leadingLength rest) ↔
      Agrees panel.calendar (panel.leadingLength (.add name s :: rest)) := by
  rw [leadingLength_joined, leadingLength_add, joined]
  cases hCalendar : panel.calendar with
  | some dates => rfl
  | none =>
    refine iff_of_true ?_ nofun
    intro dates hDates n hn
    obtain rfl := Option.some.inj hDates
    rw [s.length_dates]
    cases hFirst : panel.counts.head? with
    | none =>
      rw [hFirst] at hn
      exact (Option.some.inj hn).symm
    | some first =>
      rw [hFirst] at hn
      obtain rfl := Option.some.inj hn
      exact (hLength first hFirst).symm

end Leading

section Run
variable [Hole α]

/-- Every own action is answered, and the length that has to agree with the calendar is known before
it as it is after it. -/
theorem Level.own_step {panel : Panel α} (h : panel.Level) {action : Action α}
    (hOwn : action.isOwn = true) : ∃ r, panel.step action = some r ∧ r.2.Level ∧ ∀ rest,
      Agrees r.2.calendar (r.2.leadingLength rest) ↔
        Agrees panel.calendar (panel.leadingLength (action :: rest)) := by
  cases action with
  | add name s =>
    rcases runOn_add panel name s with ⟨hRun, hLength⟩ | ⟨reason, hRun, n, hFirst⟩
    · have hLevel := keeps_add name s panel h
      rw [hRun] at hLevel
      refine ⟨(.done, panel.joined name s), by rw [step, hRun]; rfl, hLevel, fun rest => ?_⟩
      exact agrees_joined name hLength
    · refine ⟨(.refused reason, panel), by rw [step, hRun]; rfl, h, fun rest => ?_⟩
      rw [leadingLength_of_head? hFirst, leadingLength_of_head? hFirst]
  | setValue position time x =>
    obtain ⟨answer, last, hStep, hCounts, hCalendar⟩ := answered_setValue panel position time x
    refine ⟨(answer, last), hStep, by rwa [Level, hCounts], fun rest => ?_⟩
    rw [leadingLength, hCounts, hCalendar]
    rfl
  | change position action => cases hOwn
  | changeNamed name action => cases hOwn

/-- A history of own actions is answered to its end. The calendar fits then exactly if it agrees, at
the start, with the length of the first member or of the series that becomes the first member. -/
theorem Level.own_run {panel : Panel α} (h : panel.Level) {actions : List (Action α)}
    (hOwn : ∀ action ∈ actions, action.isOwn = true) :
    ∃ answers last, panel.run actions = some (answers, last) ∧
      (last.Fits ↔ Agrees panel.calendar (panel.leadingLength actions)) := by
  induction actions generalizing panel with
  | nil =>
    refine ⟨[], panel, rfl, ?_⟩
    rw [h.fits_iff, leadingLength, firstAdded?, List.findSome?_nil, Option.map_none, Option.or_none]
  | cons action rest ih =>
    obtain ⟨hFirst, hRest⟩ := List.forall_mem_cons.mp hOwn
    obtain ⟨r, hStep, hLevel, hLeading⟩ := h.own_step hFirst
    obtain ⟨answers, last, hRun, hFits⟩ := ih hLevel hRest
    refine ⟨r.1 :: answers, last, ?_, hFits.trans (hLeading rest)⟩
    rw [run] at hRun ⊢
    rw [runBy, hStep, Option.bind_some, hRun]
    rfl

end Run

/-- The ways to make a panel. -/
inductive Origin where
  | empty
  | ofCalendar (calendar : Calendar) (size : Nat)

section Origin
variable [Hole α] (calendar : Calendar)

def Origin.make? : Origin → Series.Checked (Panel α)
  | empty => .ok .empty
  | ofCalendar calendar size => ofCalendar? calendar size

def blankSeries : Series α := Series.ofPoints default (calendar.map fun date => ⟨date, hole⟩)

/-- Members that hold nothing yet, with their positions for names. -/
def blankMembers (size : Nat) : List (Member α) :=
  (List.range size).map fun position => ⟨toString position, blankSeries calendar⟩

theorem ofSize?_length :
    Series.ofSize? calendar.length calendar = .ok (blankSeries (α := α) calendar) := by
  rw [Series.ofSize?, if_neg (Nat.lt_irrefl _), List.take_length, blankSeries]

theorem dates_blankSeries : (blankSeries (α := α) calendar).dates = calendar := by
  simp [blankSeries, Series.dates, Function.comp_def]

theorem counts_blankMembers (size : Nat) (known : Option Calendar) :
    counts ⟨blankMembers (α := α) calendar size, known⟩ =
      List.replicate size calendar.length := by
  simp [counts, blankMembers, ← Series.length_dates, dates_blankSeries, Function.comp_def,
    List.map_const']

/-- The number of a new member is no name yet. -/
theorem position?_blankMembers (size : Nat) (known : Option Calendar) :
    position? ⟨blankMembers (α := α) calendar size, known⟩ (toString size) = none := by
  rw [position?, List.findIdx?_eq_none_iff]
  intro m hm
  obtain ⟨position, hPosition, rfl⟩ := List.mem_map.mp hm
  have hNe : position ≠ size := Nat.ne_of_lt (List.mem_range.mp hPosition)
  simpa only [decide_eq_false_iff_not, Nat.toString_eq_repr, Nat.repr_inj] using hNe

/-- The next member joins; the first one brings the calendar. -/
theorem runOn_addBlank (size : Nat) :
    runOn ⟨blankMembers calendar size, if size = 0 then none else some calendar⟩ (do
      add (toString size) (← liftM (Series.ofSize? (α := α) calendar.length calendar))) =
        (.ok (), ⟨blankMembers calendar (size + 1), some calendar⟩) := by
  rw [ofSize?_length, runOn_lift]
  simp only
  rw [runOn_add_joined (position?_blankMembers calendar size _) fun n hn => ?_]
  · rw [joined, dates_blankSeries]
    simp only [blankMembers, List.range_succ, List.map_append, List.map_singleton]
    split <;> rfl
  · rw [counts_blankMembers] at hn
    rw [← Series.length_dates, dates_blankSeries]
    exact (List.eq_of_mem_replicate (List.mem_of_head? hn)).symm

theorem runOn_blankMembers (size : Nat) :
    runOn empty (forM (List.range size) fun position => do
      add (toString position) (← liftM (Series.ofSize? (α := α) calendar.length calendar))) =
        (.ok (), ⟨blankMembers calendar size, if size = 0 then none else some calendar⟩) := by
  induction size with
  | zero => rfl
  | succ size ih =>
    rw [List.range_succ, List.forM_append, runOn_bind, ih]
    simp only [List.forM_cons]
    rw [runOn_bind, runOn_addBlank]
    rfl

/-- A panel on a calendar always comes about. -/
theorem ofCalendar?_eq (size : Nat) :
    ofCalendar? calendar size = .ok ⟨blankMembers (α := α) calendar size, some calendar⟩ := by
  apply result_of_runOn
  rw [List.forM_eq_forM, runOn_bind, runOn_blankMembers]
  rfl

theorem level_blankMembers (size : Nat) (known : Option Calendar) :
    Level ⟨blankMembers (α := α) calendar size, known⟩ := by
  rw [Level, counts_blankMembers]
  intro m hm n hn
  rw [List.eq_of_mem_replicate hm, List.eq_of_mem_replicate hn]

end Origin

variable [Hole α]

/-- Whatever is added to a panel and set in it, with success or not, its calendar has as many dates as
every member has points, with one exception: the panel was made on a calendar without members, and
the first series that was added to it has another length. -/
theorem fits_after_run_iff (origin : Origin) {actions : List (Action α)}
    (hOwn : ∀ action ∈ actions, action.isOwn = true) :
    ∃ start answers panel, origin.make? = .ok start ∧ start.run actions = some (answers, panel) ∧
      (panel.Fits ↔ ∀ dates, origin = .ofCalendar dates 0 →
        ∀ s, firstAdded? actions = some s → s.count = dates.length) := by
  cases origin with
  | empty =>
    have hLevel : (empty : Panel α).Level := level_of_size_le_one empty (Nat.zero_le 1)
    obtain ⟨answers, panel, hRun, hFits⟩ := hLevel.own_run hOwn
    exact ⟨_, answers, panel, rfl, hRun, iff_of_true (hFits.mpr nofun) nofun⟩
  | ofCalendar calendar size =>
    obtain ⟨answers, panel, hRun, hFits⟩ :=
      (level_blankMembers calendar size (some calendar)).own_run hOwn
    refine ⟨_, answers, panel, ofCalendar?_eq calendar size, hRun, hFits.trans ?_⟩
    rw [leadingLength, counts_blankMembers]
    constructor
    · rintro hAgrees dates ⟨⟩ s hs
      exact hAgrees calendar rfl s.count (by rw [hs]; rfl)
    · rintro hFirst dates ⟨⟩ n hn
      cases size with
      | zero =>
        obtain ⟨s, hs, rfl⟩ := Option.map_eq_some_iff.mp hn
        exact hFirst calendar rfl s hs
      | succ size => exact (Option.some.inj hn).symm

/-- Two points are added to a panel that was made on one date without members. -/
theorem first_member_misfits :
    let s : Series Float := Series.ofPoints default [⟨⟨0, by decide, by decide⟩, 1⟩, ⟨.latest, 2⟩]
    ∃ start panel, (Origin.ofCalendar [.latest] 0).make? = .ok start ∧
      start.run [.add "first" s] = some ([.done], panel) ∧
      panel.calendar = some [.latest] ∧ panel.counts = [2] ∧ ¬panel.Fits := by
  intro s
  have hOwn : ∀ action ∈ [Action.add "first" s], action.isOwn = true := by decide
  obtain ⟨start, answers, panel, hMake, hRun, hFits⟩ :=
    fits_after_run_iff (.ofCalendar [.latest] 0) hOwn
  obtain rfl : ⟨[], some [.latest]⟩ = start := Except.ok.inj hMake
  obtain ⟨rfl, rfl⟩ : [.done] = answers ∧ ⟨[⟨"first", s⟩], some [.latest]⟩ = panel :=
    Prod.mk.inj (Option.some.inj hRun)
  refine ⟨_, _, hMake, hRun, rfl, rfl, fun h => ?_⟩
  have hCount : s.count = 1 := hFits.mp h [.latest] rfl s rfl
  cases hCount

end Almanac.Panel
