import Std.Data.HashMap.Lemmas
import Almanac.Proofs.Panel.Naming

/-! # Panels as parallel tables

A panel may keep its names, its series and a hashed index from names to positions apart, and write
each of them on its own. The index is one to one with the names then, throughout: it leads to no
place without a member, and the tables answer as the panel does.

Main statement: `names_address_members`.
-/
namespace Almanac
set_option autoImplicit false
open Edit Panel

structure Directory (α : Type) where
  names : List String
  series : List (Series α)
  positions : Std.HashMap String Nat
  calendar : Option Calendar

namespace Directory
variable {α : Type}

abbrev Change (α : Type) := Edit Series.Error (Directory α)

def empty : Directory α := ⟨[], [], ∅, none⟩

def checkName (d : Directory α) (name : String) : Series.Checked Unit :=
  if d.positions.contains name then refuse (.duplicateName name) else .ok ()

def checkLength (d : Directory α) (s : Series α) : Series.Checked Unit :=
  match d.series.head? with
  | some first =>
    if s.count = first.count then .ok () else refuse (.lengthMismatch first.count s.count)
  | none => .ok ()

/-- The four tables are written one after the other. -/
def add (name : String) (s : Series α) : Change α Unit := do
  let d ← Edit.current
  Edit.require (d.checkName name)
  Edit.require (d.checkLength s)
  Edit.write fun d => { d with calendar := d.calendar.orElse fun _ => some s.dates }
  Edit.write fun d => { d with positions := d.positions.insert name d.series.length }
  Edit.write fun d => { d with names := d.names ++ [name] }
  Edit.write fun d => { d with series := d.series ++ [s] }

def put (d : Directory α) (position : Nat) (s : Series α) : Directory α :=
  { d with series := d.series.set position s }

/-- The member of a name; a position without a member would be a fault. -/
def named? (d : Directory α) (name : String) : Series.Checked (Option (Series α)) :=
  match d.positions[name]? with
  | some position => do return some (← present d.series[position]?)
  | none => .ok none

def setValue (position time : Nat) (x : α) : Change α Unit := do
  let d ← Edit.current
  Edit.require (Series.checkIndex "index" position d.series.length)
  let s ← liftM (present d.series[position]? : Series.Checked (Series α))
  let s ← liftM (s.setValue time x)
  Edit.write (·.put position s)

def ofCalendar? [Hole α] (calendar : Calendar) (size : Nat) : Series.Checked (Directory α) :=
  Edit.result empty do
    (List.range size).forM fun position => do
      add (toString position) (← liftM (Series.ofSize? (α := α) calendar.length calendar))
    Edit.write fun d => { d with calendar := some calendar }

def answered : Series.Checked Unit × Directory α → Option (Answer × Directory α)
  | (.ok (), d) => some (.done, d)
  | (.error (.refused reason), d) => some (.refused reason, d)
  | (.error .fault, _) => none

def perform (d : Directory α) : Request α → Option (Answer × Directory α)
  | .add name s => answered (runOn d (add name s))
  | .setValue position time x => answered (runOn d (setValue position time x))
  | .change position f => some (handOut d d.series[position]? (d.put position) f)
  | .changeNamed name f =>
    match d.positions[name]? with
    | some position => some (handOut d d.series[position]? (d.put position) f)
    | none => some (.absent, d)

def performAll : Directory α → List (Request α) → Option (List Answer × Directory α) :=
  runBy perform

/-- The tables of a panel. -/
structure Represents (d : Directory α) (panel : Panel α) : Prop where
  names : d.names = panel.names
  series : d.series = panel.members.map Member.series
  positions : ∀ name, d.positions[name]? = panel.position? name
  calendar : d.calendar = panel.calendar

section Step
variable {d : Directory α} {panel : Panel α}

theorem Represents.member (h : d.Represents panel) (i : Nat) :
    d.series[i]? = panel.series? i := by
  rw [h.series, List.getElem?_map, series?]

theorem Represents.length (h : d.Represents panel) : d.series.length = panel.size := by
  rw [h.series, List.length_map, size]

theorem Represents.named? (h : d.Represents panel) (name : String) :
    d.named? name = .ok (panel.named? name) := by
  rw [Directory.named?, Panel.named?, h.positions]
  cases hFound : panel.position? name with
  | none => rfl
  | some position =>
    have hLt := (List.getElem?_eq_some_iff.mp (name_of_position? hFound)).1
    rw [length_names] at hLt
    obtain ⟨s, hMember⟩ := series?_of_lt hLt
    simp only [h.member, hMember, Option.bind_eq_bind, Option.bind_some]
    rfl

theorem Represents.put (h : d.Represents panel) (position : Nat) (s : Series α) :
    (d.put position s).Represents (panel.withSeries position s) where
  names := h.names.trans (names_withSeries panel position s).symm
  series := by
    apply List.ext_getElem?
    intro i
    rw [Directory.put, h.series, withSeries, List.getElem?_set, List.length_map, List.getElem?_map,
      List.getElem?_map, List.getElem?_modify]
    rcases Nat.lt_or_ge i panel.members.length with hi | hi
    · rw [List.getElem?_eq_getElem hi]
      split
      · subst i
        simp [hi]
      · simp [*]
    · rw [List.getElem?_eq_none hi]
      split
      · subst i
        simp [hi]
      · rfl
  positions name := by
    rw [position?_eq, names_withSeries, ← position?_eq]
    exact h.positions name
  calendar := h.calendar

theorem Represents.handOut (h : d.Represents panel) (position : Nat) (f : Series α → Series α) :
    Agree Represents (some (handOut d d.series[position]? (d.put position) f))
      (some (handOut panel (panel.series? position) (panel.withSeries position) f)) := by
  rw [h.member]
  cases panel.series? position with
  | some s => exact .some ⟨rfl, h.put position (f s)⟩
  | none => exact .some ⟨rfl, h⟩

theorem Represents.checkName (h : d.Represents panel) (name : String) :
    d.checkName name = panel.checkName name := by
  rw [Directory.checkName, Panel.checkName, Std.HashMap.contains_eq_isSome_getElem?, h.positions]

theorem Represents.checkLength (h : d.Represents panel) (s : Series α) :
    d.checkLength s = panel.checkLength s := by
  rw [Directory.checkLength, Panel.checkLength, h.series, List.head?_map]
  cases panel.members.head? <;> rfl

theorem Represents.joined (h : d.Represents panel) {name : String}
    (hFree : panel.position? name = none) (s : Series α) :
    Represents ⟨d.names ++ [name], d.series ++ [s], d.positions.insert name d.series.length,
      d.calendar.orElse fun _ => some s.dates⟩ (panel.joined name s) where
  names := by rw [names_joined, h.names]
  series := by rw [h.series, Panel.joined, List.map_append]; rfl
  positions other := by
    rw [Std.HashMap.getElem?_insert, h.positions, h.length, position?_eq (panel.joined name s),
      names_joined, List.findIdx?_append, ← position?_eq, length_names]
    split
    · rename_i hSame
      obtain rfl := eq_of_beq hSame
      rw [hFree]
      simp
    · rename_i hOther
      have hNe : name ≠ other := fun hSame => hOther (beq_iff_eq.mpr hSame)
      simp [hNe]
  calendar := by rw [h.calendar, Panel.joined]

theorem match_add (name : String) (s : Series α) :
    Match Represents (add name s) (Panel.add name s) := by
  intro d panel h
  refine .current ?_
  rw [h.checkName]
  refine .require h fun hName => ?_
  rw [h.checkLength]
  refine .require h fun _ => ?_
  have hFree : panel.position? name = none := by
    rw [Panel.checkName] at hName
    split at hName
    · cases hName
    · rename_i hNot
      simpa using hNot
  exact ⟨rfl, h.joined hFree s⟩

theorem match_setValue (position time : Nat) (x : α) :
    Match Represents (setValue position time x) (Panel.setValue position time x) := by
  intro d panel h
  refine .current ?_
  rw [h.length]
  refine .require h fun hPosition => ?_
  obtain ⟨s, hMember⟩ := series?_of_lt (holds_of_check hPosition)
  rw [h.member, hMember, MatchAt, runOn_lift]
  simp only [present, runOn_lift]
  cases s.setValue time x with
  | ok t => exact ⟨rfl, h.put position t⟩
  | error failure => exact ⟨rfl, h⟩

theorem agree_answered {edit : Change α Unit} {edit' : Panel.Change α Unit}
    (h : MatchAt Represents d panel edit edit') :
    Agree Represents (answered (runOn d edit)) (Panel.answered (runOn panel edit')) := by
  obtain ⟨hAnswer, hState⟩ := h
  generalize runOn d edit = p, runOn panel edit' = q at hAnswer hState
  obtain ⟨answer, d'⟩ := p
  obtain ⟨answer', panel'⟩ := q
  obtain rfl : answer = answer' := hAnswer
  match answer with
  | .ok () => exact .some ⟨rfl, hState⟩
  | .error (.refused reason) => exact .some ⟨rfl, hState⟩
  | .error .fault => exact .none

/-- The tables answer a request as the panel does, and go on representing it. -/
theorem Represents.perform (h : d.Represents panel) (request : Request α) :
    Agree Represents (d.perform request) (panel.perform request) := by
  cases request with
  | add name s => exact agree_answered (match_add name s d panel h)
  | setValue position time x => exact agree_answered (match_setValue position time x d panel h)
  | change position f => exact h.handOut position f
  | changeNamed name f =>
    rw [Directory.perform, Panel.perform, h.positions, Panel.named?]
    cases hFound : panel.position? name with
    | none => exact .some ⟨rfl, h⟩
    | some position =>
      have hStore : panel.withNamed name = panel.withSeries position := by
        funext s
        rw [withNamed, hFound]
      rw [hStore]
      exact h.handOut position f

theorem Represents.performAll (h : d.Represents panel) (requests : List (Request α)) :
    Agree Represents (d.performAll requests) (panel.performAll requests) :=
  agree_runBy (P := fun _ => True) (fun _ _ request hHere _ => hHere.perform request) h requests
    fun _ _ => trivial

end Step

section Made

theorem represents_empty : Represents (empty : Directory α) .empty where
  names := rfl
  series := rfl
  positions _ := Std.HashMap.getElem?_empty
  calendar := rfl

theorem Represents.dated {d : Directory α} {panel : Panel α} (h : d.Represents panel)
    (calendar : Calendar) : Represents { d with calendar := some calendar }
      { panel with calendar := some calendar } :=
  ⟨h.names, h.series, h.positions, rfl⟩

variable [Hole α]

def make? : Origin → Series.Checked (Directory α)
  | .empty => .ok .empty
  | .ofCalendar calendar size => ofCalendar? calendar size

theorem represents_made {origin : Origin} {panel : Panel α} (hMade : origin.make? = .ok panel) :
    ∃ d : Directory α, make? origin = .ok d ∧ d.Represents panel := by
  cases origin with
  | empty =>
    obtain rfl := Except.ok.inj hMade
    exact ⟨_, rfl, represents_empty⟩
  | ofCalendar calendar size =>
    have hMatch := (Match.forM (fun position => (Match.lift
      (Series.ofSize? (α := α) calendar.length calendar)).bind fun s =>
        match_add (toString position) s) (List.range size)).bind
      fun _ d panel (h : Represents d panel) => MatchAt.write (h.dated calendar)
    exact hMatch.result represents_empty hMade

end Made
end Directory

namespace Panel
variable {α : Type} [Hole α]

/-- From every panel that is made, whatever is asked of it and whether that succeeds or fails, names
and members stay one to one; and a panel that keeps its names, its series and an index of positions
in tables apart answers the same throughout, with tables that fit each other. -/
theorem names_address_members (origin : Origin) (requests : List (Request α)) :
    ∃ start answers last, origin.make? = .ok start ∧
      performAll start requests = some (answers, last) ∧
      start.names <+: last.names ∧ Faithful last ∧
      ∃ d e : Directory α, Directory.make? origin = .ok d ∧
        d.performAll requests = some (answers, e) ∧ e.Represents last ∧
        ∀ name, e.named? name = .ok (last.named? name) := by
  obtain ⟨start, hMade⟩ := exists_made (α := α) origin
  obtain ⟨answers, last, hRun, hNames, hDistinct⟩ := performAll_keeps start requests
  obtain ⟨d, hTables, hStart⟩ := Directory.represents_made hMade
  have hAgree := hStart.performAll requests
  rw [hRun] at hAgree
  obtain ⟨e, hTablesRun, hLast⟩ := hAgree.exists_left
  exact ⟨start, answers, last, hMade, hRun, hNames,
    faithful_of_distinct (hDistinct (distinct_of_made hMade)), d, e, hTables, hTablesRun, hLast,
    hLast.named?⟩

end Panel
end Almanac
