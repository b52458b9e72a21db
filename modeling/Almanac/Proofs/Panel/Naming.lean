import Almanac.Proofs.Panel.Fitting

/-! # Names of members

What is asked of a panel, where a member that is handed out may be changed in any way. No request
ends in a fault; names are only ever added, behind those that are there, and none is added twice. So
the name of a member leads to it as long as the panel lives.
-/
namespace Almanac.Panel
set_option autoImplicit false
open Edit

variable {α : Type}

/-- A request to a panel. A member is handed out by its position or by its name. -/
inductive Request (α : Type) where
  | add (name : String) (s : Series α)
  | setValue (position time : Nat) (x : α)
  | change (position : Nat) (f : Series α → Series α)
  | changeNamed (name : String) (f : Series α → Series α)

/-- What becomes of a member that is handed out, if there is one. -/
def handOut {σ : Type} (state : σ) (found : Option (Series α)) (store : Series α → σ)
    (f : Series α → Series α) : Answer × σ :=
  match found with
  | some s => (.done, store (f s))
  | none => (.absent, state)

def perform (panel : Panel α) : Request α → Option (Answer × Panel α)
  | .add name s => answered (runOn panel (add name s))
  | .setValue position time x => answered (runOn panel (setValue position time x))
  | .change position f =>
    some (handOut panel (panel.series? position) (panel.withSeries position) f)
  | .changeNamed name f => some (handOut panel (panel.named? name) (panel.withNamed name) f)

def performAll : Panel α → List (Request α) → Option (List Answer × Panel α) := runBy perform

section Names
variable {panel : Panel α} {name : String} {i : Nat}

theorem length_names (panel : Panel α) : panel.names.length = panel.size := List.length_map _

theorem getElem?_names : panel.names[i]? = panel.members[i]?.map Member.name := List.getElem?_map

theorem names_withSeries (panel : Panel α) (position : Nat) (s : Series α) :
    (panel.withSeries position s).names = panel.names := by
  apply List.ext_getElem?
  intro i
  rw [getElem?_names, getElem?_names, withSeries, List.getElem?_modify]
  cases panel.members[i]? with
  | none => rfl
  | some m =>
    simp only [Option.map_eq_map, Option.map_some]
    split <;> rfl

theorem names_joined (panel : Panel α) (name : String) (s : Series α) :
    (panel.joined name s).names = panel.names ++ [name] := List.map_append

theorem position?_eq (panel : Panel α) (name : String) :
    panel.position? name = panel.names.findIdx? fun other => other = name := by
  rw [names, List.findIdx?_map]
  rfl

theorem position?_eq_none_iff : panel.position? name = none ↔ name ∉ panel.names := by
  simp [position?, names]

theorem name_of_position? (h : panel.position? name = some i) : panel.names[i]? = some name := by
  obtain ⟨hLt, hName, -⟩ := List.findIdx?_eq_some_iff_getElem.mp h
  rw [getElem?_names, List.getElem?_eq_getElem hLt]
  exact congrArg some (of_decide_eq_true hName)

/-- Where no name is taken twice, a name is found where it stands. -/
theorem position?_of_name (hDistinct : panel.names.Nodup) (h : panel.names[i]? = some name) :
    panel.position? name = some i := by
  have hLt := (List.getElem?_eq_some_iff.mp h).1
  cases hFound : panel.position? name with
  | none => exact absurd (List.mem_of_getElem? h) (position?_eq_none_iff.mp hFound)
  | some j =>
    have hSame : panel.names[i]? = panel.names[j]? := h.trans (name_of_position? hFound).symm
    rw [(List.getElem?_inj hLt hDistinct).mp hSame]

theorem series?_of_lt (h : i < panel.size) : ∃ s, panel.series? i = some s :=
  ⟨_, congrArg (Option.map Member.series) (List.getElem?_eq_getElem h)⟩

end Names

section Adding
variable (panel : Panel α) (name : String) (s : Series α)

/-- What an addition does: the name is judged before the length. -/
structure Added : Prop where
  taken : name ∈ panel.names → runOn panel (add name s) = (refuse (.duplicateName name), panel)
  misfit : name ∉ panel.names → ∀ first, panel.series? 0 = some first → s.count ≠ first.count →
    runOn panel (add name s) = (refuse (.lengthMismatch first.count s.count), panel)
  joins : name ∉ panel.names → (∀ first, panel.series? 0 = some first → s.count = first.count) →
    runOn panel (add name s) = (.ok (), panel.joined name s)

theorem series?_zero : panel.series? 0 = panel.members.head?.map Member.series := by
  rw [series?, List.head?_eq_getElem?]

theorem added : Added panel name s where
  taken hTaken := by
    have hName : (panel.position? name).isSome := by
      rw [Option.isSome_iff_ne_none, ne_eq, position?_eq_none_iff]
      exact not_not_intro hTaken
    rw [add, runOn_current, runOn_require, checkName, if_pos hName]
    rfl
  misfit hFree first hFirst hCount := by
    rw [series?_zero] at hFirst
    obtain ⟨m, hMember, rfl⟩ := Option.map_eq_some_iff.mp hFirst
    rw [add, runOn_current, runOn_require, checkName, position?_eq_none_iff.mpr hFree,
      runOn_require, checkLength, hMember]
    simp only [if_neg hCount]
    rfl
  joins hFree hLength := by
    refine runOn_add_joined (position?_eq_none_iff.mpr hFree) fun n hn => ?_
    rw [head?_counts] at hn
    obtain ⟨m, hMember, rfl⟩ := Option.map_eq_some_iff.mp hn
    exact hLength m.series (by rw [series?_zero, hMember]; rfl)

/-- An addition succeeds, or it is refused and the panel is as before. -/
theorem add_cases :
    (name ∉ panel.names ∧ runOn panel (add name s) = (.ok (), panel.joined name s)) ∨
      ∃ reason, runOn panel (add name s) = (refuse reason, panel) := by
  have hAdded := added panel name s
  rcases Classical.em (name ∈ panel.names) with hTaken | hFree
  · exact .inr ⟨_, hAdded.taken hTaken⟩
  rcases Classical.em (∀ first, panel.series? 0 = some first → s.count = first.count)
    with hLength | hNot
  · exact .inl ⟨hFree, hAdded.joins hFree hLength⟩
  · obtain ⟨first, hFirst, hCount⟩ : ∃ first, panel.series? 0 = some first ∧
        s.count ≠ first.count := by simpa using hNot
    exact .inr ⟨_, hAdded.misfit hFree first hFirst hCount⟩

/-- A value is set in a member, or that is refused and the panel is as before. -/
theorem setValue_cases (position time : Nat) (x : α) :
    (∃ t, runOn panel (setValue position time x) = (.ok (), panel.withSeries position t)) ∨
      ∃ reason, runOn panel (setValue position time x) = (refuse reason, panel) := by
  rw [setValue, runOn_current, runOn_require, Series.checkIndex]
  rcases Nat.lt_or_ge position panel.size with hPosition | hPosition
  · obtain ⟨t, hMember⟩ := series?_of_lt hPosition
    simp only [if_pos hPosition, hMember, runOn_lift, Series.setValue, Series.checkIndex]
    rcases Nat.lt_or_ge time t.count with hTime | hTime
    · rw [if_pos hTime]
      exact .inl ⟨_, rfl⟩
    · rw [if_neg (Nat.not_lt_of_le hTime)]
      exact .inr ⟨_, rfl⟩
  · rw [if_neg (Nat.not_lt_of_le hPosition)]
    exact .inr ⟨_, rfl⟩

end Adding

section Step
variable {panel : Panel α}

/-- The position of the member that a request may change. -/
def Request.target? (panel : Panel α) : Request α → Option Nat
  | .add .. => none
  | .setValue position .. | .change position _ => some position
  | .changeNamed name _ => panel.position? name

/-- What a request leaves of a panel: its names where they are, and all members but the one that the
request is about. -/
structure Keeps (panel : Panel α) (request : Request α) (next : Panel α) : Prop where
  names : panel.names <+: next.names
  distinct : panel.names.Nodup → next.names.Nodup
  others : ∀ i < panel.size, request.target? panel ≠ some i → next.series? i = panel.series? i

theorem Keeps.refl (panel : Panel α) (request : Request α) : Keeps panel request panel :=
  ⟨List.prefix_rfl, id, fun _ _ _ => rfl⟩

theorem series?_withSeries_of_ne {position i : Nat} (h : position ≠ i) (s : Series α) :
    (panel.withSeries position s).series? i = panel.series? i := by
  rw [series?, withSeries, List.getElem?_modify, series?]
  simp only [if_neg h]
  cases panel.members[i]? <;> rfl

theorem keeps_withSeries {request : Request α} {position : Nat}
    (hTarget : request.target? panel = some position) (s : Series α) :
    Keeps panel request (panel.withSeries position s) where
  names := (names_withSeries panel position s).symm ▸ List.prefix_rfl
  distinct hDistinct := by rwa [names_withSeries]
  others i _ hOther :=
    series?_withSeries_of_ne (fun hSame => hOther (hTarget.trans (congrArg some hSame))) s

theorem keeps_joined {name : String} (hFree : name ∉ panel.names) (s : Series α) :
    Keeps panel (.add name s) (panel.joined name s) where
  names := by rw [names_joined]; exact List.prefix_append _ _
  distinct hDistinct := by
    rw [names_joined, ← List.concat_eq_append]
    exact hDistinct.concat hFree
  others i hi _ := by rw [series?, joined, List.getElem?_append_left hi, series?]

/-- Every request has an answer; a refusal leaves the panel as it was. -/
theorem perform_cases (panel : Panel α) (request : Request α) :
    (∃ reason, perform panel request = some (.refused reason, panel)) ∨
      ∃ answer next, perform panel request = some (answer, next) ∧
        (∀ reason, answer ≠ .refused reason) ∧ Keeps panel request next := by
  cases request with
  | add name s =>
    rcases add_cases panel name s with ⟨hFree, hRun⟩ | ⟨reason, hRun⟩
    · exact .inr ⟨.done, _, by rw [perform, hRun]; rfl, by simp, keeps_joined hFree s⟩
    · exact .inl ⟨reason, by rw [perform, hRun]; rfl⟩
  | setValue position time x =>
    rcases setValue_cases panel position time x with ⟨t, hRun⟩ | ⟨reason, hRun⟩
    · exact .inr ⟨.done, _, by rw [perform, hRun]; rfl, by simp, keeps_withSeries rfl t⟩
    · exact .inl ⟨reason, by rw [perform, hRun]; rfl⟩
  | change position f =>
    rw [perform]
    cases panel.series? position with
    | some s => exact .inr ⟨_, _, rfl, by simp, keeps_withSeries rfl (f s)⟩
    | none => exact .inr ⟨_, _, rfl, by simp, .refl ..⟩
  | changeNamed name f =>
    rw [perform]
    cases hFound : panel.named? name with
    | some s =>
      refine .inr ⟨_, _, rfl, by simp, ?_⟩
      obtain ⟨position, hPosition, -⟩ := Option.bind_eq_some_iff.mp hFound
      have hTarget : Request.target? panel (.changeNamed name f) = some position := hPosition
      simp only [withNamed, hPosition]
      exact keeps_withSeries hTarget (f s)
    | none => exact .inr ⟨_, _, rfl, by simp, .refl ..⟩

theorem perform_keeps (panel : Panel α) (request : Request α) :
    ∃ answer next, perform panel request = some (answer, next) ∧ Keeps panel request next := by
  rcases perform_cases panel request with ⟨reason, hRun⟩ | ⟨answer, next, hRun, -, hKeeps⟩
  · exact ⟨_, _, hRun, .refl ..⟩
  · exact ⟨answer, next, hRun, hKeeps⟩

/-- A list of requests is answered to its end. Names that are there stay where they are. -/
theorem performAll_keeps (panel : Panel α) (requests : List (Request α)) :
    ∃ answers last, performAll panel requests = some (answers, last) ∧
      panel.names <+: last.names ∧ (panel.names.Nodup → last.names.Nodup) := by
  induction requests generalizing panel with
  | nil => exact ⟨[], panel, rfl, List.prefix_rfl, id⟩
  | cons request rest ih =>
    obtain ⟨answer, next, hStep, hKeeps⟩ := perform_keeps panel request
    obtain ⟨answers, last, hRun, hNames, hDistinct⟩ := ih next
    refine ⟨answer :: answers, last, ?_, hKeeps.names.trans hNames, hDistinct ∘ hKeeps.distinct⟩
    rw [performAll] at hRun ⊢
    rw [runBy, hStep, Option.bind_some, hRun]
    rfl

end Step

section Made
variable [Hole α]

theorem names_blankMembers (calendar : Calendar) (size : Nat) (known : Option Calendar) :
    names ⟨blankMembers (α := α) calendar size, known⟩ = (List.range size).map toString := by
  simp [names, blankMembers, Function.comp_def]

theorem distinct_of_made {origin : Origin} {panel : Panel α} (h : origin.make? = .ok panel) :
    panel.names.Nodup := by
  cases origin with
  | empty =>
    obtain rfl := Except.ok.inj h
    exact List.nodup_nil
  | ofCalendar calendar size =>
    obtain rfl := Except.ok.inj ((ofCalendar?_eq calendar size).symm.trans h)
    rw [names_blankMembers]
    refine List.Nodup.map (fun i j hSame => ?_) List.nodup_range
    simpa only [Nat.toString_eq_repr, Nat.repr_inj] using hSame

theorem exists_made (origin : Origin) : ∃ panel : Panel α, origin.make? = .ok panel := by
  cases origin with
  | empty => exact ⟨_, rfl⟩
  | ofCalendar calendar size => exact ⟨_, ofCalendar?_eq calendar size⟩

end Made

/-- Names and members are one to one, and stay so. -/
structure Faithful (panel : Panel α) : Prop where
  distinct : panel.names.Nodup
  counted : panel.names.length = panel.size
  found : ∀ i name, panel.names[i]? = some name →
    ∃ s, panel.series? i = some s ∧ panel.named? name = some s
  unknown : ∀ name, name ∉ panel.names → panel.named? name = none
  added : ∀ name s, Added panel name s
  refused : ∀ request reason next,
    perform panel request = some (.refused reason, next) → next = panel
  kept : ∀ request, ∃ answer next,
    perform panel request = some (answer, next) ∧ Keeps panel request next
  forever : ∀ requests, ∃ answers last,
    performAll panel requests = some (answers, last) ∧ panel.names <+: last.names

theorem faithful_of_distinct {panel : Panel α} (hDistinct : panel.names.Nodup) :
    Faithful panel where
  distinct := hDistinct
  counted := length_names panel
  found i name hName := by
    have hLt := (List.getElem?_eq_some_iff.mp hName).1
    rw [length_names] at hLt
    obtain ⟨s, hMember⟩ := series?_of_lt hLt
    exact ⟨s, hMember, Option.bind_eq_some_iff.mpr ⟨i, position?_of_name hDistinct hName, hMember⟩⟩
  unknown name hFree :=
    Option.bind_eq_none_iff.mpr fun i hi => by
      rw [position?_eq_none_iff.mpr hFree] at hi
      cases hi
  added := Panel.added panel
  refused request reason next hRun := by
    rcases perform_cases panel request with ⟨_, hRefused⟩ | ⟨answer, _, hDone, hOther, -⟩
    · exact (Prod.mk.inj (Option.some.inj (hRun.symm.trans hRefused))).2
    · exact absurd (Prod.mk.inj (Option.some.inj (hDone.symm.trans hRun))).1 (hOther reason)
  kept := perform_keeps panel
  forever requests := by
    obtain ⟨answers, last, hRun, hNames, -⟩ := performAll_keeps panel requests
    exact ⟨answers, last, hRun, hNames⟩

end Almanac.Panel
