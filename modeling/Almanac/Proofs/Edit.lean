import Almanac.Outcome

/-! # Runs of edits

What each kind of edit answers and leaves behind. A failed check leaves the state as it is.
-/
namespace Almanac
set_option autoImplicit false

theorem holds_of_check {ε : Type} {p : Prop} [Decidable p] {reason : ε}
    (h : (if p then .ok () else refuse reason : Outcome ε Unit) = .ok ()) : p := by
  split at h
  · assumption
  · cases h

theorem exists_of_bind_ok {ε α β : Type} {x : Outcome ε α} {f : α → Outcome ε β} {y : β}
    (h : x >>= f = .ok y) : ∃ a, x = .ok a ∧ f a = .ok y := by
  cases x with
  | error failure => cases h
  | ok a => exact ⟨a, rfl, h⟩

section Answers
variable {ε α β : Type} {x : Outcome ε α}

theorem map_eq_ok_iff {f : α → β} {y : β} : x.map f = .ok y ↔ ∃ a, x = .ok a ∧ y = f a := by
  cases x with
  | error failure => exact iff_of_false (by rintro ⟨⟩) (by rintro ⟨_, ⟨⟩, -⟩)
  | ok a =>
    constructor
    · rintro ⟨⟩
      exact ⟨a, rfl, rfl⟩
    · rintro ⟨_, ⟨⟩, rfl⟩
      rfl

theorem map_answers_iff {f : α → β} : (∃ y, x.map f = .ok y) ↔ ∃ a, x = .ok a := by
  simp only [map_eq_ok_iff, exists_comm (α := β), exists_and_left, exists_eq, and_true]

theorem bind_answers_iff {f : α → Outcome ε β} :
    (∃ y, x >>= f = .ok y) ↔ ∃ a, x = .ok a ∧ ∃ y, f a = .ok y := by
  constructor
  · rintro ⟨y, hy⟩
    obtain ⟨a, ha, hNext⟩ := exists_of_bind_ok hy
    exact ⟨a, ha, y, hNext⟩
  · rintro ⟨a, rfl, hNext⟩
    exact hNext

/-- A guarded outcome is answered exactly under its condition. -/
theorem guard_answers_iff {p : Prop} [Decidable p] {failure : Failure ε} (hx : ∃ a, x = .ok a) :
    (∃ a, (if p then x else .error failure) = .ok a) ↔ p := by
  split
  · rename_i hp
    exact iff_of_true hx hp
  · rename_i hp
    exact iff_of_false (by rintro ⟨_, ⟨⟩⟩) hp

end Answers

namespace Edit
variable {ε σ α β : Type}

/-- What an edit answers, and the state after it. -/
def runOn (start : σ) (edit : Edit ε σ α) : Outcome ε α × σ := edit.run.run start

theorem runOn_current (s : σ) (next : σ → Edit ε σ β) :
    runOn s (Edit.current >>= next) = runOn s (next s) := rfl

theorem runOn_write (s : σ) (f : σ → σ) : runOn s (write f : Edit ε σ Unit) = (.ok (), f s) := rfl

theorem runOn_require (s : σ) (check : Outcome ε Unit) (next : Unit → Edit ε σ β) :
    runOn s (require check >>= next) = match check with
      | .ok () => runOn s (next ())
      | .error failure => (.error failure, s) := by
  cases check <;> rfl

theorem require_require (check check' : Outcome ε Unit) (next : Unit → Edit ε σ β) :
    (do require check; require check' >>= next) = require (do check; check') >>= next := by
  cases check <;> rfl

theorem runOn_lift (s : σ) (check : Outcome ε α) (next : α → Edit ε σ β) :
    runOn s (liftM check >>= next) = match check with
      | .ok x => runOn s (next x)
      | .error failure => (.error failure, s) := by
  cases check <;> rfl

theorem runOn_bind (s : σ) (first : Edit ε σ α) (next : α → Edit ε σ β) :
    runOn s (first >>= next) = match runOn s first with
      | (.ok x, t) => runOn t (next x)
      | (.error failure, t) => (.error failure, t) := by
  change ExceptT.bindCont next (runOn s first).1 (runOn s first).2 = _
  generalize runOn s first = r
  obtain ⟨x | x, t⟩ := r <;> rfl

theorem ok_of_runOn_require {s t : σ} {check : Outcome ε Unit} {next : Unit → Edit ε σ β} {x : β}
    (h : runOn s (require check >>= next) = (.ok x, t)) :
    check = .ok () ∧ runOn s (next ()) = (.ok x, t) := by
  rw [runOn_require] at h
  cases check with
  | ok _ => exact ⟨rfl, h⟩
  | error failure => cases h

/-- A write behind two checks happens when both pass. -/
theorem ok_of_checked_write {s t : σ} {check check' : σ → Outcome ε Unit} {f : σ → σ}
    (h : runOn s (do
      let s ← Edit.current
      Edit.require (check s)
      Edit.require (check' s)
      Edit.write f) = (.ok (), t)) : check s = .ok () ∧ check' s = .ok () ∧ f s = t := by
  rw [runOn_current] at h
  obtain ⟨hCheck, h⟩ := ok_of_runOn_require h
  obtain ⟨hCheck', h⟩ := ok_of_runOn_require h
  exact ⟨hCheck, hCheck', (Prod.mk.inj h).2⟩

theorem result_of_runOn {s t : σ} {edit : Edit ε σ Unit} (h : runOn s edit = (.ok (), t)) :
    Edit.result s edit = .ok t := by
  rw [runOn] at h
  rw [Edit.result, h]

/-- An edit that keeps a property of the state, whatever it answers. -/
def Keeps (P : σ → Prop) (edit : Edit ε σ α) : Prop := ∀ s, P s → P (runOn s edit).2

theorem Keeps.bind {P : σ → Prop} {first : Edit ε σ α} {next : α → Edit ε σ β}
    (h : Keeps P first) (hNext : ∀ x, Keeps P (next x)) : Keeps P (first >>= next) := by
  intro s hs
  have hFirst := h s hs
  rw [runOn_bind]
  generalize runOn s first = r at hFirst
  obtain ⟨x | x, t⟩ := r
  · exact hFirst
  · exact hNext x t hFirst

theorem Keeps.forM {ι : Type} {P : σ → Prop} {edit : ι → Edit ε σ PUnit}
    (h : ∀ i, Keeps P (edit i)) (is : List ι) : Keeps P (is.forM edit) := by
  induction is with
  | nil => exact fun _ hs => hs
  | cons i is ih => exact (h i).bind fun _ => ih

theorem Keeps.lift {P : σ → Prop} (check : Outcome ε α) :
    Keeps P (liftM check : Edit ε σ α) := fun _ hs => hs

theorem Keeps.require {P : σ → Prop} (check : Outcome ε Unit) :
    Keeps P (Edit.require check : Edit ε σ Unit) := fun _ hs => hs

theorem Keeps.current {P : σ → Prop} {next : σ → Edit ε σ β}
    (h : ∀ s, P s → P (runOn s (next s)).2) : Keeps P (Edit.current >>= next) := h

theorem Keeps.result {P : σ → Prop} {edit : Edit ε σ Unit} (h : Keeps P edit) {s t : σ} (hs : P s)
    (hResult : Edit.result s edit = .ok t) : P t := by
  have hLast := h s hs
  rw [runOn] at hLast
  rw [Edit.result] at hResult
  split at hResult
  · rename_i done hRun
    rw [hRun] at hLast
    exact Except.ok.inj hResult ▸ hLast
  · cases hResult

section Guarded
variable {s : σ}

/-- A refusal leaves the state as it was. -/
def GuardedAt (s : σ) (edit : Edit ε σ α) : Prop :=
  ∀ reason, (runOn s edit).1 = .error (.refused reason) → (runOn s edit).2 = s

theorem GuardedAt.current {next : σ → Edit ε σ α} (h : GuardedAt s (next s)) :
    GuardedAt s (Edit.current >>= next) := h

theorem GuardedAt.require {check : Outcome ε Unit} {next : Unit → Edit ε σ α}
    (h : GuardedAt s (next ())) : GuardedAt s (Edit.require check >>= next) := by
  rw [GuardedAt, runOn_require]
  cases check with
  | ok _ => exact h
  | error failure => exact fun _ _ => rfl

theorem GuardedAt.check (check : Outcome ε Unit) : GuardedAt s (Edit.require check) :=
  fun _ _ => rfl

theorem GuardedAt.write (f : σ → σ) : GuardedAt s (Edit.write f : Edit ε σ Unit) := by
  rintro reason ⟨⟩

/-- Several writes in a row are never refused. -/
theorem GuardedAt.write_write (f g : σ → σ) :
    GuardedAt s (Edit.write f >>= fun _ => Edit.write g : Edit ε σ Unit) := by
  rintro reason ⟨⟩

end Guarded

section Match
variable {τ : Type} {R : σ → τ → Prop} {s : σ} {t : τ}

def MatchAt (R : σ → τ → Prop) (s : σ) (t : τ) (edit : Edit ε σ α) (edit' : Edit ε τ α) : Prop :=
  (runOn s edit).1 = (runOn t edit').1 ∧ R (runOn s edit).2 (runOn t edit').2

/-- Edits that answer the same on related states, and leave related states. -/
def Match (R : σ → τ → Prop) (edit : Edit ε σ α) (edit' : Edit ε τ α) : Prop :=
  ∀ s t, R s t → MatchAt R s t edit edit'

theorem MatchAt.current_left {next : σ → Edit ε σ α} {edit' : Edit ε τ α}
    (h : MatchAt R s t (next s) edit') : MatchAt R s t (Edit.current >>= next) edit' := h

theorem MatchAt.current {next : σ → Edit ε σ α} {next' : τ → Edit ε τ α}
    (h : MatchAt R s t (next s) (next' t)) :
    MatchAt R s t (Edit.current >>= next) (Edit.current >>= next') := h

theorem MatchAt.write {f : σ → σ} {g : τ → τ} (h : R (f s) (g t)) :
    MatchAt R s t (write f : Edit ε σ Unit) (Edit.write g) := ⟨rfl, h⟩

theorem MatchAt.require {check : Outcome ε Unit} {next : Unit → Edit ε σ α}
    {next' : Unit → Edit ε τ α} (hState : R s t)
    (h : check = .ok () → MatchAt R s t (next ()) (next' ())) :
    MatchAt R s t (require check >>= next) (Edit.require check >>= next') := by
  rw [MatchAt, runOn_require, runOn_require]
  cases check with
  | ok _ => exact h rfl
  | error failure => exact ⟨rfl, hState⟩

theorem MatchAt.require_left {check : Outcome ε Unit} {next : Unit → Edit ε σ α}
    {edit' : Edit ε τ α} (hCheck : check = .ok ()) (h : MatchAt R s t (next ()) edit') :
    MatchAt R s t (Edit.require check >>= next) edit' := by
  rw [MatchAt, runOn_require, hCheck]
  exact h

theorem MatchAt.refl {R : σ → σ → Prop} (hRefl : ∀ s, R s s) (s : σ) (edit : Edit ε σ α) :
    MatchAt R s s edit edit := ⟨rfl, hRefl _⟩

/-- An edit may be put in place of one that it matches from every state. -/
theorem Match.of_same {R : σ → σ → Prop} (hTrans : ∀ s t u, R s t → R t u → R s u)
    {edit edit' edit'' : Edit ε σ α} (h : ∀ s, MatchAt R s s edit edit')
    (h' : Match R edit' edit'') : Match R edit edit'' := by
  intro s t hst
  obtain ⟨hAnswer, hState⟩ := h s
  obtain ⟨hAnswer', hState'⟩ := h' s t hst
  exact ⟨hAnswer.trans hAnswer', hTrans _ _ _ hState hState'⟩

theorem Match.bind {first : Edit ε σ α} {first' : Edit ε τ α} {next : α → Edit ε σ β}
    {next' : α → Edit ε τ β} (h : Match R first first') (hNext : ∀ x, Match R (next x) (next' x)) :
    Match R (first >>= next) (first' >>= next') := by
  intro s t hst
  obtain ⟨hAnswer, hState⟩ := h s t hst
  rw [MatchAt, runOn_bind, runOn_bind]
  generalize runOn s first = p, runOn t first' = q at hAnswer hState
  obtain ⟨answer, u⟩ := p
  obtain ⟨answer', v⟩ := q
  obtain rfl : answer = answer' := hAnswer
  cases answer with
  | ok x => exact hNext x u v hState
  | error failure => exact ⟨rfl, hState⟩

theorem Match.lift (check : Outcome ε α) :
    Match R (liftM check : Edit ε σ α) (liftM check : Edit ε τ α) := fun _ _ hst => ⟨rfl, hst⟩

theorem Match.forM {ι : Type} {edit : ι → Edit ε σ PUnit} {edit' : ι → Edit ε τ PUnit}
    (h : ∀ i, Match R (edit i) (edit' i)) (indices : List ι) :
    Match R (indices.forM edit) (indices.forM edit') := by
  induction indices with
  | nil => exact fun _ _ hst => ⟨rfl, hst⟩
  | cons i rest ih => exact (h i).bind fun _ => ih

theorem Match.result {edit : Edit ε σ Unit} {edit' : Edit ε τ Unit} (h : Match R edit edit')
    (hst : R s t) {v : τ} (hResult : Edit.result t edit' = .ok v) :
    ∃ u, Edit.result s edit = .ok u ∧ R u v := by
  obtain ⟨hAnswer, hState⟩ := h s t hst
  rw [Edit.result] at hResult ⊢
  rw [runOn, runOn] at hAnswer hState
  generalize edit.run.run s = p, edit'.run.run t = q at hAnswer hState hResult ⊢
  obtain ⟨answer, u⟩ := p
  obtain ⟨answer', w⟩ := q
  obtain rfl : answer = answer' := hAnswer
  cases answer with
  | ok x => exact ⟨u, rfl, Except.ok.inj hResult ▸ hState⟩
  | error failure => cases hResult

end Match

end Edit
end Almanac
